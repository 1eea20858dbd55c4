import Edict.Proofs.Token.Stopping

/-!
# Cutting a text between two tokens

The scan remembers nothing: where a token ends, it may as well begin anew.  So a text can be cut
there, and both parts be scanned on their own (`Token.scan_restarts`).  The first part has the
tokens in front of the cut, because no longest word was decided by what stands behind it
(`Takes.scans`), and the second part has the tokens behind the cut, at places that are counted from
there (`Scans.anywhere`).

## Main definitions

* `Token.back`: a token so many bytes earlier.

## Main statements

* `Takes.cut`: the words up to any token are taken without those behind it.
* `Token.scan_restarts`: for every text that is cut into tokens and every place where one of them
  ends, the end of the text included.
-/

namespace Edict

open Rule

/-! ## Cutting behind a token -/

/-- Words that are taken off a text can be taken off it in two turns, the first one up to the end of
any of the words. -/
theorem Takes.cut {here : Nat} {text rest : List Char} {ts us vs : List Token} {t : Token}
    (h : Takes here text rest ts) (hts : ts = us ++ t :: vs) :
    ∃ v w, text = v ++ w ∧ Takes here v (w ++ rest) (us ++ [t]) ∧
      Takes (here + utf8Length v) w rest vs ∧ t.span.stop = min (here + utf8Length v) Span.limit := by
  induction h generalizing us with
  | stop => simp at hts
  | @blank here c text rest ts hblank _ ih =>
      obtain ⟨v, w, rfl, hfront, hback, hstop⟩ := ih hts
      rw [Nat.add_assoc, ← utf8Length_cons] at hback hstop
      exact ⟨c :: v, w, rfl, .blank hblank hfront, hback, hstop⟩
  | @word here l k x text rest ts hlongest hpoint hk hmore ih =>
      rcases us with _ | ⟨u, us⟩
      · -- the cut is right behind this word
        obtain ⟨rfl, rfl⟩ := List.cons_eq_cons.mp hts
        have hword : Takes here (x ++ []) (text ++ rest) _ := .word hlongest hpoint hk .stop
        rw [List.append_nil] at hword
        exact ⟨x, text, rfl, hword, hmore, rfl⟩
      · obtain ⟨rfl, rfl⟩ := List.cons_eq_cons.mp hts
        obtain ⟨v, w, rfl, hfront, hback, hstop⟩ := ih rfl
        rw [Nat.add_assoc, ← utf8Length_append] at hback hstop
        rw [List.append_assoc] at hlongest hpoint
        exact ⟨x ++ v, w, (List.append_assoc ..).symm, .word hlongest hpoint hk hfront, hback, hstop⟩
  | @point here l k x text rest ts hlongest hpoint hk hmore ih =>
      rcases us with _ | ⟨u, us⟩
      · obtain ⟨rfl, rfl⟩ := List.cons_eq_cons.mp hts
        have hend : here + utf8Length x + 1 = here + utf8Length (x ++ ['.']) :=
          (offset_point here x []).symm
        refine ⟨x ++ ['.'], text, by simp, .point hlongest hpoint hk .stop, ?_, ?_⟩
        · rwa [← hend]
        · rw [← hend]
          rfl
      · obtain ⟨rfl, rfl⟩ := List.cons_eq_cons.mp hts
        obtain ⟨v, w, rfl, hfront, hback, hstop⟩ := ih rfl
        rw [← offset_point] at hback hstop
        rw [List.append_assoc] at hlongest hpoint
        exact ⟨x ++ '.' :: v, w, by simp, .point hlongest hpoint hk hfront, hback, hstop⟩

/-! ## Beginning anew -/

/-- A text that is cut into tokens in one place is so in every place. -/
theorem Scans.anywhere {here : Nat} {cs : List Char} {r : Except ScanError (List Token)}
    (h : Scans here cs r) {ts : List Token} (hr : r = .ok ts) (there : Nat) :
    ∃ us, Scans there cs (.ok us) := by
  induction h generalizing ts there with
  | finish => exact ⟨_, .finish⟩
  | blank hblank _ ih =>
      obtain ⟨us, hus⟩ := ih hr (there + _)
      exact ⟨us, .blank hblank hus⟩
  | word hlongest hpoint hk _ ih =>
      obtain ⟨more, rfl, rfl⟩ := exists_of_map_cons hr
      obtain ⟨us, hus⟩ := ih rfl (there + _)
      exact ⟨_, .word hlongest hpoint hk hus⟩
  | point hlongest hpoint hk _ ih =>
      obtain ⟨more, rfl, rfl⟩ := exists_of_map_cons hr
      obtain ⟨us, hus⟩ := ih rfl (there + _ + 1)
      exact ⟨_, .point hlongest hpoint hk hus⟩
  | openText => cases hr
  | malformedNumber => cases hr
  | unexpectedChar => cases hr

/-- Of well placed tokens, those up to one of them end where it does or before, and the others begin
there or behind. -/
theorem WellPlaced.around {source : String} {us vs : List Token} {t : Token}
    (h : WellPlaced source (us ++ t :: vs)) :
    (∀ u ∈ us ++ [t], u.span.stop ≤ t.span.stop) ∧ ∀ v ∈ vs, t.span.stop ≤ v.span.start := by
  have hinside := (h.inside t (List.mem_append_right us List.mem_cons_self)).1
  obtain ⟨-, hfrom, hupTo⟩ := List.pairwise_append.mp h.ordered
  refine ⟨List.forall_mem_append.mpr ⟨fun u hu => ?_, List.forall_mem_singleton.mpr (Nat.le_refl _)⟩,
    fun v hv => ((List.pairwise_cons.mp hfrom).1 v hv).2⟩
  exact Nat.le_trans (hupTo u hu t List.mem_cons_self).2 hinside

namespace Token

/-- The same token, its place counted from byte `k` on. -/
def back (k : Nat) (t : Token) : Token := ⟨t.kind, ⟨t.span.start - k, t.span.stop - k⟩⟩

/-- What stands behind some text has the same tokens on its own, at places counted from there. -/
theorem scan_of_scans {text : String} {k : Nat} {ts : List Token}
    (h : Scans k text.toList (.ok ts)) (hlimit : text.utf8ByteSize + k ≤ Span.limit) :
    scan text = .ok (ts.map (·.back k)) := by
  obtain ⟨us, hus⟩ := h.anywhere rfl 0
  have hscan : scan text = .ok us := hus.scanFrom_eq
  have hshift : Scans k text.toList (.ok (us.map (·.shift k))) := by
    simpa using hus.shift k rfl
  obtain rfl : ts = us.map (·.shift k) :=
    Except.ok.inj (h.scanFrom_eq.symm.trans hshift.scanFrom_eq)
  have hback : ∀ u ∈ us, ((·.back k) ∘ (·.shift k)) u = u := by
    intro u hu
    have hspan := span_shift_of_scan hscan hu hlimit
    simp [back, shift, hspan]
  rw [List.map_map, hscan, List.map_congr_left hback, List.map_id']

/-- The scan may restart wherever a token ends.  Cut there, the first part of the text has the
tokens up to there and the end of the input behind them, and the second part has the remaining
tokens, at places counted from the cut. -/
theorem scan_restarts {source : String} {ts : List Token} (h : scan source = .ok ts)
    (hsize : source.utf8ByteSize ≤ Span.limit) {t : Token} (ht : t ∈ ts) :
    ∃ front back before after, source = front ++ back ∧ front.utf8ByteSize = t.span.stop ∧
      ts = before ++ after ∧
      (∀ u ∈ before, u.kind ≠ .eof ∧ u.span.stop ≤ t.span.stop) ∧
      (∀ u ∈ after, t.span.stop ≤ u.span.start) ∧
      scan front = .ok (before ++ [⟨.eof, ⟨t.span.stop, t.span.stop⟩⟩]) ∧
      scan back = .ok (after.map (·.back t.span.stop)) := by
  have hplaced := scan_wellPlaced h hsize
  obtain ⟨init, rfl, hwords⟩ := hplaced.eof
  have hend : ∀ n, n ≤ source.utf8ByteSize → Span.ofRange n n = ⟨n, n⟩ :=
    fun n hn => Span.ofRange_of_le (Nat.le_trans hn hsize) (Nat.le_trans hn hsize)
  rcases List.mem_append.mp ht with hword | heof
  · -- behind a word
    obtain ⟨us, vs, rfl⟩ := List.append_of_mem hword
    obtain ⟨words, htakes, hok⟩ | ⟨_, _, _, _, _, _, _, herror, _⟩ := (scanFrom_eq_iff.mp h).takes
    · obtain ⟨hsame, -⟩ := List.append_inj' (Except.ok.inj hok) rfl
      obtain ⟨v, w, htext, hfront, hback, hstop⟩ := htakes.cut hsame.symm
      rw [List.append_assoc, List.cons_append] at hplaced
      obtain ⟨hupTo, hfrom⟩ := hplaced.around
      have hlength : source.utf8ByteSize = utf8Length v + utf8Length w := by
        rw [utf8ByteSize_eq, htext, utf8Length_append]
      rw [Nat.zero_add] at hback hstop
      rw [Nat.min_eq_left (by omega)] at hstop
      refine ⟨.ofList v, .ofList w, us ++ [t], vs ++ [_], ?_, ?_, by simp, fun u hu => ?_, hfrom, ?_, ?_⟩
      · rw [← String.ofList_append, ← htext, String.ofList_toList]
      · rw [utf8ByteSize_eq, String.toList_ofList, hstop]
      · refine ⟨(hwords u ?_).1, hupTo u hu⟩
        exact (List.append_sublist_append_left us).mpr (by simp) |>.subset hu
      · have hscan := hfront.scans.scanFrom_eq
        rw [Nat.zero_add, hend _ (by omega), ← hstop] at hscan
        rwa [scan, String.toList_ofList]
      · have hscans := hback.scans
        rw [hend _ (by omega), ← hlength, ← hstop] at hscans
        refine scan_of_scans (by rwa [String.toList_ofList]) ?_
        rw [utf8ByteSize_eq, String.toList_ofList]
        omega
    · cases herror
  · -- behind the end of the input there is nothing
    obtain rfl := List.mem_singleton.mp heof
    have hempty : scan "" = .ok [⟨.eof, ⟨0, 0⟩⟩] := by decide +kernel
    have hupTo := (List.forall_mem_append.mp hplaced.around.1).1
    refine ⟨source, "", init, [_], by simp, rfl, rfl, fun u hu => ⟨(hwords u hu).1, hupTo u hu⟩, ?_, h,
      ?_⟩
    · exact List.forall_mem_singleton.mpr (Nat.le_refl _)
    · simp [hempty, back]

/-- Behind an integer with its point, in front of a negative number: `é` takes two bytes, and the
line break is one token of two characters. -/
theorem scan_restarts_point :
    let ts : List Token := [⟨.text "é", ⟨0, 4⟩⟩, ⟨.number (.ofWritten false 1), ⟨4, 6⟩⟩,
      ⟨.number (.ofWritten true (-2)), ⟨6, 8⟩⟩, ⟨.newline, ⟨8, 10⟩⟩, ⟨.eof, ⟨10, 10⟩⟩]
    scan "'é'1.-2\r\n" = .ok ts ∧
      ∃ front back before after, "'é'1.-2\r\n" = front ++ back ∧ front.utf8ByteSize = 6 ∧
        ts = before ++ after ∧ (∀ u ∈ before, u.kind ≠ .eof ∧ u.span.stop ≤ 6) ∧
        (∀ u ∈ after, 6 ≤ u.span.start) ∧ scan front = .ok (before ++ [⟨.eof, ⟨6, 6⟩⟩]) ∧
        scan back = .ok (after.map (·.back 6)) := by
  intro ts
  have hscan : scan "'é'1.-2\r\n" = .ok ts := by decide +kernel
  have htoken : (⟨.number (.ofWritten false 1), ⟨4, 6⟩⟩ : Token) ∈ ts :=
    List.mem_cons_of_mem _ List.mem_cons_self
  exact ⟨hscan, scan_restarts hscan (by decide) htoken⟩

end Token

end Edict
