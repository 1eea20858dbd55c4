import Edict.Proofs.Grammar.Gaps
import Edict.Proofs.Grammar.Nesting

/-!
# Programs with more line breaks

A line break ends a statement with all the bodies that are open there, but for the places where the
grammar allows line breaks: the free gaps of a statement (`Gap.free`), those next to the separators
of the statements of a program, and both ends of the program.  `Widened ts us` says that `us` is
`ts` with line breaks in such places, as many of them as one likes; `readProgram_widened` says that
it is read as the same tree.

The rules of statements are ambiguous, so it is not enough to derive the same statement again:
`Unbroken` says of a reader that it gives the same with the line breaks, if what it leaves begins as
it did (`BeginsLike`), or with a line break.  A semicolon that ends a body belongs to that body; in
front of it no gap is free.

## Main definitions

* `Widened`, `Spaced`: a program, or the separators between two statements, with more line breaks.
* `BeginsLike`: two rests begin with the same token, but for line breaks.
* `Unbroken`: a reader gives the same with line breaks in the free gaps.

## Main statements

* `unbrokenBelow`: the readers of statements and bodies are unbroken, by induction on the number of
  tokens.
* `Widened.self`: every list that is read as a program is a widening of itself.
* `readProgram_widened`: any number of line breaks, in any of these places at once.
-/

namespace Edict

open Grammar Derives

/-! ## What may follow -/

/-- The second list begins like the first one, or with a line break, and behind line breaks both
begin alike. -/
structure BeginsLike (ts us : List Token) : Prop where
  peek : (Token.peek us).kind = (Token.peek ts).kind ∨ (Token.peek us).kind = .newline
  skip : (Token.peek (Token.skipNewlines us)).kind = (Token.peek (Token.skipNewlines ts)).kind

namespace BeginsLike

variable {g : Gap} {t : Token} {ts us nl used rest rest' : List Token} {k : TokenKind}

/-- A list begins like itself. -/
theorem refl (ts : List Token) : BeginsLike ts ts := ⟨.inl rfl, rfl⟩

/-- Line breaks may be put in front. -/
theorem newlines (hnl : Newlines nl) (h : BeginsLike ts us) : BeginsLike ts (nl ++ us) := by
  obtain rfl | ⟨u, more, rfl, hmore⟩ := hnl.eq_nil_or_cons
  · exact h
  · refine ⟨.inr rfl, ?_⟩
    rw [skipNewlines_append hnl]
    exact h.skip

/-- The same token may be put in front. -/
theorem cons (t : Token) (h : BeginsLike ts us) : BeginsLike (t :: ts) (t :: us) := by
  refine ⟨.inl rfl, ?_⟩
  by_cases ht : t.kind.isNewline = true
  · have hnl : Newlines [t] := by simpa [Newlines] using ht
    have hskip := h.skip
    rwa [← skipNewlines_append hnl us, ← skipNewlines_append hnl ts] at hskip
  · rw [Bool.not_eq_true] at ht
    rw [skipNewlines_cons ht, skipNewlines_cons ht]
    rfl

/-- So may tokens, with line breaks in free gaps. -/
theorem of_spread (h : Spread g used us) (hrest : BeginsLike rest rest') :
    BeginsLike (used ++ rest) (us ++ rest') := by
  induction h with
  | nil => exact hrest
  | cons hnl _ _ ih =>
      rw [List.append_assoc]
      exact (ih.cons _).newlines hnl

/-- A token that is no line break stands in front only if it did. -/
theorem peek_ne (h : BeginsLike ts us) (hk : k ≠ .newline) (hts : (Token.peek ts).kind ≠ k) :
    (Token.peek us).kind ≠ k := by
  rintro rfl
  exact h.peek.elim (fun heq => hts heq.symm) hk

/-- Bodies that end in front of the first list end in front of the second one. -/
theorem endsBody (h : BeginsLike ts us) (hts : (Token.peek ts).kind.endsBody = true) :
    (Token.peek us).kind.endsBody = true := by
  obtain heq | heq := h.peek
  · rwa [heq]
  · rw [heq]
    rfl

/-- So do statements. -/
theorem endsStatement (h : BeginsLike ts us) (hts : (Token.peek ts).kind.endsStatement = true) :
    (Token.peek us).kind.endsStatement = true := by
  obtain heq | heq := h.peek
  · rwa [heq]
  · rw [heq]
    rfl

end BeginsLike

/-! ## Simple statements and headers -/

/-- A body may begin behind the gap, with line breaks in front of it. -/
def Gap.BeforeBody (g : Gap) : Prop := g.opened = [] ∧ (g.mode = .loose ∨ g.mode = .source)

namespace Gap.BeforeBody

variable {g : Gap} {t : Token} {ts us : List Token}

/-- What a statement begins with tells the same wherever it stands. -/
theorem after_eq (hg : g.BeforeBody) (hstart : startsStatement (t :: ts) = true) :
    g.after t.kind = (⟨[], .plain⟩ : Gap).after t.kind := by
  obtain ⟨o, m⟩ := g
  obtain ⟨rfl, hm⟩ := hg
  unfold startsStatement at hstart
  rw [peek_cons] at hstart
  split at hstart
  · rename_i hk
    rw [hk]
    rfl
  · rename_i hk
    rw [hk]
    rfl
  · rename_i hk
    rw [hk]
    rcases hm with rfl | rfl
    · rfl
    · rfl
  · cases hstart

/-- So does the statement. -/
theorem afterAll_eq (hg : g.BeforeBody) (hstart : startsStatement ts = true) :
    g.afterAll ts = (⟨[], .plain⟩ : Gap).afterAll ts := by
  rcases ts with _ | ⟨t, ts⟩
  · cases hstart
  · rw [afterAll_cons, afterAll_cons, hg.after_eq hstart]

/-- Line breaks in front of it may be taken for the gap. -/
theorem spread (hg : g.BeforeBody) (hstart : startsStatement ts = true) (h : Spread g ts us) :
    ∃ nl vs, us = nl ++ vs ∧ Newlines nl ∧ Spread ⟨[], .plain⟩ ts vs := by
  rcases ts with _ | ⟨t, ts⟩
  · cases hstart
  · obtain ⟨nl, vs, rfl, hnl, -, hrest⟩ := h.uncons
    rw [hg.after_eq hstart] at hrest
    exact ⟨nl, t :: vs, rfl, hnl, hrest.same⟩

end Gap.BeforeBody

namespace Derives

variable {ts nl used rest : List Token} {s : Stmt} {f : OpenBody} {b : List Stmt}

/-- In a simple statement, line breaks are free where they are in its expressions. -/
theorem Simple.carried (h : Simple ts s) : Carried Simple (Gap.Behind [] false) ⟨[], .plain⟩ ts s := by
  cases h with
  | @assign ps us t r op e hr hop he =>
      have hvalue : ∀ g : Gap, g.Behind [] false →
          Carried (fun us e => ∃ vs, us = t :: vs ∧ Boolean vs e) (Gap.Behind [] false) g (t :: us)
            e :=
        fun g hg => .inert (TokenKind.isInert_of_assignOp? hop) hg (carried_boolean he)
          fun vs hvs => ⟨vs, rfl, hvs⟩
      refine (hr.carried (carriedBelow _) (Nat.le_refl _)).append hvalue ?_
      rintro us _ hus ⟨vs, rfl, hvs⟩
      exact .assign hus hop hvs
  | call hc => exact (hc.carried (carriedBelow _) (Nat.le_refl _)).map (fun g hg => hg) fun _ => .call

/-- An item of an array. -/
theorem ArrayItem.carried {o : List Bracket} {item : Literal} (h : ArrayItem ts item) :
    Carried ArrayItem (Gap.Behind o false) ⟨o, .plain⟩ ts item := by
  cases h with
  | mk hitem =>
      have ht := TokenKind.isInert_of_item? hitem
      refine .one (Gap.free_of_isInert ht) ?_ (.mk hitem)
      rw [Gap.after_of_isInert _ ht]
      exact .plain

/-- Line breaks behind what is carried are carried with it. -/
theorem carried_breaks {α : Type} {D : List Token → α → Prop} {P : Gap → Prop} {g : Gap} {a : α}
    (h : Carried D P g ts a) (hnl : Newlines nl) : Carried (Cat D Breaks) P g (ts ++ nl) (a, ()) := by
  refine h.append (E := Breaks) (b := ()) (fun g hg => ⟨?_, fun us hus => hus.newlines hnl⟩) ?_
  · rwa [Gap.afterAll_newlines hnl]
  · intro us vs hus hvs
    exact ⟨us, vs, hus, hvs, rfl⟩

/-- Behind a header line breaks are free. -/
theorem Header.carried (h : Header ts f) : Carried Header Gap.BeforeBody ⟨[], .plain⟩ ts f := by
  cases h with
  | @thenBody s t cs nl c hc hnl =>
      have hthen : ∀ g : Gap, g.Behind [] false →
          Carried (One ⟨.keyword .thenKw, t⟩) Gap.BeforeBody g [⟨.keyword .thenKw, t⟩] () :=
        fun g hg => .one ((hg.free_eq _).trans rfl) ⟨hg.opened_eq, .inl rfl⟩ rfl
      have htest := (carried_boolean (o := []) hc).append hthen
        (F := Cat Boolean (One ⟨.keyword .thenKw, t⟩)) (c := (c, ()))
        fun us vs hus hvs => ⟨us, vs, hus, hvs, rfl⟩
      have hbreaks := carried_breaks htest hnl
      rw [List.append_assoc] at hbreaks
      refine .inert rfl .plain hbreaks ?_
      rintro _ ⟨_, nl, ⟨cs, _, hcs, rfl, rfl⟩, hnl, rfl⟩
      rw [List.append_assoc]
      exact .thenBody hcs hnl
  | @count s t u cs nl c hc hnl =>
      have hclosed := (carried_boolean (o := [.rounds]) hc).closed .rparen u rfl rfl
      have hbreaks := carried_breaks hclosed hnl
      rw [List.append_assoc] at hbreaks
      have hopen : Carried (fun us c => Header (⟨.keyword .forKw, s⟩ :: us) (.count c))
          Gap.BeforeBody ⟨[], .loop⟩
          (⟨.symbol .lparen, t⟩ :: (cs ++ ⟨.symbol .rparen, u⟩ :: nl)) c := by
        refine .cons rfl (hbreaks.map (fun g hg => hg ▸ ⟨rfl, .inl rfl⟩) fun us hus => hus) ?_
        rintro _ ⟨_, nl, ⟨cs, u, hcs, rfl⟩, hnl, rfl⟩
        rw [List.append_assoc]
        exact .count hcs hnl
      exact hopen.cons rfl fun us hus => hus
  | @eachItem s t u v is nl items hitems hnl =>
      have hclosed := hitems.carried_closed (o := []) (fun _ _ => ArrayItem.head)
        (fun us a o _ ha => ha.carried) .array .rbracket v (Nat.le_refl _) rfl
      have hbreaks := carried_breaks hclosed hnl
      rw [List.append_assoc] at hbreaks
      have hopen : Carried
          (fun us items => Header (⟨.keyword .forKw, s⟩ :: ⟨.keyword .eachKw, t⟩ :: us)
            (.each (.literals items)))
          Gap.BeforeBody ⟨[], .each⟩
          (⟨.symbol .lbracket, u⟩ :: (is ++ ⟨.symbol .rbracket, v⟩ :: nl)) items := by
        refine .cons rfl (hbreaks.map (fun g hg => hg ▸ ⟨rfl, .inl rfl⟩) fun us hus => hus) ?_
        rintro _ ⟨_, nl, ⟨is, v, his, rfl⟩, hnl, rfl⟩
        rw [List.append_assoc]
        exact .eachItem his hnl
      exact .cons rfl (.cons rfl hopen fun us hus => hus) fun us hus => hus
  | @eachOf s t ps nl r hr hnl =>
      have hplace : Carried Place (Gap.Behind [] true) ⟨[], .each⟩ ps r :=
        hr.carried (carriedBelow _) (Nat.le_refl _)
      have hheader : Carried (fun us r => Header (⟨.keyword .forKw, s⟩ :: ⟨.keyword .eachKw, t⟩ :: us)
          (.each (.reference r))) Gap.BeforeBody ⟨[], .each⟩ (ps ++ nl) r := by
        refine (carried_breaks hplace hnl).map ?_ ?_
        · rintro _ ⟨⟩
          exact ⟨rfl, .inr rfl⟩
        · rintro _ ⟨ps, nl, hps, hnl, rfl⟩
          exact .eachOf hps hnl
      exact .cons rfl (.cons rfl hheader fun us hus => hus) fun us hus => hus

/-- A header is not empty. -/
theorem Header.length_pos (h : Header ts f) : 0 < ts.length := by
  cases h <;> exact Nat.succ_pos _

/-- Line breaks behind a header may be taken for those that it ends with. -/
theorem Header.append (h : Header ts f) (hnl : Newlines nl) : Header (ts ++ nl) f := by
  cases h with
  | thenBody hc hnl' => simpa using Header.thenBody hc (hnl'.append hnl)
  | count hc hnl' => simpa using Header.count hc (hnl'.append hnl)
  | eachItem hitems hnl' => simpa using Header.eachItem hitems (hnl'.append hnl)
  | eachOf hr hnl' => simpa using Header.eachOf hr (hnl'.append hnl)

/-- A statement is simple or has a header in front of a body. -/
theorem Statement.simple_or_header (h : Statement used s) :
    Simple used s ∨ ∃ hs f us, Header hs f ∧ used = hs ++ us ∧ startsStatement us = true := by
  have hheader : ∀ {hs us : List Token} {f : OpenBody} {b : List Stmt} (vs : List Token),
      Header hs f → Body us b → used = hs ++ (us ++ vs) →
        ∃ hs' f us', Header hs' f ∧ used = hs' ++ us' ∧ startsStatement us' = true := by
    intro hs us f b vs hhs hus hused
    obtain ⟨nl, ts, rfl, hnl, hstart⟩ := hus.exists_start vs
    exact ⟨hs ++ nl, f, ts ++ vs, hhs.append hnl, by simpa using hused, hstart⟩
  cases h with
  | @branch s t _ _ _ _ hc hb =>
      exact .inr (hheader [] (.thenBody (s := s) (t := t) hc .nil) hb (by simp))
  | @branchElse s t u _ _ nl us _ _ _ hc hb _ _ =>
      exact .inr (hheader (nl ++ ⟨.keyword .elseKw, u⟩ :: us)
        (.thenBody (s := s) (t := t) hc .nil) hb (by simp))
  | @count s t u _ _ _ _ hc hb =>
      exact .inr (hheader [] (.count (s := s) (t := t) (u := u) hc .nil) hb (by simp))
  | @eachItem s t u v _ _ _ _ hitems hb =>
      exact .inr (hheader [] (.eachItem (s := s) (t := t) (u := u) (v := v) hitems .nil) hb (by simp))
  | @eachOf s t _ _ _ _ hr hb =>
      exact .inr (hheader [] (.eachOf (s := s) (t := t) hr .nil) hb (by simp))
  | assign hr hop he => exact .inl (.assign hr hop he)
  | call hc => exact .inl (.call hc)

end Derives

/-! ## Readers -/

/-- The reader gives the same with line breaks in free gaps of the tokens that it uses, and behind
them in front of what it leaves. -/
structure Unbroken {α : Type} {bound : List Token → Nat}
    (read : (ts : List Token) → Outcome α (bound ts)) (g : Gap) (used rest : List Token) (a : α) :
    Prop where
  behind : (g.afterAll used).Behind [] false
  gives : ∀ us rest', Spread g used us → BeginsLike rest rest' → Gives (read (us ++ rest')) a rest'

section readers

variable {g : Gap} {n : Nat} {used ts mid rest : List Token} {s : Stmt} {b more : List Stmt}
  {f : OpenBody}

/-- Behind a header a body is read, up to where it ends. -/
theorem Derives.Header.reads {hs : List Token} (h : Header hs f) (hb : Gives (readBody ts) b mid)
    (hends : f.Ends b mid s rest) : Gives (readStatement (hs ++ ts)) s rest := by
  obtain ⟨nl, used, rfl, hnl, hstart⟩ := hb.exists_start
  rw [← List.append_assoc, (h.append hnl).reads_iff hstart]
  exact ⟨b, mid, (readBody_newlines hnl).mp hb, hends⟩

/-- A body that ends with nothing read behind it ends in front of whatever begins alike. -/
theorem OpenBody.Ends.of_beginsLike (h : f.Ends b rest s rest) (hrest : BeginsLike rest ts) :
    f.Ends b ts s ts := by
  cases f with
  | thenBody c =>
      obtain ⟨t, us, d, helse, hd, -⟩ | ⟨hno, hs, -⟩ := h
      · have hskip := Token.length_skipNewlines_le rest
        have hlt := hd.length_lt
        rw [helse, List.length_cons] at hskip
        omega
      · exact .inr ⟨by rwa [hrest.skip], hs, rfl⟩
  | elseBody | count | each => exact ⟨h.1, rfl⟩

/-- Where a body ends, either nothing more is read or an `else` with a body. -/
theorem OpenBody.Ends.eq_or_else (h : f.Ends b mid s rest) :
    mid = rest ∧ f.Ends b rest s rest ∨
      ∃ c nl t us d, f = .thenBody c ∧ Newlines nl ∧ mid = nl ++ ⟨.keyword .elseKw, t⟩ :: us ∧
        Gives (readBody us) d rest ∧ s = .branch c b (some d) := by
  cases f with
  | thenBody c =>
      obtain ⟨t, us, d, helse, hd, rfl⟩ | ⟨hno, rfl, rfl⟩ := h
      · obtain ⟨nl, hnl, hmid⟩ := exists_newlines mid
        exact .inr ⟨c, nl, t, us, d, rfl, hnl, by rw [hmid, helse], hd, rfl⟩
      · exact .inl ⟨rfl, .inr ⟨hno, rfl, rfl⟩⟩
  | elseBody | count | each =>
      obtain ⟨hs, rfl⟩ := h
      exact .inl ⟨rfl, hs, rfl⟩

/-! ## Line breaks change nothing -/

namespace Unbroken

variable {vs ws nl : List Token} {t : Span}

/-- Nothing is read behind a statement of a body without a semicolon. -/
theorem no_further (hg : g.Behind [] false) (hrest : (Token.peek rest).kind ≠ .symbol .semicolon) :
    Unbroken readFurther g [] rest [] := by
  refine ⟨hg, fun us rest' hus hrest' => ?_⟩
  rw [hus.eq_nil]
  exact (readFurther_of_other (hrest'.peek_ne nofun hrest)).mpr ⟨rfl, rfl⟩

/-- A semicolon stands directly behind a statement. -/
theorem semicolon (hg : g.Behind [] false) (hrest : (Token.peek rest).kind.endsBody = true) :
    Unbroken readFurther g [⟨.symbol .semicolon, t⟩] rest [] := by
  have hsemi : Carried (One ⟨.symbol .semicolon, t⟩) (Gap.Behind [] false) g
      [⟨.symbol .semicolon, t⟩] () := by
    refine .one ((hg.free_eq _).trans rfl) ?_ rfl
    rw [Gap.after_of_isInert _ rfl, hg.opened_eq]
    exact .plain
  refine ⟨hsemi.behind, fun us rest' hus hrest' => ?_⟩
  obtain rfl : us = _ := hsemi.derives us hus
  have hstart := startsStatement_of_endsBody (hrest'.endsBody hrest)
  exact (readFurther_of_semicolon hstart).mpr ⟨rfl, rfl⟩

/-- A statement may follow it, and what stands behind that one. -/
theorem further (hg : g.Behind [] false) (hs : Unbroken readStatement ⟨[], .plain⟩ vs (ws ++ rest) s)
    (hmore : Unbroken readFurther ((⟨[], .plain⟩ : Gap).afterAll vs) ws rest more) :
    Unbroken readFurther g (⟨.symbol .semicolon, t⟩ :: (vs ++ ws)) rest (s :: more) := by
  have hafter : g.after (.symbol .semicolon) = ⟨[], .plain⟩ := by
    rw [Gap.after_of_isInert _ rfl, hg.opened_eq]
  refine ⟨?_, fun us rest' hus hrest' => ?_⟩
  · rw [Gap.afterAll_cons, hafter, Gap.afterAll_append]
    exact hmore.behind
  · obtain ⟨us, rfl, hbehind⟩ := hus.tight ((hg.free_eq _).trans rfl)
    rw [hafter] at hbehind
    obtain ⟨vs', ws', rfl, hvs, hws⟩ := hbehind.of_append
    have hread := hs.gives vs' (ws' ++ rest') hvs (.of_spread hws hrest')
    rw [List.cons_append, List.append_assoc]
    exact (readFurther_of_start hread.starts).mpr
      ⟨s, _, more, hread, hmore.gives ws' rest' hws hrest', rfl⟩

/-- Line breaks are free in front of a body. -/
theorem body (hg : g.BeforeBody) (hnl : Newlines nl) (hstart : startsStatement vs = true)
    (hs : Unbroken readStatement ⟨[], .plain⟩ vs (ws ++ rest) s)
    (hmore : Unbroken readFurther ((⟨[], .plain⟩ : Gap).afterAll vs) ws rest more) :
    Unbroken readBody g (nl ++ (vs ++ ws)) rest (s :: more) := by
  refine ⟨?_, fun us rest' hus hrest' => ?_⟩
  · rw [Gap.afterAll_append, Gap.afterAll_newlines hnl, Gap.afterAll_append, hg.afterAll_eq hstart]
    exact hmore.behind
  · obtain ⟨nl', us, rfl, hnl', hbehind⟩ := hus.of_append
    rw [Gap.afterAll_newlines hnl] at hbehind
    obtain ⟨us, ws', rfl, hus, hws⟩ := hbehind.of_append
    rw [hg.afterAll_eq hstart] at hws
    obtain ⟨nl'', vs', rfl, hnl'', hvs⟩ := hg.spread hstart hus
    have hread := hs.gives vs' (ws' ++ rest') hvs (.of_spread hws hrest')
    rw [List.append_assoc, List.append_assoc, List.append_assoc,
      readBody_newlines (hnl'.newlines hnl), readBody_newlines hnl'',
      readBody_of_start hread.starts]
    exact ⟨s, _, more, hread, hmore.gives ws' rest' hws hrest', rfl⟩

end Unbroken

/-- Statements of fewer than `n` tokens are the same with line breaks in free gaps. -/
def UnbrokenBelow (n : Nat) : Prop :=
  ∀ used rest s, used.length < n → Gives (readStatement (used ++ rest)) s rest →
    (Token.peek rest).kind.endsBody = true → Unbroken readStatement ⟨[], .plain⟩ used rest s

/-- So is what stands behind a statement of a body. -/
theorem unbroken_further (hin : UnbrokenBelow n) (hlen : used.length ≤ n)
    (h : Gives (readFurther (used ++ rest)) more rest)
    (hrest : (Token.peek rest).kind.endsBody = true) (hg : g.Behind [] false) :
    Unbroken readFurther g used rest more := by
  induction hcount : used.length using Nat.strongRecOn generalizing used more g with
  | _ m ih =>
    subst hcount
    rcases used with _ | ⟨⟨k, t⟩, used⟩
    · have hpeek := h.ne_semicolon_of_further
      obtain ⟨rfl, -⟩ := (readFurther_of_other hpeek).mp h
      exact .no_further hg hpeek
    · obtain rfl : k = .symbol .semicolon := h.semicolon_of_further
      by_cases hstart : startsStatement (used ++ rest) = true
      · obtain ⟨s, mid, more, hs, hmore, rfl⟩ := (readFurther_of_start hstart).mp h
        obtain ⟨vs, ws, rfl, rfl, -⟩ := hs.exists_split hmore
        rw [List.length_cons, List.length_append] at hlen
        rw [List.append_assoc] at hs
        have hfirst := hin vs (ws ++ rest) s (by omega) hs (hmore.endsBody hrest)
        have hshort : ws.length < (⟨.symbol .semicolon, t⟩ :: (vs ++ ws) : List Token).length := by
          rw [List.length_cons, List.length_append]
          omega
        have hfurther := ih ws.length hshort (by omega) hmore hfirst.behind rfl
        exact .further hg hfirst hfurther
      · rw [Bool.not_eq_true] at hstart
        obtain ⟨rfl, hused⟩ := (readFurther_of_semicolon hstart).mp h
        obtain rfl : used = [] := List.append_left_eq_self.mp hused.symm
        exact .semicolon hg hrest

/-- So is a body. -/
theorem unbroken_body (hin : UnbrokenBelow n) (hlen : used.length < n)
    (h : Gives (readBody (used ++ rest)) b rest) (hrest : (Token.peek rest).kind.endsBody = true)
    (hg : g.BeforeBody) : Unbroken readBody g used rest b := by
  obtain ⟨nl, vs, hts, hnl, hstart⟩ := h.exists_start
  obtain rfl : used = nl ++ vs := by
    rw [← List.append_assoc] at hts
    exact List.append_cancel_right hts
  rw [List.append_assoc, readBody_newlines hnl, readBody_of_start hstart] at h
  obtain ⟨s, mid, more, hs, hmore, rfl⟩ := h
  obtain ⟨us, ws, rfl, rfl, hus⟩ := hs.exists_split hmore
  rw [List.length_append, List.length_append] at hlen
  rw [List.append_assoc] at hs
  have hfirst := hin us (ws ++ rest) s (by omega) hs (hmore.endsBody hrest)
  obtain ⟨-, -, -, hstarts⟩ := hus.head []
  rw [List.append_nil] at hstarts
  exact .body hg hnl hstarts hfirst (unbroken_further hin (by omega) hmore hrest hfirst.behind)

/-- A simple statement ends in front of what ends bodies. -/
theorem unbroken_simple (hs : Simple used s) (hrest : (Token.peek rest).kind.endsBody = true) :
    Unbroken readStatement ⟨[], .plain⟩ used rest s := by
  obtain ⟨hbehind, hderives⟩ := hs.carried
  refine ⟨hbehind, fun us rest' hus hrest' => (hderives us hus).reads ?_⟩
  exact Nat.lt_of_le_of_lt (Nat.le_of_eq (tightness_of_endsBody (hrest'.endsBody hrest)))
    Nat.zero_lt_one

/-- A statement with a header is the header with its body, if no `else` follows that. -/
theorem unbroken_header {hs : List Token} (hhs : Header hs f)
    (hbody : ∀ g : Gap, g.BeforeBody → Unbroken readBody g used rest b)
    (hends : f.Ends b rest s rest) :
    Unbroken readStatement ⟨[], .plain⟩ (hs ++ used) rest s := by
  obtain ⟨hbefore, hderives⟩ := hhs.carried
  have hread := hbody _ hbefore
  refine ⟨?_, fun us rest' hus hrest' => ?_⟩
  · rw [Gap.afterAll_append]
    exact hread.behind
  · obtain ⟨hs', us, rfl, hhs', hus⟩ := hus.of_append
    rw [List.append_assoc]
    exact (hderives hs' hhs').reads (hread.gives us rest' hus hrest') (hends.of_beginsLike hrest')

/-- Line breaks are free around `else`. -/
theorem unbroken_else {hs nl vs : List Token} {t : Span} {c : Expr} {d : List Stmt}
    (hhs : Header hs (.thenBody c)) (hnl : Newlines nl)
    (hbody : ∀ g : Gap, g.BeforeBody →
      Unbroken readBody g used (nl ++ ⟨.keyword .elseKw, t⟩ :: (vs ++ rest)) b)
    (helse : ∀ g : Gap, g.BeforeBody → Unbroken readBody g vs rest d) :
    Unbroken readStatement ⟨[], .plain⟩ (hs ++ (used ++ (nl ++ ⟨.keyword .elseKw, t⟩ :: vs))) rest
      (.branch c b (some d)) := by
  obtain ⟨hbefore, hderives⟩ := hhs.carried
  have hread := hbody _ hbefore
  have hafter : (((⟨[], .plain⟩ : Gap).afterAll hs).afterAll used).after (.keyword .elseKw) =
      ⟨[], .loose⟩ := by
    rw [Gap.after_else, hread.behind.opened_eq]
  have hread' := helse ⟨[], .loose⟩ ⟨rfl, .inl rfl⟩
  refine ⟨?_, fun us rest' hus hrest' => ?_⟩
  · rw [Gap.afterAll_append, Gap.afterAll_append, Gap.afterAll_append, Gap.afterAll_newlines hnl,
      Gap.afterAll_cons, hafter]
    exact hread'.behind
  · obtain ⟨hs', us, rfl, hhs', hus⟩ := hus.of_append
    obtain ⟨us, ws, rfl, hus, hws⟩ := hus.of_append
    have hlike := BeginsLike.of_spread hws hrest'
    rw [List.append_assoc, List.cons_append] at hlike
    have hgives := hread.gives us (ws ++ rest') hus hlike
    obtain ⟨nl₁, ws, rfl, hnl₁, hws⟩ := hws.of_append
    rw [Gap.afterAll_newlines hnl] at hws
    obtain ⟨nl₂, vs', rfl, hnl₂, -, hvs⟩ := hws.uncons
    rw [hafter] at hvs
    rw [List.append_assoc, List.append_assoc]
    refine (hderives hs' hhs').reads hgives (.inl ⟨t, vs' ++ rest', d, ?_, ?_, rfl⟩)
    · rw [List.append_assoc, List.append_assoc, skipNewlines_append (hnl₁.newlines hnl),
        skipNewlines_append hnl₂, List.cons_append, skipNewlines_cons rfl]
    · exact hread'.gives vs' rest' hvs hrest'

/-- Statements of any number of tokens are the same. -/
theorem unbrokenBelow (n : Nat) : UnbrokenBelow n := by
  induction n with
  | zero => nofun
  | succ n ih =>
      intro used rest s hlen h hrest
      obtain ⟨used', hused, heq⟩ := h.exists_statement
      obtain rfl : used = used' := List.append_cancel_right heq
      obtain hs | ⟨hs, f, us, hhs, rfl, hstart⟩ := hused.simple_or_header
      · exact unbroken_simple hs hrest
      · rw [List.append_assoc, hhs.reads_iff (startsStatement_append hstart rest)] at h
        obtain ⟨b, mid, hb, hends⟩ := h
        have hpos := hhs.length_pos
        rw [List.length_append] at hlen
        obtain ⟨rfl, hends⟩ | ⟨c, nl, t, vs, d, rfl, hnl, rfl, hd, rfl⟩ := hends.eq_or_else
        · exact unbroken_header hhs (fun g hg => unbroken_body ih (by omega) hb hrest hg) hends
        · obtain ⟨vs, -, rfl⟩ := hd.exists_body
          obtain ⟨us', -, hus⟩ := hb.exists_body
          obtain rfl : us = us' ++ (nl ++ ⟨.keyword .elseKw, t⟩ :: vs) :=
            List.append_cancel_right (hus.trans (by simp))
          rw [hus] at hb
          simp only [List.length_append, List.length_cons] at hlen
          exact unbroken_else hhs hnl
            (fun g hg => unbroken_body ih (by omega) hb (hnl.separators.endsBody rfl) hg)
            fun g hg => unbroken_body ih (by omega) hd hrest hg

end readers

/-! ## Programs -/

/-- The same separators, with line breaks next to them. -/
inductive Spaced : List Token → List Token → Prop
  | nil {nl : List Token} : Newlines nl → Spaced [] nl
  | cons {t : Token} {nl seps seps' : List Token} : Newlines nl → Spaced seps seps' →
      Spaced (t :: seps) (nl ++ t :: seps')

/-- The same program with line breaks next to the separators of its statements, at both ends, and in
free gaps of the statements.  What each statement takes of the tokens is told by reading it. -/
inductive Widened : List Token → List Token → Prop
  | finish {seps seps' rest : List Token} : Separators seps → Spaced seps seps' →
      (Token.peek rest).kind = .eof → Widened (seps ++ rest) (seps' ++ rest)
  | statement {seps seps' used used' rest rest' : List Token} {s : Stmt} :
      Separators seps → Spaced seps seps' → Gives (readStatement (used ++ rest)) s rest →
      Spread ⟨[], .plain⟩ used used' → Widened rest rest' →
      Widened (seps ++ (used ++ rest)) (seps' ++ (used' ++ rest'))

section programs

variable {seps seps' ts us : List Token} {p : Program}

/-- Separators need no line breaks next to them. -/
theorem Spaced.self (seps : List Token) : Spaced seps seps := by
  induction seps with
  | nil => exact .nil .nil
  | cons t seps ih => exact .cons .nil ih

/-- Separators with line breaks next to them are separators. -/
theorem Spaced.separators (h : Spaced seps seps') (hseps : Separators seps) : Separators seps' := by
  induction h with
  | nil hnl => exact hnl.separators
  | cons hnl _ ih =>
      obtain ⟨ht, hmore⟩ := List.forall_mem_cons.mp hseps
      exact List.forall_mem_append.mpr
        ⟨hnl.separators, List.forall_mem_cons.mpr ⟨ht, ih hmore⟩⟩

/-- What begins alike does so behind them. -/
theorem BeginsLike.of_spaced (h : Spaced seps seps') (hts : BeginsLike ts us) :
    BeginsLike (seps ++ ts) (seps' ++ us) := by
  induction h with
  | nil hnl => exact hts.newlines hnl
  | cons hnl _ ih =>
      rw [List.append_assoc]
      exact (ih.cons _).newlines hnl

/-- A program with more line breaks begins alike. -/
theorem Widened.beginsLike (h : Widened ts us) : BeginsLike ts us := by
  induction h with
  | finish _ hspaced _ => exact .of_spaced hspaced (.refl _)
  | statement _ hspaced _ hspread _ ih => exact .of_spaced hspaced (.of_spread hspread ih)

/-- Separators and a statement may be left as they are in front of a program that is. -/
theorem Widened.cons {rest : List Token} {s : Stmt} (hseps : Separators seps)
    (hs : Gives (readStatement ts) s rest) (hrest : Widened rest rest) :
    Widened (seps ++ ts) (seps ++ ts) := by
  obtain ⟨used, -, rfl⟩ := hs.exists_statement
  exact .statement hseps (.self seps) hs (.self _ used) hrest

/-- A program may be left as it is. -/
theorem Widened.self (h : readProgram ts = .ok p) : Widened ts ts := by
  fun_induction readProgram ts generalizing p with
  | case1 ts hr =>
      obtain ⟨seps, hseps, hts⟩ := exists_separators ts
      rw [hts]
      exact .finish hseps (.self seps) (by rw [hr]; rfl)
  | case2 ts s rest hr =>
      obtain ⟨seps, hseps, hts⟩ := exists_separators ts
      rw [hts]
      exact .finish hseps (.self seps) (by rw [hr]; rfl)
  | case3 ts t rest _ hr _ ih =>
      obtain ⟨seps, hseps, hts⟩ := exists_separators ts
      rw [hr] at hts
      obtain ⟨s, hs, h⟩ := ok_of_bind h
      obtain ⟨⟨⟩, -, h⟩ := ok_of_bind h
      obtain ⟨more, hmore, -⟩ := ok_of_bind h
      rw [hts]
      exact .cons hseps (gives_of_eq_ok hs) (ih s hmore)

/-- Line breaks are free where the grammar says so: any number of them in any of the free gaps of
the statements of a program, next to the separators of the statements and at both ends leave the
tree as it is. -/
theorem readProgram_widened (h : readProgram ts = .ok p) :
    Widened ts ts ∧ ∀ us, Widened ts us → readProgram us = .ok p := by
  refine ⟨.self h, fun us hus => ?_⟩
  induction hus generalizing p with
  | @finish seps seps' rest hseps hspaced hrest =>
      have hfinish : ∀ {seps}, Separators seps → readProgram (seps ++ rest) = .ok [] := by
        intro seps hseps
        refine readProgram_of_eof ?_
        rw [skipSeparators_append hseps, skipSeparators_of_eof hrest]
        exact hrest
      rw [hfinish hseps] at h
      rw [hfinish (hspaced.separators hseps)]
      exact h
  | @statement seps seps' used used' rest rest' s hseps hspaced hs hspread hrest ih =>
      rw [readProgram_congr (skipSeparators_append hseps _), readProgram_eq hs.starts hs] at h
      obtain ⟨⟨⟩, hend, h⟩ := ok_of_bind h
      obtain ⟨more, hmore, h⟩ := ok_of_bind h
      have hlike := hrest.beginsLike
      have hends := endsStatement_of_statementEnd hend
      have hread := (unbrokenBelow _ used rest s (Nat.lt_succ_self _) hs
        (endsBody_of_endsStatement hends)).gives used' rest' hspread hlike
      rw [readProgram_congr (skipSeparators_append (hspaced.separators hseps) _),
        readProgram_of_reads hread.starts hread (hlike.endsStatement hends), ih hmore]
      exact h

end programs

/-- Line breaks behind `then` and `else`, in front of `else`, around the arguments of a call, next
to the line break between two statements and at both ends. -/
theorem readProgram_widened_branch :
    let s : Span := ⟨0, 1⟩
    let nl : Token := ⟨.newline, s⟩
    let lparen : Token := ⟨.symbol .lparen, s⟩
    let rparen : Token := ⟨.symbol .rparen, s⟩
    let name (x : String) : Token := ⟨.ident x, s⟩
    readProgram [nl, ⟨.keyword .ifKw, s⟩, name "a", ⟨.keyword .thenKw, s⟩, nl, name "f", lparen, nl,
        name "b", nl, ⟨.symbol .comma, s⟩, nl, name "c", nl, rparen, nl, ⟨.keyword .elseKw, s⟩, nl,
        name "g", lparen, rparen, nl, nl, name "h", lparen, nl, rparen, nl, ⟨.eof, s⟩] =
      .ok [.branch (.ident "a") [.call "f" [.ident "b", .ident "c"]] (some [.call "g" []]),
        .call "h" []] := by
  intro s nl lparen rparen name
  have hbranch : Spread ⟨[], .plain⟩
      [⟨.keyword .ifKw, s⟩, name "a", ⟨.keyword .thenKw, s⟩, name "f", lparen, name "b",
        ⟨.symbol .comma, s⟩, name "c", rparen, ⟨.keyword .elseKw, s⟩, name "g", lparen, rparen]
      [⟨.keyword .ifKw, s⟩, name "a", ⟨.keyword .thenKw, s⟩, nl, name "f", lparen, nl,
        name "b", nl, ⟨.symbol .comma, s⟩, nl, name "c", nl, rparen, nl, ⟨.keyword .elseKw, s⟩, nl,
        name "g", lparen, rparen] :=
    .same <| .same <| .same <| .newline rfl <| .same <| .same <| .newline rfl <| .same <|
      .newline rfl <| .same <| .newline rfl <| .same <| .newline rfl <| .same <| .newline rfl <|
      .same <| .newline rfl <| .same <| .same <| .same .nil
  have hcall : Spread ⟨[], .plain⟩ [name "h", lparen, rparen] [name "h", lparen, nl, rparen] :=
    .same <| .same <| .newline rfl <| .same .nil
  have hbreak : Newlines [nl] := by simp [Newlines, nl, TokenKind.isNewline]
  have hend : Widened [⟨.eof, s⟩] [nl, ⟨.eof, s⟩] := .finish .nil (.nil hbreak) rfl
  have hlast : Widened [nl, name "h", lparen, rparen, ⟨.eof, s⟩]
      [nl, nl, name "h", lparen, nl, rparen, nl, ⟨.eof, s⟩] :=
    .statement hbreak.separators (.cons hbreak (.nil .nil)) (s := .call "h" [])
      ⟨by decide, by with_unfolding_all rfl⟩ hcall hend
  exact (readProgram_widened (by with_unfolding_all rfl)).2 _
    (.statement .nil (.nil hbreak) ⟨by decide, by with_unfolding_all rfl⟩ hbranch hlast)

end Edict
