import Edict.Proofs.Grammar.Arithmetic
import Edict.Proofs.Grammar.Redisplay

/-!
# Numbers that are subtracted

The scan makes one token of a minus and the digits right behind it, also behind an operand.  There
the grammar takes the negative number for its magnitude subtracted, so that the reader goes on from
it as it does from a minus and a number (`readArith_negative_iff`), and a difference reads the same
however its minus is spaced (`ofSource_minus_one`).

## Main statements

* `Grammar.readArith_append_iff`: how a chain goes on behind its first operands.
* `Grammar.readArith_negative_iff`: an equivalence, with any operands in front and any rest.
* `Program.ofSource_minus_one`: every text of an operand, and any blanks around the minus.
* `Grammar.readArith_chains`: all of this together, with the folds of chains.
-/

namespace Edict

open Grammar Derives

/-! ## What stands behind a chain -/

namespace Operated

variable {ts mid rest : List Token} {links all : List (ArithOp × Expr)}

/-- Operands in front are the first of all that are there. -/
theorem split (h : Operated PrimaryAt ts links mid) (k : Operated PrimaryAt ts all rest)
    (hrest : Unoperated rest) : ∃ more, all = links ++ more ∧ Operated PrimaryAt mid more rest := by
  induction h generalizing all with
  | nil => exact ⟨all, rfl, k⟩
  | sign hop hreads _ ih =>
      cases k with
      | nil => simp [Unoperated, hop] at hrest
      | sign hop' hreads' hmore =>
          obtain rfl := Option.some.inj (hop.symm.trans hop')
          obtain ⟨rfl, rfl⟩ := Gives.unique hreads hreads'
          obtain ⟨more, rfl, hbehind⟩ := ih hmore
          exact ⟨more, rfl, hbehind⟩
      | negative hx => simp [TokenKind.arithOp?_of_negative? hx] at hop
  | negative hx _ ih =>
      cases k with
      | nil => simp [Unoperated, hx] at hrest
      | sign hop => simp [TokenKind.arithOp?_of_negative? hx] at hop
      | negative hx' hmore =>
          obtain rfl := Option.some.inj (hx.symm.trans hx')
          obtain ⟨more, rfl, hbehind⟩ := ih hmore
          exact ⟨more, rfl, hbehind⟩

/-- Behind a negative number stand the operands after the first one. -/
theorem negative_iff {t : Token} {x : Float} (hx : t.kind.negative? = some x)
    (hrest : Unoperated rest) :
    Operated PrimaryAt (t :: ts) all rest ↔
      ∃ more, all = (.sub, .lit (.number (-x))) :: more ∧ Operated PrimaryAt ts more rest := by
  constructor
  · intro h
    obtain ⟨more, rfl, hmore⟩ := split (.negative hx .nil) h hrest
    exact ⟨more, rfl, hmore⟩
  · rintro ⟨more, rfl, hmore⟩
    exact .negative hx hmore

/-- Behind a minus and a number stand the operands after the first one. -/
theorem minus_iff {minus m : Token} {n : Numeral} (hminus : minus.kind = .symbol .minus)
    (hm : m.kind = .number n) (hrest : Unoperated rest) :
    Operated PrimaryAt (minus :: m :: ts) all rest ↔
      ∃ more, all = (.sub, .lit (.number n.value)) :: more ∧ Operated PrimaryAt ts more rest := by
  have hop : minus.kind.arithOp? = some .sub := by rw [hminus]; rfl
  have hreads : PrimaryAt (m :: ts) (.lit (.number n.value)) ts := by
    obtain ⟨k, s⟩ := m
    obtain rfl : k = .number n := hm
    exact gives_of_eq_ok rfl
  constructor
  · intro h
    obtain ⟨more, rfl, hmore⟩ := split (.sign hop hreads .nil) h hrest
    exact ⟨more, rfl, hmore⟩
  · rintro ⟨more, rfl, hmore⟩
    exact .sign hop hreads hmore

end Operated

namespace Grammar

variable {us rest tail : List Token} {e left : Expr}

/-- Where arithmetic ends, no operand goes on with it. -/
theorem unoperated_of_endsAt (h : EndsAt 3 rest) : Unoperated rest := by
  rcases rest with _ | ⟨t, rest⟩
  · exact ⟨rfl, rfl⟩
  · exact ⟨arithOp?_of_endsAt h, negative?_of_endsAt h⟩

/-- The links of a chain are operands, in front of what no operand goes on with. -/
theorem operated_of_links {links : List (ArithOp × Expr)} (h : Star Link us links)
    (htail : EndsAt 4 tail) : Operated PrimaryAt (us ++ tail) links tail := by
  induction h with
  | nil => exact .nil
  | cons hlink hmore ih =>
      cases hlink with
      | op hop hprimary =>
          have hend := endsAt_links hmore htail
          rw [List.append_assoc, List.cons_append]
          exact .sign hop (primary_complete (nested_complete _) hprimary hend _) ih
      | negative hx => exact .negative hx ih

/-- What is read behind a chain are further operands of it, and its tree is that of all of them. -/
theorem readArith_append_iff {first : Expr} {links : List (ArithOp × Expr)} {vs : List Token}
    (hfirst : Primary us first) (hlinks : Star Link vs links) (htail : EndsAt 4 tail) :
    Gives (readArith (us ++ vs ++ tail)) e rest ↔
      ∃ more, Operated PrimaryAt tail more rest ∧ Unoperated rest ∧
        e = Expr.ofLinks first (links ++ more) := by
  have hoperated := operated_of_links hlinks htail
  have hprimary : PrimaryAt (us ++ (vs ++ tail)) first (vs ++ tail) :=
    primary_complete (nested_complete _) hfirst (endsAt_links hlinks htail) _
  rw [List.append_assoc, readArith_gives_iff]
  constructor
  · rintro ⟨first', mid, all, hreads, hall, hrest, rfl⟩
    obtain ⟨rfl, rfl⟩ := Gives.unique hprimary hreads
    obtain ⟨more, rfl, hmore⟩ := hoperated.split hall hrest
    exact ⟨more, hmore, hrest, rfl⟩
  · rintro ⟨more, hmore, hrest, rfl⟩
    exact ⟨first, _, _, hprimary, hoperated.append hmore, hrest, rfl⟩

/-- A negative number behind an operand may be written as a minus and its magnitude. -/
theorem readArith_negative_iff {neg minus m : Token} {x : Float} {n : Numeral} {ts : List Token}
    (hleft : Arith us left) (hneg : neg.kind.negative? = some x)
    (hminus : minus.kind = .symbol .minus) (hm : m.kind = .number n) (hn : n.value = -x) :
    Gives (readArith (us ++ neg :: ts)) e rest ↔
      Gives (readArith (us ++ minus :: m :: ts)) e rest := by
  cases hleft with
  | mk hfirst hlinks =>
      have hend : EndsAt 4 (neg :: ts) :=
        endsAt_cons.mpr (Nat.lt_succ_of_le (Nat.le_of_eq (tightness_of_negative? hneg)))
      have hend' : EndsAt 4 (minus :: m :: ts) := by
        rw [endsAt_cons, hminus]
        decide
      rw [readArith_append_iff hfirst hlinks hend, readArith_append_iff hfirst hlinks hend']
      refine exists_congr fun more => and_congr_left fun h => ?_
      rw [Operated.negative_iff hneg h.1, Operated.minus_iff hminus hm h.1, hn]

end Grammar

/-! ## Differences in a text -/

namespace Spells

variable {w g rest : List Char} {ts : List Token} {span : Span}

/-- Blanks in front spell no tokens. -/
theorem blanks (h : Spells w rest ts) (hg : ∀ c ∈ g, Rule.isBlank c = true) :
    Spells (g ++ w) rest ts := by
  induction g with
  | nil => exact h
  | cons c g ih =>
      obtain ⟨hc, hg⟩ := List.forall_mem_cons.mp hg
      intro here
      obtain ⟨us, htakes, hus⟩ := ih hg (here + c.utf8Size)
      exact ⟨us, .blank hc htakes, hus⟩

/-- A number without a point. -/
theorem whole {m ds : List Char} {n : Numeral} (hm : m ∈ [[], ['-']]) (hds : Digits ds)
    (hn : Numeral.ofChars? (m ++ ds) = some n) (hrest : Closes rest) :
    Spells (m ++ ds) rest [⟨.number n, span⟩] := by
  have hlongest : Longest .number (m ++ ds) rest := .ofNumber (.whole hm hds) hrest.not_number
  refine .of_cut (.word hlongest ?_ (.number hn))
  rintro after rfl -
  exact (hrest.not_number '.' rfl).2 (by decide)

/-- A minus and a one are one token or two, and in both cases the same link of a chain. -/
theorem exists_minus_one (hg : ∀ c ∈ g, Rule.isBlank c = true) :
    ∃ ts, (∀ rest, Closes rest → Spells ('-' :: (g ++ ['1'])) rest ts) ∧
      Link ts (.sub, .lit (.number 1)) := by
  have hdigits : Digits ['1'] := ⟨List.cons_ne_nil _ _, by simp [Char.isDigit]⟩
  rcases g with _ | ⟨c, g⟩
  · refine ⟨[(TokenKind.number (.ofWritten true (-1))).token], fun rest hrest => ?_, ?_⟩
    · exact whole (m := ['-']) (n := .ofWritten true (-1)) (by decide) hdigits
        (by decide +kernel) hrest
    · have hone : (1 : Float) = -(-1) := by decide +kernel
      rw [hone]
      exact .negative (by decide +kernel)
  · refine ⟨[Symbol.minus.token] ++ [(TokenKind.number (.ofWritten false 1)).token],
      fun rest hrest => ?_, ?_⟩
    · have hnumber : Spells ([] ++ ['1']) rest
          [(TokenKind.number (.ofWritten false 1)).token] :=
        whole (by decide) hdigits (by decide +kernel) hrest
      have hminus : Longest (.fixed (.symbol .minus)) ['-'] (c :: g ++ ['1'] ++ rest) := by
        refine .ofSpacedSign (by decide) ?_
        rintro _ ⟨⟩
        exact not_isExact_of_isBlank (hg c List.mem_cons_self)
      exact append (v := ['-']) (of_cut (.of_longest hminus nofun .fixed)) (hnumber.blanks hg)
    · exact .op rfl (by simpa using Primary.number (n := .ofWritten false 1))

end Spells

/-- A one is subtracted from an operand in the same way, whether the minus has blanks around it or
not. -/
theorem Program.ofSource_minus_one {x : String} {us : List Token} {span : Span} {left : Expr}
    (hscan : Token.scan x = .ok (us ++ [⟨.eof, span⟩])) (hleft : Arith us left) {g g' : List Char}
    (hg : ∀ c ∈ g, Rule.isBlank c = true) (hg' : ∀ c ∈ g', Rule.isBlank c = true) :
    ofSource ("v = " ++ x ++ String.ofList g ++ "-" ++ String.ofList g' ++ "1") =
      .ok [.assign (.ident "v") .set (.arith left .sub (.lit (.number 1)))] := by
  obtain ⟨ts, hspells, hlink⟩ := Spells.exists_minus_one hg'
  have hboolean : Boolean (us ++ ts) (.arith left .sub (.lit (.number 1))) :=
    (Term.value (hleft.concat hlink nofun)).boolean
  refine ofSource_of_shows (fun rest hrest => ?_) (readProgram_assignment hboolean "v")
  -- behind the operand, a blank or the minus ends all words
  obtain ⟨c, more, hmore, hc⟩ : ∃ c more, g ++ '-' :: (g' ++ ['1']) ++ rest = c :: more ∧
      endsWords c = true := by
    rcases g with _ | ⟨c, g⟩
    · exact ⟨_, _, rfl, rfl⟩
    · exact ⟨c, _, rfl, by simp [endsWords, hg c List.mem_cons_self]⟩
  have hname : IsName "v" := .of_chars (by decide : _ = ['v']) (by decide) (by decide) (by decide)
  have hoperand : Spells x.toList (g ++ '-' :: (g' ++ ['1']) ++ rest) us := by
    rw [hmore]
    exact Token.spells_of_scan hscan hc more
  have hright := hoperand.append ((hspells rest hrest).blanks hg)
  have hsign : Spells _ _ ([Symbol.eq.token] ++ (us ++ ts)) :=
    (Spells.operator (s := "=") (.inl (by decide))).append hright
  have hall : Spells _ _
      ([(TokenKind.ident "v").token] ++ ([] ++ ([Symbol.eq.token] ++ (us ++ ts)))) :=
    (Spells.name hname (by rintro _ ⟨⟩; decide)).append (Spells.blank.append hsign)
  simpa using hall

/-! ## Arithmetic in all its forms -/

/-- Arithmetic chains are flat left folds.  Primaries with operators between them are read as
`((p₀ o₁ p₁) o₂ p₂) …`, but if `p₀` is a text and additions come first, these are one concatenation,
in their order, and the others are folded onto it.  A negative number behind an operand may be
replaced by a minus and its magnitude, whatever follows; and blanks around a minus do not matter, so
that `x-1`, `x -1`, `x - 1` and `x- 1` are the same difference for every operand `x`. -/
theorem Grammar.readArith_chains :
    (∀ us vs rest p₀ links, Primary us p₀ → Star Link vs links → EndsAt 3 rest →
      ((p₀.isText = true → ∀ l ∈ links.head?, l.1 ≠ .add) →
        Gives (readArith (us ++ vs ++ rest)) (Expr.foldLinks p₀ links) rest) ∧
      ∀ parts more, p₀.isText = true → parts ≠ [] → links = parts.map ((.add, ·)) ++ more →
        (∀ l ∈ more.head?, l.1 ≠ .add) →
          Gives (readArith (us ++ vs ++ rest)) (Expr.foldLinks (.concat (p₀ :: parts)) more) rest) ∧
    (∀ us left neg minus m x n ts e rest, Arith us left → neg.kind.negative? = some x →
      minus.kind = .symbol .minus → m.kind = .number n → n.value = -x →
        (Gives (readArith (us ++ neg :: ts)) e rest ↔
          Gives (readArith (us ++ minus :: m :: ts)) e rest)) ∧
    ∀ x us span left g g', Token.scan x = .ok (us ++ [⟨.eof, span⟩]) → Arith us left →
      (∀ c ∈ g, Rule.isBlank c = true) → (∀ c ∈ g', Rule.isBlank c = true) →
        Program.ofSource ("v = " ++ x ++ String.ofList g ++ "-" ++ String.ofList g' ++ "1") =
          .ok [.assign (.ident "v") .set (.arith left .sub (.lit (.number 1)))] := by
  refine ⟨?_, ?_, ?_⟩
  · intro us vs rest p₀ links hfirst hlinks hrest
    have hread : Gives (readArith (us ++ vs ++ rest)) (Expr.ofLinks p₀ links) rest :=
      (readArith_append_iff hfirst hlinks (hrest.mono (Nat.le_succ 3))).mpr
        ⟨[], .nil, unoperated_of_endsAt hrest, by rw [List.append_nil]⟩
    refine ⟨fun hadd => ?_, ?_⟩
    · rwa [Expr.ofLinks_eq_foldLinks hadd] at hread
    · rintro parts more htext hparts rfl hmore
      rwa [Expr.ofLinks_append htext hparts hmore] at hread
  · intro us left neg minus m x n ts e rest hleft hneg hminus hm hn
    exact readArith_negative_iff hleft hneg hminus hm hn
  · intro x us span left g g' hscan hleft hg hg'
    exact Program.ofSource_minus_one hscan hleft hg hg'

/-- `'a' + b * 2` is a concatenation times two; `b -2` goes on as `b - 2` does; and
`v = 'a' + b.c-1` and `v = 'a' + b.c - 1` are the same program. -/
theorem Grammar.readArith_chains_mixed :
    (∀ s t, Gives (readArith [⟨.text "a", s⟩, ⟨.symbol .plus, s⟩, ⟨.ident "b", s⟩,
        ⟨.symbol .star, s⟩, ⟨.bool true, s⟩, ⟨.eof, t⟩])
      (.arith (.concat [.lit (.text "a"), .ident "b"]) .mul (.lit (.bool true))) [⟨.eof, t⟩]) ∧
    (∀ s ts e rest,
      Gives (readArith (⟨.ident "b", s⟩ :: ⟨.number (.ofWritten true (-2)), s⟩ :: ts)) e rest ↔
        Gives (readArith (⟨.ident "b", s⟩ :: ⟨.symbol .minus, s⟩ ::
          ⟨.number (.ofWritten false 2), s⟩ :: ts)) e rest) ∧
    Program.ofSource "v = 'a' + b.c-1" = Program.ofSource "v = 'a' + b.c - 1" := by
  obtain ⟨hfold, hreplace, hsource⟩ := readArith_chains
  have hname : ∀ f s, Primary [⟨.ident f, s⟩] (.ident f) := fun _ _ => .place .ident
  refine ⟨fun s t => ?_, fun s ts e rest => ?_, ?_⟩
  · have hlinks : Star Link _ [(.add, .ident "b"), (.mul, .lit (.bool true))] :=
      .cons (.op (t := ⟨.symbol .plus, s⟩) rfl (hname "b" s))
        (.cons (.op (t := ⟨.symbol .star, s⟩) rfl (.bool (s := s))) .nil)
    have htext : Primary [⟨.text "a", s⟩] (.lit (.text "a")) := .text
    exact (hfold _ _ [⟨.eof, t⟩] _ _ htext hlinks (Nat.zero_lt_succ 2)).2 [.ident "b"]
      [(.mul, .lit (.bool true))] rfl (List.cons_ne_nil _ _) rfl (by simp)
  · have hnegative : (Numeral.ofWritten true (-2)).negative? = some (-2) := by decide +kernel
    exact hreplace [_] _ _ _ _ (-2) _ ts e rest (hname "b" s).arith hnegative rfl rfl
      (by decide +kernel)
  · have hscan : Token.scan "'a' + b.c" = .ok ([⟨.text "a", ⟨0, 3⟩⟩, ⟨.symbol .plus, ⟨4, 5⟩⟩,
        ⟨.ident "b", ⟨6, 7⟩⟩, ⟨.symbol .dot, ⟨7, 8⟩⟩, ⟨.ident "c", ⟨8, 9⟩⟩] ++
        [⟨.eof, ⟨9, 9⟩⟩]) := by decide +kernel
    have hlinks : Star Link _ [(.add, .property "b" [.field "c"])] :=
      .cons (.op (t := ⟨.symbol .plus, ⟨4, 5⟩⟩) rfl
        (.place (.mk (s := ⟨6, 7⟩) (.cons (.field (s := ⟨7, 8⟩) (t := ⟨8, 9⟩)) .nil)))) .nil
    have hleft : Arith [⟨.text "a", ⟨0, 3⟩⟩, ⟨.symbol .plus, ⟨4, 5⟩⟩, ⟨.ident "b", ⟨6, 7⟩⟩,
        ⟨.symbol .dot, ⟨7, 8⟩⟩, ⟨.ident "c", ⟨8, 9⟩⟩] (Expr.ofLinks _ _) := .mk .text hlinks
    have htight := hsource _ _ _ _ [] [] hscan hleft nofun nofun
    have hblank : ∀ c ∈ [' '], Rule.isBlank c = true := by simp [Rule.isBlank]
    have hspaced := hsource _ _ _ _ [' '] [' '] hscan hleft hblank hblank
    have htight' : "v = 'a' + b.c-1" =
        "v = " ++ "'a' + b.c" ++ String.ofList [] ++ "-" ++ String.ofList [] ++ "1" := by decide
    have hspaced' : "v = 'a' + b.c - 1" =
        "v = " ++ "'a' + b.c" ++ String.ofList [' '] ++ "-" ++ String.ofList [' '] ++ "1" := by decide
    rw [htight', hspaced', htight, hspaced]

end Edict
