import Edict.Proofs.Grammar.ExpressionParallel
import Edict.Proofs.Grammar.ExpressionSound

/-!
# Arithmetic chains

An arithmetic chain is read by a loop that takes one operand after the other, but for the additions
to a text, which another loop collects.  What the two take is said in terms of the operands that
stand at their place (`Operated`), with whatever the reader of primaries takes for one.  Behind a
first operand all of them are taken, and the tree is the left fold of them with the additions to a
text put together (`readArith_gives_iff`).

## Main definitions

* `Grammar.readPrimary`, `Grammar.readArith`: the readers of primaries and of chains, for whole
  lists.
* `Operated`, `Grammar.Unoperated`: operands with their operators stand in front of a rest; nothing
  that goes on with a chain stands there.

## Main statements

* `Grammar.arith_gives_iff`: what a chain is read as, with any readers for what stands in brackets.
* `Grammar.readArith_gives_iff`: the same for the readers in use, at every list of tokens.
-/

namespace Edict

open Grammar Derives

namespace Grammar

/-- Reads a primary. -/
def readPrimary : Reader Expr := fun ts => primary (nested ts.length) ts (length_le_limit ts)

/-- Reads an arithmetic chain. -/
def readArith : Reader Expr := fun ts => arith (nested ts.length) ts (length_le_limit ts)

/-- A primary stands at the front of the first list, and the second one behind it. -/
def PrimaryAt (ts : List Token) (e : Expr) (rest : List Token) : Prop := Gives (readPrimary ts) e rest

/-- Neither an arithmetic sign nor a negative number stands in front. -/
def Unoperated (ts : List Token) : Prop :=
  (Token.peek ts).kind.arithOp? = none ∧ (Token.peek ts).kind.negative? = none

end Grammar

/-- Arithmetic signs, with an operand behind each as `reads` finds operands, and negative numbers,
which are their magnitudes subtracted, from the front of one list to the front of another. -/
inductive Operated (reads : List Token → Expr → List Token → Prop) :
    List Token → List (ArithOp × Expr) → List Token → Prop
  | nil {ts : List Token} : Operated reads ts [] ts
  | sign {t : Token} {op : ArithOp} {ts mid rest : List Token} {e : Expr}
      {links : List (ArithOp × Expr)} : t.kind.arithOp? = some op → reads ts e mid →
      Operated reads mid links rest → Operated reads (t :: ts) ((op, e) :: links) rest
  | negative {t : Token} {x : Float} {ts rest : List Token} {links : List (ArithOp × Expr)} :
      t.kind.negative? = some x → Operated reads ts links rest →
      Operated reads (t :: ts) ((.sub, .lit (.number (-x))) :: links) rest

/-- A negative number is no arithmetic sign. -/
theorem TokenKind.arithOp?_of_negative? {k : TokenKind} {x : Float} (h : k.negative? = some x) :
    k.arithOp? = none := by
  cases k with
  | number n => rfl
  | _ => simp [negative?] at h

namespace Operated

variable {reads : List Token → Expr → List Token → Prop} {ts mid rest : List Token}
  {links links' : List (ArithOp × Expr)}

/-- Operands behind operands. -/
theorem append (h : Operated reads ts links mid) (k : Operated reads mid links' rest) :
    Operated reads ts (links ++ links') rest := by
  induction h with
  | nil => exact k
  | sign hop hreads _ ih => exact .sign hop hreads (ih k)
  | negative hx _ ih => exact .negative hx (ih k)

/-- The same operands as another reader finds them. -/
theorem mono {reads' : List Token → Expr → List Token → Prop} (h : Operated reads ts links rest)
    (hreads : ∀ ts e rest, reads ts e rest → reads' ts e rest) : Operated reads' ts links rest := by
  induction h with
  | nil => exact .nil
  | sign hop hterm _ ih => exact .sign hop (hreads _ _ _ hterm) ih
  | negative hx _ ih => exact .negative hx ih

/-- A `+` stands in front if and only if the first operand is added. -/
theorem atPlus_iff (h : Operated reads ts links rest) (hrest : Unoperated rest) :
    AtPlus ts ↔ ∃ l ∈ links.head?, l.1 = .add := by
  cases h with
  | nil =>
      simp only [List.head?_nil, Option.mem_def, reduceCtorEq, false_and, exists_false, iff_false]
      rintro ⟨s, us, rfl⟩
      simp [Unoperated, TokenKind.arithOp?] at hrest
  | @sign t op us mid rest e links hop hreads hmore =>
      simp only [List.head?_cons, Option.mem_def, Option.some.injEq, exists_eq_left']
      constructor
      · rintro ⟨s, us, hts⟩
        obtain ⟨rfl, -⟩ := List.cons_eq_cons.mp hts
        simpa [TokenKind.arithOp?] using hop.symm
      · rintro rfl
        obtain ⟨k, s⟩ := t
        obtain rfl := kind_of_arithOp?_add hop
        exact ⟨s, us, rfl⟩
  | @negative t x us rest links hx hmore =>
      simp only [List.head?_cons, Option.mem_def, Option.some.injEq, exists_eq_left', reduceCtorEq,
        iff_false]
      rintro ⟨s, us, hts⟩
      obtain ⟨rfl, -⟩ := List.cons_eq_cons.mp hts
      simp [TokenKind.negative?] at hx

end Operated

namespace Grammar

variable {limit : Nat} {inner : Nested limit} {ts mid rest : List Token}
  {links : List (ArithOp × Expr)}

/-- The primary that is read at the front of the list. -/
def Nested.ReadsPrimary (inner : Nested limit) (ts : List Token) (e : Expr) (rest : List Token) :
    Prop :=
  ∃ h, Gives (primary inner ts h) e rest

/-! ## The loops -/

/-- A chain that is gone on with takes operands up to where none follows, and folds them. -/
theorem arithFrom_operated (left : Expr) (ts : List Token) (h : ts.length ≤ limit) :
    ∀ p, arithFrom inner left ts h = .ok p →
      ∃ links, Operated inner.ReadsPrimary ts links p.rest ∧ Unoperated p.rest ∧
        p.value = Expr.foldLinks left links := by
  fun_induction arithFrom inner left ts h with
  | case1 left h =>
      rintro p ⟨⟩
      exact ⟨[], .nil, ⟨rfl, rfl⟩, rfl⟩
  | case2 left t rest h op hop _ ih =>
      intro p hp
      obtain ⟨right, hright, hp⟩ := ok_of_bind hp
      obtain ⟨chain, hchain, hp⟩ := ok_of_bind hp
      obtain ⟨links, hlinks, hstops, hvalue⟩ := ih right chain hchain
      cases hp
      exact ⟨(op, right.value) :: links, .sign hop ⟨_, gives_of_eq_ok hright⟩ hlinks, hstops, hvalue⟩
  | case3 left t rest h x hx hop _ ih =>
      intro p hp
      obtain ⟨chain, hchain, hp⟩ := ok_of_bind hp
      obtain ⟨links, hlinks, hstops, hvalue⟩ := ih chain hchain
      cases hp
      exact ⟨_, .negative hx hlinks, hstops, hvalue⟩
  | case4 left t rest h hx hop =>
      rintro p ⟨⟩
      exact ⟨[], .nil, ⟨hop, hx⟩, rfl⟩

/-- Operands are taken and folded as long as they stand there. -/
theorem arithFrom_of_operated (hlinks : Operated inner.ReadsPrimary ts links rest)
    (hrest : Unoperated rest) (left : Expr) (h : ts.length ≤ limit) :
    Gives (arithFrom inner left ts h) (Expr.foldLinks left links) rest := by
  induction hlinks generalizing left with
  | nil => exact gives_of_eq_ok (Seam.arithFrom_stops left hrest.1 hrest.2 h)
  | sign hop hreads _ ih =>
      obtain ⟨_, hright⟩ := hreads
      rw [arithFrom]
      simp only [hop]
      refine hright.bind fun _ => ?_
      exact (ih hrest _ _).bind fun _ => gives_of_eq_ok rfl
  | negative hx _ ih =>
      rw [arithFrom]
      simp only [TokenKind.arithOp?_of_negative? hx, hx]
      exact (ih hrest _ _).bind fun _ => gives_of_eq_ok rfl

/-- The parts of a concatenation are the operands that are added first; no `+` is left in front. -/
theorem concatParts_operated (ts : List Token) (h : ts.length ≤ limit) :
    ∀ p, concatParts inner ts h = .ok p →
      Operated inner.ReadsPrimary ts (p.value.map ((.add, ·))) p.rest ∧ ¬ AtPlus p.rest ∧
        (AtPlus ts → p.value ≠ []) := by
  fun_induction concatParts inner ts h with
  | case1 s rest h _ ih =>
      intro p hp
      obtain ⟨part, hpart, hp⟩ := ok_of_bind hp
      obtain ⟨more, hmore, hp⟩ := ok_of_bind hp
      obtain ⟨hparts, hrest, -⟩ := ih part more hmore
      cases hp
      exact ⟨.sign rfl ⟨_, gives_of_eq_ok hpart⟩ hparts, hrest, fun _ => List.cons_ne_nil _ _⟩
  | case2 ts h hne =>
      have hts : ¬ AtPlus ts := by
        rintro ⟨s, rest, rfl⟩
        exact hne s rest h rfl HEq.rfl
      rintro p ⟨⟩
      exact ⟨.nil, hts, fun hplus => absurd hplus hts⟩

/-- The operands that are added first are taken as the parts of a concatenation. -/
theorem concatParts_of_operated (hlinks : Operated inner.ReadsPrimary ts links rest)
    (hrest : Unoperated rest) (h : ts.length ≤ limit) :
    ∃ mid, Operated inner.ReadsPrimary mid (links.dropWhile Expr.adds) rest ∧
      Gives (concatParts inner ts h) ((links.takeWhile Expr.adds).map Prod.snd) mid := by
  induction hlinks with
  | @nil ts =>
      refine ⟨ts, .nil, gives_of_eq_ok (concatParts_of_not_atPlus h ?_)⟩
      rintro ⟨s, us, rfl⟩
      simp [Unoperated, TokenKind.arithOp?] at hrest
  | @sign t op ts mid rest e links hop hreads hmore ih =>
      have hall : Operated inner.ReadsPrimary (t :: ts) ((op, e) :: links) rest :=
        .sign hop hreads hmore
      by_cases hadd : op = .add
      · subst hadd
        have hadds : Expr.adds (.add, e) = true := rfl
        obtain ⟨k, s⟩ := t
        obtain rfl := kind_of_arithOp?_add hop
        obtain ⟨_, hpart⟩ := hreads
        obtain ⟨mid', hmid', hparts⟩ :=
          ih hrest (Nat.le_trans (Nat.le_of_lt hpart.length_lt) (Nat.le_of_succ_le h))
        rw [List.dropWhile_cons_of_pos hadds, List.takeWhile_cons_of_pos hadds]
        refine ⟨mid', hmid', ?_⟩
        rw [concatParts]
        exact hpart.bind fun _ => hparts.bind fun _ => gives_of_eq_ok rfl
      · have hadds : ¬ Expr.adds (op, e) = true := by simpa [Expr.adds] using hadd
        rw [List.dropWhile_cons_of_neg hadds, List.takeWhile_cons_of_neg hadds]
        refine ⟨_, hall, gives_of_eq_ok (concatParts_of_not_atPlus h ?_)⟩
        rw [hall.atPlus_iff hrest]
        simpa using hadd
  | @negative t x ts rest links hx hmore ih =>
      have hall : Operated inner.ReadsPrimary (t :: ts) _ rest := .negative hx hmore
      have hadds : ¬ Expr.adds (.sub, .lit (.number (-x))) = true := by simp [Expr.adds]
      rw [List.dropWhile_cons_of_neg hadds, List.takeWhile_cons_of_neg hadds]
      refine ⟨_, hall, gives_of_eq_ok (concatParts_of_not_atPlus h ?_)⟩
      rw [hall.atPlus_iff hrest]
      simp

/-! ## Chains -/

/-- A chain is an operand and all those behind it, as the tree that the grammar makes of them. -/
theorem arith_gives_iff {h : ts.length ≤ limit} {e : Expr} :
    Gives (arith inner ts h) e rest ↔
      ∃ first mid links, inner.ReadsPrimary ts first mid ∧ Operated inner.ReadsPrimary mid links rest ∧
        Unoperated rest ∧ e = Expr.ofLinks first links := by
  constructor
  · rintro ⟨hlt, hp⟩
    obtain ⟨first, hfirst, hp⟩ := ok_of_bind hp
    have hreads : inner.ReadsPrimary ts first.value first.rest := ⟨h, gives_of_eq_ok hfirst⟩
    split at hp
    · rename_i hconcat
      obtain ⟨htext, hplus⟩ := beginsConcat_iff.mp hconcat
      obtain ⟨parts, hparts, hp⟩ := ok_of_bind hp
      obtain ⟨chain, hchain, hp⟩ := ok_of_bind hp
      obtain ⟨hadded, hends, hne⟩ := concatParts_operated _ _ parts hparts
      obtain ⟨links, hlinks, hstops, hvalue⟩ := arithFrom_operated _ _ _ chain hchain
      cases hp
      refine ⟨first.value, first.rest, _, hreads, hadded.append hlinks, hstops, ?_⟩
      rw [Expr.ofLinks_append htext (hne hplus), id, hvalue]
      intro l hl hadd
      exact hends ((hlinks.atPlus_iff hstops).mpr ⟨l, hl, hadd⟩)
    · rename_i hconcat
      obtain ⟨chain, hchain, hp⟩ := ok_of_bind hp
      obtain ⟨links, hlinks, hstops, hvalue⟩ := arithFrom_operated _ _ _ chain hchain
      cases hp
      refine ⟨first.value, first.rest, links, hreads, hlinks, hstops, ?_⟩
      rw [Expr.ofLinks_eq_foldLinks, id, hvalue]
      intro htext l hl hadd
      exact hconcat (beginsConcat_iff.mpr ⟨htext, (hlinks.atPlus_iff hstops).mpr ⟨l, hl, hadd⟩⟩)
  · rintro ⟨first, mid, links, ⟨_, hfirst⟩, hlinks, hrest, rfl⟩
    refine hfirst.bind fun hmid => ?_
    have hle : mid.length ≤ limit := Nat.le_trans (Nat.le_of_lt hmid) h
    dsimp only
    split
    · rename_i hconcat
      obtain ⟨htext, hplus⟩ := beginsConcat_iff.mp hconcat
      obtain ⟨l, hl, hadd⟩ := (hlinks.atPlus_iff hrest).mp hplus
      have hne : links.takeWhile Expr.adds ≠ [] := by
        obtain ⟨more, rfl⟩ := List.head?_eq_some_iff.mp hl
        simp [Expr.adds, hadd]
      obtain ⟨mid', hmore, hparts⟩ := concatParts_of_operated hlinks hrest hle
      rw [Expr.ofLinks, if_pos ⟨htext, hne⟩]
      refine hparts.bind fun _ => ?_
      exact (arithFrom_of_operated hmore hrest _ _).bind fun _ => gives_of_eq_ok rfl
    · rename_i hconcat
      rw [Expr.ofLinks_eq_foldLinks]
      · exact (arithFrom_of_operated hlinks hrest _ _).bind fun _ => gives_of_eq_ok rfl
      · intro htext l hl hadd
        exact hconcat (beginsConcat_iff.mpr ⟨htext, (hlinks.atPlus_iff hrest).mpr ⟨l, hl, hadd⟩⟩)

/-- What a reader takes for a primary does not depend on how many tokens it may read. -/
theorem readsPrimary_iff {n : Nat} {e : Expr} :
    (nested n).ReadsPrimary ts e rest ↔ ts.length ≤ n ∧ PrimaryAt ts e rest := by
  have htracks (i j : Nat) (hi : ts.length ≤ i) (hj : ts.length ≤ j) :
      Seam.self.Tracks (primary (nested i) ts hi) (primary (nested j) ts hj) :=
    Seam.primary_tracks (Seam.nested_tracks Seam.self i j) (.inl (Seam.parallel_self ts)) hi hj
  constructor
  · rintro ⟨h, hgives⟩
    exact ⟨h, Seam.gives_of_tracks_self (htracks _ _ h (Nat.le_refl _)) hgives⟩
  · rintro ⟨h, hgives⟩
    exact ⟨h, Seam.gives_of_tracks_self (htracks _ _ (Nat.le_refl _) h) hgives⟩

/-- Operands are found by a reader that may read them. -/
theorem operated_readsPrimary {n : Nat} (h : Operated PrimaryAt ts links rest) (hn : ts.length ≤ n) :
    Operated (nested n).ReadsPrimary ts links rest := by
  induction h with
  | nil => exact .nil
  | @sign t op ts mid rest e links hop hreads _ ih =>
      have hts : ts.length ≤ n := Nat.le_of_succ_le hn
      have hmid : mid.length < ts.length := Gives.length_lt hreads
      exact .sign hop (readsPrimary_iff.mpr ⟨hts, hreads⟩) (ih (Nat.le_trans (Nat.le_of_lt hmid) hts))
  | negative hx _ ih => exact .negative hx (ih (Nat.le_of_succ_le hn))

/-- Chains are read as the tree of the operands that stand there. -/
theorem readArith_gives_iff {e : Expr} :
    Gives (readArith ts) e rest ↔
      ∃ first mid links, PrimaryAt ts first mid ∧ Operated PrimaryAt mid links rest ∧
        Unoperated rest ∧ e = Expr.ofLinks first links := by
  refine arith_gives_iff.trans ⟨?_, ?_⟩
  · rintro ⟨first, mid, links, hfirst, hlinks, hrest, rfl⟩
    refine ⟨first, mid, links, (readsPrimary_iff.mp hfirst).2, ?_, hrest, rfl⟩
    exact hlinks.mono fun _ _ _ h => (readsPrimary_iff.mp h).2
  · rintro ⟨first, mid, links, hfirst, hlinks, hrest, rfl⟩
    have hmid : mid.length < ts.length := Gives.length_lt hfirst
    exact ⟨first, mid, links, readsPrimary_iff.mpr ⟨Nat.le_refl _, hfirst⟩,
      operated_readsPrimary hlinks (Nat.le_of_lt hmid), hrest, rfl⟩

end Grammar

end Edict
