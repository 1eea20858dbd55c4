import Edict.Proofs.Number.Order
import Edict.Value.Operation
import Mathlib.Data.Sum.Order
import Mathlib.Data.String.Basic

/-!
# The extreme value

`MAX` and `MIN` go through their arguments once, with the best one so far.  Texts, and numbers that
are not NaN, have a place in a line (`Value.rank`), so what is left at the end is the first argument
of the extreme rank, however the arguments were ordered and grouped.  Arguments of other kinds, or
of different kinds, are a mismatch wherever they stand (`Builtin.extreme_selects`).

## Main definitions

* `Value.rank`, `Value.Comparable`: the place of a value in a line, and the lists of values that
  have one each and are of one kind.
* `Builtin.Seeks`: a function goes through its arguments for the least one by a key.
* `Builtin.FirstLeast`: a value is the first of the least ones.  This is the invariant of the
  search.
* `Builtin.Selects`: everything that is said of either function.

## Main statements

* `Builtin.extreme_firstLeast`: a search ends with the first of the least arguments.
* `Builtin.extreme_cases`: for which arguments there is a result at all, for any list of arguments.
* `Builtin.extreme_selects`: `MAX` and `MIN` select the greatest and the least argument.
-/

namespace Edict

/-! ## Ranks -/

namespace Value

/-- The place of a value among the values that it can be ordered with: numbers come in their order,
texts in theirs. -/
def rank : Value → WithBot (WithTop ℚ) ⊕ₗ String
  | .number x => toLex (.inl (Number.rank x))
  | .text s => toLex (.inr s)
  | _ => toLex (.inr "")

/-- Values that can all be ordered with each other: texts, or numbers that are not NaN. -/
def Comparable (values : List Value) : Prop :=
  (∀ v ∈ values, ∃ s, v = .text s) ∨ ∀ v ∈ values, ∃ x, v = .number x ∧ x.isNaN = false

/-- Texts are ordered as strings are. -/
theorem orderTexts_eq_lt_iff (s t : String) : orderTexts s t = .lt ↔ s < t := by
  unfold orderTexts
  split_ifs with hlt heq
  · exact iff_of_true rfl hlt
  · exact iff_of_false nofun hlt
  · exact iff_of_false nofun hlt

/-- The same the other way round. -/
theorem orderTexts_eq_gt_iff (s t : String) : orderTexts s t = .gt ↔ t < s := by
  unfold orderTexts
  split_ifs with hlt heq
  · exact iff_of_false nofun (lt_asymm hlt)
  · exact iff_of_false nofun (heq ▸ lt_irrefl s)
  · exact iff_of_true rfl ((not_lt.mp hlt).lt_of_ne' heq)

namespace Comparable

variable {values more : List Value} {v w : Value}

/-- Some of several comparable values are comparable. -/
theorem mono (h : Comparable values) (hsub : more ⊆ values) : Comparable more :=
  h.imp (fun h v hv => h v (hsub hv)) (fun h v hv => h v (hsub hv))

section

variable (h : Comparable values) (hv : v ∈ values) (hw : w ∈ values)
include h hv hw

/-- Comparable values are ordered by their ranks. -/
theorem exists_ordering (site : Site) : ∃ o, ordering site v w = .ok (some o) ∧
    (o = .lt ↔ v.rank < w.rank) ∧ (o = .gt ↔ w.rank < v.rank) := by
  rcases h with h | h
  · obtain ⟨⟨s, rfl⟩, t, rfl⟩ := And.intro (h v hv) (h w hw)
    refine ⟨orderTexts s t, rfl, ?_, ?_⟩
    · exact (orderTexts_eq_lt_iff s t).trans Sum.Lex.inr_lt_inr_iff.symm
    · exact (orderTexts_eq_gt_iff s t).trans Sum.Lex.inr_lt_inr_iff.symm
  · obtain ⟨⟨x, rfl, hx⟩, y, rfl, hy⟩ := And.intro (h v hv) (h w hw)
    obtain ⟨o, ho, hlt, hgt⟩ := Number.exists_order? hx hy
    refine ⟨o, congrArg Except.ok ho, ?_, ?_⟩
    · exact hlt.trans Sum.Lex.inl_lt_inl_iff.symm
    · exact hgt.trans Sum.Lex.inl_lt_inl_iff.symm

/-- Comparable values are equal if they have one rank. -/
theorem same_iff : v.same w = true ↔ v.rank = w.rank := by
  rcases h with h | h
  · obtain ⟨⟨s, rfl⟩, t, rfl⟩ := And.intro (h v hv) (h w hw)
    exact beq_iff_eq.trans (Sum.inr_injective.eq_iff.symm.trans toLex_inj.symm)
  · obtain ⟨⟨x, rfl, hx⟩, y, rfl, hy⟩ := And.intro (h v hv) (h w hw)
    exact (Number.beq_iff_rank_eq hx hy).trans
      (Sum.inl_injective.eq_iff.symm.trans toLex_inj.symm)

end

end Comparable

/-- The comparison by `<` asks for the order. -/
theorem compare_lt_iff {v w : Value} {o : Ordering}
    (h : ordering (.compare .lt) v w = .ok (some o)) : compare .lt v w = .ok true ↔ o = .lt := by
  rw [compare, h]
  change Except.ok (some o == some .lt) = .ok true ↔ _
  simp

/-- So does the one by `>`. -/
theorem compare_gt_iff {v w : Value} {o : Ordering}
    (h : ordering (.compare .gt) v w = .ok (some o)) : compare .gt v w = .ok true ↔ o = .gt := by
  rw [compare, h]
  change Except.ok (some o == some .gt) = .ok true ↔ _
  simp

/-! ## Kinds -/

/-- Values that an ordering accepts: two numbers or two texts. -/
def Orderable (v w : Value) : Prop := v.kind = w.kind ∧ (w.kind = .number ∨ w.kind = .string)

/-- Every pair of values is either ordered, or a mismatch at the site that asks. -/
theorem ordering_cases (site : Site) (v w : Value) :
    (Orderable v w ∧ ∃ o, ordering site v w = .ok o) ∨
      ¬Orderable v w ∧ ∃ wanted given, ordering site v w = .error (.mismatch site wanted given) := by
  cases v <;> cases w <;> first
    | exact .inl ⟨⟨rfl, .inl rfl⟩, _, rfl⟩
    | exact .inl ⟨⟨rfl, .inr rfl⟩, _, rfl⟩
    | exact .inr ⟨by simp [Orderable, kind], _, _, rfl⟩

end Value

namespace Builtin

open Value

/-- The search goes through exactly if every value can be ordered with the first one; a value that
cannot is noticed at the latest when its turn comes. -/
theorem extremeFrom_cases (f : Builtin) (wanted : Ordering) (best : Value) (rest : List Value) :
    ((∀ v ∈ rest, Orderable v best) ∧ ∃ v, extremeFrom f wanted best rest = .ok v) ∨
      (¬∀ v ∈ rest, Orderable v best) ∧
        ∃ w g, extremeFrom f wanted best rest = .error (.mismatch (.builtin f) w g) := by
  induction rest generalizing best with
  | nil => exact .inl ⟨nofun, best, rfl⟩
  | cons candidate rest ih =>
      rcases ordering_cases (.builtin f) candidate best with ⟨horder, o, ho⟩ | ⟨horder, w, g, ho⟩
      · -- Whichever of the two is kept has the kind of the best one so far.
        have hkind : (if o = some wanted then candidate else best).kind = best.kind := by
          split_ifs
          · exact horder.1
          · rfl
        have hiff : (∀ v ∈ candidate :: rest, Orderable v best) ↔
            ∀ v ∈ rest, Orderable v (if o = some wanted then candidate else best) := by
          simp only [Orderable, hkind, List.forall_mem_cons]
          exact ⟨And.right, fun hrest => ⟨horder, hrest⟩⟩
        have hrun : extremeFrom f wanted best (candidate :: rest) =
            extremeFrom f wanted (if o = some wanted then candidate else best) rest := by
          rw [extremeFrom, ho]
          rfl
        rw [hiff, hrun]
        exact ih _
      · refine .inr ⟨fun hall => horder (hall candidate List.mem_cons_self), w, g, ?_⟩
        rw [extremeFrom, ho]
        rfl

/-! ## The first least value -/

section

variable {K : Type} [LinearOrder K] {f : Builtin} {wanted : Ordering} {key : Value → K}
  {args : List Value}

/-- The function looks for the least key: a value is better than another one if its key is less. -/
def Seeks (f : Builtin) (wanted : Ordering) (key : Value → K) (args : List Value) : Prop :=
  ∀ v ∈ args, ∀ w ∈ args, ∃ o, ordering (.builtin f) v w = .ok o ∧
    (o = some wanted ↔ key v < key w)

/-- A value of the list with the least key, and the first one with it. -/
structure FirstLeast (key : Value → K) (args : List Value) (v : Value) : Prop where
  least : ∀ w ∈ args, key v ≤ key w
  first : ∃ before after, args = before ++ v :: after ∧ ∀ w ∈ before, key v < key w

/-- The first least value is one of the values. -/
theorem FirstLeast.mem {v : Value} (h : FirstLeast key args v) : v ∈ args := by
  obtain ⟨before, after, rfl, _⟩ := h.first
  simp

/-- A single value is the first least one. -/
theorem FirstLeast.singleton (v : Value) : FirstLeast key [v] v where
  least _ hw := (List.mem_singleton.mp hw ▸ le_refl _)
  first := ⟨[], [], rfl, nofun⟩

/-- A value that is better than all values so far takes their place. -/
theorem FirstLeast.improve {best candidate v : Value} {rest : List Value}
    (h : FirstLeast key (candidate :: rest) v) (hlt : key candidate < key best) :
    FirstLeast key (best :: candidate :: rest) v := by
  have hbest : key v < key best := (h.least candidate List.mem_cons_self).trans_lt hlt
  obtain ⟨before, after, hargs, hbefore⟩ := h.first
  refine ⟨List.forall_mem_cons.mpr ⟨hbest.le, h.least⟩, best :: before, after, ?_, ?_⟩
  · rw [hargs, List.cons_append]
  · exact List.forall_mem_cons.mpr ⟨hbest, hbefore⟩

/-- A value that is no better than the best one so far is passed over. -/
theorem FirstLeast.skip {best candidate v : Value} {rest : List Value}
    (h : FirstLeast key (best :: rest) v) (hle : key best ≤ key candidate) :
    FirstLeast key (best :: candidate :: rest) v := by
  have hleast : ∀ w ∈ best :: candidate :: rest, key v ≤ key w := by
    intro w hw
    rcases List.mem_cons.mp hw with rfl | hw
    · exact h.least _ List.mem_cons_self
    rcases List.mem_cons.mp hw with rfl | hw
    · exact (h.least best List.mem_cons_self).trans hle
    · exact h.least w (List.mem_cons_of_mem _ hw)
  refine ⟨hleast, ?_⟩
  obtain ⟨before, after, hargs, hbefore⟩ := h.first
  cases before with
  | nil =>
      obtain ⟨rfl, rfl⟩ := List.cons.inj hargs
      exact ⟨[], candidate :: rest, rfl, nofun⟩
  | cons u before =>
      obtain ⟨rfl, rfl⟩ := List.cons.inj hargs
      obtain ⟨hlt, hbefore⟩ := List.forall_mem_cons.mp hbefore
      exact ⟨best :: candidate :: before, after, rfl,
        List.forall_mem_cons.mpr ⟨hlt, List.forall_mem_cons.mpr ⟨hlt.trans_le hle, hbefore⟩⟩⟩

/-- The search keeps the first least value of what it has seen. -/
theorem extremeFrom_firstLeast {best : Value} {rest : List Value}
    (h : Seeks f wanted key (best :: rest)) :
    ∃ v, extremeFrom f wanted best rest = .ok v ∧ FirstLeast key (best :: rest) v := by
  induction rest generalizing best with
  | nil => exact ⟨best, rfl, .singleton best⟩
  | cons candidate rest ih =>
      obtain ⟨o, ho, hiff⟩ := h candidate (by simp) best (by simp)
      have hrun : extremeFrom f wanted best (candidate :: rest) =
          extremeFrom f wanted (if o = some wanted then candidate else best) rest := by
        rw [extremeFrom, ho]
        rfl
      rw [hrun]
      split_ifs with hwanted
      · obtain ⟨v, hv, hfirst⟩ := @ih candidate fun v hv w hw =>
          h v (List.mem_cons_of_mem _ hv) w (List.mem_cons_of_mem _ hw)
        exact ⟨v, hv, hfirst.improve (hiff.mp hwanted)⟩
      · have hsub : best :: rest ⊆ best :: candidate :: rest :=
          List.cons_subset_cons best (List.subset_cons_self candidate rest)
        obtain ⟨v, hv, hfirst⟩ := @ih best fun v hv w hw => h v (hsub hv) w (hsub hw)
        exact ⟨v, hv, hfirst.skip (not_lt.mp (hwanted ∘ hiff.mpr))⟩

/-- A search for the least argument finds the first one, if there is an argument at all. -/
theorem extreme_firstLeast (h : Seeks f wanted key args) (hne : args ≠ []) :
    ∃ v, extreme f wanted args = .ok v ∧ FirstLeast key args v := by
  cases args with
  | nil => exact absurd rfl hne
  | cons best rest => exact extremeFrom_firstLeast h

/-- Lists with the same values have results with the same key. -/
theorem FirstLeast.key_eq_of_perm {args' : List Value} {v w : Value} (hv : FirstLeast key args v)
    (hw : FirstLeast key args' w) (hperm : args.Perm args') : key v = key w :=
  le_antisymm (hv.least w (hperm.mem_iff.mpr hw.mem)) (hw.least v (hperm.mem_iff.mp hv.mem))

/-- The values of a nested call are values of the whole one. -/
theorem nested_subset {before run after : List Value} {r : Value} (hr : r ∈ run) :
    before ++ r :: after ⊆ before ++ run ++ after := by
  intro v hv
  simp only [List.mem_append, List.mem_cons] at hv ⊢
  rcases hv with hv | rfl | hv
  · exact .inl (.inl hv)
  · exact .inl (.inr hr)
  · exact .inr hv

/-- The result of a run of values may stand for the run. -/
theorem FirstLeast.key_eq_of_nested {before run after : List Value} {r v w : Value}
    (hr : FirstLeast key run r) (hv : FirstLeast key (before ++ run ++ after) v)
    (hw : FirstLeast key (before ++ r :: after) w) : key v = key w := by
  have hrun : ∀ u ∈ run, key w ≤ key u := fun u hu => (hw.least r (by simp)).trans (hr.least u hu)
  refine le_antisymm (hv.least w (nested_subset hr.mem hw.mem)) ?_
  rcases List.mem_append.mp hv.mem with hv | hv
  · rcases List.mem_append.mp hv with hv | hv
    · exact hw.least v (by simp [hv])
    · exact hrun v hv
  · exact hw.least v (by simp [hv])

end

/-! ## What is selected -/

/-- What it is to select the best argument, where `op` says which of two values is better. -/
structure Selects (f : Builtin) (wanted : Ordering) (op : CompareOp) : Prop where
  /-- There is a result exactly if there is at most one argument, or all are of one ordered kind. -/
  ok_iff : ∀ args, (∃ v, extreme f wanted args = .ok v) ↔ args.length ≤ 1 ∨
    (∀ v ∈ args, v.kind = .number) ∨ ∀ v ∈ args, v.kind = .string
  /-- What has no result is a mismatch in the call of the function. -/
  mismatch : ∀ args, (∃ v, extreme f wanted args = .ok v) ∨
    ∃ w g, extreme f wanted args = .error (.mismatch (.builtin f) w g)
  /-- The result is an argument that no argument is better than, and it is better than every
  argument in front of it. -/
  first_best : ∀ args, Comparable args → args ≠ [] → ∃ before v after,
    args = before ++ v :: after ∧ extreme f wanted args = .ok v ∧
      (∀ w ∈ args, ¬compare op w v = .ok true) ∧ ∀ w ∈ before, compare op v w = .ok true
  /-- Arguments in another order have an equal result. -/
  reorder : ∀ args args', Comparable args → args ≠ [] → args.Perm args' →
    ∃ v w, extreme f wanted args = .ok v ∧ extreme f wanted args' = .ok w ∧ v.same w = true
  /-- A run of arguments may be put into a call of its own. -/
  nested : ∀ before run after, Comparable (before ++ run ++ after) → run ≠ [] →
    ∃ r v w, extreme f wanted run = .ok r ∧ extreme f wanted (before ++ run ++ after) = .ok v ∧
      extreme f wanted (before ++ r :: after) = .ok w ∧ v.same w = true

/-- Either there is a result and the kinds are right, or there is a mismatch and they are not. -/
theorem extreme_cases (f : Builtin) (wanted : Ordering) (args : List Value) :
    ((args.length ≤ 1 ∨ (∀ v ∈ args, v.kind = .number) ∨ ∀ v ∈ args, v.kind = .string) ∧
        ∃ v, extreme f wanted args = .ok v) ∨
      ¬(args.length ≤ 1 ∨ (∀ v ∈ args, v.kind = .number) ∨ ∀ v ∈ args, v.kind = .string) ∧
        ∃ w g, extreme f wanted args = .error (.mismatch (.builtin f) w g) := by
  cases args with
  | nil => exact .inl ⟨.inl (by simp), .absent, rfl⟩
  | cons best rest =>
      have hkinds : ((best :: rest).length ≤ 1 ∨ (∀ v ∈ best :: rest, v.kind = .number) ∨
          ∀ v ∈ best :: rest, v.kind = .string) ↔ ∀ v ∈ rest, Orderable v best := by
        constructor
        · rintro (hlength | hall | hall) v hv
          · have hrest : rest = [] := List.eq_nil_of_length_eq_zero (by simpa using hlength)
            simp [hrest] at hv
          · have hbest := hall best List.mem_cons_self
            exact ⟨(hall v (List.mem_cons_of_mem _ hv)).trans hbest.symm, .inl hbest⟩
          · have hbest := hall best List.mem_cons_self
            exact ⟨(hall v (List.mem_cons_of_mem _ hv)).trans hbest.symm, .inr hbest⟩
        · intro hall
          cases rest with
          | nil => exact .inl (by simp)
          | cons v rest =>
              right
              refine (hall v List.mem_cons_self).2.imp (fun hbest => ?_) fun hbest => ?_ <;>
                exact List.forall_mem_cons.mpr ⟨hbest, fun w hw => (hall w hw).1.trans hbest⟩
      rw [hkinds]
      exact extremeFrom_cases f wanted best rest

section

variable {K : Type} [LinearOrder K] {f : Builtin} {wanted : Ordering} {op : CompareOp}

/-- A search for the least key selects, if being better is having a smaller key. -/
theorem selects_of_key (key : Value → K)
    (hseeks : ∀ args, Comparable args → Seeks f wanted key args)
    (hbetter : ∀ args, Comparable args → ∀ v ∈ args, ∀ w ∈ args,
      (compare op v w = .ok true ↔ key v < key w))
    (hsame : ∀ args, Comparable args → ∀ v ∈ args, ∀ w ∈ args, key v = key w → v.same w = true) :
    Selects f wanted op where
  ok_iff args := by
    rcases extreme_cases f wanted args with ⟨hkinds, hok⟩ | ⟨hkinds, w, g, herror⟩
    · exact iff_of_true hok hkinds
    · exact iff_of_false (fun ⟨v, hv⟩ => nomatch hv.symm.trans herror) hkinds
  mismatch args := (extreme_cases f wanted args).imp And.right And.right
  first_best args hargs hne := by
    obtain ⟨v, hv, hfirst⟩ := extreme_firstLeast (hseeks args hargs) hne
    obtain ⟨before, after, hsplit, hbefore⟩ := hfirst.first
    refine ⟨before, v, after, hsplit, hv, fun w hw => ?_, fun w hw => ?_⟩
    · rw [hbetter args hargs w hw v hfirst.mem]
      exact not_lt.mpr (hfirst.least w hw)
    · have hmem : w ∈ args := by
        rw [hsplit]
        exact List.mem_append_left _ hw
      exact (hbetter args hargs v hfirst.mem w hmem).mpr (hbefore w hw)
  reorder args args' hargs hne hperm := by
    have hargs' := hargs.mono hperm.symm.subset
    have hne' : args' ≠ [] := fun h => hne (List.Perm.eq_nil (h ▸ hperm))
    obtain ⟨v, hv, hfirst⟩ := extreme_firstLeast (hseeks args hargs) hne
    obtain ⟨w, hw, hfirst'⟩ := extreme_firstLeast (hseeks args' hargs') hne'
    exact ⟨v, w, hv, hw, hsame args hargs v hfirst.mem w (hperm.mem_iff.mpr hfirst'.mem)
      (hfirst.key_eq_of_perm hfirst' hperm)⟩
  nested before run after hargs hne := by
    have hrun : Comparable run := hargs.mono fun v hv => by simp [hv]
    obtain ⟨r, hr, hfirst⟩ := extreme_firstLeast (hseeks run hrun) hne
    have hsub : before ++ r :: after ⊆ before ++ run ++ after := nested_subset hfirst.mem
    obtain ⟨v, hv, hfirstAll⟩ := extreme_firstLeast (hseeks _ hargs) (by simp [hne])
    obtain ⟨w, hw, hfirstNested⟩ := extreme_firstLeast (hseeks _ (hargs.mono hsub)) (by simp)
    exact ⟨r, v, w, hr, hv, hw, hsame _ hargs v hfirstAll.mem w (hsub hfirstNested.mem)
      (hfirst.key_eq_of_nested hfirstAll hfirstNested)⟩

end

/-- `MAX` selects by `>`, and `MIN` by `<`.  There is a result if and only if there is at most one
argument, or all are numbers or all are texts; else there is a mismatch in the call.  The result for
comparable arguments is the first one that no other is better than; if they are put into another
order, or a run of them into a call of its own, then the result is an equal one. -/
theorem extreme_selects : Selects .max .gt .gt ∧ Selects .min .lt .lt := by
  constructor
  · -- The greatest rank is the least one of the reversed order.
    refine selects_of_key (fun v => OrderDual.toDual v.rank)
      (fun args hargs v hv w hw => ?_) (fun args hargs v hv w hw => ?_)
      fun args hargs v hv w hw hkey => (hargs.same_iff hv hw).mpr (OrderDual.toDual_inj.mp hkey)
    · obtain ⟨o, ho, -, hgt⟩ := hargs.exists_ordering hv hw (.builtin .max)
      exact ⟨some o, ho, Option.some_inj.trans hgt⟩
    · obtain ⟨o, ho, -, hgt⟩ := hargs.exists_ordering hv hw (.compare .gt)
      exact (compare_gt_iff ho).trans hgt
  · refine selects_of_key Value.rank
      (fun args hargs v hv w hw => ?_) (fun args hargs v hv w hw => ?_)
      fun args hargs v hv w hw hkey => (hargs.same_iff hv hw).mpr hkey
    · obtain ⟨o, ho, hlt, -⟩ := hargs.exists_ordering hv hw (.builtin .min)
      exact ⟨some o, ho, Option.some_inj.trans hlt⟩
    · obtain ⟨o, ho, hlt, -⟩ := hargs.exists_ordering hv hw (.compare .lt)
      exact (compare_lt_iff ho).trans hlt

end Builtin

end Edict
