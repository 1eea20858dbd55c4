import Edict.Proofs.Run.Law

/-!
# Inside and outside of loops

The loop slot has a value while the body of a loop runs.  Outside of loops a program begins with an
empty slot, so what may be said of a statement depends on whether it stands in the body of a loop.
`Stmt.outside` lists the statements in it that do not, and `ScopeLaw P Q` says of two properties
that `P` holds of a loop as soon as `Q` holds of its body.

If outside of loops every statement obeys `P` by itself, and everywhere every statement obeys `Q`,
then the program as a whole has the property `P` (`Stmt.execAll_scoped`).  This is the only
induction over programs that such properties need; a law that does not tell the two places apart is
the case in which `P` and `Q` are the same (`Stmt.execAll_law`).

## Main definitions

* `Stmt.outside`, `Program.namesOutside`: the statements of a program that stand in no loop, and the
  names that they mention, headers of loops included.
* `Run.ScopeLaw`: a property of what stands outside of loops, given one of what stands inside.

## Main statements

* `Stmt.execAll_scoped`: statements inherit such a pair of properties from what each does itself.
* `Stmt.execAll_law`, `Stmt.execAll_outside`: the cases in which the two properties are the same,
  and in which nothing is asked inside of loops.
-/

namespace Edict

open Run

/-! ## Statements that stand in no loop -/

mutual

/-- A statement and the statements inside it that stand in no body of a loop. -/
def Stmt.outside : Stmt → List Stmt
  | .assign target op value => [.assign target op value]
  | .branch c t none => .branch c t none :: Stmt.outsideAll t
  | .branch c t (some e) => .branch c t (some e) :: (Stmt.outsideAll t ++ Stmt.outsideAll e)
  | .count limit body => [.count limit body]
  | .each source body => [.each source body]
  | .call f args => [.call f args]

/-- The statements of a list, and those inside them that stand in no body of a loop. -/
def Stmt.outsideAll : List Stmt → List Stmt
  | [] => []
  | s :: rest => s.outside ++ Stmt.outsideAll rest

end

mutual

/-- What stands in no loop of a statement is one of the statements in it. -/
theorem Stmt.outside_subset : ∀ s : Stmt, s.outside ⊆ s.nested
  | .assign _ _ _ => List.Subset.refl _
  | .branch _ t none => List.cons_subset_cons _ (Stmt.outsideAll_subset t)
  | .branch _ t (some e) => by
      apply List.cons_subset_cons
      apply List.append_subset.mpr
      constructor
      · exact List.subset_append_of_subset_left _ (Stmt.outsideAll_subset t)
      · exact List.subset_append_of_subset_right _ (Stmt.outsideAll_subset e)
  | .count _ _ => List.cons_subset_cons _ (List.nil_subset _)
  | .each _ _ => List.cons_subset_cons _ (List.nil_subset _)
  | .call _ _ => List.Subset.refl _

/-- The same for several statements. -/
theorem Stmt.outsideAll_subset : ∀ ss : List Stmt, Stmt.outsideAll ss ⊆ Stmt.nestedAll ss
  | [] => List.Subset.refl _
  | s :: ss => by
      apply List.append_subset.mpr
      constructor
      · exact List.subset_append_of_subset_left _ (Stmt.outside_subset s)
      · exact List.subset_append_of_subset_right _ (Stmt.outsideAll_subset ss)

end

/-- The names that occur in a program outside of the bodies of its loops. -/
def Program.namesOutside (p : Program) : List String :=
  (Stmt.outsideAll p).flatMap Stmt.mentions

/-! ## Laws inside and outside -/

/-- A law that loops obey whose bodies have another property. -/
structure Run.ScopeLaw (P Q : {α : Type} → Run α → Prop) : Prop extends Law @P where
  each {body : Run Unit} (items : List Value) : Q body → P (ownLoop (forEach body items))
  count {body : Run Unit} (limit : Float) : Q body → P (Run.count body limit)

/-- A law that holds with a loop slot of one's own is the same inside and outside. -/
theorem Run.LoopLaw.scopeLaw {P : {α : Type} → Run α → Prop} (law : LoopLaw @P) :
    ScopeLaw @P @P where
  toLaw := law.toLaw
  each items h := law.ownLoop (law.forEach h items)
  count limit h := law.count h limit

mutual

/-- A statement has a property that the statements in it have by themselves, if these have another
property where they stand in loops. -/
theorem Stmt.exec_scoped {P Q : {α : Type} → Run α → Prop} (law : ScopeLaw @P @Q)
    (body : ScopeLaw @Q @Q) : ∀ s : Stmt, (∀ t ∈ s.outside, t.Obeys @P) →
      (∀ t ∈ s.nested, t.Obeys @Q) → P s.exec
  | .assign target op value, hout, _ =>
      Stmt.assign_law law.toLaw (hout _ List.mem_cons_self)
  | .branch c t none, hout, hin => by
      obtain ⟨hown, hout⟩ := List.forall_mem_cons.mp hout
      obtain ⟨-, hin⟩ := List.forall_mem_cons.mp hin
      apply law.bind (hown.eval law.toLaw List.mem_cons_self)
      intro v
      split
      · exact Stmt.execAll_scoped law body t hout hin
      · exact law.pure ()
  | .branch c t (some e), hout, hin => by
      obtain ⟨hown, hout⟩ := List.forall_mem_cons.mp hout
      obtain ⟨-, hin⟩ := List.forall_mem_cons.mp hin
      obtain ⟨htout, heout⟩ := List.forall_mem_append.mp hout
      obtain ⟨htin, hein⟩ := List.forall_mem_append.mp hin
      apply law.bind (hown.eval law.toLaw List.mem_cons_self)
      intro v
      split
      · exact Stmt.execAll_scoped law body t htout htin
      · exact Stmt.execAll_scoped law body e heout hein
  | .count limit ss, hout, hin => by
      obtain ⟨-, hin⟩ := List.forall_mem_cons.mp hin
      -- in its body the statement goes on with the property of bodies
      have hbody : Q (Stmt.execAll ss) :=
        Stmt.execAll_scoped body body ss (fun t ht => hin t (Stmt.outsideAll_subset ss ht)) hin
      apply law.bind ((hout _ List.mem_cons_self).eval law.toLaw List.mem_cons_self)
      intro v
      cases v with
      | number n => exact law.count n hbody
      | _ => exact law.throw _ (Fault.wrongKind_immediate _ _ _)
  | .each source ss, hout, hin => by
      obtain ⟨-, hin⟩ := List.forall_mem_cons.mp hin
      have hbody : Q (Stmt.execAll ss) :=
        Stmt.execAll_scoped body body ss (fun t ht => hin t (Stmt.outsideAll_subset ss ht)) hin
      apply law.bind (Source.elements_law law.toLaw (hout _ List.mem_cons_self))
      intro items
      exact law.each items hbody
  | .call f args, hout, _ => Stmt.call_law law.toLaw (hout _ List.mem_cons_self)

/-- The same for statements in order. -/
theorem Stmt.execAll_scoped {P Q : {α : Type} → Run α → Prop} (law : ScopeLaw @P @Q)
    (body : ScopeLaw @Q @Q) : ∀ ss : List Stmt, (∀ t ∈ Stmt.outsideAll ss, t.Obeys @P) →
      (∀ t ∈ Stmt.nestedAll ss, t.Obeys @Q) → P (Stmt.execAll ss)
  | [], _, _ => law.pure ()
  | s :: ss, hout, hin => by
      obtain ⟨hsout, hssout⟩ := List.forall_mem_append.mp hout
      obtain ⟨hsin, hssin⟩ := List.forall_mem_append.mp hin
      apply law.bind (Stmt.exec_scoped law body s hsout hsin)
      intro _
      exact Stmt.execAll_scoped law body ss hssout hssin

end

/-- If loops obey a law whatever their bodies do, then nothing is asked of what stands in loops. -/
theorem Stmt.execAll_outside {P : {α : Type} → Run α → Prop} (law : ScopeLaw @P fun _ => True)
    (ss : List Stmt) (h : ∀ t ∈ Stmt.outsideAll ss, t.Obeys @P) : P (Stmt.execAll ss) := by
  have hall : ∀ e : Expr, e.Own fun _ => True := fun e => by constructor <;> intros <;> trivial
  refine Stmt.execAll_scoped law ?_ ss h fun t _ => ⟨⟨?_, ?_⟩, fun x _ => hall x⟩
  · exact ⟨⟨fun _ => trivial, fun _ _ => trivial, fun _ _ => trivial⟩, fun _ _ => trivial,
      fun _ _ => trivial⟩
  · intros
    trivial
  · exact fun f args _ => hall _

/-- Statements in order obey a law that each statement in them, and what these evaluate, obey by
themselves. -/
theorem Stmt.execAll_law {P : {α : Type} → Run α → Prop} (law : LoopLaw @P) (ss : List Stmt)
    (h : ∀ t ∈ Stmt.nestedAll ss, t.Obeys @P) : P (Stmt.execAll ss) :=
  Stmt.execAll_scoped law.scopeLaw law.scopeLaw ss
    (fun t ht => h t (Stmt.outsideAll_subset ss ht)) h

end Edict
