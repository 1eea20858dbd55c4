import Edict.Proofs.Run.Law
import Edict.Proofs.Value.Ordered

/-!
# Maps stay in order

A context is ordered if every map in its variables, in its loop value and in the answers of its
model has its entries in ascending order of keys, which is how a host keeps its maps.  Whatever an
expression evaluates to in such a context is ordered as well.

A law of computations says nothing about their results, so this is an induction of its own.  What it
shows of a computation (`Run.Yields`) is about the context that it leaves, whatever the outcome, and
about the result that it may have.

## Main definitions

* `Context.Ordered`: all maps of a context are in order.
* `Run.Yields`: from ordered contexts, a computation leads to ordered ones and to results with a
  property.

## Main statements

* `Builtin.call_yields`: calls of ordered arguments have ordered results.
* `Expr.eval_yields`: expressions have ordered values.  Statements are not considered.
-/

namespace Edict

/-! ## Ordered contexts -/

/-- All maps that a context holds have their entries in order. -/
structure Context.Ordered (c : Context) : Prop where
  vars : ∀ p ∈ c.vars, p.2.Ordered
  loop : ∀ v, c.loop = some v → v.Ordered
  model : ∀ m, c.model = some m → ∀ id v, m.node? id = some v ∨ m.link? id = some v → v.Ordered

namespace Context.Ordered

variable {c : Context} {x : String} {v : Value}

/-- A name has an ordered value. -/
theorem lookup (h : c.Ordered) (hv : c.lookup x = some v) : v.Ordered := by
  unfold Context.lookup at hv
  split at hv
  · exact h.loop v hv
  · exact h.vars _ (Entries.mem_of_find? hv)

/-- A name may be given an ordered value. -/
theorem bind (h : c.Ordered) (x : String) (hv : v.Ordered) : (c.bind x v).Ordered := by
  unfold Context.bind
  split
  · exact ⟨h.vars, fun w hw => Option.some.inj hw ▸ hv, h.model⟩
  · refine ⟨fun p hp => ?_, h.loop, h.model⟩
    rcases Entries.eq_or_mem_of_mem_insert hp with hpv | hp
    · rw [hpv]
      exact hv
    · exact h.vars p hp

end Context.Ordered

/-! ## Computations -/

namespace Run

variable {α β : Type} {Q : α → Prop} {R : β → Prop} {m : Run α} {f : α → Run β}

/-- From an ordered context, the computation leads to an ordered one, and to a result with the
property if it leads to a result. -/
def Yields (Q : α → Prop) (m : Run α) : Prop :=
  ∀ c, c.Ordered → ∀ r d, m c = some (r, d) → d.Ordered ∧ ∀ a, r = .ok a → Q a

/-- Nothing is said about the result. -/
def Any (_ : α) : Prop := True

namespace Yields

/-- A result has the property. -/
theorem pure {a : α} (h : Q a) : Yields Q (pure a) := by
  intro c hc r d hd
  cases hd
  refine ⟨hc, fun b hb => ?_⟩
  cases hb
  exact h

/-- A failure has no result. -/
theorem throw (f : Fault) : Yields Q (throw f) := by
  intro c hc r d hd
  cases hd
  exact ⟨hc, nofun⟩

/-- The second part of a sequence begins where the first one ends, in an ordered context. -/
theorem bind (hm : Yields Q m) (hf : ∀ a, Q a → Yields R (f a)) : Yields R (m >>= f) := by
  intro c hc r d h
  obtain ⟨g, hg, rfl⟩ | ⟨a, e, ha, hrest⟩ := cases_of_bind h
  · exact ⟨(hm c hc _ d hg).1, nofun⟩
  · obtain ⟨he, hQ⟩ := hm c hc _ e ha
    exact hf a (hQ a rfl) e he r d hrest

/-- A result that does not depend on the context. -/
theorem ofExcept {r : Except Fault α} (h : ∀ a, r = .ok a → Q a) : Yields Q (ofExcept r) := by
  cases r with
  | ok a => exact pure (h a rfl)
  | error f => exact throw f

/-- Computations one after the other have the results of each. -/
theorem all {ms : List (Run α)} (h : ∀ m ∈ ms, Yields Q m) :
    Yields (fun as => ∀ a ∈ as, Q a) (all ms) := by
  induction ms with
  | nil => exact pure fun _ => nofun
  | cons m ms ih =>
      obtain ⟨hm, hms⟩ := List.forall_mem_cons.mp h
      refine hm.bind fun a ha => (ih hms).bind fun as has => pure ?_
      exact List.forall_mem_cons.mpr ⟨ha, has⟩

/-! ### Steps of programs -/

/-- A name has an ordered value. -/
theorem lookup (x : String) : Yields Value.Ordered (lookup x) := by
  intro c hc r d h
  rw [lookup_apply] at h
  rcases hx : c.lookup x with _ | v
  · rw [hx] at h
    cases h
    exact ⟨hc, nofun⟩
  · rw [hx] at h
    cases h
    refine ⟨hc, fun w hw => ?_⟩
    cases hw
    exact hc.lookup hx

/-- The model answers with ordered values. -/
theorem domainObject (f : Builtin) {find : Model → Value → Option Value}
    (hfind : ∀ m id v, find m id = some v → m.node? id = some v ∨ m.link? id = some v) (id : Value) :
    Yields Value.Ordered (domainObject f find id) := by
  intro c hc r d h
  rw [domainObject_apply] at h
  rcases hm : c.model with _ | m
  · rw [hm] at h
    cases h
    exact ⟨hc, nofun⟩
  · rw [hm] at h
    cases h
    refine ⟨hc, fun w hw => ?_⟩
    cases hw
    rcases hfound : find m id with _ | v
    · exact Value.ordered_absent
    · exact hc.model m hm id v (hfind m id v hfound)

/-- Giving a name a value. -/
theorem bindName (x : String) {v : Value} (hv : v.Ordered) : Yields Any (Run.bind x v) := by
  intro c hc r d h
  cases h
  exact ⟨hc.bind x hv, fun _ _ => trivial⟩

/-- Changing a variable, if the change keeps values ordered. -/
theorem update (x : String) {change : Value → Except Fault Value}
    (h : ∀ u w, u.Ordered → change u = .ok w → w.Ordered) : Yields Any (update x change) :=
  (lookup x).bind fun u hu => (ofExcept fun w hw => h u w hu hw).bind fun _ hw => bindName x hw

/-- What is read along a path is ordered. -/
theorem readPath (root : String) (keys : List Key) : Yields Value.Ordered (readPath root keys) :=
  (lookup root).bind fun _ hu => ofExcept fun _ hw => hu.read hw

/-- Logging changes nothing that must be ordered. -/
theorem log (v : Value) : Yields Any (log v) := by
  intro c hc r d h
  cases h
  exact ⟨⟨hc.vars, hc.loop, hc.model⟩, fun _ _ => trivial⟩

end Yields

end Run

open Run (Yields Any)

/-! ## Expressions -/

/-- What a call needs of an argument. -/
def Argument.Yields (a : Argument) : Prop :=
  Run.Yields Value.Ordered a.value ∧ ∀ place ∈ a.place?, Run.Yields Any place.2

/-- Pushing an ordered value onto a list. -/
theorem Builtin.push_yields {target item : Argument} (htarget : target.Yields) (hitem : item.Yields) :
    Yields Any (Builtin.push target item) := by
  unfold Builtin.push
  split
  · rename_i root path hplace
    refine hitem.1.bind fun v hv => (htarget.2 _ hplace).bind fun keys _ => ?_
    exact .update root fun _ _ hu hw => hu.append hv hw
  · exact .throw _

/-- A call with ordered arguments has an ordered result. -/
theorem Builtin.call_yields (name : String) {args : List Argument} (h : ∀ a ∈ args, a.Yields) :
    Yields Value.Ordered (Builtin.call name args) := by
  have hvalues : ∀ m ∈ args.map Argument.value, Yields Value.Ordered m := by
    intro m hm
    obtain ⟨a, ha, rfl⟩ := List.mem_map.mp hm
    exact (h a ha).1
  have hnumber : ∀ {f : Builtin} {g : Float → Float} {v w : Value},
      Builtin.onNumber f g v = .ok w → w.Ordered := by
    intro f g v w hw
    cases v <;> cases hw
    simp [Value.Ordered]
  unfold Builtin.call
  split
  · exact .throw _
  · rename_i f _
    refine (Yields.ofExcept (Q := Any) fun _ _ => trivial).bind fun _ _ => ?_
    split
    · exact (Yields.all hvalues).bind fun vs hvs =>
        .ofExcept fun _ hv => Builtin.ordered_of_extreme hvs hv
    · exact (Yields.all hvalues).bind fun vs hvs =>
        .ofExcept fun _ hv => Builtin.ordered_of_extreme hvs hv
    · exact (h _ List.mem_cons_self).1.bind fun _ _ => .ofExcept fun _ => hnumber
    · exact (h _ List.mem_cons_self).1.bind fun _ _ => .ofExcept fun _ => hnumber
    · exact (h _ List.mem_cons_self).1.bind fun _ _ => .ofExcept fun _ => hnumber
    · refine (h _ List.mem_cons_self).1.bind fun v _ => ?_
      exact (Yields.log v).bind fun _ _ => .pure Value.ordered_absent
    · have htarget := h _ List.mem_cons_self
      have hitem := h _ (List.mem_cons_of_mem _ List.mem_cons_self)
      exact (Builtin.push_yields htarget hitem).bind fun _ _ => .pure Value.ordered_absent
    · exact (h _ List.mem_cons_self).1.bind fun id _ => .domainObject _ (fun _ _ _ => .inl) id
    · exact (h _ List.mem_cons_self).1.bind fun id _ => .domainObject _ (fun _ _ _ => .inr) id
    · exact .throw _

mutual

/-- An expression evaluates to an ordered value. -/
theorem Expr.eval_yields : ∀ e : Expr, Yields Value.Ordered e.eval
  | .lit l => .pure (by cases l <;> simp [Literal.value, Value.Ordered])
  | .ident name => .lookup name
  | .property base path => (Step.evalAll_yields path).bind fun keys _ => .readPath base keys
  | .call f args => Builtin.call_yields f (Expr.arguments_yields args)
  | .object entries => (Expr.evalEntries_yields entries).bind fun _ hpairs =>
      .pure (Value.ordered_ofList hpairs)
  | .arith l op r => l.eval_yields.bind fun _ _ => r.eval_yields.bind fun _ _ =>
      .ofExcept fun _ => Value.ordered_of_arith
  | .concat parts => (Expr.evalAll_yields parts).bind fun _ _ => .pure (by simp [Value.Ordered])
  | .compare l op r => l.eval_yields.bind fun _ _ => r.eval_yields.bind fun _ _ =>
      (Yields.ofExcept (Q := Any) fun _ _ => trivial).bind fun _ _ => .pure (by simp [Value.Ordered])
  | .group l _ none _ => by
      rw [Expr.eval]
      · exact l.eval_yields
      · exact nofun
  | .group l none (some _) _ => l.eval_yields
  | .group l (some _) (some r) _ => l.eval_yields.bind fun _ _ => r.eval_yields.bind fun _ _ =>
      .pure (by simp [Value.Ordered])

/-- The same for several expressions. -/
theorem Expr.evalAll_yields : ∀ es : List Expr, Yields (fun vs => ∀ v ∈ vs, v.Ordered) (Expr.evalAll es)
  | [] => .pure fun _ => nofun
  | e :: es => e.eval_yields.bind fun _ hv => (Expr.evalAll_yields es).bind fun _ hvs =>
      .pure (List.forall_mem_cons.mpr ⟨hv, hvs⟩)

/-- The same for the entries of an object. -/
theorem Expr.evalEntries_yields : ∀ es : List (String × Expr),
    Yields (fun ps => ∀ p ∈ ps, p.2.Ordered) (Expr.evalEntries es)
  | [] => .pure fun _ => nofun
  | (_, e) :: es => e.eval_yields.bind fun _ hv => (Expr.evalEntries_yields es).bind fun _ hps =>
      .pure (List.forall_mem_cons.mpr ⟨hv, hps⟩)

/-- The keys of a path may be any. -/
theorem Step.evalAll_yields : ∀ path : List Step, Yields Any (Step.evalAll path)
  | [] => .pure trivial
  | .field _ :: path => (Step.evalAll_yields path).bind fun _ _ => .pure trivial
  | .index e :: path => e.eval_yields.bind fun _ _ => (Step.evalAll_yields path).bind fun _ _ =>
      .pure trivial

/-- The keys of the place that an expression is. -/
theorem Expr.place_yields : ∀ e : Expr, ∀ place ∈ e.place?, Yields Any place.2
  | .ident _, _, rfl => .pure trivial
  | .property _ path, _, rfl => Step.evalAll_yields path

/-- The arguments of a call. -/
theorem Expr.arguments_yields : ∀ es : List Expr, ∀ a ∈ Expr.arguments es, a.Yields
  | [], _, ha => by cases ha
  | e :: es, a, ha => by
      rcases List.mem_cons.mp ha with rfl | ha
      · exact ⟨e.eval_yields, e.place_yields⟩
      · exact Expr.arguments_yields es a ha

end

end Edict
