import Edict.Proofs.Run.Steps
import Edict.Proofs.Run.Terms
import Edict.Proofs.Value.Ending

/-!
# Laws of computations

A property that a sequence of computations inherits from its parts is a *law* (`Run.Law`).  Programs
are put together from few basic computations: reading a name, writing one, logging, asking the
model, and binding a loop value.  An expression obeys a law that the basic computations of its parts
obey, and so does a statement that has no body.  Branches and loops are added in the next module.

A law may speak of one run ("the variables stay as they are") or of two ("from contexts that agree,
the results agree").  It may be about computations that have no end as well as about the others.

## Main definitions

* `Run.Law`, `Run.LoopLaw`: what sequences inherit, and what loops inherit besides.  A counted loop
  is a limit of loops with a bound, so a law of loops must be kept by limits.
* `Run.Moves`, `Run.Keeps`: whatever its outcome, a computation leads to a related context, or
  leaves a part of the context as it is.
* `Expr.Own`, `Stmt.Own`, `Stmt.Obeys`: what an expression or a statement does itself obeys a
  property.

## Main statements

* `Run.law_moves`, `Run.loopLaw_moves`: staying within a reflexive and transitive relation is a law.
* `Builtin.call_law`, `Expr.eval_law`: calls and expressions obey a law that the basic computations
  of their parts obey.  Nothing is said about programs yet.
* `Stmt.assign_law`, `Stmt.call_law`, `Source.elements_law`: so do assignments, calls as statements,
  and what a loop runs through.
-/

namespace Edict

open Run

variable {P : {α : Type} → Run α → Prop}

namespace Run

/-- A property that sequences inherit from their parts.  Of the faults, only the immediate ones must
have it: an unbound name is noticed where a name is read. -/
structure Law (P : {α : Type} → Run α → Prop) : Prop where
  pure {α : Type} (a : α) : P (pure a : Run α)
  throw {α : Type} (f : Fault) : f.Immediate → P (throw f : Run α)
  bind {α β : Type} {m : Run α} {f : α → Run β} : P m → (∀ a, P (f a)) → P (m >>= f)

/-- A law that holds with a loop slot of one's own as well, and in the limit. -/
structure LoopLaw (P : {α : Type} → Run α → Prop) : Prop extends Law @P where
  setLoop (v : Value) : P (setLoop v)
  ownLoop {m : Run Unit} : P m → P (ownLoop m)
  never : P (never : Run Unit)
  limit {ms : Nat → Run Unit} {m : Run Unit} : (∀ n, P (ms n)) → Approaches ms m → P m

/-! ## Computations of the library -/

namespace Law

variable (law : Law @P) {α : Type}
include law

/-- A result that does not depend on the context. -/
theorem ofExcept {r : Except Fault α} (h : Ends r) : P (Run.ofExcept r) := by
  cases r with
  | ok a => exact law.pure a
  | error f => exact law.throw f (h f rfl)

/-- Computations one after the other. -/
theorem all {ms : List (Run α)} (h : ∀ m ∈ ms, P m) : P (Run.all ms) := by
  induction ms with
  | nil => exact law.pure []
  | cons m ms ih =>
      refine law.bind (h m List.mem_cons_self) fun a => ?_
      refine law.bind (ih fun n hn => h n (List.mem_cons_of_mem _ hn)) fun as => ?_
      exact law.pure (a :: as)

/-- A computation for its effect. -/
theorem discard {m : Run α} (h : P m) : P (discard m) := by
  rw [discard_eq]
  exact law.bind h fun _ => law.pure _

/-- Reading along a path. -/
theorem readPath {root : String} (h : P (lookup root)) (keys : List Key) :
    P (readPath root keys) :=
  law.bind h fun v => law.ofExcept (Value.read_ends keys v)

end Law

namespace LoopLaw

variable (law : LoopLaw @P)
include law

/-- A loop over values. -/
theorem forEach {body : Run Unit} (h : P body) (vs : List Value) : P (Run.forEach body vs) := by
  induction vs with
  | nil => exact law.pure ()
  | cons v vs ih => exact law.bind (law.setLoop v) fun _ => law.bind h fun _ => ih

/-- A counted loop with a bound. -/
theorem countFor {body : Run Unit} (h : P body) (limit : Float) (n : Nat) (index : Float) :
    P (Run.countFor body limit n index) := by
  induction n generalizing index with
  | zero => exact law.never
  | succ n ih =>
      unfold Run.countFor
      split
      · exact law.bind (law.setLoop _) fun _ => law.bind h fun _ => ih (index + 1)
      · exact law.pure ()

/-- A counted loop is the limit of those with a bound. -/
theorem count {body : Run Unit} (h : P body) (limit : Float) : P (Run.count body limit) := by
  unfold Run.count
  split
  · exact law.ownLoop (law.limit (fun n => law.countFor h limit n 0) (countFor_approaches _ _ _))
  · exact law.pure ()

end LoopLaw

/-! ## Laws about the context that is left -/

section moves

variable {α β : Type} {R : Context → Context → Prop}

/-- Whatever its outcome, the computation leads from each context to a related one. -/
def Moves (R : Context → Context → Prop) (m : Run α) : Prop :=
  ∀ c r d, m c = some (r, d) → R c d

/-- A part of the context that the computation leaves as it finds it, whatever its outcome. -/
def Keeps (part : Context → β) (m : Run α) : Prop := Moves (fun c d => part d = part c) m

/-- Sequences stay within a reflexive and transitive relation if their parts do. -/
theorem law_moves (hrefl : ∀ c, R c c) (htrans : ∀ {c d e}, R c d → R d e → R c e) :
    Law (Moves R) where
  pure a c r d h := by
    cases h
    exact hrefl c
  throw f _ c r d h := by
    cases h
    exact hrefl c
  bind hm hf c r d h := by
    obtain ⟨g, hg, -⟩ | ⟨a, e, ha, hrest⟩ := cases_of_bind h
    · exact hm c _ d hg
    · exact htrans (hm c _ e ha) (hf a e r d hrest)

/-- So do loops, if the loop slot is no concern of the relation. -/
theorem loopLaw_moves (hrefl : ∀ c, R c c) (htrans : ∀ {c d e}, R c d → R d e → R c e)
    (hloop : ∀ c v, R c { c with loop := v }) : LoopLaw (Moves R) where
  toLaw := law_moves hrefl htrans
  setLoop v c r d h := by
    cases h
    exact hloop c (some v)
  ownLoop hm c r d h := by
    obtain ⟨e, he, rfl⟩ := ownLoop_eq_some_iff.mp h
    exact htrans (htrans (hloop c none) (hm _ r e he)) (hloop e c.loop)
  never _ _ _ h := nomatch h
  limit hms happroaches c r d h := by
    obtain ⟨n, hn⟩ := happroaches c
    exact hms n c r d ((hn n (Nat.le_refl n)).trans h)

/-- What each part leaves as it is, the whole leaves as it is. -/
theorem law_keeps (part : Context → β) : Law (Keeps part) :=
  law_moves (fun _ => rfl) fun h k => k.trans h

/-- What does not depend on the loop slot is no concern of loops. -/
theorem loopLaw_keeps (part : Context → β) (h : ∀ c v, part { c with loop := v } = part c) :
    LoopLaw (Keeps part) :=
  loopLaw_moves (fun _ => rfl) (fun h k => k.trans h) h

/-- A computation that leaves the context as it is stays within every reflexive relation. -/
theorem moves_of_keeps (hrefl : ∀ c, R c c) {m : Run α} (h : Keeps id m) : Moves R m := by
  intro c r d hm
  obtain rfl : d = c := h c r d hm
  exact hrefl d

/-! ### Steps of programs -/

section steps

variable {part : Context → β} {x : String}

/-- Reading a name leaves everything as it is. -/
theorem lookup_keeps (part : Context → β) (x : String) : Keeps part (lookup x) := by
  intro c r d h
  rw [lookup_apply] at h
  split at h <;> cases h <;> rfl

/-- Asking the model leaves everything as it is. -/
theorem domainObject_keeps (part : Context → β) (f : Builtin)
    (find : Model → Value → Option Value) (id : Value) : Keeps part (domainObject f find id) := by
  intro c r d h
  rw [domainObject_apply] at h
  split at h <;> cases h <;> rfl

/-- Changing a variable leaves what does not depend on it. -/
theorem update_keeps (h : ∀ c v, part (c.bind x v) = part c)
    (change : Value → Except Fault Value) : Keeps part (update x change) := by
  intro c r d hd
  rw [update_apply] at hd
  split at hd
  · cases hd
    rfl
  · split at hd
    · cases hd
      exact h c _
    · cases hd
      rfl

/-- Assigning to a variable, or along a path from it, leaves what does not depend on it. -/
theorem store_keeps (h : ∀ c v, part (c.bind x v) = part c) (keys : List Key) (op : AssignOp)
    (v : Value) : Keeps part (store x keys op v) := by
  unfold store
  split
  · exact update_keeps h _
  · split
    · intro c r d hd
      cases hd
      exact h c v
    · exact update_keeps h _

end steps

end moves

end Run

/-! ## Expressions -/

/-- What an expression does itself, once its operands have their values, obeys the property. -/
structure Expr.Own (P : {α : Type} → Run α → Prop) (e : Expr) : Prop where
  read : ∀ root ∈ e.root?, P (Run.lookup root)
  log : e.builtin? = some .log → ∀ v, P (Run.log v)
  node : e.builtin? = some .getNode → ∀ id, P (Run.domainObject .getNode Model.node? id)
  link : e.builtin? = some .getLink → ∀ id, P (Run.domainObject .getLink Model.link? id)
  push : ∀ root ∈ e.pushed?, ∀ keys v, P (Run.update root (Value.append v keys))

/-- What an expression does itself leaves what depends neither on the log nor on the list that it
pushes onto. -/
theorem Expr.own_keeps {β : Type} {part : Context → β} {e : Expr}
    (hlog : ∀ c log, part { c with log := log } = part c)
    (hpush : ∀ root ∈ e.pushed?, ∀ c v, part (c.bind root v) = part c) : e.Own (Keeps part) where
  read root _ := lookup_keeps part root
  log _ v c r d h := by
    cases h
    exact hlog c (c.log.send v)
  node _ id := domainObject_keeps part _ _ id
  link _ id := domainObject_keeps part _ _ id
  push root hroot _ _ := update_keeps (hpush root hroot) _

/-- A call whose arguments obey the law, as does its own effect. -/
theorem Builtin.call_law (law : Law @P) {name : String} {args : List Argument}
    (hargs : ∀ a ∈ args, P a.value ∧ ∀ place ∈ a.place?, P place.2)
    (hlog : Builtin.ofName? name = some .log → ∀ v, P (Run.log v))
    (hnode : Builtin.ofName? name = some .getNode →
      ∀ id, P (domainObject .getNode Model.node? id))
    (hlink : Builtin.ofName? name = some .getLink →
      ∀ id, P (domainObject .getLink Model.link? id))
    (hpush : Builtin.ofName? name = some .append → ∀ target item, args = [target, item] →
      ∀ place ∈ target.place?, ∀ keys v, P (update place.1 (Value.append v keys))) :
    P (Builtin.call name args) := by
  have hvalues : ∀ m ∈ args.map Argument.value, P m := by
    intro m hm
    obtain ⟨a, ha, rfl⟩ := List.mem_map.mp hm
    exact (hargs a ha).1
  unfold Builtin.call
  split
  · exact law.throw _ trivial
  · rename_i f hname
    refine law.bind (law.ofExcept (f.checkArity_ends _)) fun _ => ?_
    split
    · exact law.bind (law.all hvalues) fun vs => law.ofExcept (extreme_ends _ _ vs)
    · exact law.bind (law.all hvalues) fun vs => law.ofExcept (extreme_ends _ _ vs)
    · exact law.bind (hargs _ List.mem_cons_self).1 fun v => law.ofExcept (onNumber_ends _ _ v)
    · exact law.bind (hargs _ List.mem_cons_self).1 fun v => law.ofExcept (onNumber_ends _ _ v)
    · exact law.bind (hargs _ List.mem_cons_self).1 fun v => law.ofExcept (onNumber_ends _ _ v)
    · refine law.bind (hargs _ List.mem_cons_self).1 fun v => ?_
      exact law.bind (hlog hname v) fun _ => law.pure _
    · rename_i target item
      refine law.bind ?_ fun _ => law.pure _
      obtain ⟨-, hplace⟩ := hargs target List.mem_cons_self
      obtain ⟨hitem, -⟩ := hargs item (List.mem_cons_of_mem _ List.mem_cons_self)
      unfold Builtin.push
      split
      · rename_i root path htarget
        refine law.bind hitem fun v => law.bind (hplace _ htarget) fun keys => ?_
        exact hpush hname target item rfl (root, path) htarget keys v
      · exact law.throw _ trivial
    · refine law.bind (hargs _ List.mem_cons_self).1 fun v => ?_
      exact hnode hname v
    · refine law.bind (hargs _ List.mem_cons_self).1 fun v => ?_
      exact hlink hname v
    · exact law.throw _ trivial

/-- A call expression whose arguments obey the law, as does what it does itself. -/
theorem Expr.call_law (law : Law @P) {f : String} {args : List Expr}
    (hargs : ∀ a ∈ Expr.arguments args, P a.value ∧ ∀ place ∈ a.place?, P place.2)
    (hown : (Expr.call f args).Own @P) : P (Builtin.call f (Expr.arguments args)) := by
  refine Builtin.call_law law hargs hown.log hown.node hown.link ?_
  intro happend target item hargs place hplace keys v
  rcases args with _ | ⟨e, args⟩
  · cases hargs
  · obtain ⟨rfl, -⟩ := List.cons_eq_cons.mp hargs
    cases e <;> cases hplace <;>
      exact hown.push _ (by simp [Expr.pushed?, Expr.root?, happend]) keys v

mutual

/-- The value of an expression obeys a law that each expression in it obeys by itself. -/
theorem Expr.eval_law (law : Law @P) : ∀ e : Expr, (∀ x ∈ e.subterms, x.Own @P) → P e.eval
  | .lit _, _ => law.pure _
  | .ident _, h => (List.forall_mem_cons.mp h).1.read _ rfl
  | .property base path, h => by
      obtain ⟨hown, hpath⟩ := List.forall_mem_cons.mp h
      exact law.bind (Step.evalAll_law law path hpath) fun keys => law.readPath (hown.read base rfl) keys
  | .call f args, h => by
      obtain ⟨hown, hargs⟩ := List.forall_mem_cons.mp h
      exact Expr.call_law law (Expr.arguments_law law args hargs) hown
  | .object entries, h => by
      obtain ⟨-, hentries⟩ := List.forall_mem_cons.mp h
      exact law.bind (Expr.evalEntries_law law entries hentries) fun _ => law.pure _
  | .arith l op r, h => by
      obtain ⟨-, h⟩ := List.forall_mem_cons.mp h
      obtain ⟨hl, hr⟩ := List.forall_mem_append.mp h
      exact law.bind (Expr.eval_law law l hl) fun _ => law.bind (Expr.eval_law law r hr) fun _ =>
        law.ofExcept (Value.arith_ends op _ _)
  | .concat parts, h => by
      obtain ⟨-, hparts⟩ := List.forall_mem_cons.mp h
      exact law.bind (Expr.evalAll_law law parts hparts) fun _ => law.pure _
  | .compare l op r, h => by
      obtain ⟨-, h⟩ := List.forall_mem_cons.mp h
      obtain ⟨hl, hr⟩ := List.forall_mem_append.mp h
      exact law.bind (Expr.eval_law law l hl) fun _ => law.bind (Expr.eval_law law r hr) fun _ =>
        law.bind (law.ofExcept (Value.compare_ends op _ _)) fun _ => law.pure _
  | .group l _ none _, h => by
      obtain ⟨-, hl⟩ := List.forall_mem_cons.mp h
      rw [Expr.eval]
      · exact Expr.eval_law law l hl
      · exact nofun
  | .group l none (some _) _, h => by
      obtain ⟨-, h⟩ := List.forall_mem_cons.mp h
      exact Expr.eval_law law l (List.forall_mem_append.mp h).1
  | .group l (some _) (some r) _, h => by
      obtain ⟨-, h⟩ := List.forall_mem_cons.mp h
      obtain ⟨hl, hr⟩ := List.forall_mem_append.mp h
      exact law.bind (Expr.eval_law law l hl) fun _ => law.bind (Expr.eval_law law r hr) fun _ =>
        law.pure _

/-- The same for the values of several expressions. -/
theorem Expr.evalAll_law (law : Law @P) : ∀ es : List Expr, (∀ x ∈ Expr.subtermsAll es, x.Own @P) →
    P (Expr.evalAll es)
  | [], _ => law.pure _
  | e :: es, h => by
      obtain ⟨he, hes⟩ := List.forall_mem_append.mp h
      exact law.bind (Expr.eval_law law e he) fun _ => law.bind (Expr.evalAll_law law es hes) fun _ =>
        law.pure _

/-- The same for the entries of an object. -/
theorem Expr.evalEntries_law (law : Law @P) : ∀ es : List (String × Expr),
    (∀ x ∈ Expr.subtermsEntries es, x.Own @P) → P (Expr.evalEntries es)
  | [], _ => law.pure _
  | (_, e) :: es, h => by
      obtain ⟨he, hes⟩ := List.forall_mem_append.mp h
      exact law.bind (Expr.eval_law law e he) fun _ =>
        law.bind (Expr.evalEntries_law law es hes) fun _ => law.pure _

/-- The same for the keys of a path. -/
theorem Step.evalAll_law (law : Law @P) : ∀ path : List Step,
    (∀ x ∈ Step.subtermsAll path, x.Own @P) → P (Step.evalAll path)
  | [], _ => law.pure _
  | .field _ :: path, h => law.bind (Step.evalAll_law law path h) fun _ => law.pure _
  | .index e :: path, h => by
      obtain ⟨he, hpath⟩ := List.forall_mem_append.mp h
      exact law.bind (Expr.eval_law law e he) fun _ =>
        law.bind (Step.evalAll_law law path hpath) fun _ => law.pure _

/-- The same for the place that an expression is. -/
theorem Expr.place_law (law : Law @P) : ∀ e : Expr, (∀ x ∈ e.subterms, x.Own @P) →
    ∀ place ∈ e.place?, P place.2
  | .ident _, _, _, rfl => law.pure []
  | .property _ path, h, _, rfl => Step.evalAll_law law path (List.forall_mem_cons.mp h).2

/-- The same for the arguments of a call. -/
theorem Expr.arguments_law (law : Law @P) : ∀ es : List Expr, (∀ x ∈ Expr.subtermsAll es, x.Own @P) →
    ∀ a ∈ Expr.arguments es, P a.value ∧ ∀ place ∈ a.place?, P place.2
  | [], _, _, ha => by cases ha
  | e :: es, h, a, ha => by
      obtain ⟨he, hes⟩ := List.forall_mem_append.mp h
      rcases List.mem_cons.mp ha with rfl | ha
      · exact ⟨Expr.eval_law law e he, Expr.place_law law e he⟩
      · exact Expr.arguments_law law es hes a ha

end

/-- A reference evaluates to what is read at it. -/
theorem Expr.eval_toExpr (r : Reference) : r.toExpr.eval = r.read := by
  cases r <;> rfl

/-- What is read at a reference is read along its path, which has no keys if it is a name. -/
theorem Reference.read_eq (r : Reference) :
    r.read = Step.evalAll r.steps >>= fun keys => Run.readPath r.root keys := by
  cases r with
  | ident name => exact (bind_pure (Run.lookup name)).symm
  | property base path => rfl

/-- A path has as many keys as it has steps. -/
theorem Step.length_evalAll {path : List Step} {c d : Context} {keys : List Key}
    (h : Step.evalAll path c = some (.ok keys, d)) : keys.length = path.length := by
  induction path generalizing c d keys with
  | nil =>
      cases h
      rfl
  | cons step path ih =>
      cases step with
      | field name =>
          obtain ⟨more, e, hmore, h⟩ := exists_of_bind_ok h
          cases h
          simp [ih hmore]
      | index key =>
          obtain ⟨v, e, -, h⟩ := exists_of_bind_ok h
          obtain ⟨more, e', hmore, h⟩ := exists_of_bind_ok h
          cases h
          simp [ih hmore]

/-! ## Statements -/

/-- What a statement does itself, once its operands have their values, obeys the property. -/
structure Stmt.Own (P : {α : Type} → Run α → Prop) (s : Stmt) : Prop where
  store : ∀ target op value, s = .assign target op value → ∀ keys v,
    keys.length = target.steps.length → P (Run.store target.root keys op v)
  call : ∀ f args, s = .call f args → (Expr.call f args).Own @P

/-- A statement and everything that it evaluates obey the property by themselves. -/
structure Stmt.Obeys (P : {α : Type} → Run α → Prop) (s : Stmt) : Prop extends s.Own @P where
  terms : ∀ x ∈ s.terms, x.Own @P

/-- An expression that a statement evaluates obeys the law. -/
theorem Stmt.Obeys.eval {s : Stmt} (h : s.Obeys @P) (law : Law @P) {e : Expr}
    (he : e ∈ s.operands) : P e.eval :=
  Expr.eval_law law e fun x hx => h.terms x (List.mem_flatMap.mpr ⟨e, he, hx⟩)

/-- A statement obeys a property of the log, of the model and of all names that it mentions. -/
theorem Stmt.obeys_of_mentions {s : Stmt} (hlog : ∀ v, P (Run.log v))
    (hmodel : ∀ f find id, P (domainObject f find id)) (hread : ∀ x ∈ s.mentions, P (Run.lookup x))
    (hupdate : ∀ x ∈ s.mentions, ∀ change, (∀ v, Ends (change v)) → P (Run.update x change))
    (hstore : ∀ x ∈ s.mentions, ∀ keys op v, P (Run.store x keys op v)) : s.Obeys @P := by
  have hmentions : ∀ e : Expr, (∀ y ∈ e.subterms, ∀ root ∈ y.root?, root ∈ s.mentions) → e.Own @P := by
    intro e he
    refine ⟨fun root h => hread root ?_, fun _ => hlog, fun _ => hmodel _ _, fun _ => hmodel _ _,
      fun root h keys v => hupdate root ?_ _ (Value.append_ends v keys)⟩
    · exact he e e.mem_subterms_self root h
    · obtain ⟨y, hy, hroot⟩ := Expr.exists_of_pushed? h
      exact he y hy root hroot
  refine ⟨⟨?_, ?_⟩, fun e he => hmentions e fun y hy root hroot => ?_⟩
  · rintro target op value rfl keys v -
    apply hstore
    exact Stmt.mem_mentions (Stmt.target_mem_terms target op value) target.root?_toExpr
  · rintro f args rfl
    apply hmentions
    intro y hy root hroot
    rcases List.mem_cons.mp hy with rfl | hy
    · cases hroot
    · rw [← Stmt.terms_call f] at hy
      exact Stmt.mem_mentions hy hroot
  · exact Stmt.mem_mentions (Stmt.terms_subset he hy) hroot

/-- The elements of a loop obey the law if reading the place that they are taken from does. -/
theorem Source.elements_law_of_eval (law : Law @P) {source : Source}
    (h : ∀ place, source = .reference place → P place.toExpr.eval) : P source.elements := by
  cases source with
  | literals items => exact law.pure _
  | reference place =>
      have hread := h place rfl
      rw [Expr.eval_toExpr] at hread
      refine law.bind hread fun v => ?_
      cases v <;> first | exact law.pure _ | exact law.throw _ (Fault.wrongKind_immediate _ _ _)

/-- The elements of a loop obey the law. -/
theorem Source.elements_law (law : Law @P) {source : Source} {body : List Stmt}
    (h : (Stmt.each source body).Obeys @P) : P source.elements := by
  refine Source.elements_law_of_eval law fun place hsource => ?_
  subst hsource
  exact h.eval law List.mem_cons_self

/-- An assignment obeys the law. -/
theorem Stmt.assign_law (law : Law @P) {target : Reference} {op : AssignOp} {value : Expr}
    (h : (Stmt.assign target op value).Obeys @P) : P (Stmt.assign target op value).exec := by
  refine law.bind (h.eval law (List.mem_cons_of_mem _ List.mem_cons_self)) fun v => ?_
  have hpath : P (Step.evalAll target.steps) := by
    refine Step.evalAll_law law target.steps fun x hx => h.terms x ?_
    exact List.mem_flatMap.mpr ⟨_, List.mem_cons_self, target.subtermsAll_steps_subset hx⟩
  have hassign : target.assign op v = Step.evalAll target.steps >>= fun keys =>
      if keys.length = target.steps.length then Run.store target.root keys op v
      else pure () :=
    bind_congr_of_ok fun _ _ _ hkeys => (if_pos (Step.length_evalAll hkeys)).symm
  rw [hassign]
  refine law.bind hpath fun keys => ?_
  split
  · rename_i hlength
    exact h.store target op value rfl keys v hlength
  · exact law.pure ()

/-- A call obeys the law. -/
theorem Stmt.call_law (law : Law @P) {f : String} {args : List Expr}
    (h : (Stmt.call f args).Obeys @P) : P (Stmt.call f args).exec := by
  have hterms := h.terms
  rw [Stmt.terms_call] at hterms
  exact law.discard (Expr.call_law law (Expr.arguments_law law args hterms) (h.call f args rfl))

end Edict
