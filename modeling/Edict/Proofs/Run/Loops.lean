import Edict.Proofs.Number.Whole
import Edict.Proofs.Run.Compound
import Edict.Proofs.Run.Counting
import Edict.Proofs.Run.Ordered

/-!
# Loops over equal elements

A counted loop, a loop over a list and a loop over a map differ in how they find their elements.
Once these are found, the loops do the same, whatever their bodies do: write to the list or map that
the elements are from, to `$val`, fail, or have no end.  So each of the three can be written in
another way: counting as a loop over the numbers that it counts, a list as the literals in it, and a
map as the list of its values in the byte order of their keys.

## Main statements

* `Stmt.exec_count_literal`: a counted loop of at most `2 ^ 53` turns is a loop over literals.
  Above `2 ^ 53` it is none (`Run.count_ne_ok`).
* `Stmt.exec_each_map`: a loop over a map takes its values in the byte order of their keys, in a
  context that is ordered.
* `Stmt.exec_loops`: the forms of loops agree.
-/

namespace Edict

/-- Up to `2 ^ 53`, a counted loop counts the natural numbers. -/
theorem Run.indices_eq_map_value {n : Nat} (hn : n ≤ 2 ^ 53) :
    Run.indices n =
      ((List.range n).map fun k => Literal.number (Float.ofNat k)).map Literal.value := by
  unfold Run.indices
  rw [List.map_map]
  refine List.map_congr_left fun k hk => ?_
  have hlt : k < 2 ^ 53 := (List.mem_range.mp hk).trans_le hn
  exact congrArg Value.number (Number.index_eq_ofNat hlt)

namespace Source

variable {r : Reference} {c d : Context}

/-- The elements of a reference to a list. -/
theorem elements_of_list {items : List Value} (h : r.toExpr.eval c = some (.ok (.list items), d)) :
    (reference r).elements c = some (.ok items, d) := by
  rw [Expr.eval_toExpr] at h
  rw [elements, Run.bind_apply, h]
  rfl

/-- The elements of a reference to a map. -/
theorem elements_of_map {entries : List (String × Value)}
    (h : r.toExpr.eval c = some (.ok (.map entries), d)) :
    (reference r).elements c = some (.ok (entries.map (·.2)), d) := by
  rw [Expr.eval_toExpr] at h
  rw [elements, Run.bind_apply, h]
  rfl

end Source

namespace Stmt

variable {body : List Stmt} {source : Source} {r : Reference} {items : List Value} {c d : Context}

/-- A loop does what its body does to its elements. -/
theorem exec_each_of_elements (h : source.elements c = some (.ok items, d)) :
    (each source body).exec c = Run.ownLoop (Run.forEach (execAll body) items) d := by
  show (source.elements >>= _) c = _
  rw [Run.bind_apply, h]

/-- A counted loop of at most `2 ^ 53` turns is a loop over literals. -/
theorem exec_count_literal {x : Float} {q : ℚ} (hx : Number.value? x = some q) (hq : q ≤ 2 ^ 53)
    (body : List Stmt) :
    (count (.lit (.number x)) body).exec =
      (each (.literals ((List.range ⌈q⌉₊).map fun k => .number (Float.ofNat k))) body).exec := by
  have hfew : ⌈q⌉₊ ≤ 2 ^ 53 := Nat.ceil_le.mpr (by exact_mod_cast hq)
  have hexec : (count (.lit (.number x)) body).exec = Run.count (execAll body) x := by
    simp only [exec, Expr.eval, Literal.value, pure_bind]
  rw [hexec, Run.count_eq _ (by rwa [Number.times_eq hx]), Number.times_eq hx,
    Run.indices_eq_map_value hfew]
  rfl

/-- A loop over a map takes its values in the byte order of their keys. -/
theorem exec_each_map {entries : List (String × Value)} (hc : c.Ordered)
    (h : r.toExpr.eval c = some (.ok (.map entries), d)) :
    (each (.reference r) body).exec c =
      Run.ownLoop (Run.forEach (execAll body) ((Entries.byteSorted entries).map (·.2))) d := by
  have hordered : (Value.map entries).Ordered := (r.toExpr.eval_yields c hc _ d h).2 _ rfl
  rw [Entries.byteSorted_of_ascending (Value.ordered_map_iff.mp hordered).1]
  exact exec_each_of_elements (Source.elements_of_map h)

/-- The forms of loops agree, whatever the body does and however it ends.  A counted loop over a
number `q` that is positive and at most `2 ^ 53` is the loop over the literals `0`, `1`, … below
`q`. A loop over a list of literals in a reference is the loop over these literals, and a loop over
a map is the loop over the list of its values in ascending byte order of their keys, if the
references are without effects. -/
theorem exec_loops (body : List Stmt) (c : Context) :
    (∀ x q, Number.value? x = some q → 0 < q → q ≤ 2 ^ 53 →
      (count (.lit (.number x)) body).exec c =
        (each (.literals ((List.range ⌈q⌉₊).map fun k => .number (Float.ofNat k))) body).exec c) ∧
    (∀ (r : Reference) (items : List Literal) (d : Context), r.toExpr.EffectFree →
      r.toExpr.eval c = some (.ok (.list (items.map Literal.value)), d) →
      (each (.reference r) body).exec c = (each (.literals items) body).exec c) ∧
    ∀ (r : Reference) (entries : List (String × Value)) (d : Context), c.Ordered →
      r.toExpr.EffectFree → r.toExpr.eval c = some (.ok (.map entries), d) →
      let values := (Entries.byteSorted entries).map (·.2)
      (each (.reference r) body).exec c = Run.ownLoop (Run.forEach (execAll body) values) c ∧
      ∀ (s : Reference) (e : Context), s.toExpr.EffectFree →
        s.toExpr.eval c = some (.ok (.list values), e) →
        (each (.reference r) body).exec c = (each (.reference s) body).exec c := by
  -- a reference without effects leaves the context as it is, so all loops begin in the same one
  refine ⟨fun x q hx _ hq => ?_, fun r items d hr h => ?_, fun r entries d hc hr h => ?_⟩
  · rw [exec_count_literal hx hq]
  · obtain rfl := Run.eq_of_keeps hr.eval_keeps h
    rw [exec_each_of_elements (Source.elements_of_list h)]
    rfl
  · obtain rfl := Run.eq_of_keeps hr.eval_keeps h
    refine ⟨exec_each_map hc h, fun s e hs hlist => ?_⟩
    obtain rfl := Run.eq_of_keeps hs.eval_keeps hlist
    rw [exec_each_map hc h, exec_each_of_elements (Source.elements_of_list hlist)]

/-- A body that pushes the loop value onto the list, puts it into the map and then overwrites it. -/
theorem exec_loops_writing :
    let body : List Stmt := [.call "append" [.ident "xs", .ident "$val"],
      .assign (.property "m" [.field "a"]) .set (.ident "$val"), .assign (.ident "$val") .set (.ident "xs")]
    let xs : Value := .list [.text "a", .number 1]
    let m : Value := .map [("Z", xs), ("a", .bool true), ("é", .number 2)]
    let values : Value := .list [xs, .bool true, .number 2]
    let c : Context := ⟨[("m", m), ("values", values), ("xs", xs)], none, none, Log.empty .buffer⟩
    (count (.lit (.number 2.5)) body).exec c =
        (each (.literals [.number 0, .number 1, .number 2]) body).exec c ∧
      (each (.reference (.ident "xs")) body).exec c =
        (each (.literals [.text "a", .number 1]) body).exec c ∧
      (each (.reference (.ident "m")) body).exec c = (each (.reference (.ident "values")) body).exec c ∧
      ∃ d, (each (.reference (.ident "m")) body).exec c = some (.ok (), d) := by
  intro body xs m values c
  have hx : Number.value? 2.5 = some (5 / 2) := by
    have hparts : Number.parts 2.5 = .finite false 5629499534213120 (-51) := by decide +kernel
    unfold Number.value?
    rw [hparts]
    norm_num [Number.Parts.value?]
  have hceil : ⌈(5 / 2 : ℚ)⌉₊ = 3 := by norm_num [Nat.ceil_eq_iff]
  have hxs : xs.Ordered := by simp [xs, Value.Ordered, Value.OrderedItems]
  have hascending : Entries.Ascending [("Z", xs), ("a", .bool true), ("é", .number 2)] := by
    simp only [Entries.Ascending, String.lt_iff]
    decide
  have hm : m.Ordered := by
    refine Value.ordered_map_iff.mpr ⟨hascending, ?_⟩
    simp [hxs, Value.Ordered]
  have hvalues : values.Ordered := by
    refine Value.ordered_list_iff.mpr ?_
    simp [hxs, Value.Ordered]
  have hc : c.Ordered := ⟨by simp [c, hm, hvalues, hxs], by simp [c], by simp [c]⟩
  obtain ⟨hcount, hlist, hmap⟩ := exec_loops body c
  obtain ⟨-, hmap⟩ := hmap (.ident "m") _ c hc (by decide) rfl
  refine ⟨?_, hlist (.ident "xs") [.text "a", .number 1] c (by decide) rfl,
    hmap (.ident "values") c (by decide) ?_, ?_⟩
  · have hthree := hcount 2.5 _ hx (by norm_num) (by norm_num)
    rw [hceil] at hthree
    exact hthree
  · rw [Entries.byteSorted_of_ascending hascending]
    rfl
  · exact ⟨_, by with_unfolding_all rfl⟩

end Stmt

end Edict
