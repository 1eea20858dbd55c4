/-!
# What a reader leaves

Readers work on a list of symbols: characters or tokens.  What they return holds the part of the
list that they did not use, with a proof that it is short enough; this is what makes readers that
call one another end.
-/

namespace Edict

/-- A value read from the front of a list, with the rest of the list, which has fewer than `bound`
members. -/
structure Parsed (σ α : Type) (bound : Nat) where
  value : α
  rest : List σ
  shorter : rest.length < bound

namespace Parsed

variable {σ α β : Type} {m n : Nat}

/-! ## How long the rest is -/

/-- The rest is shorter than anything that the bound does not exceed. -/
theorem lt (p : Parsed σ α m) (h : m ≤ n) : p.rest.length < n := Nat.lt_of_lt_of_le p.shorter h

/-- The rest is at most as long as anything that the bound does not exceed. -/
theorem le (p : Parsed σ α m) (h : m ≤ n) : p.rest.length ≤ n := Nat.le_of_lt (p.lt h)

/-- The same when the value may have been read from nothing. -/
theorem le_of_succ (p : Parsed σ α (m + 1)) (h : m ≤ n) : p.rest.length ≤ n :=
  Nat.le_trans (Nat.le_of_lt_succ p.shorter) h

/-- What follows the first symbol of the rest is shorter still. -/
theorem lt_of_rest_eq (p : Parsed σ α m) {c : σ} {cs : List σ} (hr : p.rest = c :: cs) (h : m ≤ n) :
    cs.length < n := by
  have hlt := p.lt h
  rw [hr] at hlt
  exact Nat.lt_of_succ_lt hlt

/-! ## Building values -/

/-- Another value with the same rest, under a bound that is not smaller. -/
def map (f : α → β) (p : Parsed σ α m) (h : m ≤ n) : Parsed σ β n :=
  ⟨f p.value, p.rest, Nat.lt_of_lt_of_le p.shorter h⟩

@[simp] theorem value_map (f : α → β) (p : Parsed σ α m) (h : m ≤ n) :
    (p.map f h).value = f p.value := rfl

@[simp] theorem rest_map (f : α → β) (p : Parsed σ α m) (h : m ≤ n) :
    (p.map f h).rest = p.rest := rfl

/-- The value alone, or with the whole of a list that was not touched. -/
def untouched (a : α) (rest : List σ) : Parsed σ α (rest.length + 1) :=
  ⟨a, rest, Nat.lt_succ_self _⟩

end Parsed

end Edict
