/-!
# Entries by key

Lists of pairs of a key and a value, used as finite maps: the maps of the language, the variables of
a context and the tables of a model.  A new key goes before the first greater one, so that a list
filled by `insert` is in ascending order of its keys; a key that is there keeps its place.
-/

namespace Edict

namespace Entries

variable {α : Type}

/-- The value of a key. -/
def find? (key : String) : List (String × α) → Option α
  | [] => none
  | (k, v) :: rest => if k = key then some v else find? key rest

/-- Whether the key is there. -/
def contains (key : String) (entries : List (String × α)) : Bool := (find? key entries).isSome

/-- Puts a key before the first greater one. -/
def place (key : String) (value : α) : List (String × α) → List (String × α)
  | [] => [(key, value)]
  | (k, v) :: rest =>
      if key < k then (key, value) :: (k, v) :: rest else (k, v) :: place key value rest

/-- Gives another value to the first entry with the key. -/
def replace (key : String) (value : α) : List (String × α) → List (String × α)
  | [] => []
  | (k, v) :: rest => if k = key then (k, value) :: rest else (k, v) :: replace key value rest

/-- Sets the value of a key. -/
def insert (key : String) (value : α) (entries : List (String × α)) : List (String × α) :=
  if contains key entries then replace key value entries else place key value entries

/-- Takes a key out. -/
def erase (key : String) (entries : List (String × α)) : List (String × α) :=
  entries.filter (·.1 ≠ key)

/-- The entries of a list of pairs in any order; of two pairs with one key the later one counts. -/
def ofList (pairs : List (String × α)) : List (String × α) :=
  pairs.foldl (fun entries p => insert p.1 p.2 entries) []

/-- Entries in strictly ascending order of keys. -/
def Ascending (entries : List (String × α)) : Prop := entries.Pairwise (·.1 < ·.1)

/-! ## Reading back -/

@[simp] theorem find?_nil (key : String) : find? key ([] : List (String × α)) = none := rfl

/-- Reading back what was put at its place in the order. -/
theorem find?_place (key : String) (value : α) (entries : List (String × α)) (k : String)
    (absent : find? key entries = none) :
    find? k (place key value entries) = if key = k then some value else find? k entries := by
  induction entries with
  | nil => simp [place, find?]
  | cons e rest ih =>
      obtain ⟨k₁, v₁⟩ := e
      simp only [find?] at absent
      split at absent
      · cases absent
      · rename_i hne
        simp only [place]
        split
        · simp [find?]
        · simp only [find?, ih absent]
          by_cases h₁ : k₁ = k
          · subst h₁
            simp [Ne.symm hne]
          · simp [h₁]

/-- Reading back what was put in the place of another value. -/
theorem find?_replace (key : String) (value : α) (entries : List (String × α)) (k : String)
    (present : (find? key entries).isSome) :
    find? k (replace key value entries) = if key = k then some value else find? k entries := by
  induction entries with
  | nil => simp [find?] at present
  | cons e rest ih =>
      obtain ⟨k₁, v₁⟩ := e
      simp only [find?] at present
      simp only [replace]
      split at present
      · rename_i h
        subst h
        simp only [if_true, find?]
        split <;> rfl
      · rename_i hne
        simp only [if_neg hne, find?, ih present]
        by_cases h₁ : k₁ = k
        · subst h₁
          simp [Ne.symm hne]
        · simp [h₁]

/-- After `insert` the key has the new value and all other keys have their old ones. -/
theorem find?_insert (key : String) (value : α) (entries : List (String × α)) (k : String) :
    find? k (insert key value entries) = if key = k then some value else find? k entries := by
  unfold insert contains
  split
  · rename_i h
    exact find?_replace key value entries k h
  · rename_i h
    exact find?_place key value entries k (by simpa using h)

/-- A value that was inserted is found. -/
@[simp] theorem find?_insert_self (key : String) (value : α) (entries : List (String × α)) :
    find? key (insert key value entries) = some value := by
  simp [find?_insert]

/-- Inserting leaves what other keys have as it is. -/
theorem find?_insert_of_ne {key k : String} (h : key ≠ k) (value : α)
    (entries : List (String × α)) :
    find? k (insert key value entries) = find? k entries := by
  simp [find?_insert, h]

/-- After `erase` the key is gone and all other keys have their old values. -/
theorem find?_erase (key : String) (entries : List (String × α)) (k : String) :
    find? k (erase key entries) = if key = k then none else find? k entries := by
  induction entries with
  | nil => simp [erase]
  | cons e rest ih =>
      obtain ⟨k₁, v₁⟩ := e
      simp only [erase] at ih
      by_cases h : k₁ = key
      · subst h
        simp only [erase, List.filter, ne_eq, not_true_eq_false, decide_false, ih, find?]
        by_cases hk : k₁ = k <;> simp [hk]
      · simp only [erase, List.filter, ne_eq, h, not_false_eq_true, decide_true, find?, ih]
        by_cases hk : k₁ = k
        · subst hk
          simp [Ne.symm h]
        · simp [hk]

/-! ## Setting a key twice, or to its own value -/

/-- Of two values given to the first entry with a key, the second one stays. -/
theorem replace_replace (key : String) (u v : α) (entries : List (String × α)) :
    replace key v (replace key u entries) = replace key v entries := by
  induction entries with
  | nil => rfl
  | cons e rest ih =>
      obtain ⟨k, w⟩ := e
      by_cases h : k = key <;> simp [replace, h, ih]

/-- A key that was placed is found where it was placed. -/
theorem replace_place {key : String} (u v : α) {entries : List (String × α)}
    (absent : find? key entries = none) :
    replace key v (place key u entries) = place key v entries := by
  induction entries with
  | nil => simp [place, replace]
  | cons e rest ih =>
      obtain ⟨k, w⟩ := e
      have hk : k ≠ key := by
        rintro rfl
        simp [find?] at absent
      by_cases hlt : key < k
      · simp [place, replace, hlt]
      · simp only [find?, if_neg hk] at absent
        simp [place, replace, hlt, hk, ih absent]

/-- Giving the first entry with a key the value that it has changes nothing. -/
theorem replace_of_find? {key : String} {v : α} {entries : List (String × α)}
    (h : find? key entries = some v) : replace key v entries = entries := by
  induction entries with
  | nil => rfl
  | cons e rest ih =>
      obtain ⟨k, w⟩ := e
      by_cases hk : k = key
      · simp_all [find?, replace]
      · simp only [find?, if_neg hk] at h
        simp [replace, hk, ih h]

/-- Of two values that a key is set to, the second one stays. -/
@[simp] theorem insert_insert (key : String) (u v : α) (entries : List (String × α)) :
    insert key v (insert key u entries) = insert key v entries := by
  have hfound : contains key (insert key u entries) = true := by simp [contains]
  rw [insert, if_pos hfound]
  by_cases h : contains key entries = true
  · simp only [insert, if_pos h, replace_replace]
  · have absent : find? key entries = none := by simpa [contains] using h
    simp only [insert, if_neg h, replace_place u v absent]

/-- Setting a key to the value that it has changes nothing. -/
theorem insert_of_find? {key : String} {v : α} {entries : List (String × α)}
    (h : find? key entries = some v) : insert key v entries = entries := by
  have hfound : contains key entries = true := by simp [contains, h]
  simp [insert, hfound, replace_of_find? h]

end Entries

end Edict
