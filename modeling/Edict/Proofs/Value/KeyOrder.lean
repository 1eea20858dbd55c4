import Edict.Entries
import Mathlib.Data.List.Sort
import Mathlib.Data.String.Basic
import Mathlib.Tactic.SplitIfs

/-!
# Keys in byte order

Maps list their entries in ascending order of keys, which are compared by their characters.  That is
the order of the UTF-8 bytes of the keys (`Entries.lt_iff_keyBytes_lt`): the first byte of a
character tells how many bytes follow it, and the more of them there are, the greater it is.  So a
map that is sorted by bytes stays as it is (`Entries.byteSorted_of_ascending`).

## Main definitions

* `Entries.keyBytes`: the UTF-8 bytes of a key.
* `Entries.byteSorted`: entries in the order of these bytes.

## Main statements

* `Entries.lt_iff_keyBytes_lt`: characters and bytes order any two keys alike.
* `Entries.ascending_ofList`: a map that is filled key by key is in ascending order.
* `Entries.byteSorted_of_ascending`: sorting such a map by bytes changes nothing.
-/

namespace Edict

namespace Entries

/-- The bytes of a key in UTF-8. -/
def keyBytes (key : String) : List UInt8 := key.toUTF8.data.toList

/-- The bytes of a key are those of its characters. -/
theorem keyBytes_eq (key : String) : keyBytes key = key.toList.flatMap String.utf8EncodeChar := by
  unfold keyBytes
  rw [String.toUTF8, ← String.utf8Encode_toList, List.utf8Encode, List.toList_data_toByteArray]

/-! ## The bytes of a character -/

/-- How many bytes follow the first byte of a character with the code `v`. -/
def following (v : Nat) : Nat :=
  if v ≤ 127 then 0 else if v ≤ 2047 then 1 else if v ≤ 65535 then 2 else 3

/-- The first byte: a mark for the number of bytes that follow, and the bits that these leave
over. -/
def firstByte (v : Nat) : Nat :=
  if v ≤ 127 then v
  else if v ≤ 2047 then v / 64 % 32 + 192
  else if v ≤ 65535 then v / 64 ^ 2 % 16 + 224
  else v / 64 ^ 3 % 8 + 240

/-- The last `n` bytes, which have six bits each. -/
def lastBytes : Nat → Nat → List UInt8
  | 0, _ => []
  | n + 1, v => UInt8.ofNat (v / 64 ^ n % 64 + 128) :: lastBytes n v

/-- A character is written as a first byte and the bytes that follow it. -/
theorem utf8EncodeChar_eq (c : Char) : String.utf8EncodeChar c =
    UInt8.ofNat (firstByte c.val.toNat) :: lastBytes (following c.val.toNat) c.val.toNat := by
  unfold String.utf8EncodeChar firstByte following
  dsimp only
  split_ifs <;> simp [lastBytes]

section codes

variable {v w : Nat}

/-- The first byte of a character is a byte. -/
theorem firstByte_lt (hv : v ≤ 1114111) : firstByte v < 256 := by
  unfold firstByte
  split_ifs <;> omega

/-- A greater character does not have a smaller first byte. -/
theorem firstByte_le (h : v ≤ w) (hw : w ≤ 1114111) : firstByte v ≤ firstByte w := by
  unfold firstByte
  split_ifs <;> omega

/-- The first byte tells how many bytes follow. -/
theorem following_eq (hv : v ≤ 1114111) (hw : w ≤ 1114111) (h : firstByte v = firstByte w) :
    following v = following w := by
  unfold firstByte following at *
  split_ifs at * <;> omega

/-- The first byte has all bits that those after it do not have. -/
theorem div_eq (hv : v ≤ 1114111) (hw : w ≤ 1114111) (h : firstByte v = firstByte w) :
    v / 64 ^ following v = w / 64 ^ following v := by
  unfold firstByte following at *
  split_ifs at * <;> omega

/-- Sequences of bytes are compared by their first bytes, and then by the bytes after them. -/
theorem ofNat_cons_lt {a b : Nat} (ha : a < 256) (hb : b < 256) {xs ys : List UInt8}
    (h : a < b ∨ a = b ∧ xs < ys) : UInt8.ofNat a :: xs < UInt8.ofNat b :: ys := by
  refine List.cons_lt_cons_iff.mpr (h.imp (fun hlt => ?_) fun ⟨heq, hlt⟩ => ⟨by rw [heq], hlt⟩)
  rwa [UInt8.lt_iff_toNat_lt, UInt8.toNat_ofNat_of_lt' ha, UInt8.toNat_ofNat_of_lt' hb]

/-- The order of two numbers that agree in all but their last bits is that of the bytes with these
bits, whatever follows. -/
theorem lastBytes_lt {n : Nat} (h : v < w) (hhigh : v / 64 ^ n = w / 64 ^ n) (xs ys : List UInt8) :
    lastBytes n v ++ xs < lastBytes n w ++ ys := by
  induction n with
  | zero =>
      rw [Nat.pow_zero, Nat.div_one, Nat.div_one] at hhigh
      exact absurd hhigh h.ne
  | succ n ih =>
      rw [Nat.pow_succ, ← Nat.div_div_eq_div_mul, ← Nat.div_div_eq_div_mul] at hhigh
      refine ofNat_cons_lt (by omega) (by omega) ?_
      -- the first of the bytes decides, unless its bits are the same; then all above the rest are
      rcases (Nat.div_le_div_right h.le : v / 64 ^ n ≤ w / 64 ^ n).lt_or_eq with hdigit | hdigit
      · exact .inl (by omega)
      · exact .inr ⟨by rw [hdigit], ih hdigit⟩

end codes

/-! ## The bytes of a text -/

/-- The code of a character. -/
theorem code_le (c : Char) : c.val.toNat ≤ 1114111 := by
  have hvalid := c.valid
  unfold UInt32.isValidChar Nat.isValidChar at hvalid
  omega

/-- Different characters are told apart by their bytes, whatever follows. -/
theorem utf8EncodeChar_lt {c d : Char} (h : c < d) (xs ys : List UInt8) :
    String.utf8EncodeChar c ++ xs < String.utf8EncodeChar d ++ ys := by
  have hlt : c.val.toNat < d.val.toNat := h
  rw [utf8EncodeChar_eq, utf8EncodeChar_eq, List.cons_append, List.cons_append]
  refine ofNat_cons_lt (firstByte_lt (code_le c)) (firstByte_lt (code_le d)) ?_
  rcases (firstByte_le hlt.le (code_le d)).lt_or_eq with hfirst | hfirst
  · exact .inl hfirst
  · -- equally many bytes follow, and they differ
    refine .inr ⟨hfirst, ?_⟩
    rw [← following_eq (code_le c) (code_le d) hfirst]
    exact lastBytes_lt hlt (div_eq (code_le c) (code_le d) hfirst) xs ys

/-- A smaller key has smaller bytes. -/
theorem keyBytes_lt {key other : String} (h : key < other) : keyBytes key < keyBytes other := by
  rw [String.lt_iff] at h
  rw [keyBytes_eq, keyBytes_eq]
  generalize key.toList = cs at h
  generalize other.toList = ds at h
  induction ds generalizing cs with
  | nil => exact absurd h (List.not_lt_nil cs)
  | cons d ds ih =>
      rw [List.flatMap_cons]
      cases cs with
      | nil =>
          rw [utf8EncodeChar_eq, List.flatMap_nil, List.cons_append]
          exact List.nil_lt_cons _ _
      | cons c cs =>
          rw [List.flatMap_cons]
          rcases List.cons_lt_cons_iff.mp h with hfirst | ⟨rfl, hrest⟩
          · exact utf8EncodeChar_lt hfirst _ _
          · exact List.append_left_lt (ih cs hrest)

/-- The order of keys is that of their bytes. -/
theorem lt_iff_keyBytes_lt (key other : String) : key < other ↔ keyBytes key < keyBytes other := by
  refine ⟨keyBytes_lt, fun h => ?_⟩
  rcases lt_trichotomy key other with hlt | rfl | hgt
  · exact hlt
  · exact absurd h (List.lt_irrefl _)
  · exact absurd h (List.lt_asymm (keyBytes_lt hgt))

/-! ## Entries in order -/

section entries

variable {α : Type} {key : String} {value : α} {entries : List (String × α)} {p : String × α}

/-- What is found is one of the entries. -/
theorem mem_of_find? (h : find? key entries = some value) : (key, value) ∈ entries := by
  induction entries with
  | nil => cases h
  | cons entry entries ih =>
      obtain ⟨k, v⟩ := entry
      unfold find? at h
      split at h
      · rename_i hk
        obtain rfl := Option.some.inj h
        rw [hk]
        exact List.mem_cons_self
      · exact List.mem_cons_of_mem _ (ih h)

/-- Nothing but the new entry comes in at its place. -/
theorem eq_or_mem_of_mem_place (h : p ∈ place key value entries) : p = (key, value) ∨ p ∈ entries := by
  induction entries with
  | nil => exact .inl (List.mem_singleton.mp h)
  | cons entry entries ih =>
      unfold place at h
      split at h
      · exact List.mem_cons.mp h
      · rcases List.mem_cons.mp h with rfl | h
        · exact .inr List.mem_cons_self
        · exact (ih h).imp_right (List.mem_cons_of_mem _)

/-- A value that is put in the place of another one leaves the keys as they are. -/
theorem map_fst_replace (key : String) (value : α) (entries : List (String × α)) :
    (replace key value entries).map (·.1) = entries.map (·.1) := by
  induction entries with
  | nil => rfl
  | cons entry entries ih =>
      unfold replace
      split
      · rfl
      · exact congrArg (entry.1 :: ·) ih

/-- Nothing but the new value comes in when one is replaced. -/
theorem eq_or_mem_of_mem_replace (h : p ∈ replace key value entries) :
    p.2 = value ∨ p ∈ entries := by
  induction entries with
  | nil => exact .inr h
  | cons entry entries ih =>
      unfold replace at h
      split at h
      · rcases List.mem_cons.mp h with rfl | h
        · exact .inl rfl
        · exact .inr (List.mem_cons_of_mem _ h)
      · rcases List.mem_cons.mp h with rfl | h
        · exact .inr List.mem_cons_self
        · exact (ih h).imp_right (List.mem_cons_of_mem _)

/-- The values after a key is set are the new one and old ones. -/
theorem eq_or_mem_of_mem_insert (h : p ∈ insert key value entries) :
    p.2 = value ∨ p ∈ entries := by
  unfold insert at h
  split at h
  · exact eq_or_mem_of_mem_replace h
  · exact (eq_or_mem_of_mem_place h).imp_left (congrArg Prod.snd)

namespace Ascending

/-- A new key goes where it belongs. -/
theorem place (h : Ascending entries) (absent : find? key entries = none) (value : α) :
    Ascending (place key value entries) := by
  induction entries with
  | nil => exact List.pairwise_singleton _ _
  | cons entry entries ih =>
      obtain ⟨k, v⟩ := entry
      obtain ⟨hfirst, hrest⟩ := List.pairwise_cons.mp h
      unfold find? at absent
      unfold Entries.place
      split
      · rename_i hlt
        refine List.pairwise_cons.mpr ⟨fun p hp => ?_, h⟩
        rcases List.mem_cons.mp hp with rfl | hp
        · exact hlt
        · exact hlt.trans (hfirst p hp)
      · rename_i hge
        have hne : k ≠ key := by
          intro hk
          rw [if_pos hk] at absent
          cases absent
        rw [if_neg hne] at absent
        refine List.pairwise_cons.mpr ⟨fun p hp => ?_, ih hrest absent⟩
        rcases eq_or_mem_of_mem_place hp with rfl | hp
        · exact lt_of_le_of_ne (not_lt.mp hge) hne
        · exact hfirst p hp

/-- Setting a key keeps the entries in order. -/
theorem insert (h : Ascending entries) (key : String) (value : α) :
    Ascending (insert key value entries) := by
  unfold Entries.insert
  split
  · refine List.pairwise_map.mp ?_
    rw [map_fst_replace]
    exact List.pairwise_map.mpr h
  · rename_i habsent
    exact h.place (by simpa [contains] using habsent) value

end Ascending

/-- Entries that are listed in any order come into order. -/
theorem ascending_ofList (pairs : List (String × α)) : Ascending (ofList pairs) :=
  List.foldlRecOn pairs _ List.Pairwise.nil fun _ h q _ => h.insert q.1 q.2

/-- Their values are the listed ones. -/
theorem exists_of_mem_ofList {pairs : List (String × α)} (h : p ∈ ofList pairs) :
    ∃ q ∈ pairs, p.2 = q.2 := by
  have hall : ∀ p ∈ ofList pairs, ∃ q ∈ pairs, p.2 = q.2 := by
    refine List.foldlRecOn (motive := fun entries : List (String × α) =>
      ∀ p ∈ entries, ∃ q ∈ pairs, p.2 = q.2) pairs _ (fun _ => nofun) fun entries h q hq p hp => ?_
    rcases eq_or_mem_of_mem_insert hp with hpq | hp
    · exact ⟨q, hq, hpq⟩
    · exact h p hp
  exact hall p h

/-- The entries sorted by the bytes of their keys. -/
def byteSorted (entries : List (String × α)) : List (String × α) :=
  entries.insertionSort fun p q => keyBytes p.1 ≤ keyBytes q.1

/-- Entries in ascending order of keys are sorted by bytes. -/
theorem byteSorted_of_ascending (h : Ascending entries) : byteSorted entries = entries :=
  List.Pairwise.insertionSort_eq (h.imp fun hlt => List.le_of_lt ((lt_iff_keyBytes_lt _ _).mp hlt))

end entries

end Entries

end Edict
