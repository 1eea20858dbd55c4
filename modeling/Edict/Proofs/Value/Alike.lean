import Edict.Proofs.Number.Order
import Edict.Value.Operation

/-!
# Equal values

Values that the language calls equal are built alike, of equal numbers (`Value.Alike`).  They need
not be the same value: zero is equal to the negative zero, which has a text of its own.  That is all
in which they can differ, so equal values whose zeros have the same signs are one value
(`Value.Alike.eq_of_zeroSigns_eq`), and so are equal values with one text
(`Value.Alike.eq_of_display_eq`).  In every other equality the one may stand for the other
(`Value.Alike.same_congr`).

## Main definitions

* `Value.Alike`: two values are built alike, of equal numbers.
* `Value.zeroSigns`: the signs of the zeros in a value, from left to right.
* `Forces`: two texts that go on in the same way can only do so if something holds, and then what
  they go on with is the same.

## Main statements

* `Value.alike_of_same`: equal values are built alike.
* `Value.Alike.eq_of_zeroSigns_eq`, `Value.Alike.eq_of_display_eq`: when values that are built alike
  are one value.
* `Value.Alike.same_congr`: they are equal to the same values.
-/

namespace Edict

namespace Value

mutual

/-- The two values are built alike, of equal numbers. -/
inductive Alike : Value → Value → Prop
  | number {x y : Float} : (x == y) = true → Alike (.number x) (.number y)
  | text (s : String) : Alike (.text s) (.text s)
  | bool (b : Bool) : Alike (.bool b) (.bool b)
  | list {items others : List Value} : ItemsAlike items others → Alike (.list items) (.list others)
  | map {entries others : List (String × Value)} : EntriesAlike entries others →
      Alike (.map entries) (.map others)
  | absent : Alike .absent .absent

/-- The items of two lists are alike, one by one. -/
inductive ItemsAlike : List Value → List Value → Prop
  | nil : ItemsAlike [] []
  | cons {v w : Value} {vs ws : List Value} : Alike v w → ItemsAlike vs ws →
      ItemsAlike (v :: vs) (w :: ws)

/-- The entries of two maps have the same keys, and values that are alike. -/
inductive EntriesAlike : List (String × Value) → List (String × Value) → Prop
  | nil : EntriesAlike [] []
  | cons {name : String} {v w : Value} {es fs : List (String × Value)} : Alike v w →
      EntriesAlike es fs → EntriesAlike ((name, v) :: es) ((name, w) :: fs)

end

mutual

/-- Equal values are alike. -/
theorem alike_of_same : ∀ {a b : Value}, a.same b = true → Alike a b
  | .number _, b, h => by
      cases b <;> simp only [same, Bool.false_eq_true] at h
      exact .number h
  | .text s, b, h => by
      cases b <;> simp only [same, Bool.false_eq_true, beq_iff_eq] at h
      exact h ▸ .text s
  | .bool c, b, h => by
      cases b <;> simp only [same, Bool.false_eq_true, beq_iff_eq] at h
      exact h ▸ .bool c
  | .list _, b, h => by
      cases b <;> simp only [same, Bool.false_eq_true] at h
      exact .list (itemsAlike_of_same h)
  | .map _, b, h => by
      cases b <;> simp only [same, Bool.false_eq_true] at h
      exact .map (entriesAlike_of_same h)
  | .absent, b, h => by
      cases b <;> simp only [same, Bool.false_eq_true] at h
      exact .absent

/-- The same for the items of lists. -/
theorem itemsAlike_of_same : ∀ {vs ws : List Value}, sameItems vs ws = true → ItemsAlike vs ws
  | [], [], _ => .nil
  | _ :: _, _ :: _, h => by
      simp only [sameItems, Bool.and_eq_true] at h
      exact .cons (alike_of_same h.1) (itemsAlike_of_same h.2)

/-- The same for the entries of maps. -/
theorem entriesAlike_of_same : ∀ {es fs : List (String × Value)}, sameEntries es fs = true →
    EntriesAlike es fs
  | [], [], _ => .nil
  | (_, _) :: _, (_, _) :: _, h => by
      simp only [sameEntries, Bool.and_eq_true, beq_iff_eq] at h
      obtain ⟨⟨rfl, hv⟩, hrest⟩ := h
      exact .cons (alike_of_same hv) (entriesAlike_of_same hrest)

end

/-! ## The signs of zeros -/

mutual

/-- The signs of the zeros in a value, from left to right; `true` stands for a minus. -/
def zeroSigns : Value → List Bool
  | .number x => if Number.isZero x then [Number.isNegative x] else []
  | .list items => zeroSignsItems items
  | .map entries => zeroSignsEntries entries
  | _ => []

/-- The signs of the zeros in the items of a list. -/
def zeroSignsItems : List Value → List Bool
  | [] => []
  | v :: rest => zeroSigns v ++ zeroSignsItems rest

/-- The signs of the zeros in the values of a map. -/
def zeroSignsEntries : List (String × Value) → List Bool
  | [] => []
  | (_, v) :: rest => zeroSigns v ++ zeroSignsEntries rest

end

/-- Zero is one zero without a minus. -/
theorem zeroSigns_zero : zeroSigns (.number 0) = [false] := by decide +kernel

/-- The negative zero is one zero with a minus. -/
theorem zeroSigns_negative_zero : zeroSigns (.number (-0)) = [true] := by decide +kernel

mutual

/-- Values that are alike have as many zeros, and are one value if these have the same signs. -/
theorem Alike.zeroSigns_cases {a b : Value} : Alike a b → a.zeroSigns.length = b.zeroSigns.length ∧
    (a.zeroSigns = b.zeroSigns → a = b)
  | .number h => by
      rcases Number.eq_or_zeros h with rfl | ⟨rfl, rfl⟩ | ⟨rfl, rfl⟩
      · exact ⟨rfl, fun _ => rfl⟩
      · rw [zeroSigns_zero, zeroSigns_negative_zero]
        exact ⟨rfl, nofun⟩
      · rw [zeroSigns_zero, zeroSigns_negative_zero]
        exact ⟨rfl, nofun⟩
  | .text _ => ⟨rfl, fun _ => rfl⟩
  | .bool _ => ⟨rfl, fun _ => rfl⟩
  | .list h => ⟨h.zeroSigns_cases.1, fun hsigns => congrArg list (h.zeroSigns_cases.2 hsigns)⟩
  | .map h => ⟨h.zeroSigns_cases.1, fun hsigns => congrArg map (h.zeroSigns_cases.2 hsigns)⟩
  | .absent => ⟨rfl, fun _ => rfl⟩

/-- The same for the items of lists. -/
theorem ItemsAlike.zeroSigns_cases {vs ws : List Value} : ItemsAlike vs ws →
    (zeroSignsItems vs).length = (zeroSignsItems ws).length ∧
      (zeroSignsItems vs = zeroSignsItems ws → vs = ws)
  | .nil => ⟨rfl, fun _ => rfl⟩
  | .cons h hs => by
      obtain ⟨⟨hlength, heq⟩, hlengths, heqs⟩ := And.intro h.zeroSigns_cases hs.zeroSigns_cases
      refine ⟨by simp [zeroSignsItems, hlength, hlengths], fun hsigns => ?_⟩
      obtain ⟨hfirst, hrest⟩ := List.append_inj hsigns hlength
      rw [heq hfirst, heqs hrest]

/-- The same for the entries of maps. -/
theorem EntriesAlike.zeroSigns_cases {es fs : List (String × Value)} : EntriesAlike es fs →
    (zeroSignsEntries es).length = (zeroSignsEntries fs).length ∧
      (zeroSignsEntries es = zeroSignsEntries fs → es = fs)
  | .nil => ⟨rfl, fun _ => rfl⟩
  | .cons h hs => by
      obtain ⟨⟨hlength, heq⟩, hlengths, heqs⟩ := And.intro h.zeroSigns_cases hs.zeroSigns_cases
      refine ⟨by simp [zeroSignsEntries, hlength, hlengths], fun hsigns => ?_⟩
      obtain ⟨hfirst, hrest⟩ := List.append_inj hsigns hlength
      rw [heq hfirst, heqs hrest]

end

/-- Values that are alike are one value if their zeros have the same signs. -/
theorem Alike.eq_of_zeroSigns_eq {a b : Value} (h : Alike a b) (hsigns : a.zeroSigns = b.zeroSigns) :
    a = b :=
  h.zeroSigns_cases.2 hsigns

/-! ## Texts -/

end Value

/-- Wherever the two texts are followed by something and the whole is the same, `p` holds and the
same follows. -/
def Forces (s t : String) (p : Prop) : Prop :=
  ∀ rest rest' : List Char, s.toList ++ rest = t.toList ++ rest' → p ∧ rest = rest'

namespace Forces

variable {s s' t t' : String} {p q : Prop}

/-- A text forces the rest to be the same. -/
theorem refl (s : String) (hp : p) : Forces s s p := fun _ _ h => ⟨hp, List.append_cancel_left h⟩

/-- What follows from what is forced is forced. -/
theorem imp (h : Forces s t p) (hpq : p → q) : Forces s t q :=
  fun rest rest' heq => (h rest rest' heq).imp_left hpq

/-- Texts that begin differently cannot be the same, whatever follows. -/
theorem of_head {c d : Char} {cs ds : List Char} (hs : s.toList = c :: cs) (ht : t.toList = d :: ds)
    (hne : c ≠ d) : Forces s t p := by
  intro rest rest' heq
  rw [hs, ht] at heq
  exact absurd (List.cons.inj heq).1 hne

/-- Two texts one after the other force what each of them forces. -/
theorem append (h : Forces s t p) (h' : Forces s' t' q) : Forces (s ++ s') (t ++ t') (p ∧ q) := by
  intro rest rest' heq
  simp only [String.toList_append, List.append_assoc] at heq
  obtain ⟨hp, hmid⟩ := h _ _ heq
  obtain ⟨hq, hrest⟩ := h' _ _ hmid
  exact ⟨⟨hp, hq⟩, hrest⟩

/-- The same text on both sides does not matter. -/
theorem enclosed (before after : String) (h : Forces s t p) :
    Forces (before ++ s ++ after) (before ++ t ++ after) p :=
  (((refl before trivial).append h).append (refl after trivial)).imp fun hp => hp.1.2

/-- One more text with a comma behind it. -/
theorem commaSeparated_cons {texts texts' : List String} (hlength : texts.length = texts'.length)
    (h : Forces s t p) (hs : Forces (commaSeparated texts) (commaSeparated texts') q) :
    Forces (commaSeparated (s :: texts)) (commaSeparated (t :: texts')) (p ∧ q) := by
  cases texts with
  | nil =>
      obtain rfl : texts' = [] := List.eq_nil_of_length_eq_zero hlength.symm
      have hq : q := (hs [] [] rfl).1
      simpa [commaSeparated] using h.imp fun hp => And.intro hp hq
  | cons u us =>
      cases texts' with
      | nil => simp at hlength
      | cons u' us' =>
          simp only [commaSeparated, String.intercalate_cons_cons]
          exact ((h.append (.refl ", " trivial)).append hs).imp fun hpq => ⟨hpq.1.1, hpq.2⟩

end Forces

namespace Value

/-- A value as text inside of a list or a map. -/
def nested : Value → String
  | .text s => quoted s
  | v => v.display

/-- The items of a list are shown one by one. -/
theorem displayItems_cons (v : Value) (vs : List Value) :
    displayItems (v :: vs) = v.nested :: displayItems vs := by
  cases v <;> rfl

/-- The entries of a map are shown one by one. -/
theorem displayEntries_cons (name : String) (v : Value) (es : List (String × Value)) :
    displayEntries ((name, v) :: es) = (quoted name ++ ": " ++ v.nested) :: displayEntries es := by
  cases v <;> rfl

/-- Lists that are alike have as many items. -/
theorem ItemsAlike.length_displayItems {vs ws : List Value} : ItemsAlike vs ws →
    (displayItems vs).length = (displayItems ws).length
  | .nil => rfl
  | .cons _ hs => by simp [displayItems_cons, hs.length_displayItems]

/-- Maps that are alike have as many entries. -/
theorem EntriesAlike.length_displayEntries {es fs : List (String × Value)} : EntriesAlike es fs →
    (displayEntries es).length = (displayEntries fs).length
  | .nil => rfl
  | .cons _ hs => by simp [displayEntries_cons, hs.length_displayEntries]

/-- A text between quotes is the same text in both. -/
theorem Alike.nested_forces {a b : Value} (h : Alike a b) (hs : Forces a.display b.display (a = b)) :
    Forces a.nested b.nested (a = b) := by
  cases h with
  | text s => exact .refl _ rfl
  | _ => exact hs

mutual

/-- The texts of values that are alike tell these apart, whatever follows. -/
theorem Alike.display_forces {a b : Value} : Alike a b → Forces a.display b.display (a = b)
  | .number h => by
      have hzero : (Number.text 0).toList = ['0'] := by decide +kernel
      have hminus : (Number.text (-0)).toList = ['-', '0'] := by decide +kernel
      rcases Number.eq_or_zeros h with rfl | ⟨rfl, rfl⟩ | ⟨rfl, rfl⟩
      · exact .refl _ rfl
      · exact .of_head hzero hminus (by decide)
      · exact .of_head hminus hzero (by decide)
  | .text _ => .refl _ rfl
  | .bool _ => .refl _ rfl
  | .list h => (h.displayItems_forces.enclosed "[" "]").imp (congrArg list)
  | .map h => (h.displayEntries_forces.enclosed "\x7b" "\x7d").imp (congrArg map)
  | .absent => .refl _ rfl

/-- The same for the items of lists. -/
theorem ItemsAlike.displayItems_forces {vs ws : List Value} : ItemsAlike vs ws →
    Forces (commaSeparated (displayItems vs)) (commaSeparated (displayItems ws)) (vs = ws)
  | .nil => .refl _ rfl
  | .cons h hs => by
      rw [displayItems_cons, displayItems_cons]
      refine (Forces.commaSeparated_cons hs.length_displayItems (h.nested_forces h.display_forces)
        hs.displayItems_forces).imp ?_
      rintro ⟨rfl, rfl⟩
      rfl

/-- The same for the entries of maps. -/
theorem EntriesAlike.displayEntries_forces {es fs : List (String × Value)} : EntriesAlike es fs →
    Forces (commaSeparated (displayEntries es)) (commaSeparated (displayEntries fs)) (es = fs)
  | .nil => .refl _ rfl
  | @EntriesAlike.cons name _ _ _ _ h hs => by
      have hentry := (Forces.refl (quoted name ++ ": ") trivial).append
        (h.nested_forces h.display_forces)
      rw [displayEntries_cons, displayEntries_cons]
      refine (Forces.commaSeparated_cons hs.length_displayEntries hentry
        hs.displayEntries_forces).imp ?_
      rintro ⟨⟨-, rfl⟩, rfl⟩
      rfl

end

/-- Values that are alike are one value if they have one text. -/
theorem Alike.eq_of_display_eq {a b : Value} (h : Alike a b) (htext : a.display = b.display) :
    a = b :=
  (h.display_forces [] [] (by rw [htext])).1

/-! ## Equality with other values -/

mutual

/-- A value is equal to both of two values that are alike, or to none. -/
theorem Alike.same_congr {a b : Value} : Alike a b → ∀ v : Value, v.same a = v.same b
  | .number h, v => by
      cases v with
      | number z => exact Number.beq_congr h z
      | _ => rfl
  | .text _, _ => rfl
  | .bool _, _ => rfl
  | .list h, v => by
      cases v with
      | list items => exact h.sameItems_congr items
      | _ => rfl
  | .map h, v => by
      cases v with
      | map entries => exact h.sameEntries_congr entries
      | _ => rfl
  | .absent, _ => rfl

/-- The same for the items of lists. -/
theorem ItemsAlike.sameItems_congr {vs ws : List Value} : ItemsAlike vs ws →
    ∀ us : List Value, sameItems us vs = sameItems us ws
  | .nil, _ => rfl
  | .cons _ _, [] => rfl
  | .cons h hs, u :: us => by rw [sameItems, sameItems, h.same_congr u, hs.sameItems_congr us]

/-- The same for the entries of maps. -/
theorem EntriesAlike.sameEntries_congr {es fs : List (String × Value)} : EntriesAlike es fs →
    ∀ gs : List (String × Value), sameEntries gs es = sameEntries gs fs
  | .nil, _ => rfl
  | .cons _ _, [] => rfl
  | .cons h hs, (_, u) :: gs => by
      rw [sameEntries, sameEntries, h.same_congr u, hs.sameEntries_congr gs]

end

end Value

end Edict
