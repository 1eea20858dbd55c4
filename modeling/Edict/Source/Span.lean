/-!
# Places in a source text

A `Span` is a range of byte offsets into the UTF-8 form of a text; a `Location` is what a reader
sees, a line and a column counted from one.  Columns count characters.  The line breaks are line
feed, carriage return, and the two together, which are one break.
-/

namespace Edict

/-- The bytes that a run of characters takes in UTF-8. -/
def utf8Length : List Char → Nat
  | [] => 0
  | c :: cs => c.utf8Size + utf8Length cs

@[simp] theorem utf8Length_nil : utf8Length [] = 0 := rfl

@[simp] theorem utf8Length_cons (c : Char) (cs : List Char) :
    utf8Length (c :: cs) = c.utf8Size + utf8Length cs := rfl

/-- Two texts take their bytes together. -/
@[simp] theorem utf8Length_append (cs ds : List Char) :
    utf8Length (cs ++ ds) = utf8Length cs + utf8Length ds := by
  induction cs with
  | nil => simp
  | cons c cs ih => simp [ih, Nat.add_assoc]

/-! ## Spans -/

/-- A range of byte offsets, the end excluded. -/
structure Span where
  start : Nat
  stop : Nat
deriving DecidableEq, Repr

/-- The largest offset that a span records; offsets beyond it are recorded as this one. -/
def Span.limit : Nat := 4294967295

/-- The span from `start` to `stop`. -/
def Span.ofRange (start stop : Nat) : Span := ⟨min start limit, min stop limit⟩

/-- The span of something that stands in no text. -/
def Span.nowhere : Span := ⟨0, 0⟩

/-- A span as `start..stop`. -/
def Span.text (s : Span) : String := Nat.repr s.start ++ ".." ++ Nat.repr s.stop

/-- Offsets up to the limit are recorded as they are. -/
theorem Span.ofRange_of_le {start stop : Nat} (hstart : start ≤ limit) (hstop : stop ≤ limit) :
    ofRange start stop = ⟨start, stop⟩ := by
  simp [ofRange, Nat.min_eq_left hstart, Nat.min_eq_left hstop]

/-! ## Locations -/

/-- Line and column, both from one.  They are counted in 32 bits: in a text of `2 ^ 32 - 1`
characters or more they may wrap around, where a build that checks its sums stops instead. -/
structure Location where
  line : UInt32
  column : UInt32
deriving DecidableEq, Repr

/-- The location of the first character of a text. -/
def Location.first : Location := ⟨1, 1⟩

/-- The location after the character `c`, where `rest` follows it: a carriage return just before a
line feed leaves the break to the line feed. -/
def Location.after (l : Location) (c : Char) (rest : List Char) : Location :=
  if c = '\r' ∧ rest.head? = some '\n' then l
  else if c = '\n' ∨ c = '\r' then ⟨l.line + 1, 1⟩
  else ⟨l.line, l.column + 1⟩

/-- Moves a location over the characters that start before byte `offset`; `here` is the offset of
the first of them. -/
def Location.walk (offset : Nat) (l : Location) (here : Nat) : List Char → Location
  | [] => l
  | c :: rest =>
      if offset ≤ here then l
      else walk offset (l.after c rest) (here + c.utf8Size) rest

/-- The location of a byte offset in a text; offsets past the end give the place after its last
character. -/
def Location.ofOffset (source : String) (offset : Nat) : Location :=
  Location.walk offset first 0 source.toList

/-- A location as `line:column`. -/
def Location.text (l : Location) : String :=
  Nat.repr l.line.toNat ++ ":" ++ Nat.repr l.column.toNat

end Edict
