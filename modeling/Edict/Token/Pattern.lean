/-!
# Regular patterns

The shapes of words: classes of characters, put in sequence, offered as alternatives, repeated.
`Pattern.munch` finds how far the longest word of a given shape reaches into a text, by taking one
derivative per character: `p.derive c` describes what may follow `c` in a word that `p` describes.
`Pattern.Matches` says directly which words those are.
-/

namespace Edict

/-- A set of words. -/
inductive Pattern where
  /-- No word. -/
  | nothing
  /-- The empty word. -/
  | empty
  /-- One character of a class. -/
  | one (accepts : Char → Bool)
  | seq (first second : Pattern)
  | alt (left right : Pattern)
  /-- Any number of words, one after the other. -/
  | many (each : Pattern)

namespace Pattern

/-- The words of a pattern. -/
inductive Matches : Pattern → List Char → Prop where
  | empty : Matches .empty []
  | one {accepts : Char → Bool} {c : Char} (h : accepts c = true) : Matches (.one accepts) [c]
  | seq {p q : Pattern} {s t : List Char} (hp : Matches p s) (hq : Matches q t) :
      Matches (.seq p q) (s ++ t)
  | left {p q : Pattern} {s : List Char} (h : Matches p s) : Matches (.alt p q) s
  | right {p q : Pattern} {s : List Char} (h : Matches q s) : Matches (.alt p q) s
  | stop {p : Pattern} : Matches (.many p) []
  | more {p : Pattern} {s t : List Char} (hs : Matches p s) (ht : Matches (.many p) t) :
      Matches (.many p) (s ++ t)

/-! ## Derivatives -/

/-- Whether the empty word is one of the pattern's. -/
def acceptsEmpty : Pattern → Bool
  | .nothing => false
  | .empty => true
  | .one _ => false
  | .seq p q => p.acceptsEmpty && q.acceptsEmpty
  | .alt p q => p.acceptsEmpty || q.acceptsEmpty
  | .many _ => true

/-- Whether the pattern is visibly the one without words. -/
def isNothing : Pattern → Bool
  | .nothing => true
  | _ => false

/-- Sequence, with the trivial cases taken away. -/
def follow : Pattern → Pattern → Pattern
  | .nothing, _ => .nothing
  | .empty, q => q
  | p, q => .seq p q

/-- Alternative, with the trivial cases taken away. -/
def either : Pattern → Pattern → Pattern
  | .nothing, q => q
  | p, .nothing => p
  | p, q => .alt p q

/-- What may follow `c` in a word of the pattern. -/
def derive (c : Char) : Pattern → Pattern
  | .nothing => .nothing
  | .empty => .nothing
  | .one accepts => if accepts c then .empty else .nothing
  | .seq p q =>
      if p.acceptsEmpty then either (follow (p.derive c) q) (q.derive c)
      else follow (p.derive c) q
  | .alt p q => either (p.derive c) (q.derive c)
  | .many p => follow (p.derive c) (.many p)

/-- How many characters the longest word of the pattern at the front of a text has; zero if none but
the empty one stands there. -/
def munch : Pattern → List Char → Nat
  | _, [] => 0
  | p, c :: cs =>
      let next := p.derive c
      if next.isNothing then 0
      else
        match munch next cs with
        | 0 => if next.acceptsEmpty then 1 else 0
        | n + 1 => n + 2

/-- A word is no longer than the text. -/
theorem munch_le_length (p : Pattern) (cs : List Char) : p.munch cs ≤ cs.length := by
  induction cs generalizing p with
  | nil => simp [munch]
  | cons c cs ih =>
      have := ih (p.derive c)
      simp only [munch, List.length_cons]
      split
      · omega
      · split
        · split <;> omega
        · rename_i n h
          omega

/-! ## Shapes in use -/

/-- Exactly the given word. -/
def word (w : List Char) : Pattern := w.foldr (fun c p => .seq (.one (· == c)) p) .empty

/-- The given lower-case word in any letter case. -/
def wordAnyCase (w : List Char) : Pattern :=
  w.foldr (fun c p => .seq (.one (fun d => d.toLower == c)) p) .empty

/-- The pattern or the empty word. -/
def optional (p : Pattern) : Pattern := .alt .empty p

/-- One or more words. -/
def atLeastOne (p : Pattern) : Pattern := .seq p (.many p)

end Pattern

end Edict
