import Edict.Token.Rule

/-!
# From text to tokens

`Token.scan` cuts a text into tokens, from left to right: blanks are skipped, at every other place
the longest word of `Rule.table` is taken.  The first place without a word, or with a word that is
none of the language's, ends the scan with a `ScanError`.  A complete scan ends in one `eof` token,
which stands at the end of the text.
-/

namespace Edict

/-- Why a text cannot be cut into tokens, and where. -/
inductive ScanError where
  /-- No word begins with this character. -/
  | unexpectedChar (c : Char) (span : Span)
  /-- A quote that is never closed. -/
  | unterminatedText (span : Span)
  /-- A number with more than one decimal point. -/
  | malformedNumber (text : String) (span : Span)
deriving DecidableEq, Repr

/-- The text that the error is about. -/
def ScanError.span : ScanError → Span
  | .unexpectedChar _ s => s
  | .unterminatedText s => s
  | .malformedNumber _ s => s

/-- The error in words. -/
def ScanError.message : ScanError → String
  | .unexpectedChar c s =>
      "unexpected character `" ++ String.singleton c ++ "` at offset " ++ Nat.repr s.start
  | .unterminatedText s => "unterminated string starting at offset " ++ Nat.repr s.start
  | .malformedNumber t s => "malformed number `" ++ t ++ "` at offset " ++ Nat.repr s.start

namespace Token

/-- The text between the quotes of a quoted word. -/
def unquote (word : List Char) : String := String.ofList ((word.drop 1).dropLast)

/-- The token kind that a word becomes, or the error that it is. -/
def ofWord (lexeme : Lexeme) (word : List Char) (span : Span) : Except ScanError TokenKind :=
  match lexeme with
  | .fixed kind => .ok kind
  | .number =>
      match Numeral.ofChars? word with
      | some n => .ok (.number n)
      | none => .error (.malformedNumber (String.ofList word) span)
  | .name => .ok (.ident (String.ofList word))
  | .quotedText => .ok (.text (unquote word))
  | .openText => .error (.unterminatedText span)
  | .malformedNumber => .error (.malformedNumber (String.ofList word) span)

/-- Whether the decimal point that follows an integer belongs to it: it does unless a digit or
another point follows. -/
def trailingPoint (lexeme : Lexeme) (word rest : List Char) : Bool :=
  match lexeme, rest with
  | .number, '.' :: after =>
      !word.contains '.' && !(after.head?.any fun c => c.isDigit || c == '.')
  | _, _ => false

/-- The length of the next word of a text and what it becomes. -/
def nextWord (cs : List Char) : Lexeme × Nat :=
  let (lexeme, n) := Rule.longest Rule.table cs
  if trailingPoint lexeme (cs.take n) (cs.drop n) then (lexeme, n + 1) else (lexeme, n)

/-- The tokens of the text `cs`, which begins at byte `here` of the whole text. -/
def scanFrom (here : Nat) (cs : List Char) : Except ScanError (List Token) :=
  match cs with
  | [] => .ok [⟨.eof, Span.ofRange here here⟩]
  | c :: rest =>
      if Rule.isBlank c then
        scanFrom (here + c.utf8Size) rest
      else
        match nextWord (c :: rest) with
        | (_, 0) => .error (.unexpectedChar c (Span.ofRange here (here + c.utf8Size)))
        | (lexeme, n + 1) => do
            let word := c :: rest.take n
            let there := here + utf8Length word
            let span := Span.ofRange here there
            let kind ← ofWord lexeme word span
            let more ← scanFrom there (rest.drop n)
            return ⟨kind, span⟩ :: more
termination_by cs.length
decreasing_by
  · exact Nat.lt_succ_self _
  · exact Nat.lt_succ_of_le (List.drop_suffix _ _).length_le

/-- The tokens of a text. -/
def scan (source : String) : Except ScanError (List Token) := scanFrom 0 source.toList

end Token

end Edict
