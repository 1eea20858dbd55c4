import Edict.Grammar.Statement
import Edict.Run.Program
import Edict.Token.Scan

/-!
# From text to programs

`Program.ofSource` reads a text as a program, `Program.runSource` runs it as well.
-/

namespace Edict

/-- Why a text is no program. -/
inductive SourceError where
  | scan (error : ScanError)
  | grammar (failure : Failure)

namespace SourceError

/-- The error in words. -/
def message : SourceError → String
  | .scan e => e.message
  | .grammar f => f.message

/-- The part of the text at which the error is reported. -/
def span : SourceError → Span
  | .scan e => e.span
  | .grammar f => f.span

/-- The error in words, after the line and the column where it stands. -/
def render (source : String) (e : SourceError) : String :=
  (Location.ofOffset source e.span.start).text ++ ": " ++ e.message

end SourceError

/-- Why a text could not be run to its end. -/
inductive RuleError where
  | source (error : SourceError)
  | fault (fault : Fault)

/-- The error in words. -/
def RuleError.message : RuleError → String
  | .source e => e.message
  | .fault f => f.message

namespace Program

/-- The program that a text is. -/
def ofSource (source : String) : Except SourceError Program := do
  let tokens ← (Token.scan source).mapError .scan
  (Grammar.readProgram tokens).mapError .grammar

/-- Runs the program that a text is; the context stays as it is if the text is none. -/
def runSource (source : String) (c : Context) : Option (Option RuleError × Context) :=
  match ofSource source with
  | .error e => some (some (.source e), c)
  | .ok p => (Program.run p c).map fun o => (o.fault?.map .fault, o.context)

end Program

end Edict
