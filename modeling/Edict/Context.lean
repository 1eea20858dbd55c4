import Edict.Value.Path

/-!
# Contexts

What a program runs against: the host's variables, the value of the innermost running loop, a model
of domain objects, and the log.  The loop value has a place of its own, which programs reach under
the name `$val`; a host variable of that name is out of their reach.

A model is whatever the host answers for an id (`Model`).  `Tables` is the one that keeps its
objects in memory, by the text of their ids.
-/

namespace Edict

/-! ## Models -/

/-- What a host knows of domain objects: the node and the link of an id, if there are any. -/
structure Model where
  node? : Value → Option Value
  link? : Value → Option Value

/-- Domain objects kept in memory by the text of their ids, so that `3` and `'3'` name the same
one. -/
structure Tables where
  nodes : List (String × Value)
  links : List (String × Value)

namespace Tables

/-- Tables of the given objects, listed with their ids; of two with one id the later one counts. -/
def ofLists (nodes links : List (Value × Value)) : Tables where
  nodes := Entries.ofList (nodes.map fun p => (p.1.display, p.2))
  links := Entries.ofList (links.map fun p => (p.1.display, p.2))

/-- The node of an id. -/
def node? (t : Tables) (id : Value) : Option Value := Entries.find? id.display t.nodes

/-- The link of an id. -/
def link? (t : Tables) (id : Value) : Option Value := Entries.find? id.display t.links

/-- The model that answers from tables. -/
def model (t : Tables) : Model := ⟨t.node?, t.link?⟩

end Tables

/-! ## Logs -/

/-- Where logged values go. -/
inductive Sink where
  /-- Kept for the host to read back. -/
  | buffer
  /-- Handed to a function of the host. -/
  | callback
  /-- Written to the host's trace. -/
  | tracing
  | silent
deriving DecidableEq, Repr

/-- The name of a sink. -/
def Sink.name : Sink → String
  | .buffer => "Buffer"
  | .callback => "Callback"
  | .tracing => "Tracing"
  | .silent => "Silent"

/-- A log: its sink and everything sent to it, oldest first. -/
structure Log where
  sink : Sink
  sent : Array Value

namespace Log

/-- A log to which nothing has been sent. -/
def empty (sink : Sink) : Log := ⟨sink, #[]⟩

/-- Sends a value. -/
def send (log : Log) (v : Value) : Log := { log with sent := log.sent.push v }

/-- The values that a buffer keeps; other logs keep none. -/
def entries (log : Log) : List Value :=
  match log.sink with
  | .buffer => log.sent.toList
  | _ => []

/-- The values that the host's function was called with. -/
def delivered (log : Log) : List Value :=
  match log.sink with
  | .callback => log.sent.toList
  | _ => []

/-- The kept values, one per line. -/
def output (log : Log) : String := String.join (log.entries.map fun v => v.display ++ "\n")

/-- Empties a buffer. -/
def clear (log : Log) : Log :=
  match log.sink with
  | .buffer => empty .buffer
  | _ => log

end Log

/-! ## Contexts -/

/-- The name under which programs reach the loop value. -/
def loopName : String := "$val"

/-- What a program runs against. -/
structure Context where
  vars : List (String × Value)
  loop : Option Value
  model : Option Model
  log : Log

namespace Context

/-- A context without variables and without a model. -/
def empty (sink : Sink) : Context := ⟨[], none, none, Log.empty sink⟩

/-! ### The host's side -/

/-- The value of a host variable. -/
def get? (c : Context) (name : String) : Option Value := Entries.find? name c.vars

/-- Sets a host variable. -/
def set (c : Context) (name : String) (v : Value) : Context :=
  { c with vars := Entries.insert name v c.vars }

/-- Takes a host variable away. -/
def remove (c : Context) (name : String) : Context :=
  { c with vars := Entries.erase name c.vars }

/-- A context as a host's debugger shows it. -/
def debugText (c : Context) : String :=
  let vars := commaSeparated (c.vars.map fun p => "\"" ++ p.1 ++ "\": " ++ p.2.display)
  let loop := match c.loop with
    | some v => "Some(" ++ v.display ++ ")"
    | none => "None"
  let model := if c.model.isSome then "Some(\"<model>\")" else "None"
  "Context \x7b vars: \x7b" ++ vars ++ "\x7d, loop_value: " ++ loop ++ ", model: " ++ model ++
    ", log: " ++ c.log.sink.name ++ " \x7d"

/-! ### The program's side -/

/-- The value of a name in a program. -/
def lookup (c : Context) (name : String) : Option Value :=
  if name = loopName then c.loop else c.get? name

/-- Gives a name in a program a value. -/
def bind (c : Context) (name : String) (v : Value) : Context :=
  if name = loopName then { c with loop := some v } else c.set name v

end Context

end Edict
