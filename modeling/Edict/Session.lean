import Edict.Compile

/-!
# Sessions

A host at work: several contexts, some of which may write to one common log, programs kept under
names, and a sequence of requests, each to one context.  A request that fails does not end the
session; after one that never comes back there is none.
-/

namespace Edict

/-- A context in a session. -/
structure Member where
  context : Context
  /-- Whether its log is the common one. -/
  sharesLog : Bool

/-- The state of a session. -/
structure Session where
  members : List Member
  /-- Programs by name. -/
  programs : List (String × Program)

/-- What a host may ask for. -/
inductive Request where
  | set (name : String) (value : Value)
  | get (name : String)
  | remove (name : String)
  | contains (name : String)
  | node (id : Value)
  | link (id : Value)
  | log (value : Value)
  | clearLog
  | logKind
  | debug
  /-- Reads a program and keeps it under a name. -/
  | compile (name : String) (source : String)
  /-- Runs the program of a name; the empty one if there is none. -/
  | exec (name : String)
  | run (source : String)

/-- What a host is told. -/
inductive Reply where
  | done
  | value? (v : Option Value)
  | flag (b : Bool)
  | text (s : String)
  | statements (n : Nat)
  | noModel
  | failed (error : RuleError)

/-- The reply to a run. -/
def Reply.ofRun : Option RuleError → Reply
  | none => .done
  | some e => .failed e

namespace Context

/-- Answers a request that concerns nothing but one context and the programs of the session.  A
request to run a program has an answer if the run has an end. -/
def answer (programs : List (String × Program)) (c : Context) : Request → Option (Reply × Context)
  | .set name v => some (.value? (c.get? name), c.set name v)
  | .get name => some (.value? (c.get? name), c)
  | .remove name => some (.value? (c.get? name), c.remove name)
  | .contains name => some (.flag (c.get? name).isSome, c)
  | .node id => some (c.model.elim .noModel fun m => .value? (m.node? id), c)
  | .link id => some (c.model.elim .noModel fun m => .value? (m.link? id), c)
  | .log v => some (.done, { c with log := c.log.send v })
  | .clearLog => some (.done, { c with log := c.log.clear })
  | .logKind => some (.text c.log.sink.name, c)
  | .debug => some (.text c.debugText, c)
  | .compile _ source =>
      match Program.ofSource source with
      | .ok p => some (.statements p.length, c)
      | .error e => some (.failed (.source e), c)
  | .exec name =>
      (Program.run ((Entries.find? name programs).getD []) c).map fun o =>
        (.ofRun (o.fault?.map .fault), o.context)
  | .run source =>
      (Program.runSource source c).map fun (error?, after) => (.ofRun error?, after)

end Context

namespace Session

/-- A session of the given contexts. -/
def start (members : List Member) : Session := ⟨members, []⟩

/-- The programs after a request: a text that is a program replaces the one of its name. -/
def keep (programs : List (String × Program)) : Request → List (String × Program)
  | .compile name source =>
      match Program.ofSource source with
      | .ok p => Entries.insert name p programs
      | .error _ => programs
  | _ => programs

/-- The members after the one at position `i` has become `m`: those that share its log share what
was written to it. -/
def update (members : List Member) (i : Nat) (m : Member) : List Member :=
  let members := members.set i m
  if m.sharesLog then
    members.map fun other =>
      if other.sharesLog then
        { other with context := { other.context with log := m.context.log } }
      else other
  else members

/-- Answers a request to the context at position `i`, if there is one and the request has an
answer. -/
def step (s : Session) (i : Nat) (r : Request) : Option (Reply × Session) := do
  let m ← s.members[i]?
  let (reply, after) ← m.context.answer s.programs r
  return (reply, ⟨update s.members i { m with context := after }, keep s.programs r⟩)

end Session

end Edict
