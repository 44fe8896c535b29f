/-!
# Messages about a computation

What a solver did can be told afterwards as a list of messages, each with a severity.  A reader asks
for a least severity, or for nothing.
-/

namespace LinProg

inductive Level where
  | trace
  | debug
  | warn
  | error
  deriving DecidableEq, Repr

namespace Level

def name : Level → String
  | trace => "TRACE"
  | debug => "DEBUG"
  | warn => "WARN"
  | error => "ERROR"

def severity : Level → Nat
  | trace => 0
  | debug => 1
  | warn => 2
  | error => 3

end Level

/-- The least severity that is reported, if any is. -/
abbrev Verbosity := Option Level

def Verbosity.admits (v : Verbosity) (level : Level) : Bool :=
  v.any fun least => least.severity ≤ level.severity

/-- A text of some severity. -/
structure Message where
  level : Level
  text : String
  deriving DecidableEq, Repr

namespace Message

def render (m : Message) : String := m.level.name ++ " " ++ m.text

end Message

/-- One message, or none below the verbosity; a text that isn't asked for is not built. -/
def Verbosity.tell (v : Verbosity) (level : Level) (text : Unit → String) : List Message :=
  if v.admits level then [⟨level, text ()⟩] else []

end LinProg
