import LinProg.Numeral

/-!
# Settings of the solvers

How results are rounded, when the method gives up, which tableau it works on, and how many workers
explore a search tree.  Settings can be read from environment variables; one that is not set keeps
its default.
-/

namespace LinProg

/-- The representation of the tableau. -/
inductive Backend where
  /-- Dense rows of doubles. -/
  | double
  /-- Dense rows of exact rationals. -/
  | rational
  /-- Columns of doubles, unit vectors as symbols. -/
  | revised
  deriving DecidableEq, Repr

/-- Why settings can't be read. -/
inductive SettingsError where
  | number (name value : String) (cause : Numeral.CountError)
  | backend (name : String)
  deriving DecidableEq, Repr

def SettingsError.message : SettingsError → String
  | number name value _ =>
    s!"environment variable {name} has value \"{value}\", "
      ++ "which is not a nonnegative integer"
  | backend name =>
    s!"unknown simplex backend \"{name}\", expected \"double\", \"rational\" or \"revised\""

namespace Backend

def text : Backend → String
  | double => "double"
  | rational => "rational"
  | revised => "revised"

def all : List Backend := [double, rational, revised]

/-- Reads a name; blanks around it and the case of ASCII letters don't matter. -/
def ofName? (name : String) : Except SettingsError Backend :=
  let plain := (Numeral.trim name).map Char.toLower
  match all.find? fun backend => backend.text.toList = plain with
  | some backend => .ok backend
  | none => .error (.backend name)

end Backend

structure Settings where
  /-- Number of decimals of all results. -/
  precision : Nat := 7
  /-- The number of pivots on one index from which it counts as repeating. -/
  cyclingThreshold : Numeral.Count := 5
  backend : Backend := .double
  /-- Number of workers; without any, the calling thread does the work. -/
  threads : Numeral.Count := 2
  deriving DecidableEq, Repr

namespace Settings

/-- The precision is a 32 bit number; larger ones are cut down to the largest. -/
def precisionLimit : Nat := 4294967295

/-- Reads a count from a variable, if it is set. -/
def readVariable (lookup : String → Option String) (name : String) :
    Except SettingsError (Option Numeral.Count) :=
  match lookup name with
  | none => .ok none
  | some value =>
    match Numeral.readCount (Numeral.trim value) with
    | .ok count => .ok (some count)
    | .error cause => .error (.number name value cause)

/-- The settings of an environment, or the first variable that can't be read. -/
def ofEnvironment? (lookup : String → Option String) : Except SettingsError Settings := do
  let base : Settings := {}
  let precision ← readVariable lookup "MIPSOLVE_PRECISION"
  let threshold ← readVariable lookup "MIPSOLVE_CYCLING_THRESHOLD"
  let threads ← readVariable lookup "MIPSOLVE_THREADS"
  let backend ← match lookup "MIPSOLVE_BACKEND" with
    | some name => Backend.ofName? name
    | none => .ok base.backend
  return {
    precision := min ((precision.map Fin.val).getD base.precision) precisionLimit
    cyclingThreshold := threshold.getD base.cyclingThreshold
    backend
    threads := threads.getD base.threads }

end Settings

end LinProg
