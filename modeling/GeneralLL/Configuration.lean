import GeneralLL.Environment
import GeneralLL.Error
import GeneralLL.Json.Record

/-!
# Configurations

How a parser works, as far as it can be chosen: how environments store their
bindings, in which order pending work is taken up, and whether a single
continuation is taken up at once. What a parser answers should not depend on it.
-/

namespace GeneralLL

/-- The order in which pending work is taken up. -/
inductive Scheduling where
  /-- The oldest first. -/
  | fifo
  /-- The newest first. -/
  | lifo
  deriving DecidableEq, Repr

/-- What can be chosen about a parser. -/
structure Configuration where
  /-- How environments store their bindings. -/
  environment : Representation := .frames
  /-- The order in which pending work is delivered. -/
  scheduling : Scheduling := .fifo
  /-- Is the only continuation of a result taken up at once? -/
  shortcut : Bool := true
  deriving DecidableEq, Repr

namespace Configuration

instance : Inhabited Configuration := ⟨{}⟩

/-- Reads a field that may be left out, but not be something else. -/
def fieldOr {α : Type} (default : α) (read : Json.Raw → Option α) (fields : Json.Fields)
    (name : String) : Option α :=
  match Json.field? fields name with
  | none => some default
  | some raw => read raw

/-- The configuration that the fields of a record describe. -/
def ofFields? (fields : Json.Fields) : Option Configuration := do
  let standard : Configuration := {}
  let environment ← fieldOr standard.environment
    (Json.choice? [("frames", Representation.frames), ("flat", .flat)]) fields "environment"
  let scheduling ← fieldOr standard.scheduling
    (Json.choice? [("fifo", Scheduling.fifo), ("lifo", .lifo)]) fields "scheduling"
  let shortcut ← fieldOr standard.shortcut
    (fun raw => (Json.ofRaw? 0 raw).bind Json.asBool?) fields "shortcut"
  return { environment, scheduling, shortcut }

/-- Reads a configuration; every field can be left out. -/
def ofJson (text : String) : Except LoadError Configuration :=
  match (Json.Raw.read? text).bind fun raw =>
    (Json.fields? ["environment", "scheduling", "shortcut"] raw).bind ofFields? with
  | some c => .ok c
  | none => .error .malformed

/-- Reads a configuration from a file. -/
def ofFile (read : String → Option String) (path : String) : Except LoadError Configuration :=
  match read path with
  | some text => ofJson text
  | none => .error .unreadable

end Configuration

end GeneralLL
