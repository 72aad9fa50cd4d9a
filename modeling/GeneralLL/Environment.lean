import GeneralLL.Value

/-!
# Environments

An environment binds names to values. Declaring bindings makes a new environment
in which they shadow the old ones; the old one keeps its answers. There are two
representations with the same lookups:

* **frames**: every declaration puts a frame in front of the frames there are;
* **flat**: there is one frame, in which a declaration overwrites a name where it
  stands and appends a new name at the end.

Two environments are equal if they are made of the same frames, so that equal
environments can be recognised without asking for every name.
-/

namespace GeneralLL

/-- How an environment stores its bindings. -/
inductive Representation where
  | frames
  | flat
  deriving DecidableEq, Repr

/-- A name with its value. -/
abbrev Binding := String × Value

/-- Bindings of names to values. -/
structure Environment where
  /-- How bindings are stored, which decides what a declaration does. -/
  representation : Representation
  /-- The frames, innermost first; within a frame, in the order of declaration. -/
  frames : List (List Binding)
  deriving DecidableEq, Repr

namespace Environment

/-- The environment that binds nothing. -/
def empty (r : Representation) : Environment := ⟨r, []⟩

/-- No frame has been made, so nothing was ever declared. -/
def isEmpty (env : Environment) : Bool := env.frames.isEmpty

/-- Overwrites the value of a name where it stands, or appends the name. -/
def overwrite (b : Binding) : List Binding → List Binding
  | [] => [b]
  | c :: rest => if c.1 = b.1 then b :: rest else c :: overwrite b rest

/-- The environment in which `bindings` shadow the present ones. -/
def declare (env : Environment) (bindings : List Binding) : Environment :=
  -- declaring nothing makes no frame
  if bindings.isEmpty then env
  else match env.representation with
    | .frames => { env with frames := bindings :: env.frames }
    | .flat =>
      { env with frames := [bindings.foldl (fun frame b => overwrite b frame) env.frames.flatten] }

/-- The last binding of a name in one frame. -/
def lookupFrame (name : String) (frame : List Binding) : Option Value :=
  (frame.reverse.find? (·.1 = name)).map Prod.snd

/-- The innermost binding of a name; within a frame the later one. -/
def lookup (env : Environment) (name : String) : Option Value :=
  env.frames.findSome? (lookupFrame name)

/-- Keeps the first binding of every name. -/
def visible (bindings : List Binding) : List Binding :=
  bindings.foldl (fun seen b => if seen.any (·.1 = b.1) then seen else seen ++ [b]) []

/-- The visible bindings, innermost frame first and each frame from its end. -/
def bindings (env : Environment) : List Binding :=
  visible (env.frames.flatMap List.reverse)

/-- The visible bindings from the outermost to the innermost. -/
def toText (env : Environment) : String :=
  "\x7b" ++ ", ".intercalate (env.bindings.reverse.map fun b => b.1 ++ "=" ++ b.2.toText) ++ "\x7d"

end Environment

end GeneralLL
