import GeneralLL.Json

/-!
# Records in JSON

A record has named fields in a fixed order. It can be written as an object, where
unknown members are passed over and a field must not be given twice, or as an array
of its fields in order, where fields at the end can be left out. Members that are
passed over need to be well written and nothing more.
-/

namespace GeneralLL.Json

/-- What a record gives for each of its fields, if it gives anything. -/
abbrev Fields := List (String × Option Raw)

/-- Takes the members of an object one by one. -/
def takeMembers : List (List Piece × Raw) → Fields → Option Fields
  | [], fields => some fields
  | (key, item) :: rest, fields => do
    let key ← string? key
    match fields.find? (·.1 = key) with
    | none => takeMembers rest fields
    | some (_, some _) => none
    | some (_, none) =>
      takeMembers rest (fields.map fun f => if f.1 = key then (key, some item) else f)

/-- Reads a record with the fields called `names`. -/
def fields? (names : List String) : Raw → Option Fields
  | .object members => takeMembers members (names.map fun name => (name, none))
  | .array items =>
    if items.length ≤ names.length then
      some (names.mapIdx fun i name => (name, items[i]?))
    else none
  | _ => none

/-- What a record gives for one field. -/
def field? (fields : Fields) (name : String) : Option Raw :=
  (fields.find? (·.1 = name)).bind Prod.snd

/-- The value of a field inside a record at the top of a text. -/
def fieldValue? (fields : Fields) (name : String) : Option Json :=
  (field? fields name).bind (ofRaw? (maxDepth - 1))

/-- A choice is written as its name, or as an object that holds nothing but the name with
`null`. -/
def choice? {α : Type} (choices : List (String × α)) : Raw → Option α
  | .string s => named s
  | .object [(s, .null)] => named s
  | _ => none
where
  named (s : List Piece) : Option α := do
    let name ← string? s
    (choices.find? (·.1 = name)).map Prod.snd

end GeneralLL.Json
