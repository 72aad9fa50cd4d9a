import GeneralLL.Json.Raw

/-!
# JSON values

What a written JSON tree stands for. Members of an object are kept in the order of
their keys, and the last one of several with the same key counts. A tree has no
value if it is nested too deeply, if half of a surrogate pair is missing, or if a
number is larger than every double.
-/

namespace GeneralLL

/-- A JSON value, with numbers as they were written. -/
inductive Json where
  | null
  | bool (b : Bool)
  | number (n : Json.Number)
  | string (s : String)
  | array (items : List Json)
  | object (members : List (String × Json))

namespace Json

/-! ## Numbers -/

/-- The number that decimal digits stand for. -/
def natOfDigits (digits : List Nat) : Nat := digits.foldl (fun n d => n * 10 + d) 0

/-- Appends digits to a significand while it fits into 64 bits; answers how many were taken. -/
def absorb (significand : Nat) : List Nat → Nat × Nat
  | [] => (significand, 0)
  | d :: rest =>
    if significand * 10 + d < UInt64.size then
      let (s, taken) := absorb (significand * 10 + d) rest
      (s, taken + 1)
    else
      (significand, 0)

/-- A significand of at most 64 bits and the power of ten that goes with it. -/
def Number.scaled (n : Number) : Nat × Int :=
  let (s, taken) := absorb 0 n.whole
  let (s, places) := absorb s n.fraction
  let shift : Int := match n.exponent with
    | none => 0
    | some (negative, digits) =>
      if negative then -(natOfDigits digits : Int) else natOfDigits digits
  (s, (n.whole.length - taken : Nat) - (places : Int) + shift)

/-- Is there a double near the number? Small numbers are rounded to zero. -/
def Number.inRange (n : Number) : Bool :=
  let (significand, power) := n.scaled
  significand = 0 || power ≤ 0 ||
    (power ≤ 308 &&
      (UInt64.ofNat significand).toFloat * Float.ofScientific 1 false power.toNat < 1.0 / 0.0)

/-- The number as a natural number of at most 64 bits, if it is written as one: with neither
sign, point nor exponent. -/
def Number.asNat? (n : Number) : Option Nat :=
  if n.negative || !n.fraction.isEmpty || n.exponent.isSome then none
  else
    let k := natOfDigits n.whole
    if k < UInt64.size then some k else none

/-! ## Strings -/

/-- The text of a string: code units are characters, except that surrogates come in pairs. -/
def text? : List Piece → Option (List Char)
  | [] => some []
  | .char c :: rest => (text? rest).map (c :: ·)
  | .unit high :: .unit low :: rest =>
    if 0xd800 ≤ high ∧ high < 0xdc00 then
      -- a high surrogate needs a low one behind it
      if 0xdc00 ≤ low ∧ low < 0xe000 then
        (text? rest).map (Char.ofNat (0x10000 + (high - 0xd800) * 0x400 + (low - 0xdc00)) :: ·)
      else none
    else if 0xdc00 ≤ high ∧ high < 0xe000 then none
    else (text? (.unit low :: rest)).map (Char.ofNat high :: ·)
  | .unit n :: rest =>
    if 0xd800 ≤ n ∧ n < 0xe000 then none else (text? rest).map (Char.ofNat n :: ·)

/-- The string that pieces make, if no half of a surrogate pair is missing. -/
def string? (s : List Piece) : Option String := (text? s).map String.ofList

/-! ## Trees -/

/-- Puts a member in its place by key, in place of an earlier one with the same key. -/
def insertMember (key : String) (v : Json) : List (String × Json) → List (String × Json)
  | [] => [(key, v)]
  | m :: rest =>
    if key < m.1 then (key, v) :: m :: rest
    else if key = m.1 then (key, v) :: rest
    else m :: insertMember key v rest

/-- The member of an object with a certain key. -/
def member? (members : List (String × Json)) (key : String) : Option Json :=
  (members.find? (·.1 = key)).map Prod.snd

/-- How deep arrays and objects may be nested in a text. -/
def maxDepth : Nat := 127

mutual

/-- The value of a tree in which `room` more levels of nesting are allowed. -/
def ofRaw? (room : Nat) : Raw → Option Json
  | .null => some null
  | .bool b => some (bool b)
  | .number n => if n.inRange then some (number n) else none
  | .string s => (string? s).map string
  | .array items => if room = 0 then none else (ofItems? (room - 1) items).map array
  | .object members =>
    if room = 0 then none else (ofMembers? (room - 1) members []).map object

/-- The values of the elements of an array, if all have one. -/
def ofItems? (room : Nat) : List Raw → Option (List Json)
  | [] => some []
  | item :: rest => do
    let v ← ofRaw? room item
    let vs ← ofItems? room rest
    return v :: vs

/-- Adds members from left to right to those there are. -/
def ofMembers? (room : Nat) : List (List Piece × Raw) → List (String × Json) →
    Option (List (String × Json))
  | [], done => some done
  | (key, item) :: rest, done => do
    let key ← string? key
    let v ← ofRaw? room item
    ofMembers? room rest (insertMember key v done)

end

/-- The truth value, if it is one. -/
def asBool? : Json → Option Bool
  | bool b => some b
  | _ => none

/-- The string, if it is one. -/
def asString? : Json → Option String
  | string s => some s
  | _ => none

/-- The elements, if it is an array. -/
def asArray? : Json → Option (List Json)
  | array items => some items
  | _ => none

/-- The members in the order of their keys, if it is an object. -/
def asObject? : Json → Option (List (String × Json))
  | object members => some members
  | _ => none

/-- The natural number of at most 64 bits, if it is written as one. -/
def asNat? : Json → Option Nat
  | number n => n.asNat?
  | _ => none

end Json

end GeneralLL
