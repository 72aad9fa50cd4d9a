import GeneralLL.Error
import GeneralLL.Grammar
import GeneralLL.Json.Record

/-!
# Grammar documents

Grammars as JSON. A document gives a name, a start symbol, the rules by
nonterminal and, if it likes, sample texts. The rules of a nonterminal are either

* an **array of productions**, each an array of strings: a string between angle
  brackets names a nonterminal, any other stands for itself, and the empty array is
  the empty production; or
* an **object that describes characters**: digits, small letters, a range of code
  points without its end, less some exceptions. It makes one production of one
  character.

Nonterminals come in the order of their names, since that is how objects are kept.
-/

namespace GeneralLL

/-- The record of a grammar document, whose rules have not been looked into. -/
structure GrammarDocument where
  /-- What the grammar is called. -/
  name : String
  /-- The start symbol, which need not have rules. -/
  start : String
  /-- What is said about each nonterminal, in the order of their names. -/
  rules : List (String × Json)
  /-- Sample texts. -/
  tests : List String

namespace GrammarDocument

/-- The fields of the record; only the sample texts can be left out. -/
def ofFields? (fields : Json.Fields) : Option GrammarDocument := do
  let name ← (Json.fieldValue? fields "name").bind Json.asString?
  let start ← (Json.fieldValue? fields "start").bind Json.asString?
  let rules ← (Json.fieldValue? fields "rules").bind Json.asObject?
  let tests ← match Json.field? fields "tests" with
    | none => some []
    | some _ => do
      let items ← (Json.fieldValue? fields "tests").bind Json.asArray?
      items.mapM Json.asString?
  return { name, start, rules, tests }

/-- Reads the record of a document. The JSON reader behind it, `Json.Raw.read?` with `Json.ofRaw?`,
stands for one from outside the library. What is proved about documents relies on nothing of it but
the order of keys, in which an object keeps its members. -/
def ofJson? (text : String) : Option GrammarDocument :=
  (Json.Raw.read? text).bind fun raw =>
    (Json.fields? ["name", "start", "rules", "tests"] raw).bind ofFields?

/-! ## Productions -/

/-- Is the text a name between angle brackets? The brackets belong to the name. -/
def isNonterminal (text : String) : Bool :=
  let cs := text.toList
  2 < cs.length && cs.head? = some '<' && cs.getLast? = some '>'

/-- The symbol that a string of a production stands for. -/
def symbol {μ : Type} (text : String) : Symbol μ :=
  if isNonterminal text then .call text [] {} else .terminal (.ofText text) {}

/-- The body that an array of strings stands for. -/
def production {μ : Type} : Json → Except DocumentFault (List (Symbol μ))
  | .array items => items.mapM fun
    | .string s => .ok (symbol s)
    | _ => .error .symbolShape
  | _ => .error .productionShape

/-! ## Descriptions of characters -/

/-- A code point in a document: a natural number of at most 32 bits. -/
def codePoint? (v : Json) : Option Nat :=
  v.asNat?.filter (· < UInt32.size)

/-- The bounds of a range of code points. -/
def bounds (v : Json) : Except DocumentFault (Nat × Nat) :=
  match v.asArray? with
  | none => .error .rangeShape
  | some items =>
    match items[0]?.bind codePoint?, items[1]?.bind codePoint? with
    | some start, some stop => .ok (start, stop)
    | _, _ => .error .rangeBounds

/-- Adds the characters from `start` up to but not including `stop`, less the exceptions. Code
points beyond the last character and surrogates add nothing. -/
def addCodePoints (s : CharClass) (start stop : Nat) (exceptions : List Nat) : CharClass :=
  let codes := List.range' start (min stop 0x110000 - start)
  codes.foldl
    (fun s code => if code.isValidChar ∧ code ∉ exceptions then s.add (Char.ofNat code) else s) s

/-- The exceptions of a description; whatever is no code point is passed over. -/
def exceptions (members : List (String × Json)) : List Nat :=
  (((Json.member? members "exclude").bind Json.asArray?).getD []).filterMap codePoint?

/-- Is a member of a description switched on? -/
def isOn (members : List (String × Json)) (key : String) : Bool :=
  (Json.member? members key).bind Json.asBool? = some true

/-- The characters of a description. -/
def characters (members : List (String × Json)) : Except DocumentFault CharClass := do
  let s := if isOn members "digits" then CharClass.empty.addRange '0' '9' else .empty
  let s := if isOn members "letters" then s.addRange 'a' 'z' else s
  match Json.member? members "char_range" with
  | none => return s
  | some v =>
    let (start, stop) ← bounds v
    return addCodePoints s start stop (exceptions members)

/-- The productions of one nonterminal. -/
def productions {μ : Type} : Json → Except DocumentFault (List (List (Symbol μ)))
  | .array items => items.mapM production
  | .object members => do
    let s ← characters members
    if s.isEmpty then .error .noCharacters else return [[.terminal (.oneOf s) {}]]
  | _ => .error .rulesShape

/-- The rules of a document, nonterminal by nonterminal. -/
def rulesOf {μ : Type} (rules : List (String × Json)) : Except DocumentFault (List (Rule μ)) := do
  let groups ← rules.mapM fun (head, v) => do
    let bodies ← productions v
    return bodies.map fun body => ({ head, body } : Rule μ)
  return groups.flatten

/-- The grammar that a document describes. -/
def grammar {μ : Type} (d : GrammarDocument) : Except DocumentFault (Grammar μ) := do
  let rules ← rulesOf d.rules
  return .ofRules d.name (some d.start) rules [] d.tests

end GrammarDocument

/-- Reads a grammar from JSON. -/
def Grammar.ofJson {μ : Type} (text : String) : Except LoadError (Grammar μ) :=
  match GrammarDocument.ofJson? text with
  | none => .error .malformed
  | some d => d.grammar.mapError .invalid

/-- Reads a grammar from a file. -/
def Grammar.ofFile {μ : Type} (read : String → Option String) (path : String) :
    Except LoadError (Grammar μ) :=
  match read path with
  | some text => Grammar.ofJson text
  | none => .error .unreadable

end GeneralLL
