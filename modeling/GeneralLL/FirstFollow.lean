import GeneralLL.Grammar
import GeneralLL.Lookahead

/-!
# Nullable, FIRST and FOLLOW

What a nonterminal can start with and what can come after it. The sets are used
to skip alternatives that cannot succeed, so they have to admit at least what the
grammar admits; they admit exactly what the rules say if terminals are taken at
their word.

* **Nullable** names are found in rounds: a round adds the heads of all rules whose
  bodies are nullable with what is known. Each round but the last adds a head, so
  there are no more of them than rules.
* **FIRST** of a name is the union of what the rules show directly, over all names
  that it can start with. Those are found by exploration.
* **FOLLOW** of a name is, in the same way, the union of what stands directly behind
  it, over all names at whose end it can stand.

A condition is taken to go either way, so a conditional symbol without an
alternative is nullable.
-/

namespace GeneralLL

namespace Symbol

variable {μ : Type} [Matcher μ]

/-- Can a symbol derive the empty text, given the names that can? -/
def nullable (names : List String) : Symbol μ → Bool
  | terminal t _ => t.nullable
  | call name .. => name ∈ names
  | ifThen .. => true
  | ifThenElse _ body otherwise _ => body.nullable names || otherwise.nullable names

/-- What a symbol starts with, given what names start with. -/
def first (sets : String → Lookahead) : Symbol μ → Lookahead
  | terminal t _ => t.first.elim .anything .ofClass
  | call name .. => sets name
  | ifThen _ body _ => body.first sets
  | ifThenElse _ body otherwise _ => (body.first sets).union (otherwise.first sets)

end Symbol

/-- The sets of a grammar. Only its own nonterminals have FIRST and FOLLOW sets. -/
structure FirstFollow where
  /-- The names that can derive the empty text, in the order in which they were found. -/
  nullable : List String
  /-- FIRST of every nonterminal, in the order of the grammar. -/
  first : List (String × Lookahead)
  /-- FOLLOW of every nonterminal, in the order of the grammar. -/
  follow : List (String × Lookahead)

namespace FirstFollow

/-- The entry for a name in a table of sets. -/
def lookup? (table : List (String × Lookahead)) (name : String) : Option Lookahead :=
  (table.find? (·.1 = name)).map Prod.snd

/-- The set for a name; a name without rules starts with nothing. -/
def lookup (table : List (String × Lookahead)) (name : String) : Lookahead :=
  (lookup? table name).getD .empty

section

variable {μ : Type} [Matcher μ]

/-- Can a sequence derive the empty text? -/
def sequenceNullable (names : List String) (body : List (Symbol μ)) : Bool :=
  body.all (·.nullable names)

/-- The part of a sequence that can stand at its front: all symbols up to the first that is not
nullable, that one included. -/
def front (names : List String) : List (Symbol μ) → List (Symbol μ)
  | [] => []
  | s :: rest => if s.nullable names then s :: front names rest else [s]

/-- What a sequence starts with. -/
def sequenceFirst (names : List String) (sets : String → Lookahead) (body : List (Symbol μ)) :
    Lookahead :=
  (front names body).foldl (fun set s => set.union (s.first sets)) .empty

/-! ## Nullable names -/

/-- Adds the heads of the rules whose bodies are nullable. -/
def nullableRound (rules : List (Rule μ)) (names : List String) : List String :=
  rules.foldl
    (fun names r =>
      if r.head ∉ names ∧ sequenceNullable names r.body then names ++ [r.head] else names)
    names

/-- Goes on until a round adds nothing, for a number of rounds at most. -/
def nullableRounds (rules : List (Rule μ)) : Nat → List String → List String
  | 0, names => names
  | n + 1, names =>
    let names' := nullableRound rules names
    if names'.length = names.length then names else nullableRounds rules n names'

/-- The names that can derive the empty text. -/
def nullableNames (g : Grammar μ) : List String := nullableRounds g.rules g.rules.length []

/-! ## FIRST -/

/-- The names that a nonterminal can start with, by one of its rules. -/
def leads (g : Grammar μ) (names : List String) (name : String) : List String :=
  (g.alternatives name).flatMap fun r => (front names r.body).flatMap Symbol.references

/-- What the rules of a nonterminal show without going into other nonterminals. -/
def directFirst (g : Grammar μ) (names : List String) (name : String) : Lookahead :=
  (g.alternatives name).foldl
    (fun set r => set.union (sequenceFirst names (fun _ => .empty) r.body)) .empty

/-- FIRST of a nonterminal is all that is shown by the names it can start with. -/
def firstTable (g : Grammar μ) (names : List String) : List (String × Lookahead) :=
  let direct := g.nonterminals.map fun a => (a, directFirst g names a)
  let heads := g.rules.map Rule.head
  g.nonterminals.map fun a =>
    (a, (Explore.reachable (leads g names) heads a).foldl
      (fun set b => set.union (lookup direct b)) .empty)

/-! ## FOLLOW -/

/-- Every symbol of a sequence with what stands behind it. -/
def withRests : List (Symbol μ) → List (Symbol μ × List (Symbol μ))
  | [] => []
  | s :: rest => (s, rest) :: withRests rest

/-- The names of which a nonterminal can be the end, by one of their rules. -/
def closes (g : Grammar μ) (names : List String) (name : String) : List String :=
  g.rules.flatMap fun r =>
    (withRests r.body).flatMap fun p =>
      if name ∈ p.1.references ∧ sequenceNullable names p.2 then [r.head] else []

/-- What stands directly behind a nonterminal, the end of the text behind the start symbol
included. -/
def directFollow (g : Grammar μ) (names : List String) (sets : String → Lookahead)
    (name : String) : Lookahead :=
  (g.rules.flatMap fun r => withRests r.body).foldl
    (fun set p =>
      if name ∈ p.1.references then set.union (sequenceFirst names sets p.2) else set)
    (if name = g.start then .endOfText else .empty)

/-- FOLLOW of a nonterminal is all that stands behind the names of which it can be the end. -/
def followTable (g : Grammar μ) (names : List String) (sets : String → Lookahead) :
    List (String × Lookahead) :=
  let direct := g.nonterminals.map fun a => (a, directFollow g names sets a)
  let heads := g.rules.map Rule.head
  g.nonterminals.map fun a =>
    (a, (Explore.reachable (closes g names) heads a).foldl
      (fun set b => set.union (lookup direct b)) .empty)

/-- The sets of a grammar, which need not be closed. -/
def ofGrammar (g : Grammar μ) : FirstFollow :=
  let nullable := nullableNames g
  let first := firstTable g nullable
  { nullable, first, follow := followTable g nullable (lookup first) }

end

/-! ## Questions -/

/-- Can a nonterminal derive the empty text? -/
def isNullable (sets : FirstFollow) (name : String) : Bool := name ∈ sets.nullable

/-- FIRST of a nonterminal of the grammar. -/
def first? (sets : FirstFollow) (name : String) : Option Lookahead := lookup? sets.first name

/-- FOLLOW of a nonterminal of the grammar. -/
def follow? (sets : FirstFollow) (name : String) : Option Lookahead := lookup? sets.follow name

variable {μ : Type} [Matcher μ]

/-- Can a symbol derive the empty text? -/
def symbolNullable (sets : FirstFollow) (s : Symbol μ) : Bool := s.nullable sets.nullable

/-- What a symbol starts with. -/
def symbolFirst (sets : FirstFollow) (s : Symbol μ) : Lookahead := s.first (lookup sets.first)

/-- Can what is left of a rule derive the empty text? -/
def restNullable (sets : FirstFollow) (rest : List (Symbol μ)) : Bool :=
  sequenceNullable sets.nullable rest

/-- What the rest of a rule starts with. -/
def restFirst (sets : FirstFollow) (rest : List (Symbol μ)) : Lookahead :=
  sequenceFirst sets.nullable (lookup sets.first) rest

/-- What may come next where `rest` is left of a rule for `head`: FIRST of the rest, and FOLLOW
of the head if the rest is nullable. -/
def lookahead (sets : FirstFollow) (head : String) (rest : List (Symbol μ)) : Lookahead :=
  let set := sets.restFirst rest
  if sets.restNullable rest then set.union (lookup sets.follow head) else set

end FirstFollow

end GeneralLL
