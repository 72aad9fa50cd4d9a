import GeneralLL.CharClass
import GeneralLL.Input

/-!
# Terminals

A terminal answers one question: where does its match that starts at `i` end?
Besides the empty text, a character, a class and a literal there are terminals
whose matching is defined elsewhere, for instance by a compiled regular
expression. They come from a type with a `Matcher` instance, and everything that
mentions terminals takes that type as a parameter. Two such terminals are the same
exactly if the values of that type are.
-/

namespace GeneralLL

/-- Matching that is defined outside this library. -/
class Matcher (μ : Type) where
  /-- What the matcher is called in reports. -/
  name : μ → String
  /-- Where the match that starts at a position ends. -/
  matchAt : μ → Input → Nat → Option Nat
  /-- The characters a match can start with, if they are known. -/
  first : μ → Option CharClass := fun _ => none
  /-- Can the match be empty? -/
  nullable : μ → Bool := fun _ => false

/-- What can be matched with the text. -/
inductive Terminal (μ : Type) where
  | epsilon
  | char (c : Char)
  | oneOf (s : CharClass)
  | literal (text : String)
  | custom (m : μ)
  deriving DecidableEq, Repr

namespace Terminal

variable {μ : Type}

instance : Inhabited (Terminal μ) := ⟨epsilon⟩

/-- The terminal for a fixed text: the empty text and single characters have their own. -/
def ofText (text : String) : Terminal μ :=
  match text.toList with
  | [] => epsilon
  | [c] => char c
  | _ => literal text

/-- Is this the empty terminal? -/
def isEpsilon : Terminal μ → Bool
  | epsilon => true
  | _ => false

/-- Where the text ends if it stands at `i`. -/
def matchChars (t : Input) : List Char → Nat → Option Nat
  | [], i => some i
  | c :: cs, i => if t.symbolAt? i = some c then matchChars t cs (i + 1) else none

section

variable [Matcher μ]

/-- What a terminal is called, without quotes. -/
def name : Terminal μ → String
  | epsilon => "epsilon"
  | char c => c.toString
  | oneOf s => s.toText
  | literal text => text
  | custom m => Matcher.name m

/-- Fixed texts are written between quotes, without escapes. -/
def toText : Terminal μ → String
  | epsilon => "ε"
  | char c => "'" ++ c.toString ++ "'"
  | oneOf s => s.toText
  | literal text => "'" ++ text ++ "'"
  | custom m => Matcher.name m

/-- Where the match that starts at `i` ends. -/
def matchAt (t : Input) (i : Nat) : Terminal μ → Option Nat
  | epsilon => some i
  | char c => if t.symbolAt? i = some c then some (i + 1) else none
  | oneOf s => if (t.symbolAt? i).any s.contains then some (i + 1) else none
  | literal text => matchChars t text.toList i
  | custom m => Matcher.matchAt m t i

/-- The length that every match has, for the terminals that have one. -/
def fixedLength? : Terminal μ → Option Nat
  | epsilon => some 0
  | char _ => some 1
  | oneOf _ => some 1
  | literal text => some text.toList.length
  | custom _ => none

/-- Does a match end exactly at `i`? Where the length of a match is known there is one place
for it to start, otherwise every place up to `i` is tried. -/
def matchesBefore (t : Input) (i : Nat) (terminal : Terminal μ) : Bool :=
  match terminal.fixedLength? with
  | some n => n ≤ i && terminal.matchAt t (i - n) = some i
  | none => (List.range (i + 1)).any fun j => terminal.matchAt t j = some i

/-- The characters a match can start with, if they are known. -/
def first : Terminal μ → Option CharClass
  | epsilon => some .empty
  | char c => some (.single c)
  | oneOf s => some s
  | literal text => some (text.toList.head?.elim .empty .single)
  | custom m => Matcher.first m

/-- Can the match be empty? -/
def nullable : Terminal μ → Bool
  | epsilon => true
  | literal text => text.isEmpty
  | custom m => Matcher.nullable m
  | _ => false

end

end Terminal

end GeneralLL
