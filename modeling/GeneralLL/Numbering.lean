/-!
# Numberings

A numbering gives consecutive numbers to distinct things in the order in which
they are first seen. Nonterminal names, terminals, argument lists and the
descriptors a parse has accepted are all numbered this way: the number of a thing
is its position, so nothing has to be kept in step with the list itself.
-/

namespace GeneralLL

/-- Distinct things, each numbered by its position. -/
structure Numbering (α : Type) where
  /-- The things, each at its number. -/
  items : Array α
  /-- No thing has two numbers. -/
  nodup : items.toList.Nodup

namespace Numbering

variable {α : Type} [DecidableEq α]

/-- The numbering of nothing. -/
def empty : Numbering α := ⟨#[], List.nodup_nil⟩

instance : Inhabited (Numbering α) := ⟨empty⟩

/-- How many things are numbered. -/
def size (n : Numbering α) : Nat := n.items.size

/-- Is nothing numbered? -/
def isEmpty (n : Numbering α) : Bool := n.items.isEmpty

/-- The number of `a`, if it has one. -/
def find? (n : Numbering α) (a : α) : Option Nat :=
  n.items.findIdx? (· = a)

/-- The thing numbered `i`. -/
def get? (n : Numbering α) (i : Nat) : Option α := n.items[i]?

/-- The things numbered so far, in the order of their numbers. -/
def toList (n : Numbering α) : List α := n.items.toList

theorem notMem_of_find?_eq_none {n : Numbering α} {a : α} (h : n.find? a = none) :
    a ∉ n.items.toList := by
  intro ha
  have hnone := Array.findIdx?_eq_none_iff.mp h a (Array.mem_toList_iff.mp ha)
  simp at hnone

/-- Numbers `a` if it is new; answers its number either way. -/
def insert (n : Numbering α) (a : α) : Nat × Numbering α :=
  match h : n.find? a with
  | some i => (i, n)
  | none =>
    (n.size, ⟨n.items.push a, by
      rw [Array.toList_push, List.nodup_append]
      refine ⟨n.nodup, by simp, ?_⟩
      intro x hx y hy
      rw [List.mem_singleton] at hy
      subst hy
      exact fun heq => notMem_of_find?_eq_none h (heq ▸ hx)⟩)

/-- Numbers the members of a list one after the other. -/
def ofList (l : List α) : Numbering α :=
  l.foldl (fun n a => (n.insert a).2) empty

end Numbering

end GeneralLL
