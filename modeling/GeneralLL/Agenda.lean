import GeneralLL.Configuration
import GeneralLL.Numbering

/-!
# The agenda

The work that is left to do. A descriptor is accepted only once in a parse, so work
that was offered before, done or not, is refused. Accepted descriptors wait in a
queue, which is kept in the order of delivery; the next one to be delivered can also
be chosen by putting it into a register in front of the queue.
-/

namespace GeneralLL

/-- A piece of work: to go on at a slot, at a position, with what is known there. -/
structure Descriptor where
  /-- The slot to go on at. -/
  slot : Nat
  /-- The position of the text that the thread has come to. -/
  position : Nat
  /-- The call that the work belongs to. -/
  stackNode : Nat
  /-- What was recognised of the rule so far. -/
  forestNode : Option Nat
  /-- The environment of the thread. -/
  env : Environment
  deriving DecidableEq, Repr

/-- The work that waits, and a record of all work that was ever accepted. -/
structure Agenda where
  /-- The order in which queued work is delivered. -/
  scheduling : Scheduling
  /-- May the register be used? -/
  shortcut : Bool
  /-- All descriptors ever accepted. -/
  seen : Numbering Descriptor := .empty
  /-- The descriptors in the queue, the next to be delivered first. -/
  queue : List Descriptor := []
  /-- The descriptor in the register. -/
  next : Option Descriptor := none

namespace Agenda

/-- An agenda without work. -/
def new (scheduling : Scheduling) (shortcut : Bool) : Agenda := { scheduling, shortcut }

/-- Forgets everything, accepted work included. -/
def clear (a : Agenda) : Agenda := .new a.scheduling a.shortcut

/-- How many descriptors were accepted. -/
def seenCount (a : Agenda) : Nat := a.seen.size

/-- The accepted descriptors that wait, in the order of delivery. -/
def waiting (a : Agenda) : List Descriptor := a.next.toList ++ a.queue

/-- How many accepted descriptors wait. -/
def pending (a : Agenda) : Nat := a.waiting.length

/-- Puts a descriptor into the queue. -/
def enqueue (a : Agenda) (d : Descriptor) : Agenda :=
  { a with queue := match a.scheduling with
      | .fifo => a.queue ++ [d]
      | .lifo => d :: a.queue }

/-- Accepts a descriptor that was not offered before; answers whether it did. -/
def offer (a : Agenda) (d : Descriptor) : Bool × Agenda :=
  if (a.seen.find? d).isSome then (false, a)
  else (true, { a with seen := (a.seen.insert d).2 }.enqueue d)

/-- Like `offer`, but the descriptor is put into the register if it may be used and is free. -/
def offerNext (a : Agenda) (d : Descriptor) : Bool × Agenda :=
  if !a.shortcut || a.next.isSome then a.offer d
  else if (a.seen.find? d).isSome then (false, a)
  else (true, { a with seen := (a.seen.insert d).2, next := some d })

/-- Delivers a descriptor, if one is waiting. -/
def take (a : Agenda) : Option (Descriptor × Agenda) :=
  match a.next, a.queue with
  | some d, _ => some (d, { a with next := none })
  | none, d :: rest => some (d, { a with queue := rest })
  | none, [] => none

end Agenda

end GeneralLL
