import GeneralLL.Proofs.Run
import GeneralLL.Proofs.Stores

/-!
# Every descriptor is delivered once

A parse uses its agenda in a certain way. This file says what an agenda does however it is used:
descriptors are offered, for the queue or for the register, and taken, in any order
(`Agenda.serve`).

**A descriptor is accepted when it is offered for the first time,** and never again. What was
accepted has been delivered or waits, not both and not twice, and an agenda that delivers nothing
has nothing that waits (`delivers_once`). This does not depend on the order of the queue
nor on the register.
-/

namespace GeneralLL

namespace Agenda

/-! ## Using an agenda -/

/-- One use of an agenda. -/
inductive Call where
  | offer (d : Descriptor)
  | offerNext (d : Descriptor)
  | take

/-- A use of an agenda, with its answer. -/
inductive Event where
  | offered (d : Descriptor) (isNew : Bool)
  | taken (d : Option Descriptor)

namespace Event

/-- The descriptor that was offered. -/
def offered? : Event → Option Descriptor
  | offered d _ => some d
  | taken _ => none

/-- The descriptor that was offered and accepted. -/
def accepted? : Event → Option Descriptor
  | offered d isNew => if isNew then some d else none
  | taken _ => none

/-- The descriptor that was taken. -/
def delivered? : Event → Option Descriptor
  | offered _ _ => none
  | taken d => d

end Event

/-- What a call answers, and the agenda that it leaves behind. -/
def answer (a : Agenda) : Call → Event × Agenda
  | .offer d => (.offered d (a.offer d).1, (a.offer d).2)
  | .offerNext d => (.offered d (a.offerNext d).1, (a.offerNext d).2)
  | .take =>
    match a.take with
    | some (d, rest) => (.taken (some d), rest)
    | none => (.taken none, a)

/-- An agenda with all that has happened to it, in order. -/
structure History where
  /-- The agenda as it is now. -/
  agenda : Agenda
  /-- What has happened so far, the oldest first. -/
  events : List Event := []

namespace History

/-- Something has happened, and left this agenda behind. -/
def record (h : History) (e : Event) (a : Agenda) : History := ⟨a, h.events ++ [e]⟩

/-- Does to the agenda what is asked for, and records what happened. -/
def perform (h : History) (c : Call) : History :=
  h.record (h.agenda.answer c).1 (h.agenda.answer c).2

/-- The descriptors that were offered, as often as they were. -/
def offered (h : History) : List Descriptor := h.events.filterMap Event.offered?

/-- The descriptors that were offered and accepted. -/
def accepted (h : History) : List Descriptor := h.events.filterMap Event.accepted?

/-- The descriptors that were taken. -/
def delivered (h : History) : List Descriptor := h.events.filterMap Event.delivered?

end History

/-- The agenda is used by calls one after the other. -/
def serve (a : Agenda) (calls : List Call) : History := calls.foldl History.perform ⟨a, []⟩

/-- An agenda that was just made or cleared. -/
inductive Fresh : Agenda → Prop where
  | new (scheduling : Scheduling) (shortcut : Bool) : Fresh (.new scheduling shortcut)
  | clear (a : Agenda) : Fresh a.clear

theorem Fresh.nothing {a : Agenda} (h : a.Fresh) : a.seen = .empty ∧ a.waiting = [] := by
  cases h <;> exact ⟨rfl, rfl⟩

/-! ## Answers -/

theorem offer_isNew_iff {a : Agenda} {d : Descriptor} :
    (a.offer d).1 = true ↔ d ∉ a.seen.toList := by
  unfold offer
  by_cases hd : (a.seen.find? d).isSome
  · simpa [hd] using Numbering.find?_isSome_iff.mp hd
  · simpa [hd] using mt Numbering.find?_isSome_iff.mpr hd

/-- The register makes no difference to what is accepted. -/
theorem offerNext_isNew (a : Agenda) (d : Descriptor) : (a.offerNext d).1 = (a.offer d).1 := by
  unfold offerNext
  split
  · rfl
  · unfold offer
    split <;> rfl

theorem take_eq_none_iff {a : Agenda} : a.take = none ↔ a.waiting = [] := by
  constructor
  · exact take_eq_none
  · intro h
    cases htake : a.take with
    | none => rfl
    | some delivery =>
      obtain ⟨d, rest⟩ := delivery
      exact absurd ((take_eq_some htake).1.symm.trans h) (by simp)

/-! ## The balance of offers and deliveries -/

namespace History

section

variable (h : History) (e : Event) (a : Agenda)

@[simp] theorem agenda_record : (h.record e a).agenda = a := rfl

theorem offered_record : (h.record e a).offered = h.offered ++ e.offered?.toList :=
  filterMap_concat h.events e _

theorem accepted_record : (h.record e a).accepted = h.accepted ++ e.accepted?.toList :=
  filterMap_concat h.events e _

theorem delivered_record : (h.record e a).delivered = h.delivered ++ e.delivered?.toList :=
  filterMap_concat h.events e _

end

/-- What was accepted is what the agenda has seen, and has been delivered or waits. -/
structure Balanced (h : History) : Prop where
  /-- The agenda has seen what was offered, and nothing else. -/
  offered : ∀ d, d ∈ h.offered ↔ d ∈ h.agenda.seen.toList
  /-- It has accepted what it has seen, each descriptor when it saw it first. -/
  accepted : h.accepted = h.agenda.seen.toList
  /-- What was accepted has been delivered or waits, each descriptor once. -/
  delivered : (h.delivered ++ h.agenda.waiting).Perm h.agenda.seen.toList

variable {h : History}

/-- An agenda that accepts what was not offered before, to deliver it later, stays in balance. -/
theorem Balanced.offer (hh : h.Balanced) {d : Descriptor} {isNew : Bool} {a : Agenda}
    (hnew : isNew = true ↔ d ∉ h.agenda.seen.toList) (haccepts : h.agenda.Accepts d a) :
    (h.record (.offered d isNew) a).Balanced := by
  refine ⟨fun e => ?_, ?_, ?_⟩
  · rw [offered_record, Event.offered?, List.mem_append, Option.toList_some, List.mem_singleton,
      hh.offered]
    exact haccepts.mem_seen.symm
  · rw [accepted_record, Event.accepted?, agenda_record, hh.accepted]
    cases haccepts with
    | known hd => rw [if_neg fun h => hnew.mp h hd, Option.toList_none, List.append_nil]
    | new hd hseen => rw [if_pos (hnew.mpr hd), Option.toList_some, hseen]
  · rw [delivered_record, Event.delivered?, Option.toList_none, List.append_nil]
    cases haccepts with
    | known => exact hh.delivered
    | new _ hseen hwaiting =>
      calc h.delivered ++ a.waiting
        |>.Perm (h.delivered ++ (d :: h.agenda.waiting)) := hwaiting.append_left _
        _ |>.Perm (d :: (h.delivered ++ h.agenda.waiting)) := List.perm_middle
        _ |>.Perm (d :: h.agenda.seen.toList) := hh.delivered.cons d
        _ |>.Perm (h.agenda.seen.toList ++ [d]) := (List.perm_append_singleton d _).symm
        _ |>.Perm a.seen.toList := .of_eq hseen.symm

/-- What is taken has been delivered, and waits no longer. -/
theorem Balanced.taken (hh : h.Balanced) {o : Option Descriptor} {a : Agenda}
    (hwaiting : h.agenda.waiting = o.toList ++ a.waiting) (hseen : a.seen = h.agenda.seen) :
    (h.record (.taken o) a).Balanced := by
  refine ⟨fun d => ?_, ?_, ?_⟩
  · rw [offered_record, Event.offered?, Option.toList_none, List.append_nil, agenda_record, hseen,
      hh.offered]
  · rw [accepted_record, Event.accepted?, Option.toList_none, List.append_nil, agenda_record, hseen,
      hh.accepted]
  · rw [delivered_record, Event.delivered?, agenda_record, hseen, List.append_assoc, ← hwaiting]
    exact hh.delivered

theorem Balanced.perform (hh : h.Balanced) (c : Call) : (h.perform c).Balanced := by
  cases c with
  | offer d => exact hh.offer offer_isNew_iff (accepts_offer _ d)
  | offerNext d =>
    refine hh.offer ?_ (accepts_offerNext _ d)
    rw [offerNext_isNew]
    exact offer_isNew_iff
  | take =>
    unfold History.perform answer
    dsimp only
    cases htake : h.agenda.take with
    | none => exact hh.taken rfl rfl
    | some delivery =>
      obtain ⟨hwaiting, hseen⟩ := take_eq_some htake
      exact hh.taken hwaiting hseen

end History

theorem Fresh.balanced {a : Agenda} (h : a.Fresh) (calls : List Call) :
    (a.serve calls).Balanced := by
  have hstart : History.Balanced ⟨a, []⟩ := by
    obtain ⟨hseen, hwaiting⟩ := h.nothing
    refine ⟨fun d => ?_, ?_, ?_⟩ <;>
      simp [hseen, hwaiting, History.offered, History.accepted, History.delivered,
        Numbering.empty, Numbering.toList]
  unfold serve
  generalize (⟨a, []⟩ : History) = history at hstart
  induction calls generalizing history with
  | nil => exact hstart
  | cons c rest ih => exact ih _ (hstart.perform c)

/-- **However an agenda is used, it accepts a descriptor the first time it is offered,** and what
it has accepted is what it has delivered together with what waits, without duplicates. It
delivers nothing exactly if nothing waits. -/
theorem delivers_once {a : Agenda} (h : a.Fresh) (calls : List Call) :
    (∀ d, ((a.serve calls).agenda.offer d).1 = true ↔ d ∉ (a.serve calls).offered) ∧
    (∀ d, ((a.serve calls).agenda.offerNext d).1 = true ↔ d ∉ (a.serve calls).offered) ∧
    (∀ d, d ∈ (a.serve calls).accepted ↔ d ∈ (a.serve calls).offered) ∧
    (a.serve calls).accepted.Nodup ∧
    ((a.serve calls).delivered ++ (a.serve calls).agenda.waiting).Perm (a.serve calls).accepted ∧
    (a.serve calls).agenda.seenCount
      = (a.serve calls).delivered.length + (a.serve calls).agenda.pending ∧
    ((a.serve calls).agenda.take = none ↔ (a.serve calls).agenda.pending = 0) := by
  have hbalanced := h.balanced calls
  have hoffer (d : Descriptor) :
      ((a.serve calls).agenda.offer d).1 = true ↔ d ∉ (a.serve calls).offered := by
    rw [offer_isNew_iff, hbalanced.offered]
  refine ⟨hoffer, fun d => ?_, fun d => ?_, ?_, ?_, ?_, ?_⟩
  · rw [offerNext_isNew, hoffer]
  · rw [hbalanced.accepted, hbalanced.offered]
  · rw [hbalanced.accepted]
    exact (a.serve calls).agenda.seen.nodup
  · rw [hbalanced.accepted]
    exact hbalanced.delivered
  · have hlength := hbalanced.delivered.length_eq
    rw [List.length_append] at hlength
    exact hlength.symm
  · rw [take_eq_none_iff, pending, List.length_eq_zero_iff]

/-- A thread that starts at a slot. -/
def threadAt (slot : Nat) : Descriptor := ⟨slot, 0, 0, none, .empty .frames⟩

/-- The register is taken when the second descriptor is offered for it, and a descriptor is offered
again both before and after it is taken. -/
def shuffled : List Call :=
  [.offer (threadAt 0), .offerNext (threadAt 5), .offerNext (threadAt 6), .offerNext (threadAt 5),
    .take, .offer (threadAt 5), .take]

/-- What is in the register comes first. -/
theorem delivers_once_shuffled :
    (new .fifo true).Fresh ∧
      ((new .fifo true).serve shuffled).delivered = [threadAt 5, threadAt 0] ∧
      ((new .fifo true).serve shuffled).agenda.waiting = [threadAt 6] ∧
      [threadAt 5, threadAt 0, threadAt 6].Perm ((new .fifo true).serve shuffled).accepted ∧
      ((new .fifo true).serve shuffled).agenda.seenCount = 3 := by
  have hfresh : (new .fifo true).Fresh := .new _ _
  have hdelivered : ((new .fifo true).serve shuffled).delivered = [threadAt 5, threadAt 0] := by
    decide +kernel
  have hwaiting : ((new .fifo true).serve shuffled).agenda.waiting = [threadAt 6] := by
    decide +kernel
  obtain ⟨-, -, -, -, hperm, hcount, -⟩ := delivers_once hfresh shuffled
  rw [hdelivered, hwaiting] at hperm
  rw [hdelivered] at hcount
  exact ⟨hfresh, hdelivered, hwaiting, hperm, hcount.trans (by decide +kernel)⟩

end Agenda

end GeneralLL
