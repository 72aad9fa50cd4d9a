import GeneralLL.Proofs.Order
import GeneralLL.Proofs.Universe
import Mathlib.Algebra.Order.BigOperators.Group.List
import Mathlib.Algebra.Order.Ring.Nat

/-!
# Parses end

In a grammar without parameters and return values every parse ends (`parse_terminates`),
however the grammar recurs and whatever the conditions answer.

* **A thread ends.** Each move that it survives leaves less of its rule
  (`ends_advance_remains`).
* **The agenda runs dry.** Accepted descriptors are threads of the parse, each of them has
  one number, and there are finitely many (`length_le_of_reaches`).
* So **the steps run out**: a step lets the running thread go on, of which less is left
  then, or delivers one more of the descriptors (`ends_run_finished`).
-/

namespace GeneralLL

open SlotGraph

/-- No rule of the grammar has more left to go. -/
def Grammar.weight {μ : Type} (g : Grammar μ) : Nat :=
  (g.rules.map fun r => GeneralLL.weight r.body).sum

theorem Grammar.weight_body_le {μ : Type} {g : Grammar μ} {r : Rule μ} (hr : r ∈ g.rules) :
    GeneralLL.weight r.body ≤ g.weight :=
  List.le_sum_of_mem (List.mem_map_of_mem hr)

namespace Parser

variable {μ : Type} [DecidableEq μ] [Matcher μ] {p : Parser μ} {g : Grammar μ}

/-! ## Threads end -/

/-- The running thread comes to an end: it stops, or one of its moves fails. -/
inductive ThreadEnds (p : Parser μ) : State → Prop where
  | stopped {s : State} : s.running = none → ThreadEnds p s
  | failed {s s' : State} {d : Descriptor} {e : ConditionError} :
      s.running = some d → p.advance d s = .error e s' → ThreadEnds p s
  | moved {s s' : State} {d : Descriptor} :
      s.running = some d → p.advance d s = .ok () s' → ThreadEnds p s' → ThreadEnds p s

/-- If a thread is running, less than this is left of its rule. -/
def Remains (p : Parser μ) (g : Grammar μ) (s : State) (m : Nat) : Prop :=
  ∀ d, s.running = some d → ∃ t k r i symbols, s.thread? d = some t ∧ g.rules[k]? = some r ∧
    p.graph.Before g k r i t.slot symbols ∧ weight symbols < m

section

variable (hg : SlotGraph.ofGrammar g = .ok p.graph)

include hg

/-- **A thread that goes on has less of its rule left.** -/
theorem Finds.lighter {k i : Nat} {r : Rule μ} {symbols : List (Symbol μ)} {t t' : Thread}
    (hr : g.rules[k]? = some r) (h : p.Finds g k r i symbols t (.passed t')) :
    ∃ i' symbols', p.graph.Before g k r i' t'.slot symbols' ∧ weight symbols' < weight symbols := by
  cases h with
  | complete _ _ _ hf => exact absurd hf (by simp [completeFacts])
  | scan hs _ hsymbols _ _ hf =>
    obtain ⟨hi, -⟩ := List.getElem?_eq_some_iff.mp hs
    simp only [scanFacts, List.mem_cons] at hf
    rcases hf with hf | hf | hf
    · obtain rfl := Fact.passed.inj hf
      rw [hsymbols]
      exact ⟨i + 1, _, before_base_graph hg hr hi, weight_rest_lt _ _⟩
    · exact absurd hf (by simp)
    · exact (Piece.ofForest_joinFacts hf).elim
  | call _ _ _ _ _ _ hf =>
    unfold callFacts at hf
    split at hf
    · exact absurd hf List.not_mem_nil
    · exact absurd hf (by simp)
  | branch _ hbefore hlt => exact ⟨_, _, hbefore, hlt⟩

/-- **After a move of the running thread less of it remains.** -/
theorem ends_advance_remains {ran : Thread → Prop} {log : List Descriptor} {s : State}
    {d : Descriptor} {m : Nat} (hreached : p.Reached ran log s) (hremains : p.Remains g s m)
    (hrunning : s.running = some d) :
    Ends (p.advance d) s
      (fun _ s' => (∃ ran', p.Reached ran' log s') ∧ ∃ m' < m, p.Remains g s' m')
      (fun _ => True) := by
  obtain ⟨t, ht, hends⟩ := hreached.moves hg hrunning
  obtain ⟨t', k, r, i, symbols, ht', hr, hbefore, hlt⟩ := hremains d hrunning
  obtain rfl := Option.some.inj (ht.symm.trans ht')
  refine hends.imp ?_ fun _ _ => trivial
  intro _ s' hadv
  refine ⟨⟨_, hreached.advance hrunning ht hadv⟩, _, hlt, ?_⟩
  intro d' hd'
  obtain ⟨u, hu, hleads⟩ := hadv.running d' hd'
  obtain ⟨i', symbols', hbefore', hlt'⟩ := (finds_of_leadsTo hg hr hbefore hleads).lighter hg hr
  exact ⟨u, k, r, i', symbols', hu, hr, hbefore', hlt'⟩

/-- A running thread of which something remains ends. -/
theorem Reached.threadEnds {m : Nat} :
    ∀ {ran : Thread → Prop} {log : List Descriptor} {s : State}, p.Reached ran log s →
      p.Remains g s m → p.ThreadEnds s := by
  induction m using Nat.strongRecOn with
  | ind m ih =>
    intro ran log s hreached hremains
    cases hrunning : s.running with
    | none => exact .stopped hrunning
    | some d =>
      have hends := ends_advance_remains hg hreached hremains hrunning
      unfold Ends at hends
      cases hadvance : p.advance d s with
      | error e s' => exact .failed hrunning hadvance
      | ok _ s' =>
        rw [hadvance] at hends
        obtain ⟨⟨ran', hreached'⟩, m', hlt, hremains'⟩ := hends
        exact .moved hrunning hadvance (ih m' hlt hreached' hremains')

/-- **What a step leaves to do:** less of the running thread, or one more descriptor is
delivered. -/
theorem ends_step_remains {ran : Thread → Prop} {log : List Descriptor} {s : State} {m : Nat}
    (hreached : p.Reached ran log s) (hremains : p.Remains g s m) :
    Ends p.step s
      (fun more s' => more → (s.delivers = [] ∧ ∃ m' < m, p.Remains g s' m') ∨
        s.delivers.length = 1) (fun _ => True) := by
  unfold step
  refine ends_bind (ends_get ?_)
  unfold State.delivers
  cases hrunning : s.running with
  | some d =>
    refine ends_bind ((ends_advance_remains hg hreached hremains hrunning).imp ?_
      fun _ _ => trivial)
    intro _ s' h
    exact ends_pure fun _ => Or.inl ⟨rfl, h.2⟩
  | none =>
    dsimp only
    cases htake : s.agenda.take with
    | none => exact ends_pure fun h => absurd h (by simp)
    | some next =>
      obtain ⟨d, agenda⟩ := next
      exact ends_bind (ends_set (ends_bind (ends_record fun _ => ends_pure fun _ => Or.inr rfl)))

section

variable (hbounded : g.Bounded p.input)

include hbounded

/-- Of a thread that runs no more is left than of its rule. -/
theorem Reached.remains {ran : Thread → Prop} {log : List Descriptor} {s : State}
    (h : p.Reached ran log s) : p.Remains g s (g.weight + 1) := by
  intro d hd
  obtain ⟨t, ht, hran⟩ := h.running hd
  obtain ⟨k, r, i, symbols, hfollows⟩ := located_of_entails hg hbounded (h.entailed hran)
  have hleft := hfollows.before.weight_le
  have hrule := Grammar.weight_body_le (List.mem_of_getElem? hfollows.rule)
  exact ⟨t, k, r, i, symbols, ht, hfollows.rule, hfollows.before, by omega⟩

/-! ## The agenda runs dry -/

/-- **Only so many descriptors are delivered** as there are threads to be met. -/
theorem length_le_of_reaches (hvalueless : g.IsValueless) {log : List Descriptor} {s : State}
    (h : p.Reaches log s) : log.length ≤ (p.threads g).toFinset.card := by
  obtain ⟨ran, hreached⟩ := h.reached hg
  have hlists := hreached.coherent.wf.settled.lists_descriptors
  have haccepted := hlists.length_le id (p.threads g).toFinset
    (fun t ht => List.mem_toFinset.mpr
      (mem_threads_of_entails hg hvalueless hbounded (hreached.coherent.sound ht)))
    fun t t' _ _ heq => heq
  have hqueued := hreached.queued.length_eq
  rw [List.length_append] at hqueued
  omega

/-- **With enough steps a run comes to its end:** so many as there are descriptors left to be
delivered, times the moves of a thread, and those that the running thread has left. -/
theorem ends_run_finished {limit : Nat}
    (hlimit : ∀ log s, p.Reaches log s → log.length ≤ limit) (fuel : Nat) :
    ∀ {log : List Descriptor} {s : State} {m : Nat}, p.Reaches log s → p.Remains g s m →
      (limit - log.length) * (g.weight + 2) + m < fuel →
      Ends (p.run fuel) s (fun finished _ => finished) (fun _ => True) := by
  induction fuel with
  | zero => exact fun _ _ hfuel => absurd hfuel (Nat.not_lt_zero _)
  | succ fuel ih =>
    intro log s m hreaches hremains hfuel
    obtain ⟨ran, hreached⟩ := hreaches.reached hg
    have hstep := ends_step_remains hg hreached hremains
    rw [run]
    refine ends_bind ?_
    unfold Ends at hstep ⊢
    cases hs : p.step s with
    | error => exact trivial
    | ok more s' =>
      rw [hs] at hstep
      cases more with
      | false => exact rfl
      | true =>
        have hreaches' := hreaches.step hs
        rcases hstep rfl with ⟨hdelivers, m', hlt, hremains'⟩ | hdelivers
        · rw [hdelivers, List.append_nil] at hreaches'
          exact ih hreaches' hremains' (by omega)
        · obtain ⟨ran', hreached'⟩ := hreaches'.reached hg
          refine ih hreaches' (hreached'.remains hg hbounded) ?_
          -- one descriptor less is left to be delivered, and its thread begins
          have hle := hlimit _ _ hreaches'
          rw [List.length_append, hdelivers] at hle ⊢
          obtain ⟨rest, hrest⟩ : ∃ rest, limit - log.length = rest + 1 :=
            ⟨limit - (log.length + 1), by omega⟩
          have hnext : limit - (log.length + 1) = rest := by omega
          rw [hrest, Nat.add_mul, Nat.one_mul] at hfuel
          rw [hnext]
          omega

end

end

/-! ## Parses end -/

omit [DecidableEq μ] in
/-- A run that has come to its end would have done so with more steps as well. -/
theorem run_eq_of_le {fuel more : Nat} (hle : fuel ≤ more) :
    ∀ {s : State}, Ends (p.run fuel) s (fun finished _ => finished) (fun _ => True) →
      p.run more s = p.run fuel s := by
  induction fuel generalizing more with
  | zero => exact fun h => absurd h (by simp [run, Ends, pure, EStateM.pure])
  | succ fuel ih =>
    obtain ⟨more, rfl⟩ : ∃ more', more = more' + 1 := ⟨more - 1, by omega⟩
    intro s h
    rw [run, run]
    rw [run] at h
    unfold Ends at h
    simp only [bind, EStateM.bind] at h ⊢
    cases hs : p.step s with
    | error => rfl
    | ok again s' =>
      rw [hs] at h
      cases again with
      | true => exact ih (by omega) h
      | false => rfl

omit [DecidableEq μ] [Matcher μ] in
theorem verdict_ne_unfinished {s : State} : p.verdict s ≠ .unfinished := by
  unfold verdict
  split <;> simp

omit [DecidableEq μ] in
/-- A parse whose run comes to its end is not left unfinished, and more steps change nothing. -/
theorem parse_finishes {s : State} {fuel : Nat} (hb : p.begin p.initial = .ok () s)
    (hrun : Ends (p.run fuel) s (fun finished _ => finished) (fun _ => True)) :
    (p.parse fuel).verdict ≠ .ok .unfinished ∧
      ∀ more, fuel ≤ more → p.parse more = p.parse fuel := by
  refine ⟨?_, fun more hle => by rw [parse_eq hb, parse_eq hb, run_eq_of_le hle hrun]⟩
  rw [parse_eq hb]
  unfold Ends at hrun
  cases hr : p.run fuel s with
  | error e s' => exact fun h => absurd h (by simp)
  | ok finished s' =>
    rw [hr] at hrun
    obtain rfl : finished = true := hrun
    exact fun h => verdict_ne_unfinished (Except.ok.inj h)

/-- **Parses end.** If calls have neither arguments nor values, then each thread that runs comes
to its end, only so many descriptors are delivered, and with enough steps the parse comes to
rest or ends with an error; more steps change nothing about that. -/
theorem parse_terminates (hg : SlotGraph.ofGrammar g = .ok p.graph) (hvalueless : g.IsValueless)
    (hbounded : g.Bounded p.input) :
    (∀ log s, p.Reaches log s → p.ThreadEnds s) ∧
      (∃ limit, ∀ log s, p.Reaches log s → log.length ≤ limit) ∧
      ∃ fuel, ((∃ log s, p.EndsIn fuel log s) ∨ ∃ e, (p.parse fuel).verdict = .error e) ∧
        ∀ more, fuel ≤ more → p.parse more = p.parse fuel := by
  have hlimit : ∀ log s, p.Reaches log s → log.length ≤ (p.threads g).toFinset.card :=
    fun _ _ => length_le_of_reaches hg hbounded hvalueless
  refine ⟨fun log s h => ?_, ⟨_, hlimit⟩, ?_⟩
  · obtain ⟨ran, hreached⟩ := h.reached hg
    exact hreached.threadEnds hg (hreached.remains hg hbounded)
  · obtain ⟨s, hb, hbegin⟩ := p.exists_begin
    have hrun := ends_run_finished hg hbounded hlimit _ (.begin hb) (hbegin.remains hg hbounded)
      (Nat.lt_succ_self _)
    obtain ⟨hfinished, hmore⟩ := parse_finishes hb hrun
    refine ⟨_, ?_, hmore⟩
    rcases parse_cases hg _ with hends | hunfinished | ⟨e, he, -⟩
    · exact Or.inl hends
    · exact absurd hunfinished hfinished
    · exact Or.inr ⟨e, he⟩

end Parser

/-- Chains of any letters are parsed to an end. -/
theorem parse_terminates_chains :
    SlotGraph.ofGrammar chains = .ok (chainParser "aa" {}).graph ∧ chains.IsValueless ∧
      chains.Bounded (chainParser "aa" {}).input ∧
      ∃ fuel, ((∃ log s, (chainParser "aa" {}).EndsIn fuel log s) ∨
          ∃ e, ((chainParser "aa" {}).parse fuel).verdict = .error e) ∧
        ∀ more, fuel ≤ more →
          (chainParser "aa" {}).parse more = (chainParser "aa" {}).parse fuel := by
  have hg := ofGrammar_chains "aa" {}
  have hvalueless : chains.IsValueless := by
    refine ⟨fun name => rfl, ?_⟩
    simp [chains]
  have hbounded : chains.Bounded (chainParser "aa" {}).input := fun m _ => m.bounded _
  obtain ⟨-, -, hends⟩ := Parser.parse_terminates hg hvalueless hbounded
  exact ⟨hg, hvalueless, hbounded, hends⟩

end GeneralLL
