import GeneralLL.Grammar
import GeneralLL.Proofs.Reachability
import Mathlib.Order.Bounds.Defs

/-!
# How far exploration has come

Exploration takes its queue in **layers**. At any time there is a number of steps such that all
things in fewer steps are visited, the front of the queue is reached in that many steps and
the back in one more (`Layered`). So a thing that is visited next is no nearer than those that were
visited before it. When the front is used up the back takes its place, one step further out.

A thing can be in the queue any number of times. Only the first time counts, and then it is
visited; this is why it is found once and at its least number of steps.

In a grammar a step leads from a nonterminal to a name that occurs in one of its rules, be it inside
a conditional. `reachable_exact` says what is found, in which order, and that the search ends: it is
the end of a run of the loop (`Explores`), which does not know for which names there are rules.
-/

namespace GeneralLL

/-! ## Numbers of steps -/

/-- From `start` one gets to a thing in a number of steps. -/
inductive Steps {α : Type} (R : α → α → Prop) (start : α) : Nat → α → Prop where
  | start : Steps R start 0 start
  | next {n : Nat} {a b : α} (h : Steps R start n a) (hab : R a b) : Steps R start (n + 1) b

/-- In whatever number of steps one gets to `b`, one gets to `a` in no more. -/
def NoFarther {α : Type} (R : α → α → Prop) (start a b : α) : Prop :=
  ∀ n, Steps R start n b → ∃ m ≤ n, Steps R start m a

theorem exists_steps_iff {α : Type} {R : α → α → Prop} {start b : α} :
    (∃ n, Steps R start n b) ↔ Relation.ReflTransGen R start b := by
  constructor
  · intro h
    obtain ⟨n, h⟩ := h
    induction h with
    | start => exact .refl
    | next _ hab ih => exact ih.tail hab
  · intro h
    induction h with
    | refl => exact ⟨0, .start⟩
    | tail _ hab ih =>
      obtain ⟨n, hn⟩ := ih
      exact ⟨n + 1, hn.next hab⟩

theorem NoFarther.le {α : Type} {R : α → α → Prop} {start a b : α} (h : NoFarther R start a b)
    {m n : Nat} (hm : IsLeast {k | Steps R start k a} m)
    (hn : IsLeast {k | Steps R start k b} n) : m ≤ n := by
  obtain ⟨k, hk, hsteps⟩ := h n hn.1
  exact Nat.le_trans (hm.2 hsteps) hk

namespace Explore

variable {α : Type} {links : α → List α} {domain : List α}

/-! ## Layers -/

/-- What is visited and queued when all that can be reached in less than `depth` steps was visited
and the front of the queue is reached in `depth` steps. -/
structure Layered (links : α → List α) (domain : List α) (start : α)
    (visited front back : List α) (depth : Nat) : Prop where
  /-- Nothing was visited twice. -/
  nodup : visited.Nodup
  /-- What was visited earlier is no farther away. -/
  ordered : visited.Pairwise (NoFarther (Link links domain) start)
  /-- What was visited is at most `depth` steps away. -/
  reached : ∀ a ∈ visited, ∃ n ≤ depth, Steps (Link links domain) start n a
  /-- The front of the queue can be reached in `depth` steps. -/
  atFront : ∀ a ∈ front, Steps (Link links domain) start depth a
  /-- The back of the queue can be reached in one step more. -/
  atBack : ∀ a ∈ back, Steps (Link links domain) start (depth + 1) a
  /-- Whatever is nearer was visited. -/
  nearer : ∀ n < depth, ∀ a, Steps (Link links domain) start n a → a ∈ visited
  /-- Whatever is `depth` steps away was visited or is at the front. -/
  layer : ∀ a, Steps (Link links domain) start depth a → a ∈ visited ∨ a ∈ front
  /-- Whatever what was visited links to was visited or is queued. -/
  covered : ∀ a ∈ visited, ∀ b, Link links domain a b → b ∈ visited ∨ b ∈ front ∨ b ∈ back

namespace Layered

variable {start a : α} {visited front back : List α} {depth : Nat}

theorem init (links : α → List α) (domain : List α) (start : α) :
    Layered links domain start [] [start] [] 0 where
  nodup := List.nodup_nil
  ordered := List.Pairwise.nil
  reached _ h := absurd h List.not_mem_nil
  atFront a h := List.mem_singleton.mp h ▸ .start
  atBack _ h := absurd h List.not_mem_nil
  nearer _ h := absurd h (Nat.not_lt_zero _)
  layer a h := by
    cases h
    exact Or.inr List.mem_cons_self
  covered _ h := absurd h List.not_mem_nil

/-- The front is used up, and the back takes its place. -/
theorem turn (h : Layered links domain start visited [] back depth) :
    Layered links domain start visited back [] (depth + 1) where
  nodup := h.nodup
  ordered := h.ordered
  reached a ha := by
    obtain ⟨n, hn, hsteps⟩ := h.reached a ha
    exact ⟨n, Nat.le_succ_of_le hn, hsteps⟩
  atFront := h.atBack
  atBack _ h := absurd h List.not_mem_nil
  nearer n hn a hsteps := by
    rcases Nat.lt_succ_iff_lt_or_eq.mp hn with hlt | rfl
    · exact h.nearer n hlt a hsteps
    · exact (h.layer a hsteps).resolve_right List.not_mem_nil
  layer b hsteps := by
    cases hsteps with
    | next hsteps hab =>
      have ha := (h.layer _ hsteps).resolve_right List.not_mem_nil
      exact (h.covered _ ha b hab).imp_right fun hb => hb.resolve_left List.not_mem_nil
  covered a ha b hab :=
    (h.covered a ha b hab).imp_right fun hb => Or.inl (hb.resolve_left List.not_mem_nil)

/-- A queue that is not empty has a front. -/
theorem exists_front {rest : List α} (h : Layered links domain start visited front back depth)
    (hqueue : front ++ back = a :: rest) :
    ∃ front' back' depth', front' ++ back' = rest ∧
      Layered links domain start visited (a :: front') back' depth' := by
  cases front with
  | nil =>
    obtain rfl : back = a :: rest := hqueue
    exact ⟨rest, [], depth + 1, List.append_nil rest, h.turn⟩
  | cons b front =>
    obtain ⟨rfl, rfl⟩ := List.cons.inj hqueue
    exact ⟨front, back, depth, rfl, h⟩

/-- A thing that was visited before is passed over. -/
theorem skip (h : Layered links domain start visited (a :: front) back depth) (ha : a ∈ visited) :
    Layered links domain start visited front back depth := by
  have hdrop {b : α} (hb : b ∈ a :: front) : b ∈ visited ∨ b ∈ front := by
    rcases List.mem_cons.mp hb with rfl | hb
    · exact Or.inl ha
    · exact Or.inr hb
  refine { h with atFront := fun b hb => h.atFront b (List.mem_cons_of_mem a hb)
                  layer := fun b hb => (h.layer b hb).elim Or.inl hdrop
                  covered := fun b hb c hbc => ?_ }
  rcases h.covered b hb c hbc with hc | hc | hc
  · exact Or.inl hc
  · exact (hdrop hc).imp_right Or.inl
  · exact Or.inr (Or.inr hc)

/-- **A thing is visited when all nearer ones have been.** What it links to goes to the back. -/
theorem visit (h : Layered links domain start visited (a :: front) back depth) (ha : a ∉ visited)
    {new : List α} (hnew : ∀ b ∈ new, Link links domain a b)
    (hlinks : ∀ b, Link links domain a b → b ∈ visited ++ [a] ∨ b ∈ new) :
    Layered links domain start (visited ++ [a]) front (back ++ new) depth := by
  have hsteps := h.atFront a List.mem_cons_self
  have hdrop {b : α} (hb : b ∈ a :: front) : b ∈ visited ++ [a] ∨ b ∈ front := by
    rcases List.mem_cons.mp hb with rfl | hb
    · exact Or.inl (List.mem_append_right _ List.mem_cons_self)
    · exact Or.inr hb
  have hkeep {b : α} (hb : b ∈ visited) : b ∈ visited ++ [a] := List.mem_append_left _ hb
  -- had it been reached in fewer steps, it would have been visited
  have hleast {n : Nat} (hn : Steps (Link links domain) start n a) : depth ≤ n :=
    Nat.le_of_not_lt fun hlt => ha (h.nearer n hlt a hn)
  refine ⟨?_, ?_, fun b hb => ?_, fun b hb => h.atFront b (List.mem_cons_of_mem a hb),
    fun b hb => ?_, fun n hn b hb => hkeep (h.nearer n hn b hb),
    fun b hb => (h.layer b hb).elim (fun hb => Or.inl (hkeep hb)) hdrop, fun b hb c hbc => ?_⟩
  · rw [List.nodup_append]
    refine ⟨h.nodup, List.pairwise_singleton _ a, fun b hb c hc => ?_⟩
    rw [List.mem_singleton] at hc
    rintro rfl
    exact ha (hc ▸ hb)
  · rw [List.pairwise_append]
    refine ⟨h.ordered, List.pairwise_singleton _ a, fun b hb c hc n hn => ?_⟩
    rw [List.mem_singleton] at hc
    subst hc
    obtain ⟨m, hm, hmb⟩ := h.reached b hb
    exact ⟨m, Nat.le_trans hm (hleast hn), hmb⟩
  · rcases List.mem_append.mp hb with hb | hb
    · exact h.reached b hb
    · rw [List.mem_singleton] at hb
      exact ⟨depth, Nat.le_refl depth, hb ▸ hsteps⟩
  · rcases List.mem_append.mp hb with hb | hb
    · exact h.atBack b hb
    · exact hsteps.next (hnew b hb)
  · rcases List.mem_append.mp hb with hb | hb
    · rcases h.covered b hb c hbc with hc | hc | hc
      · exact Or.inl (hkeep hc)
      · exact (hdrop hc).imp_right Or.inl
      · exact Or.inr (Or.inr (List.mem_append_left _ hc))
    · rw [List.mem_singleton] at hb
      subst hb
      exact (hlinks c hbc).imp_right fun hc => Or.inr (List.mem_append_right _ hc)

end Layered

variable [DecidableEq α]

/-- **Exploration visits everything once, and nothing before what is nearer.** -/
theorem ordered_explore {start : α} {visited queue : List α} :
    ∀ (front back : List α) (depth : Nat), front ++ back = queue →
      Layered links domain start visited front back depth →
      (explore links domain visited queue).Nodup ∧
        (explore links domain visited queue).Pairwise (NoFarther (Link links domain) start) := by
  induction visited, queue using explore.induct links domain with
  | case1 visited =>
    intro front back depth _ h
    rw [explore]
    exact ⟨h.nodup, h.ordered⟩
  | case2 visited a queue hv ih =>
    intro front back depth hqueue h
    obtain ⟨front', back', depth', hrest, h'⟩ := h.exists_front hqueue
    rw [explore, if_pos hv]
    exact ih front' back' depth' hrest (h'.skip hv)
  | case3 visited a queue hv hd visited' ih =>
    intro front back depth hqueue h
    obtain ⟨front', back', depth', rfl, h'⟩ := h.exists_front hqueue
    rw [explore, if_neg hv, if_pos hd]
    refine ih front' _ depth' (List.append_assoc ..).symm
      (h'.visit hv (fun b hb => ⟨hd, ?_⟩) fun b hab => ?_)
    · exact (List.mem_filter.mp hb).1
    · by_cases hb : b ∈ visited'
      · exact Or.inl hb
      · exact Or.inr (List.mem_filter.mpr ⟨hab.2, by simpa using hb⟩)
  | case4 visited a queue hv hd ih =>
    intro front back depth hqueue h
    obtain ⟨front', back', depth', rfl, h'⟩ := h.exists_front hqueue
    rw [explore, if_neg hv, if_neg hd]
    have hnew : ∀ b ∈ ([] : List α), Link links domain a b := fun _ hb => absurd hb List.not_mem_nil
    have hvisit := h'.visit hv hnew fun _ hab => absurd hab.1 hd
    rw [List.append_nil] at hvisit
    exact ih front' back' depth' rfl hvisit

theorem prefix_explore {visited queue : List α} :
    visited <+: explore links domain visited queue := by
  induction visited, queue using explore.induct links domain with
  | case1 visited =>
    have hdone : explore links domain visited [] = visited := by rw [explore]
    exact hdone.symm ▸ List.prefix_rfl
  | case2 visited a queue hv ih =>
    rw [explore, if_pos hv]
    exact ih
  | case3 visited a queue hv hd visited' ih =>
    rw [explore, if_neg hv, if_pos hd]
    exact (List.prefix_append visited [a]).trans ih
  | case4 visited a queue hv hd ih =>
    rw [explore, if_neg hv, if_neg hd]
    exact (List.prefix_append visited [a]).trans ih

/-! ## The loop -/

/-- The loop works a queue off. It takes the next thing, passes over it if it was visited before,
and otherwise visits it and puts what it links to at the end of the queue. -/
inductive Explores (links : α → List α) : List α → List α → List α → Prop where
  | done (visited : List α) : Explores links visited [] visited
  | skip {visited queue found : List α} {a : α} (ha : a ∈ visited)
      (h : Explores links visited queue found) : Explores links visited (a :: queue) found
  | visit {visited queue found : List α} {a : α} (ha : a ∉ visited)
      (h : Explores links (visited ++ [a]) (queue ++ (links a).filter (· ∉ visited ++ [a])) found) :
    Explores links visited (a :: queue) found

/-- **The loop comes to an end,** if only members of the domain have links. -/
theorem explores_explore (hdomain : ∀ a ∉ domain, links a = []) (visited queue : List α) :
    Explores links visited queue (explore links domain visited queue) := by
  induction visited, queue using explore.induct links domain with
  | case1 visited =>
    rw [explore]
    exact .done visited
  | case2 visited a queue hv ih =>
    rw [explore, if_pos hv]
    exact .skip hv ih
  | case3 visited a queue hv hd visited' ih =>
    rw [explore, if_neg hv, if_pos hd]
    exact .visit hv ih
  | case4 visited a queue hv hd ih =>
    rw [explore, if_neg hv, if_neg hd]
    refine .visit hv ?_
    rw [hdomain a hd, List.filter_nil, List.append_nil]
    exact ih

theorem head?_reachable {start : α} : (reachable links domain start).head? = some start := by
  have hprefix : [start] <+: reachable links domain start := by
    rw [reachable, explore, if_neg List.not_mem_nil]
    split <;> exact prefix_explore
  obtain ⟨rest, hrest⟩ := hprefix
  rw [← hrest]
  rfl

end Explore

/-! ## Grammars -/

namespace Symbol

variable {μ : Type}

/-- A name occurs in a symbol, be it in a branch of a conditional. -/
inductive Mentions : Symbol μ → String → Prop where
  | call (name : String) (arguments : List Expr) (notes : Annotations μ) :
    Mentions (.call name arguments notes) name
  | ifThen {body : Symbol μ} {name : String} (condition : Expr) (notes : Annotations μ)
      (h : body.Mentions name) : Mentions (.ifThen condition body notes) name
  | thenBranch {body : Symbol μ} {name : String} (condition : Expr) (otherwise : Symbol μ)
      (notes : Annotations μ) (h : body.Mentions name) :
    Mentions (.ifThenElse condition body otherwise notes) name
  | elseBranch {otherwise : Symbol μ} {name : String} (condition : Expr) (body : Symbol μ)
      (notes : Annotations μ) (h : otherwise.Mentions name) :
    Mentions (.ifThenElse condition body otherwise notes) name

theorem mem_references_iff {s : Symbol μ} {name : String} :
    name ∈ s.references ↔ s.Mentions name := by
  induction s with
  | terminal t notes =>
    refine iff_of_false (by simp [references, calls]) fun h => ?_
    cases h
  | call callee arguments notes =>
    simp only [references, calls, List.map_cons, List.map_nil, List.mem_singleton]
    constructor
    · rintro rfl
      exact .call _ arguments notes
    · intro h
      cases h
      rfl
  | ifThen condition body notes ih =>
    rw [references, calls, ← references, ih]
    constructor
    · exact .ifThen condition notes
    · intro h
      cases h
      assumption
  | ifThenElse condition body otherwise notes ih ih' =>
    rw [references, calls, List.map_append, List.mem_append, ← references, ← references, ih, ih']
    constructor
    · intro h
      rcases h with h | h
      · exact .thenBranch condition otherwise notes h
      · exact .elseBranch condition body notes h
    · intro h
      cases h with
      | thenBranch _ _ _ h => exact Or.inl h
      | elseBranch _ _ _ h => exact Or.inr h

end Symbol

namespace Grammar

variable {μ : Type}

/-- The name `b` occurs in the body of a rule for `a`. -/
def Uses (g : Grammar μ) (a b : String) : Prop :=
  ∃ r ∈ g.rules, r.head = a ∧ ∃ s ∈ r.body, s.Mentions b

theorem mem_references_iff {g : Grammar μ} {a b : String} : b ∈ g.references a ↔ g.Uses a b := by
  simp only [references, alternatives, Rule.references, Uses, List.mem_flatMap, List.mem_filter,
    decide_eq_true_eq, Symbol.mem_references_iff, and_assoc]

/-- Links of a grammar start at the heads of its rules. -/
theorem link_iff {g : Grammar μ} {a b : String} :
    Explore.Link g.references (g.rules.map Rule.head) a b ↔ g.Uses a b := by
  rw [Explore.Link, mem_references_iff]
  refine and_iff_right_of_imp fun h => ?_
  obtain ⟨r, hr, rfl, -⟩ := h
  exact List.mem_map_of_mem hr

theorem references_eq_nil {g : Grammar μ} {a : String} (h : a ∉ g.rules.map Rule.head) :
    g.references a = [] := by
  refine List.eq_nil_iff_forall_not_mem.mpr fun b hb => ?_
  exact h (link_iff.mpr (mem_references_iff.mp hb)).1

/-- **What is found from a nonterminal,** in every grammar: what can be reached in any number of
steps, each name once, and in the order of the least numbers of steps. -/
theorem reachable_exact (g : Grammar μ) (start : String) :
    -- The search ends, and this is what it has found.
    Explore.Explores g.references [] [start] (g.reachable start) ∧
      (g.reachable start).Nodup ∧
      (g.reachable start).head? = some start ∧
      (∀ name, name ∈ g.reachable start ↔ ∃ n, Steps g.Uses start n name) ∧
      (g.reachable start).Pairwise fun a b =>
        ∀ m n, IsLeast {k | Steps g.Uses start k a} m → IsLeast {k | Steps g.Uses start k b} n →
          m ≤ n := by
  have hlink : Explore.Link g.references (g.rules.map Rule.head) = g.Uses := by
    funext a b
    exact propext link_iff
  have hordered := Explore.ordered_explore [start] [] 0 (List.append_nil [start])
    (Explore.Layered.init g.references (g.rules.map Rule.head) start)
  rw [hlink] at hordered
  refine ⟨Explore.explores_explore (fun a => references_eq_nil) [] [start], hordered.1,
    Explore.head?_reachable, fun name => ?_, hordered.2.imp fun h m n => h.le⟩
  rw [reachable, Explore.mem_reachable_iff, Explore.Walk, hlink, exists_steps_iff]

end Grammar

end GeneralLL
