import GeneralLL.Explore
import Mathlib.Logic.Relation

/-!
# What exploration finds

Exploration answers the things that a walk along links can reach, where every link
starts at a member of the domain. The queue and the visited things together are
closed under links all the time, which is why nothing is missed when the queue runs
empty.
-/

namespace GeneralLL.Explore

variable {α : Type} [DecidableEq α] {links : α → List α} {domain : List α}

/-- One step of a walk. -/
def Link (links : α → List α) (domain : List α) (a b : α) : Prop := a ∈ domain ∧ b ∈ links a

/-- A walk of any length. -/
def Walk (links : α → List α) (domain : List α) : α → α → Prop :=
  Relation.ReflTransGen (Link links domain)

/-- What is found was visited before or is reached from the queue. -/
theorem mem_explore_imp {visited queue : List α} {b : α}
    (h : b ∈ explore links domain visited queue) :
    b ∈ visited ∨ ∃ a ∈ queue, Walk links domain a b := by
  induction visited, queue using explore.induct links domain with
  | case1 visited =>
    rw [explore] at h
    exact Or.inl h
  | case2 visited a queue hv ih =>
    rw [explore, if_pos hv] at h
    rcases ih h with h | ⟨c, hc, hw⟩
    · exact Or.inl h
    · exact Or.inr ⟨c, List.mem_cons_of_mem _ hc, hw⟩
  | case3 visited a queue hv hd visited' ih =>
    rw [explore, if_neg hv, if_pos hd] at h
    rcases ih h with h | ⟨c, hc, hw⟩
    · rcases List.mem_append.mp h with h | h
      · exact Or.inl h
      · rw [List.mem_singleton] at h
        exact Or.inr ⟨a, List.mem_cons_self, h ▸ Relation.ReflTransGen.refl⟩
    · rcases List.mem_append.mp hc with hc | hc
      · exact Or.inr ⟨c, List.mem_cons_of_mem _ hc, hw⟩
      · have hlink : Link links domain a c := ⟨hd, (List.mem_filter.mp hc).1⟩
        exact Or.inr ⟨a, List.mem_cons_self, Relation.ReflTransGen.head hlink hw⟩
  | case4 visited a queue hv hd ih =>
    rw [explore, if_neg hv, if_neg hd] at h
    rcases ih h with h | ⟨c, hc, hw⟩
    · rcases List.mem_append.mp h with h | h
      · exact Or.inl h
      · rw [List.mem_singleton] at h
        exact Or.inr ⟨a, List.mem_cons_self, h ▸ Relation.ReflTransGen.refl⟩
    · exact Or.inr ⟨c, List.mem_cons_of_mem _ hc, hw⟩

/-- Links of visited things lead to visited things or into the queue. -/
def Covered (links : α → List α) (domain visited queue : List α) : Prop :=
  ∀ a b, a ∈ visited → Link links domain a b → b ∈ visited ∨ b ∈ queue

/-- **Nothing is missed.** What was visited or queued is found, and so is all that it links to. -/
theorem explore_closed {visited queue : List α} (hcov : Covered links domain visited queue) :
    (∀ a, a ∈ visited ∨ a ∈ queue → a ∈ explore links domain visited queue) ∧
      Covered links domain (explore links domain visited queue) [] := by
  induction visited, queue using explore.induct links domain with
  | case1 visited =>
    rw [explore]
    exact ⟨fun a h => h.resolve_right (List.not_mem_nil), hcov⟩
  | case2 visited a queue hv ih =>
    rw [explore, if_pos hv]
    -- the element was visited before
    have hdrop : ∀ b, b ∈ visited ∨ b ∈ a :: queue → b ∈ visited ∨ b ∈ queue := by
      intro b hb
      rcases hb with h | h
      · exact Or.inl h
      · rcases List.mem_cons.mp h with rfl | h
        · exact Or.inl hv
        · exact Or.inr h
    obtain ⟨hmem, hclosed⟩ := ih fun b c hb hl => hdrop c (hcov b c hb hl)
    exact ⟨fun b h => hmem b (hdrop b h), hclosed⟩
  | case3 visited a queue hv hd visited' ih =>
    rw [explore, if_neg hv, if_pos hd]
    obtain ⟨hmem, hclosed⟩ := ih (by
      intro b c hb hl
      rcases List.mem_append.mp hb with hb | hb
      · rcases hcov b c hb hl with h | h
        · exact Or.inl (List.mem_append_left _ h)
        · rcases List.mem_cons.mp h with rfl | h
          · exact Or.inl (List.mem_append_right _ List.mem_cons_self)
          · exact Or.inr (List.mem_append_left _ h)
      · rw [List.mem_singleton] at hb
        subst hb
        by_cases hc : c ∈ visited'
        · exact Or.inl hc
        · exact Or.inr (List.mem_append_right _ (List.mem_filter.mpr ⟨hl.2, by simpa using hc⟩)))
    refine ⟨fun b h => hmem b ?_, hclosed⟩
    rcases h with h | h
    · exact Or.inl (List.mem_append_left _ h)
    · rcases List.mem_cons.mp h with rfl | h
      · exact Or.inl (List.mem_append_right _ List.mem_cons_self)
      · exact Or.inr (List.mem_append_left _ h)
  | case4 visited a queue hv hd ih =>
    rw [explore, if_neg hv, if_neg hd]
    -- an element outside the domain has no links to follow
    have hmove : ∀ b, b ∈ visited ∨ b ∈ a :: queue → b ∈ visited ++ [a] ∨ b ∈ queue := by
      intro b hb
      rcases hb with h | h
      · exact Or.inl (List.mem_append_left _ h)
      · rcases List.mem_cons.mp h with rfl | h
        · exact Or.inl (List.mem_append_right _ List.mem_cons_self)
        · exact Or.inr h
    obtain ⟨hmem, hclosed⟩ := ih (by
      intro b c hb hl
      rcases List.mem_append.mp hb with hb | hb
      · exact hmove c (hcov b c hb hl)
      · rw [List.mem_singleton] at hb
        subst hb
        exact absurd hl.1 hd)
    exact ⟨fun b h => hmem b (hmove b h), hclosed⟩

/-- **Exploration finds exactly what walks can reach.** -/
theorem mem_reachable_iff {start b : α} :
    b ∈ reachable links domain start ↔ Walk links domain start b := by
  constructor
  · intro h
    rcases mem_explore_imp h with h | ⟨a, ha, hw⟩
    · exact absurd h List.not_mem_nil
    · rw [List.mem_singleton] at ha
      exact ha ▸ hw
  · intro hw
    have hcov : Covered links domain [] [start] := fun a b ha _ => absurd ha List.not_mem_nil
    obtain ⟨hmem, hclosed⟩ := explore_closed hcov
    induction hw with
    | refl => exact hmem start (Or.inr List.mem_cons_self)
    | tail _ hl ih => exact (hclosed _ _ ih hl).resolve_right List.not_mem_nil

end GeneralLL.Explore
