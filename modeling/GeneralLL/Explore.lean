/-!
# Exploration

Which things can be reached from a start by following links? `explore` answers
breadth first: it takes the next thing from a queue, passes over it if it was
visited before, and otherwise visits it and puts what it links to at the end of
the queue.

Links are followed from the members of a finite domain only. This is what ends
the search: a visit uses up the links of one member of the domain, and every other
step shortens the queue.
-/

namespace GeneralLL.Explore

variable {α : Type} [DecidableEq α]

/-- What is left to do at most: the members of the domain still to be visited and their links. -/
def weight (links : α → List α) (domain visited : List α) : Nat :=
  ((domain.filter (· ∉ visited)).flatMap fun a => a :: links a).length

theorem weight_visit_le (links : α → List α) (domain visited : List α) (a : α) :
    weight links domain (visited ++ [a]) ≤ weight links domain visited := by
  unfold weight
  induction domain with
  | nil => simp
  | cons b rest ih =>
    by_cases hb : b ∈ visited
    · simpa [hb] using ih
    · by_cases hab : b = a
      · subst hab
        simp only [List.filter_cons, hb, List.mem_append, List.mem_singleton, or_true,
          not_true_eq_false, decide_false, not_false_eq_true, decide_true, if_true,
          List.flatMap_cons, List.length_append, Bool.false_eq_true, if_false] at ih ⊢
        omega
      · simpa [hb, hab] using ih

theorem weight_visit_lt (links : α → List α) {domain visited : List α} {a : α}
    (hd : a ∈ domain) (hv : a ∉ visited) :
    weight links domain (visited ++ [a]) + (links a).length < weight links domain visited := by
  induction domain with
  | nil => simp at hd
  | cons b rest ih =>
    by_cases hab : b = a
    · subst hab
      have hle := weight_visit_le links rest visited b
      unfold weight at hle ⊢
      simp [hv] at hle ⊢
      omega
    · have hmem : a ∈ rest := by
        rcases List.mem_cons.mp hd with h | h
        · exact absurd h.symm hab
        · exact h
      have hlt := ih hmem
      unfold weight at hlt ⊢
      by_cases hb : b ∈ visited
      · simpa [hb] using hlt
      · simp [hb, hab] at hlt ⊢
        omega

/-- Works the queue off and answers all visited things in the order of their visits. -/
def explore (links : α → List α) (domain visited queue : List α) : List α :=
  match queue with
  | [] => visited
  | a :: queue =>
    if a ∈ visited then
      explore links domain visited queue
    else if a ∈ domain then
      let visited' := visited ++ [a]
      explore links domain visited' (queue ++ (links a).filter (· ∉ visited'))
    else
      explore links domain (visited ++ [a]) queue
termination_by weight links domain visited + queue.length
decreasing_by
  · simp
  · rename_i hv hd
    have hlt := weight_visit_lt links hd hv
    have hle := List.length_filter_le (· ∉ visited ++ [a]) (links a)
    simp only [List.length_append, List.length_cons]
    omega
  · have hle := weight_visit_le links domain visited a
    simp only [List.length_cons]
    omega

/-- The things that can be reached from `start`, itself first, nearer ones before farther
ones. -/
def reachable (links : α → List α) (domain : List α) (start : α) : List α :=
  explore links domain [] [start]

end GeneralLL.Explore
