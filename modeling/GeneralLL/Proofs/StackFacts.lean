import GeneralLL.Proofs.ForestFacts
import GeneralLL.Stack

/-!
# What is in a stack

A stack has calls, edges and results; `HasCall`, `HasEdge` and `HasResult` say which, by
the keys of the calls and not by the numbers of their nodes. Every change adds certain
ones to them and nothing else (`Adds`): the order in which a node keeps its edges and its
results changes, but none is ever lost. No call has two nodes and no node has an edge
twice (`Wf`).
-/

namespace GeneralLL

namespace Stack

/-! ## Nodes -/

namespace Node

theorem perm_rotate {α : Type} (l : List α) : (rotate l).Perm l := by
  cases l with
  | nil => exact .refl _
  | cons a rest => exact List.perm_append_comm

/-- Adding an edge adds this edge only, though others may change places. -/
theorem perm_edges_addEdge (id : Nat) (e : Edge) (n : Node) :
    (n.addEdge id e).edges.Perm (n.edges ++ [e]) := by
  unfold addEdge
  split
  · have hothers : (if n.loops.isEmpty then rotate n.others else n.others).Perm n.others := by
      split
      · exact perm_rotate _
      · exact .refl _
    calc n.loops ++ [e] ++ (if n.loops.isEmpty then rotate n.others else n.others)
        |>.Perm (n.loops ++ [e] ++ n.others) := hothers.append_left _
      _ |>.Perm (n.loops ++ n.others ++ [e]) := by
        rw [List.append_assoc, List.append_assoc]
        exact List.perm_append_comm.append_left _
  · rw [edges, edges, List.append_assoc]

@[simp] theorem key_addEdge (id : Nat) (e : Edge) (n : Node) : (n.addEdge id e).key = n.key := by
  unfold addEdge
  split <;> rfl

@[simp] theorem popped_addEdge (id : Nat) (e : Edge) (n : Node) :
    (n.addEdge id e).popped = n.popped := by
  unfold addEdge
  split <;> rfl

theorem mem_edges_addEdge {id : Nat} {e e' : Edge} {n : Node} :
    e' ∈ (n.addEdge id e).edges ↔ e' ∈ n.edges ∨ e' = e := by
  rw [(perm_edges_addEdge id e n).mem_iff, List.mem_append, List.mem_singleton]

theorem nodup_addEdge (id : Nat) {e : Edge} {n : Node} (h : n.edges.Nodup) (he : e ∉ n.edges) :
    (n.addEdge id e).edges.Nodup := by
  rw [(perm_edges_addEdge id e n).nodup_iff, (List.perm_append_singleton e _).nodup_iff]
  exact List.nodup_cons.mpr ⟨he, h⟩

theorem perm_insertPopped (q : Popped) (l : List Popped) : (insertPopped q l).Perm (q :: l) := by
  induction l with
  | nil => exact .refl _
  | cons r rest ih =>
    rw [insertPopped]
    split
    · exact .refl _
    · exact (ih.cons r).trans (.swap q r rest)

/-- Adding a result adds this result only, behind the first one. -/
theorem perm_popped_addPopped (q : Popped) (n : Node) :
    (n.addPopped q).popped.Perm (q :: n.popped) := by
  unfold addPopped
  cases n.popped with
  | nil => exact .refl _
  | cons first rest => exact ((perm_insertPopped q rest).cons first).trans (.swap q first rest)

theorem mem_addPopped {q q' : Popped} {n : Node} :
    q' ∈ (n.addPopped q).popped ↔ q' ∈ n.popped ∨ q' = q := by
  rw [(perm_popped_addPopped q n).mem_iff, List.mem_cons, or_comm]

theorem hasResult_iff {n : Node} {q : Popped} :
    n.hasResult q ↔ ∃ q' ∈ n.popped, q'.right = q.right ∧ q'.value = q.value := by
  simp [hasResult]

end Node

/-! ## Well-formed stacks -/

/-- The call of a node. -/
def call? (s : Stack) (id : Nat) : Option Key := s.nodes[id]?.map Node.key

theorem call?_eq_some_iff {s : Stack} {id : Nat} {key : Key} :
    s.call? id = some key ↔ ∃ n, s.nodes[id]? = some n ∧ n.key = key :=
  Option.map_eq_some_iff

theorem get_eq {s : Stack} {id : Nat} {n : Node} (h : s.nodes[id]? = some n) : s.get id = n := by
  rw [get, h, Option.getD_some]

/-- The call has a node. -/
def HasCall (s : Stack) (key : Key) : Prop := ∃ id, s.call? id = some key

/-- The node of the call has the edge. -/
def HasEdge (s : Stack) (key : Key) (e : Edge) : Prop :=
  ∃ (id : Nat) (n : Node), s.nodes[id]? = some n ∧ n.key = key ∧ e ∈ n.edges

/-- The node of the call has the result. -/
def HasResult (s : Stack) (key : Key) (q : Popped) : Prop :=
  ∃ (id : Nat) (n : Node), s.nodes[id]? = some n ∧ n.key = key ∧ q ∈ n.popped

/-- Calls have one node each, and nodes have an edge once. -/
structure Wf (s : Stack) : Prop where
  /-- No call has two nodes. -/
  keys : ∀ {i j : Nat} {key : Key}, s.call? i = some key → s.call? j = some key → i = j
  /-- No node has an edge twice. -/
  edges : ∀ {id : Nat} {n : Node}, s.nodes[id]? = some n → n.edges.Nodup

theorem wf_empty : Wf empty :=
  ⟨fun h => absurd h (by simp [empty, call?]), fun h => absurd h (by simp [empty])⟩

theorem Wf.node_eq {s : Stack} (hs : s.Wf) {i j : Nat} {n m : Node} (hn : s.nodes[i]? = some n)
    (hm : s.nodes[j]? = some m) (hkey : m.key = n.key) : m = n := by
  obtain rfl := hs.keys (call?_eq_some_iff.mpr ⟨n, hn, rfl⟩) (call?_eq_some_iff.mpr ⟨m, hm, hkey⟩)
  exact Option.some.inj (hm.symm.trans hn)

theorem Wf.hasEdge_iff {s : Stack} (hs : s.Wf) {id : Nat} {n : Node} {e : Edge}
    (hn : s.nodes[id]? = some n) : s.HasEdge n.key e ↔ e ∈ n.edges := by
  constructor
  · intro h
    obtain ⟨j, m, hm, hkey, he⟩ := h
    exact hs.node_eq hn hm hkey ▸ he
  · exact fun he => ⟨id, n, hn, rfl, he⟩

theorem Wf.hasResult_iff {s : Stack} (hs : s.Wf) {id : Nat} {n : Node} {q : Popped}
    (hn : s.nodes[id]? = some n) : s.HasResult n.key q ↔ q ∈ n.popped := by
  constructor
  · intro h
    obtain ⟨j, m, hm, hkey, hq⟩ := h
    exact hs.node_eq hn hm hkey ▸ hq
  · exact fun hq => ⟨id, n, hn, rfl, hq⟩

/-- **A change that adds calls, edges and results,** and nothing else. -/
structure Adds (s s' : Stack) (calls : List Key) (edges : List (Key × Edge))
    (results : List (Key × Popped)) : Prop where
  /-- The stack is well formed after the change as well. -/
  wf : s'.Wf
  /-- Calls keep their numbers. -/
  call? : ∀ {id : Nat} {key : Key}, s.call? id = some key → s'.call? id = some key
  /-- The calls are those before and those added. -/
  hasCall : ∀ {key : Key}, s'.HasCall key ↔ s.HasCall key ∨ key ∈ calls
  /-- The edges are those before and those added. -/
  hasEdge : ∀ {key : Key} {e : Edge}, s'.HasEdge key e ↔ s.HasEdge key e ∨ (key, e) ∈ edges
  /-- The results are those before and those added. -/
  hasResult : ∀ {key : Key} {q : Popped},
    s'.HasResult key q ↔ s.HasResult key q ∨ (key, q) ∈ results

/-! ## Changes -/

theorem find?_eq_some {s : Stack} {key : Key} {id : Nat} (h : s.find? key = some id) :
    s.call? id = some key := by
  obtain ⟨n, hn, hkey⟩ := exists_of_findIdx? h
  exact call?_eq_some_iff.mpr ⟨n, hn, by simpa using hkey⟩

theorem find?_eq_none {s : Stack} {key : Key} (h : s.find? key = none) : ¬s.HasCall key := by
  intro hcall
  obtain ⟨id, hid⟩ := hcall
  obtain ⟨n, hn, hkey⟩ := call?_eq_some_iff.mp hid
  have hnone := Array.findIdx?_eq_none_iff.mp h n (Array.mem_of_getElem? hn)
  exact absurd hkey (by simpa using hnone)

/-- A new node has no members in a field that is empty at first. -/
theorem exists_mem_push_iff {α : Type} {s : Stack} {key key' : Key} {a : α}
    (field : Node → List α) (hempty : field { key } = []) :
    (∃ (id : Nat) (n : Node), (s.nodes.push { key })[id]? = some n ∧ n.key = key' ∧ a ∈ field n) ↔
      ∃ (id : Nat) (n : Node), s.nodes[id]? = some n ∧ n.key = key' ∧ a ∈ field n := by
  constructor
  · intro hmem
    obtain ⟨id, n, hn, hkey, ha⟩ := hmem
    rcases getElem?_push_cases hn with hn | ⟨rfl, rfl⟩
    · exact ⟨id, n, hn, hkey, ha⟩
    · rw [hempty] at ha
      exact absurd ha List.not_mem_nil
  · intro hmem
    obtain ⟨id, n, hn, hkey, ha⟩ := hmem
    exact ⟨id, n, getElem?_push_old hn, hkey, ha⟩

/-- **A new call** has a node without edges and results. -/
theorem Wf.adds_push {s : Stack} (hs : s.Wf) {key : Key} (hkey : ¬s.HasCall key) :
    s.Adds ⟨s.nodes.push { key }⟩ [key] [] [] := by
  have hcases {id : Nat} {n : Node} (h : (s.nodes.push { key })[id]? = some n) :=
    getElem?_push_cases h
  have hnew : (s.nodes.push { key })[s.nodes.size]? = some { key } := Array.getElem?_push_size
  have hcall {id : Nat} {key' : Key} (h : (⟨s.nodes.push { key }⟩ : Stack).call? id = some key') :
      s.call? id = some key' ∨ id = s.nodes.size ∧ key' = key := by
    obtain ⟨n, hn, rfl⟩ := call?_eq_some_iff.mp h
    rcases hcases hn with hn | ⟨rfl, rfl⟩
    · exact Or.inl (call?_eq_some_iff.mpr ⟨n, hn, rfl⟩)
    · exact Or.inr ⟨rfl, rfl⟩
  have hold {id : Nat} {key' : Key} (h : s.call? id = some key') :
      (⟨s.nodes.push { key }⟩ : Stack).call? id = some key' := by
    obtain ⟨n, hn, rfl⟩ := call?_eq_some_iff.mp h
    exact call?_eq_some_iff.mpr ⟨n, getElem?_push_old hn, rfl⟩
  refine ⟨⟨fun hi hj => ?_, fun hn => ?_⟩, hold, ?_, ?_, ?_⟩
  · rcases hcall hi with hi | ⟨rfl, rfl⟩ <;> rcases hcall hj with hj | ⟨rfl, heq⟩
    · exact hs.keys hi hj
    · exact absurd ⟨_, heq ▸ hi⟩ hkey
    · exact absurd ⟨_, hj⟩ hkey
    · rfl
  · rcases hcases hn with hn | ⟨rfl, rfl⟩
    · exact hs.edges hn
    · exact List.nodup_nil
  · intro key'
    constructor
    · intro hcall
      obtain ⟨id, hid⟩ := hcall
      rcases hcall hid with hid | ⟨-, rfl⟩
      · exact Or.inl ⟨id, hid⟩
      · exact Or.inr (List.mem_singleton_self _)
    · intro hcall
      rcases hcall with ⟨id, hid⟩ | h
      · exact ⟨id, hold hid⟩
      · obtain rfl := List.mem_singleton.mp h
        exact ⟨_, call?_eq_some_iff.mpr ⟨_, hnew, rfl⟩⟩
  · intro key' e
    rw [or_iff_left List.not_mem_nil]
    exact exists_mem_push_iff Node.edges rfl
  · intro key' q
    rw [or_iff_left List.not_mem_nil]
    exact exists_mem_push_iff Node.popped rfl

/-- Members of a field of some node with this key, after a change of one node. -/
theorem exists_mem_modify_iff {α : Type} {s : Stack} {id : Nat} {n : Node}
    (hn : s.nodes[id]? = some n) {change : Node → Node} (hkey : ∀ m, (change m).key = m.key)
    (field : Node → List α) (new : List α)
    (hfield : ∀ a, a ∈ field (change n) ↔ a ∈ field n ∨ a ∈ new) {key : Key} {a : α} :
    (∃ (j : Nat) (m : Node), (s.nodes.modify id change)[j]? = some m ∧ m.key = key ∧ a ∈ field m) ↔
      (∃ (j : Nat) (m : Node), s.nodes[j]? = some m ∧ m.key = key ∧ a ∈ field m) ∨
        (key, a) ∈ new.map (n.key, ·) := by
  have hchanged : (s.nodes.modify id change)[id]? = some (change n) := by
    rw [getElem?_modify_old hn, if_pos rfl]
  -- the other nodes stay as they are
  have hother {j : Nat} (hj : id ≠ j) : (s.nodes.modify id change)[j]? = s.nodes[j]? := by
    rw [Array.getElem?_modify, if_neg hj]
  rw [List.mem_map]
  constructor
  · intro h
    obtain ⟨j, m, hm, hmkey, ha⟩ := h
    by_cases hj : id = j
    · subst hj
      obtain rfl := Option.some.inj (hchanged.symm.trans hm)
      rw [hkey] at hmkey
      rcases (hfield a).mp ha with ha | ha
      · exact Or.inl ⟨id, n, hn, hmkey, ha⟩
      · exact Or.inr ⟨a, ha, by rw [hmkey]⟩
    · rw [hother hj] at hm
      exact Or.inl ⟨j, m, hm, hmkey, ha⟩
  · intro h
    rcases h with ⟨j, m, hm, hmkey, ha⟩ | ⟨a', ha', heq⟩
    · by_cases hj : id = j
      · subst hj
        obtain rfl := Option.some.inj (hn.symm.trans hm)
        exact ⟨id, change n, hchanged, (hkey n).trans hmkey, (hfield a).mpr (Or.inl ha)⟩
      · exact ⟨j, m, (hother hj).trans hm, hmkey, ha⟩
    · obtain ⟨rfl, rfl⟩ := Prod.mk.inj heq
      exact ⟨id, change n, hchanged, hkey n, (hfield a').mpr (Or.inr ha')⟩

/-- A change of a node that keeps its call keeps all calls. -/
theorem call?_modify (s : Stack) (id : Nat) {change : Node → Node}
    (hkey : ∀ m, (change m).key = m.key) (j : Nat) :
    (⟨s.nodes.modify id change⟩ : Stack).call? j = s.call? j := by
  unfold call?
  dsimp only
  rw [Array.getElem?_modify]
  split
  · cases s.nodes[j]? with
    | none => rfl
    | some m => exact congrArg some (hkey m)
  · rfl

/-- A change of one node adds what it adds to that node. -/
theorem Wf.adds_modify {s : Stack} (hs : s.Wf) (edges : List Edge) (results : List Popped)
    {id : Nat} {n : Node} (hn : s.nodes[id]? = some n) {change : Node → Node}
    (hkey : ∀ m, (change m).key = m.key) (hnodup : (change n).edges.Nodup)
    (hedges : ∀ e, e ∈ (change n).edges ↔ e ∈ n.edges ∨ e ∈ edges)
    (hresults : ∀ q, q ∈ (change n).popped ↔ q ∈ n.popped ∨ q ∈ results) :
    s.Adds ⟨s.nodes.modify id change⟩ [] (edges.map (n.key, ·)) (results.map (n.key, ·)) := by
  have hcall := s.call?_modify id hkey
  refine ⟨⟨fun hi hj => ?_, fun {j m} hm => ?_⟩, fun h => (hcall _).trans h, fun {key} => ?_,
    exists_mem_modify_iff hn hkey Node.edges edges hedges,
    exists_mem_modify_iff hn hkey Node.popped results hresults⟩
  · rw [hcall] at hi hj
    exact hs.keys hi hj
  · obtain ⟨m', hm', rfl⟩ := getElem?_modify_cases hm
    split
    · rename_i hj
      subst hj
      obtain rfl := Option.some.inj (hn.symm.trans hm')
      exact hnodup
    · exact hs.edges hm'
  · simp only [HasCall, hcall, List.not_mem_nil, or_false]

/-- **An edge is added** if the node does not have it. -/
theorem Wf.addEdge_cases {s : Stack} (hs : s.Wf) {id : Nat} {n : Node} (hn : s.nodes[id]? = some n)
    (e : Edge) :
    s.addEdge id e = (false, s) ∧ s.HasEdge n.key e ∨
      ∃ s', s.addEdge id e = (true, s') ∧ s.Adds s' [] [(n.key, e)] [] := by
  unfold addEdge
  rw [get_eq hn]
  by_cases he : e ∈ n.edges
  · rw [if_pos he]
    exact Or.inl ⟨rfl, (hs.hasEdge_iff hn).mpr he⟩
  · rw [if_neg he]
    refine Or.inr ⟨_, rfl, hs.adds_modify [e] [] hn
      (fun m => Node.key_addEdge id e m) ?_ (fun e' => ?_) (fun q => ?_)⟩
    · exact Node.nodup_addEdge id (hs.edges hn) he
    · rw [Node.mem_edges_addEdge, List.mem_singleton]
    · simp

/-- **A result is added** if the node has none with the same right end and value. -/
theorem Wf.addPopped_cases {s : Stack} (hs : s.Wf) {id : Nat} {n : Node}
    (hn : s.nodes[id]? = some n) (q : Popped) :
    (s.addPopped id q = (false, s) ∧
        ∃ q', s.HasResult n.key q' ∧ q'.right = q.right ∧ q'.value = q.value) ∨
      ∃ s', s.addPopped id q = (true, s') ∧ s.Adds s' [] [] [(n.key, q)] := by
  unfold addPopped
  rw [get_eq hn]
  by_cases hq : n.hasResult q
  · rw [if_pos hq]
    obtain ⟨q', hq', hsame⟩ := Node.hasResult_iff.mp hq
    exact Or.inl ⟨rfl, q', (hs.hasResult_iff hn).mpr hq', hsame⟩
  · rw [if_neg hq]
    refine Or.inr ⟨_, rfl, hs.adds_modify [] [q] hn (fun m => rfl) ?_
      (fun e => ?_) (fun q' => ?_)⟩
    · exact hs.edges (n := n) hn
    · show e ∈ n.edges ↔ _
      simp
    · rw [Node.mem_addPopped, List.mem_singleton]

end Stack

end GeneralLL
