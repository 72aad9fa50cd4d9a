import GeneralLL.Proofs.StackFacts
import GeneralLL.Proofs.Stores

/-!
# What a stack has recorded

A stack keeps the loops of a node apart from its other edges, and moves edges when the first loop
comes; it keeps the first result of a node in front and the later ones in an order of their own.
None of this shows from outside. However calls are entered, edges added and results offered,
in any order, **a stack holds what a plain record of it says**
(`records_exact`):

* calls are numbered in the order in which they were first entered;
* a node has exactly the edges that were added to it, each once, and is cyclic if one of
  them is a loop; the edges are counted right;
* of the results with one right end and one value a node has the first that was offered,
  and its very first result stays in front.
-/

namespace GeneralLL

namespace Stack

/-! ## Using a stack -/

/-- One use of a stack. -/
inductive Call where
  | enter (key : Key)
  | addEdge (source : Nat) (e : Edge)
  | addPopped (id : Nat) (q : Popped)

namespace Call

/-- The node that is used is there. -/
def Valid (s : Stack) : Call → Prop
  | enter _ => True
  | addEdge source _ => source < s.size
  | addPopped id _ => id < s.size

instance (s : Stack) (c : Call) : Decidable (c.Valid s) :=
  match c with
  | enter _ => inferInstanceAs (Decidable True)
  | addEdge source _ => inferInstanceAs (Decidable (source < s.size))
  | addPopped id _ => inferInstanceAs (Decidable (id < s.size))

/-- The call that is entered. -/
def entered? : Call → Option Key
  | enter key => some key
  | _ => none

/-- The edge that is added, with the number of its node. -/
def edge? : Call → Option (Nat × Edge)
  | addEdge source e => some (source, e)
  | _ => none

/-- The result that is offered, with the number of its node. -/
def result? : Call → Option (Nat × Popped)
  | addPopped id q => some (id, q)
  | _ => none

end Call

/-- The stack after a call of one of its functions. -/
def perform (s : Stack) : Call → Stack
  | .enter key => (s.getOrCreate key).2
  | .addEdge source e => (s.addEdge source e).2
  | .addPopped id q => (s.addPopped id q).2

/-- The members that belong to a node. -/
def ofNode {α : Type} (id : Nat) (l : List (Nat × α)) : List α :=
  l.filterMap fun x => if x.1 = id then some x.2 else none

theorem mem_ofNode {α : Type} {id : Nat} {l : List (Nat × α)} {a : α} :
    a ∈ ofNode id l ↔ (id, a) ∈ l := by
  unfold ofNode
  rw [List.mem_filterMap]
  constructor
  · intro h
    obtain ⟨⟨j, b⟩, hmem, hif⟩ := h
    split at hif
    · rename_i hj
      obtain rfl := Option.some.inj hif
      exact (show j = id from hj) ▸ hmem
    · exact absurd hif (by simp)
  · exact fun h => ⟨_, h, if_pos rfl⟩

theorem ofNode_concat {α : Type} (id : Nat) (l : List (Nat × α)) (j : Nat) (a : α) :
    ofNode id (l ++ [(j, a)]) = if j = id then ofNode id l ++ [a] else ofNode id l := by
  unfold ofNode
  rw [List.filterMap_append]
  by_cases hj : j = id <;> simp [hj]

/-- What results of a node are told apart by. -/
def Popped.outcome (q : Popped) : Nat × Option Value := (q.right, q.value)

/-! ## Nodes -/

namespace Node

theorem loops_addEdge (id : Nat) (e : Edge) (n : Node) :
    (n.addEdge id e).loops = if e.dest = id ∧ e.node = none then n.loops ++ [e] else n.loops := by
  unfold addEdge
  split <;> rfl

theorem head?_popped_addPopped (q : Popped) (n : Node) :
    (n.addPopped q).popped.head? = n.popped.head?.or (some q) := by
  unfold addPopped
  cases n.popped <;> rfl

theorem hasResult_iff_mem {n : Node} {q : Popped} :
    n.hasResult q ↔ q.outcome ∈ n.popped.map Popped.outcome := by
  rw [hasResult_iff, List.mem_map]
  simp only [Popped.outcome, Prod.mk.injEq]

/-- **A node records** edges that were added to it and results that were offered to it. -/
structure Records (n : Node) (id : Nat) (edges : List Edge) (results : List Popped) : Prop where
  /-- The node has no edge twice. -/
  nodup : n.edges.Nodup
  /-- It has the edges that were added. -/
  mem_edges : ∀ e, e ∈ n.edges ↔ e ∈ edges
  /-- Its loops are the edges back to itself without a forest node. -/
  mem_loops : ∀ e, e ∈ n.loops ↔ e ∈ edges ∧ e.dest = id ∧ e.node = none
  /-- No two of its results agree in right end and value. -/
  outcomes : (n.popped.map Popped.outcome).Nodup
  /-- It has the first result of each outcome. -/
  mem_popped : ∀ q, q ∈ n.popped ↔ results.find? (·.outcome = q.outcome) = some q
  /-- The result in front is the first that was offered. -/
  head_popped : n.popped.head? = results.head?

variable {n : Node} {id : Nat} {edges : List Edge} {results : List Popped}

theorem records_new (key : Key) (id : Nat) : Records { key } id [] [] := by
  refine ⟨List.nodup_nil, fun e => Iff.rfl, fun e => ?_, List.nodup_nil, fun q => ?_, rfl⟩ <;> simp

/-- An edge is added. -/
theorem Records.addEdge (h : n.Records id edges results) {e : Edge} (he : e ∉ n.edges) :
    (n.addEdge id e).Records id (edges ++ [e]) results := by
  refine ⟨nodup_addEdge id h.nodup he, fun e' => ?_, fun e' => ?_, ?_, fun q => ?_, ?_⟩
  · rw [mem_edges_addEdge, h.mem_edges, List.mem_append, List.mem_singleton]
  · rw [loops_addEdge, List.mem_append, List.mem_singleton, or_and_right, ← h.mem_loops]
    split
    · rename_i hloop
      rw [List.mem_append, List.mem_singleton, and_iff_left_of_imp fun heq => heq ▸ hloop]
    · rename_i hloop
      exact (or_iff_left fun hnew : e' = e ∧ _ => hloop (hnew.1 ▸ hnew.2)).symm
  · rw [popped_addEdge]
    exact h.outcomes
  · rw [popped_addEdge]
    exact h.mem_popped q
  · rw [popped_addEdge]
    exact h.head_popped

/-- An edge that the node has is added again. -/
theorem Records.again (h : n.Records id edges results) {e : Edge} (he : e ∈ n.edges) :
    n.Records id (edges ++ [e]) results := by
  have hmem (e' : Edge) : e' ∈ edges ++ [e] ↔ e' ∈ edges := by
    rw [List.mem_append, List.mem_singleton]
    exact ⟨fun h' => h'.elim (·) fun heq => heq ▸ (h.mem_edges e).mp he, Or.inl⟩
  exact ⟨h.nodup, fun e' => by rw [hmem, h.mem_edges], fun e' => by rw [hmem, h.mem_loops],
    h.outcomes, h.mem_popped, h.head_popped⟩

/-- An outcome has been offered if the node has a result with it. -/
theorem Records.hasResult_iff (h : n.Records id edges results) {q : Popped} :
    n.hasResult q ↔ ∃ q' ∈ results, q'.outcome = q.outcome := by
  rw [hasResult_iff_mem, List.mem_map]
  constructor
  · intro hmem
    obtain ⟨q', hq', houtcome⟩ := hmem
    exact ⟨q', List.mem_of_find?_eq_some ((h.mem_popped q').mp hq'), houtcome⟩
  · intro hmem
    obtain ⟨q', hq', houtcome⟩ := hmem
    cases hfind : results.find? (·.outcome = q.outcome) with
    | none =>
      rw [List.find?_eq_none] at hfind
      exact absurd houtcome (by simpa using hfind q' hq')
    | some first =>
      have hfirst : first.outcome = q.outcome := by simpa using List.find?_some hfind
      exact ⟨first, (h.mem_popped first).mpr (by rw [hfirst, hfind]), hfirst⟩

/-- A node has one result for each outcome that was offered. -/
theorem Records.length_popped (h : n.Records id edges results) :
    n.popped.length = (results.map Popped.outcome).eraseDups.length := by
  have hmem (outcome : Nat × Option Value) : outcome ∈ n.popped.map Popped.outcome
      ↔ outcome ∈ (results.map Popped.outcome).eraseDups := by
    have hoffered := h.hasResult_iff (q := ⟨0, outcome.1, outcome.2⟩)
    rw [hasResult_iff_mem, ← List.mem_map] at hoffered
    rw [List.mem_eraseDups]
    exact hoffered
  have hperm := (List.perm_ext_iff_of_nodup h.outcomes (Numbering.nodup_eraseDups _)).mpr hmem
  rw [← hperm.length_eq, List.length_map]

/-- One more result is the first of its outcome if there was none before. -/
theorem find?_concat (results : List Popped) (q : Popped) (outcome : Nat × Option Value) :
    (results ++ [q]).find? (·.outcome = outcome)
      = (results.find? (·.outcome = outcome)).or (if q.outcome = outcome then some q else none) := by
  rw [List.find?_append, List.find?_singleton]
  simp only [decide_eq_true_eq]

/-- A result with a new outcome is offered. -/
theorem Records.addPopped (h : n.Records id edges results) {q : Popped} (hq : ¬n.hasResult q) :
    (n.addPopped q).Records id edges (results ++ [q]) := by
  have hperm := perm_popped_addPopped q n
  refine ⟨h.nodup, h.mem_edges, h.mem_loops, ?_, fun q' => ?_, ?_⟩
  · rw [(hperm.map Popped.outcome).nodup_iff, List.map_cons, List.nodup_cons]
    exact ⟨mt hasResult_iff_mem.mpr hq, h.outcomes⟩
  · rw [hperm.mem_iff, List.mem_cons, h.mem_popped, find?_concat]
    by_cases houtcome : q.outcome = q'.outcome
    · have hnone : results.find? (·.outcome = q'.outcome) = none := by
        rw [List.find?_eq_none]
        intro q'' hq'' hsame
        exact hq (h.hasResult_iff.mpr ⟨q'', hq'', (of_decide_eq_true hsame).trans houtcome.symm⟩)
      rw [hnone, if_pos houtcome, Option.none_or, Option.some.injEq]
      exact ⟨fun h' => h'.elim Eq.symm fun h' => absurd h' (by simp), fun heq => .inl heq.symm⟩
    · rw [if_neg houtcome, Option.or_none]
      exact ⟨fun h' => h'.resolve_left fun heq => houtcome (heq ▸ rfl), .inr⟩
  · rw [head?_popped_addPopped, List.head?_append, h.head_popped, List.head?_singleton]

/-- A result with an outcome that the node has is offered. -/
theorem Records.known (h : n.Records id edges results) {q : Popped} (hq : n.hasResult q) :
    n.Records id edges (results ++ [q]) := by
  obtain ⟨q₀, hq₀, houtcome⟩ := h.hasResult_iff.mp hq
  refine ⟨h.nodup, h.mem_edges, h.mem_loops, h.outcomes, fun q' => ?_, ?_⟩
  · rw [h.mem_popped, find?_concat]
    split
    · rename_i hsame
      have hfound : (results.find? (·.outcome = q'.outcome)).isSome :=
        List.find?_isSome.mpr ⟨q₀, hq₀, decide_eq_true (houtcome.trans hsame)⟩
      rw [Option.or_of_isSome hfound]
    · rw [Option.or_none]
  · have hhead : results.head?.isSome := List.isSome_head?.mpr (List.ne_nil_of_mem hq₀)
    rw [h.head_popped, List.head?_append, Option.or_of_isSome hhead]

end Node

/-! ## Stacks -/

/-- **A stack records** which calls were entered, which edges were added to which nodes, and which
results were offered to which nodes. -/
structure Records (s : Stack) (keys : List Key) (edges : List (Nat × Edge))
    (results : List (Nat × Popped)) : Prop where
  /-- There is one node for each call, in the order in which they were first entered. -/
  keys : s.nodes.toList.map Node.key = keys.eraseDups
  /-- Each node records what was meant for it. -/
  nodes : ∀ {id : Nat} {n : Node}, s.nodes[id]? = some n →
    n.Records id (ofNode id edges) (ofNode id results)
  /-- Edges were added to nodes that are there. -/
  edges_lt : ∀ x ∈ edges, x.1 < s.size
  /-- Results were offered to nodes that are there. -/
  results_lt : ∀ x ∈ results, x.1 < s.size

theorem records_empty : empty.Records [] [] [] :=
  ⟨rfl, fun h => absurd h (by simp [empty]), fun _ h => absurd h List.not_mem_nil,
    fun _ h => absurd h List.not_mem_nil⟩

/-- A node that is not there has no members yet. -/
theorem ofNode_eq_nil {α : Type} {l : List (Nat × α)} {size : Nat} (h : ∀ x ∈ l, x.1 < size) :
    ofNode size l = [] := by
  rw [List.eq_nil_iff_forall_not_mem]
  exact fun a ha => Nat.lt_irrefl size (h _ (mem_ofNode.mp ha))

theorem keys_modify (s : Stack) (id : Nat) {change : Node → Node}
    (hkey : ∀ m, (change m).key = m.key) :
    (s.nodes.modify id change).toList.map Node.key = s.nodes.toList.map Node.key := by
  refine List.ext_getElem? fun j => ?_
  rw [List.getElem?_map, List.getElem?_map, Array.getElem?_toList, Array.getElem?_toList]
  exact s.call?_modify id hkey j

section

variable {s : Stack} {keys : List Key} {edges : List (Nat × Edge)} {results : List (Nat × Popped)}

/-- There are as many nodes as different calls. -/
theorem Records.size_eq (h : s.Records keys edges results) : s.size = keys.eraseDups.length := by
  rw [← h.keys, List.length_map, Array.length_toList]
  rfl

theorem Records.call?_eq (h : s.Records keys edges results) (id : Nat) :
    s.call? id = keys.eraseDups[id]? := by
  rw [← h.keys, List.getElem?_map, Array.getElem?_toList]
  rfl

theorem Records.find?_eq_some_iff (h : s.Records keys edges results) {key : Key} {id : Nat} :
    s.find? key = some id ↔ keys.eraseDups[id]? = some key := by
  rw [← h.call?_eq]
  constructor
  · exact find?_eq_some
  · intro hid
    cases hfind : s.find? key with
    | none => exact absurd ⟨id, hid⟩ (find?_eq_none hfind)
    | some j =>
      have hj := find?_eq_some hfind
      rw [h.call?_eq] at hid hj
      have hlt := (List.getElem?_eq_some_iff.mp hj).1
      rw [(List.getElem?_inj hlt (Numbering.nodup_eraseDups keys)).mp (hj.trans hid.symm)]

theorem Records.find?_eq_none_iff (h : s.Records keys edges results) {key : Key} :
    s.find? key = none ↔ key ∉ keys := by
  rw [← List.mem_eraseDups, List.mem_iff_getElem?, not_exists]
  constructor
  · intro hnone id hid
    exact absurd ((h.find?_eq_some_iff.mpr hid).symm.trans hnone) (by simp)
  · intro hall
    cases hfind : s.find? key with
    | none => rfl
    | some id => exact absurd (h.find?_eq_some_iff.mp hfind) (hall id)

/-- A call that was entered before is found. -/
theorem Records.exists_find? (h : s.Records keys edges results) {key : Key} (hkey : key ∈ keys) :
    ∃ id, s.find? key = some id :=
  Option.ne_none_iff_exists'.mp fun hnone => h.find?_eq_none_iff.mp hnone hkey

theorem Records.getOrCreate (h : s.Records keys edges results) (key : Key) :
    (s.getOrCreate key).2.Records (keys ++ [key]) edges results := by
  unfold Stack.getOrCreate
  by_cases hkey : key ∈ keys
  · obtain ⟨id, hfind⟩ := h.exists_find? hkey
    rw [hfind]
    refine ⟨?_, h.nodes, h.edges_lt, h.results_lt⟩
    rw [Numbering.eraseDups_concat_of_mem hkey]
    exact h.keys
  · rw [h.find?_eq_none_iff.mpr hkey]
    have hsize : (⟨s.nodes.push { key }⟩ : Stack).size = s.size + 1 := Array.size_push ..
    refine ⟨?_, fun {id n} hn => ?_, fun x hx => ?_, fun x hx => ?_⟩
    · rw [Numbering.eraseDups_concat_of_notMem hkey, ← h.keys]
      simp
    · rcases getElem?_push_cases hn with hn | ⟨rfl, rfl⟩
      · exact h.nodes hn
      · have hedges : ofNode s.nodes.size edges = [] := ofNode_eq_nil h.edges_lt
        have hresults : ofNode s.nodes.size results = [] := ofNode_eq_nil h.results_lt
        rw [hedges, hresults]
        exact Node.records_new key _
    · rw [hsize]
      exact Nat.lt_succ_of_lt (h.edges_lt x hx)
    · rw [hsize]
      exact Nat.lt_succ_of_lt (h.results_lt x hx)

/-- One node has been used, and the others are as they were. -/
theorem Records.used (h : s.Records keys edges results) {s' : Stack} (id : Nat)
    {edges' : List (Nat × Edge)} {results' : List (Nat × Popped)}
    (hkeys : s'.nodes.toList.map Node.key = s.nodes.toList.map Node.key)
    (hnode : ∀ {n : Node}, s'.nodes[id]? = some n →
      n.Records id (ofNode id edges') (ofNode id results'))
    (hothers : ∀ {j : Nat}, id ≠ j → s'.nodes[j]? = s.nodes[j]? ∧
      ofNode j edges' = ofNode j edges ∧ ofNode j results' = ofNode j results)
    (hedges : ∀ x ∈ edges', x.1 < s.size) (hresults : ∀ x ∈ results', x.1 < s.size) :
    s'.Records keys edges' results' := by
  have hsize : s'.size = s.size := by simpa [size] using congrArg List.length hkeys
  refine ⟨hkeys.trans h.keys, fun {j m} hm => ?_, fun x hx => ?_, fun x hx => ?_⟩
  · by_cases hj : id = j
    · subst hj
      exact hnode hm
    · obtain ⟨hsame, hedges, hresults⟩ := hothers hj
      rw [hedges, hresults]
      exact h.nodes (hsame ▸ hm)
  · rw [hsize]
    exact hedges x hx
  · rw [hsize]
    exact hresults x hx

/-- The members of a list with one more member stay within the nodes. -/
theorem forall_lt_concat {α : Type} {l : List (Nat × α)} {size id : Nat}
    (h : ∀ x ∈ l, x.1 < size) (hid : id < size) (a : α) : ∀ x ∈ l ++ [(id, a)], x.1 < size := by
  intro x hx
  rcases List.mem_append.mp hx with hx | hx
  · exact h x hx
  · exact List.mem_singleton.mp hx ▸ hid

theorem Records.addEdge (h : s.Records keys edges results) {id : Nat} (hid : id < s.size)
    (e : Edge) : (s.addEdge id e).2.Records keys (edges ++ [(id, e)]) results := by
  have hn := Array.getElem?_eq_getElem hid
  have hlt := forall_lt_concat h.edges_lt hid e
  have hofNode {j : Nat} (hj : id ≠ j) : ofNode j (edges ++ [(id, e)]) = ofNode j edges := by
    rw [ofNode_concat, if_neg hj]
  unfold Stack.addEdge
  rw [get_eq hn]
  split
  · rename_i he
    refine h.used id rfl (fun hm => ?_) (fun hj => ⟨rfl, hofNode hj, rfl⟩) hlt h.results_lt
    rw [ofNode_concat, if_pos rfl, ← Option.some.inj (hn.symm.trans hm)]
    exact (h.nodes hn).again he
  · rename_i he
    refine h.used id (s.keys_modify id (Node.key_addEdge id e)) (fun hm => ?_) (fun hj => ?_) hlt
      h.results_lt
    · rw [getElem?_modify_old hn, if_pos rfl] at hm
      rw [ofNode_concat, if_pos rfl, ← Option.some.inj hm]
      exact (h.nodes hn).addEdge he
    · exact ⟨by rw [Array.getElem?_modify, if_neg hj], hofNode hj, rfl⟩

theorem Records.addPopped (h : s.Records keys edges results) {id : Nat} (hid : id < s.size)
    (q : Popped) : (s.addPopped id q).2.Records keys edges (results ++ [(id, q)]) := by
  have hn := Array.getElem?_eq_getElem hid
  have hlt := forall_lt_concat h.results_lt hid q
  have hofNode {j : Nat} (hj : id ≠ j) : ofNode j (results ++ [(id, q)]) = ofNode j results := by
    rw [ofNode_concat, if_neg hj]
  unfold Stack.addPopped
  rw [get_eq hn]
  split
  · rename_i hq
    refine h.used id rfl (fun hm => ?_) (fun hj => ⟨rfl, rfl, hofNode hj⟩) h.edges_lt hlt
    rw [ofNode_concat, if_pos rfl, ← Option.some.inj (hn.symm.trans hm)]
    exact (h.nodes hn).known hq
  · rename_i hq
    refine h.used id (s.keys_modify id fun _ => rfl) (fun hm => ?_) (fun hj => ?_) h.edges_lt hlt
    · rw [getElem?_modify_old hn, if_pos rfl] at hm
      rw [ofNode_concat, if_pos rfl, ← Option.some.inj hm]
      exact (h.nodes hn).addPopped hq
    · exact ⟨by rw [Array.getElem?_modify, if_neg hj], rfl, hofNode hj⟩

/-! ## Answers and counts -/

theorem Records.get (h : s.Records keys edges results) {id : Nat} (hid : id < s.size) :
    (s.get id).Records id (ofNode id edges) (ofNode id results) := by
  have hn := Array.getElem?_eq_getElem hid
  rw [get_eq hn]
  exact h.nodes hn

/-- **A call is new if it was not entered before,** and it is found under the number that is
answered. -/
theorem Records.getOrCreate_answer (h : s.Records keys edges results) (key : Key) :
    ((s.getOrCreate key).1.2 = true ↔ key ∉ keys) ∧
      (s.getOrCreate key).2.find? key = some (s.getOrCreate key).1.1 := by
  have hafter := h.getOrCreate key
  rw [hafter.find?_eq_some_iff]
  unfold Stack.getOrCreate
  by_cases hkey : key ∈ keys
  · obtain ⟨id, hfind⟩ := h.exists_find? hkey
    rw [hfind, Numbering.eraseDups_concat_of_mem hkey]
    exact ⟨by simp [hkey], h.find?_eq_some_iff.mp hfind⟩
  · rw [h.find?_eq_none_iff.mpr hkey, Numbering.eraseDups_concat_of_notMem hkey, h.size_eq]
    exact ⟨by simp [hkey], List.getElem?_concat_length⟩

theorem Records.mem_edges_iff (h : s.Records keys edges results) {id : Nat} (hid : id < s.size)
    (e : Edge) : e ∈ (s.get id).edges ↔ (id, e) ∈ edges := by
  rw [(h.get hid).mem_edges, mem_ofNode]

/-- **An edge is new if it was not added before.** -/
theorem Records.addEdge_answer (h : s.Records keys edges results) {id : Nat} (hid : id < s.size)
    (e : Edge) : (s.addEdge id e).1 = true ↔ (id, e) ∉ edges := by
  rw [← h.mem_edges_iff hid]
  unfold Stack.addEdge
  split <;> simp_all

/-- **A result is new if none with its outcome was offered before.** -/
theorem Records.addPopped_answer (h : s.Records keys edges results) {id : Nat} (hid : id < s.size)
    (q : Popped) :
    (s.addPopped id q).1 = true ↔ ∀ q', (id, q') ∈ results → q'.outcome ≠ q.outcome := by
  have hresult : (s.get id).hasResult q ↔ ∃ q', (id, q') ∈ results ∧ q'.outcome = q.outcome := by
    rw [(h.get hid).hasResult_iff]
    simp only [mem_ofNode]
  unfold Stack.addPopped
  by_cases hq : (s.get id).hasResult q
  · obtain ⟨q', hq', houtcome⟩ := hresult.mp hq
    rw [if_pos hq]
    exact ⟨fun h' => absurd h' (by simp), fun h' => absurd houtcome (h' q' hq')⟩
  · rw [if_neg hq]
    exact ⟨fun _ q' hq' houtcome => hq (hresult.mpr ⟨q', hq', houtcome⟩), fun _ => rfl⟩

/-- **A node is cyclic if a loop was added to it.** -/
theorem Records.isCyclic_iff (h : s.Records keys edges results) {id : Nat} (hid : id < s.size) :
    (s.get id).isCyclic = true ↔ ∃ e, (id, e) ∈ edges ∧ e.dest = id ∧ e.node = none := by
  have hloops (e : Edge) : e ∈ (s.get id).loops ↔ (id, e) ∈ edges ∧ e.dest = id ∧ e.node = none := by
    rw [(h.get hid).mem_loops, mem_ofNode]
  simp only [← hloops]
  unfold Node.isCyclic
  cases (s.get id).loops <;> simp

theorem toList_nodes (s : Stack) : s.nodes.toList = (List.range s.size).map s.get := by
  refine List.ext_getElem? fun i => ?_
  rw [List.getElem?_map, Array.getElem?_toList]
  by_cases hi : i < s.size
  · rw [List.getElem?_range hi, Option.map_some, get, Array.getElem?_eq_getElem hi]
    rfl
  · rw [Array.getElem?_eq_none (Nat.le_of_not_lt hi), List.getElem?_eq_none (by simpa using hi)]
    rfl

theorem edgeCount_eq_sum (s : Stack) :
    s.edgeCount = ((List.range s.size).map fun id => (s.get id).edges.length).sum := by
  rw [edgeCount, toList_nodes, List.length_flatMap, List.map_map]
  rfl

/-- **The edges are counted right.** -/
theorem Records.edgeCount_eq (h : s.Records keys edges results) :
    s.edgeCount = edges.eraseDups.length := by
  have hcount := length_eq_sum_parts s.size (fun id => (s.get id).edges.map (id, ·))
    (Numbering.nodup_eraseDups edges)
    (fun id hid => (h.get hid).nodup.map fun e e' heq => (Prod.mk.inj heq).2)
    (fun {i j a} hi hj => ?_) fun x => ?_
  · rw [edgeCount_eq_sum, hcount]
    simp only [List.length_map]
  · obtain ⟨_, -, rfl⟩ := List.mem_map.mp hi
    obtain ⟨_, -, heq⟩ := List.mem_map.mp hj
    exact (Prod.mk.inj heq).1.symm
  · rw [List.mem_eraseDups]
    constructor
    · intro hx
      have hid := h.edges_lt x hx
      exact ⟨x.1, hid, List.mem_map.mpr ⟨x.2, (h.mem_edges_iff hid x.2).mpr hx, rfl⟩⟩
    · intro hx
      obtain ⟨id, hid, hx⟩ := hx
      obtain ⟨e, he, rfl⟩ := List.mem_map.mp hx
      exact (h.mem_edges_iff hid e).mp he

end

/-! ## Sequences of calls -/

section

variable (calls : List Call)

/-- The calls that were entered, as often as they were. -/
def entered : List Key := calls.filterMap Call.entered?

/-- The edges that were added, as often as they were. -/
def added : List (Nat × Edge) := calls.filterMap Call.edge?

/-- The results that were offered, as often as they were. -/
def offered : List (Nat × Popped) := calls.filterMap Call.result?

theorem entered_concat (c : Call) :
    entered (calls ++ [c]) = entered calls ++ c.entered?.toList :=
  filterMap_concat calls c _

theorem added_concat (c : Call) : added (calls ++ [c]) = added calls ++ c.edge?.toList :=
  filterMap_concat calls c _

theorem offered_concat (c : Call) : offered (calls ++ [c]) = offered calls ++ c.result?.toList :=
  filterMap_concat calls c _

end

/-- **Calls make a stack that records them.** -/
theorem records_of_performs {calls : List Call} {s : Stack}
    (h : Performs Call.Valid perform empty calls s) :
    s.Records (entered calls) (added calls) (offered calls) := by
  induction h with
  | nothing => exact records_empty
  | @call calls s c _ hvalid ih =>
    rw [entered_concat, added_concat, offered_concat]
    cases c with
    | enter key =>
      simpa [perform, Call.entered?, Call.edge?, Call.result?] using ih.getOrCreate key
    | addEdge source e =>
      simpa [perform, Call.entered?, Call.edge?, Call.result?] using ih.addEdge hvalid e
    | addPopped id q =>
      simpa [perform, Call.entered?, Call.edge?, Call.result?] using ih.addPopped hvalid q

/-- **A stack holds what was done with it,** in whatever order it was done. -/
theorem records_exact {calls : List Call} {s : Stack}
    (h : Performs Call.Valid perform empty calls s) :
    -- The nodes are the different calls, in the order in which they were first entered.
    s.nodes.toList.map Node.key = (entered calls).eraseDups ∧
      (∀ key id, s.find? key = some id ↔ (entered calls).eraseDups[id]? = some key) ∧
      (∀ key, ((s.getOrCreate key).1.2 = true ↔ key ∉ entered calls) ∧
        (s.getOrCreate key).2.find? key = some (s.getOrCreate key).1.1) ∧
      -- The edges are counted right.
      s.edgeCount = (added calls).eraseDups.length ∧
      s.edgeCount = ((List.range s.size).map fun id =>
        (s.get id).loops.length + (s.get id).others.length).sum ∧
      s.edgeCount = ((List.range s.size).map fun id => (s.get id).edges.length).sum ∧
      ∀ id < s.size,
        -- A node has the edges that were added to it, each once.
        (∀ e, (s.addEdge id e).1 = true ↔ (id, e) ∉ added calls) ∧
        (s.get id).edges.Nodup ∧
        (∀ e, e ∈ (s.get id).edges ↔ (id, e) ∈ added calls) ∧
        ((s.get id).isCyclic = true ↔ ∃ e, (id, e) ∈ added calls ∧ e.dest = id ∧ e.node = none) ∧
        -- It has the first result of each outcome, and its very first result in front.
        (∀ q, (s.addPopped id q).1 = true ↔
          ∀ q', (id, q') ∈ offered calls → q'.outcome ≠ q.outcome) ∧
        ((s.get id).popped.map Popped.outcome).Nodup ∧
        (∀ q, q ∈ (s.get id).popped ↔
          (ofNode id (offered calls)).find? (·.outcome = q.outcome) = some q) ∧
        (s.get id).popped.length
          = ((ofNode id (offered calls)).map Popped.outcome).eraseDups.length ∧
        (s.get id).popped.head? = (ofNode id (offered calls)).head? := by
  have hs := records_of_performs h
  refine ⟨hs.keys, fun key id => hs.find?_eq_some_iff, hs.getOrCreate_answer, hs.edgeCount_eq,
    ?_, s.edgeCount_eq_sum, fun id hid => ?_⟩
  · rw [edgeCount_eq_sum]
    simp only [Node.edges, List.length_append]
  · have hn := hs.get hid
    exact ⟨hs.addEdge_answer hid, hn.nodup, hs.mem_edges_iff hid, hs.isCyclic_iff hid,
      hs.addPopped_answer hid, hn.outcomes, hn.mem_popped, hn.length_popped, hn.head_popped⟩

/-- A call of the nonterminal with the number `k`, at the start of the text. -/
def callOf (k : Nat) : Key := ⟨k, 0, none⟩

/-- An edge that carries no forest node. -/
def bareEdge (dest call : Nat) : Edge := ⟨dest, call, none, .empty .frames⟩

/-- A loop comes after an ordinary edge, which is then added again, and a result is offered
that differs from another one in its forest node only. -/
def recorded : List Call :=
  [.enter (callOf 0), .enter (callOf 1), .addEdge 1 (bareEdge 0 2), .addEdge 1 (bareEdge 1 3),
    .addEdge 1 (bareEdge 0 2), .enter (callOf 0), .addPopped 1 ⟨5, 2, none⟩,
    .addPopped 1 ⟨6, 2, none⟩, .addPopped 1 ⟨4, 1, none⟩]

/-- The loop has displaced the ordinary edge, and the second result is not kept. -/
theorem records_exact_recorded :
    Performs Call.Valid perform empty recorded (recorded.foldl perform empty) ∧
      1 < (recorded.foldl perform empty).size ∧
      ((recorded.foldl perform empty).get 1).edges = [bareEdge 1 3, bareEdge 0 2] ∧
      ((recorded.foldl perform empty).get 1).popped = [⟨5, 2, none⟩, ⟨4, 1, none⟩] ∧
      (recorded.foldl perform empty).edgeCount = (added recorded).eraseDups.length ∧
      ((recorded.foldl perform empty).get 1).isCyclic = true ∧
      ((recorded.foldl perform empty).get 1).popped.head? = some ⟨5, 2, none⟩ := by
  have hperforms : Performs Call.Valid perform empty recorded (recorded.foldl perform empty) :=
    performs_foldl recorded (by decide +kernel)
  have hsize : 1 < (recorded.foldl perform empty).size := by decide +kernel
  obtain ⟨-, -, -, hcount, -, -, hnodes⟩ := records_exact hperforms
  obtain ⟨-, -, -, hcyclic, -, -, -, -, hhead⟩ := hnodes 1 hsize
  refine ⟨hperforms, hsize, by decide +kernel, by decide +kernel, hcount, ?_, ?_⟩
  · exact hcyclic.mpr ⟨bareEdge 1 3, by decide +kernel, rfl, rfl⟩
  · exact hhead.trans (by decide +kernel)

end Stack

end GeneralLL
