import GeneralLL.Proofs.Fact

/-!
# The two representations of environments

Declaring all frames of an environment anew in a flat one keeps every lookup
(`Environment.lookup_flatten`), and declaring and flattening may be done in either order
(`Environment.flatten_declare`). An evaluator that asks for names only
(`Evaluator.ReadsByName`) cannot tell the two apart.

So a thread with a flattened environment moves as the thread itself does (`move_flatten`),
and a parse with flat environments finds out exactly the flattened facts of a parse with
frames (`entails_flat_iff`). But several environments may flatten to the same: a binding
that was shadowed is gone.
-/

namespace GeneralLL

/-! ## Frames without duplicates -/

namespace Environment

theorem lookupFrame_cons (name : String) (b : Binding) (frame : List Binding) :
    lookupFrame name (b :: frame)
      = (lookupFrame name frame).or (if b.1 = name then some b.2 else none) := by
  unfold lookupFrame
  rw [List.reverse_cons, List.find?_append, Option.map_or]
  congr 1
  by_cases h : b.1 = name <;> simp [h]

theorem lookupFrame_eq_none {name : String} {frame : List Binding}
    (h : name ∉ frame.map Prod.fst) : lookupFrame name frame = none := by
  unfold lookupFrame
  rw [Option.map_eq_none_iff, List.find?_eq_none]
  intro b hb
  simp only [decide_eq_true_eq]
  rintro rfl
  exact h (List.mem_map_of_mem (List.mem_reverse.mp hb))

/-- Overwriting a name keeps the names there are, and adds it if it is new. -/
theorem map_fst_overwrite (b : Binding) (frame : List Binding) :
    (overwrite b frame).map Prod.fst = if b.1 ∈ frame.map Prod.fst then frame.map Prod.fst
      else frame.map Prod.fst ++ [b.1] := by
  induction frame with
  | nil => rfl
  | cons c rest ih =>
    rw [overwrite]
    by_cases hc : c.1 = b.1
    · simp [hc]
    · rw [if_neg hc, List.map_cons, ih]
      have hne : b.1 ≠ c.1 := fun h => hc h.symm
      by_cases hb : b.1 ∈ rest.map Prod.fst <;> simp [hb, hne]

theorem nodup_overwrite {b : Binding} {frame : List Binding} (h : (frame.map Prod.fst).Nodup) :
    ((overwrite b frame).map Prod.fst).Nodup := by
  rw [map_fst_overwrite]
  split
  · exact h
  · rename_i hb
    exact (List.perm_append_singleton b.1 _).nodup_iff.mpr (List.nodup_cons.mpr ⟨hb, h⟩)

/-- A name that is overwritten has the new value, the other names have the old ones. -/
theorem lookupFrame_overwrite {name : String} {b : Binding} {frame : List Binding}
    (h : (frame.map Prod.fst).Nodup) :
    lookupFrame name (overwrite b frame)
      = if b.1 = name then some b.2 else lookupFrame name frame := by
  induction frame with
  | nil =>
    rw [overwrite, lookupFrame_cons]
    simp [lookupFrame]
  | cons c rest ih =>
    obtain ⟨hc, hrest⟩ := List.nodup_cons.mp h
    rw [overwrite]
    by_cases heq : c.1 = b.1
    · rw [if_pos heq, lookupFrame_cons, lookupFrame_cons]
      by_cases hb : b.1 = name
      · rw [lookupFrame_eq_none (hb ▸ heq ▸ hc), if_pos hb, Option.none_or, if_pos hb]
      · have hc : ¬c.1 = name := fun h => hb (heq ▸ h)
        rw [if_neg hb, if_neg hb, if_neg hc]
    · rw [if_neg heq, lookupFrame_cons, ih hrest, lookupFrame_cons]
      by_cases hb : b.1 = name
      · rw [if_pos hb, if_pos hb, Option.some_or]
      · rw [if_neg hb, if_neg hb]

theorem nodup_foldl_overwrite {bindings frame : List Binding} (h : (frame.map Prod.fst).Nodup) :
    ((bindings.foldl (fun frame b => overwrite b frame) frame).map Prod.fst).Nodup := by
  induction bindings generalizing frame with
  | nil => exact h
  | cons b rest ih => exact ih (nodup_overwrite h)

/-- Of the bindings that overwrite others the last one of a name counts. -/
theorem lookupFrame_foldl_overwrite {name : String} {bindings frame : List Binding}
    (h : (frame.map Prod.fst).Nodup) :
    lookupFrame name (bindings.foldl (fun frame b => overwrite b frame) frame)
      = (lookupFrame name bindings).or (lookupFrame name frame) := by
  induction bindings generalizing frame with
  | nil => rfl
  | cons b rest ih =>
    rw [List.foldl_cons, ih (nodup_overwrite h), lookupFrame_overwrite h, lookupFrame_cons]
    by_cases hb : b.1 = name
    · rw [if_pos hb, if_pos hb, Option.or_assoc, Option.some_or]
    · rw [if_neg hb, if_neg hb, Option.or_none]

/-- New names are appended. -/
theorem foldl_overwrite_eq_append {bindings frame : List Binding}
    (h : ((frame ++ bindings).map Prod.fst).Nodup) :
    bindings.foldl (fun frame b => overwrite b frame) frame = frame ++ bindings := by
  have happend {b : Binding} {frame : List Binding} (hb : b.1 ∉ frame.map Prod.fst) :
      overwrite b frame = frame ++ [b] := by
    induction frame with
    | nil => rfl
    | cons c rest ih =>
      rw [List.map_cons, List.mem_cons, not_or] at hb
      rw [overwrite, if_neg fun h => hb.1 h.symm, ih hb.2, List.cons_append]
  induction bindings generalizing frame with
  | nil => rw [List.append_nil, List.foldl_nil]
  | cons b rest ih =>
    have hb : b.1 ∉ frame.map Prod.fst := by
      rw [List.map_append, List.nodup_append] at h
      exact fun hmem => h.2.2 _ hmem _ List.mem_cons_self rfl
    rw [List.append_cons] at h
    rw [List.foldl_cons, happend hb, ih h, ← List.append_cons]

/-! ## Flattening -/

/-- The environment with all its bindings in one frame: its frames are declared anew in a flat
environment, the outermost first. -/
def flatten (env : Environment) : Environment :=
  match env.representation with
  | .flat => env
  | .frames => env.frames.foldr (fun frame flat => flat.declare frame) (empty .flat)

theorem flatten_empty (r : Representation) : (empty r).flatten = empty .flat := by
  cases r <;> rfl

theorem representation_declare (env : Environment) (bindings : List Binding) :
    (env.declare bindings).representation = env.representation := by
  unfold declare
  split
  · rfl
  · split <;> rfl

theorem declare_nil (env : Environment) : env.declare [] = env := rfl

/-- **Declaring and flattening may be done in either order.** -/
theorem flatten_declare (env : Environment) (bindings : List Binding) :
    (env.declare bindings).flatten = env.flatten.declare bindings := by
  cases hr : env.representation with
  | flat =>
    have hdeclare := (representation_declare env bindings).trans hr
    unfold flatten
    rw [hr, hdeclare]
  | frames =>
    cases bindings with
    | nil => rfl
    | cons b rest =>
      rw [declare, if_neg (by simp)]
      unfold flatten
      simp only [hr, List.foldr_cons]

/-- An environment with one frame at most, in which no name is bound twice. -/
structure OneFrame (env : Environment) : Prop where
  /-- The environment is flat. -/
  representation : env.representation = .flat
  /-- There is one frame at most. -/
  frames : env.frames = [] ∨ ∃ frame, env.frames = [frame]
  /-- No name is bound twice. -/
  nodup : (env.frames.flatten.map Prod.fst).Nodup

theorem oneFrame_empty : (empty .flat).OneFrame := ⟨rfl, Or.inl rfl, List.nodup_nil⟩

theorem OneFrame.lookup {env : Environment} (h : env.OneFrame) (name : String) :
    env.lookup name = lookupFrame name env.frames.flatten := by
  unfold Environment.lookup
  rcases h.frames with hframes | ⟨frame, hframes⟩
  · rw [hframes]
    rfl
  · rw [hframes, List.flatten_singleton, List.findSome?_singleton]

theorem OneFrame.frames_declare {env : Environment} (h : env.OneFrame) (bindings : List Binding) :
    (env.declare bindings).frames.flatten
      = bindings.foldl (fun frame b => overwrite b frame) env.frames.flatten := by
  cases bindings with
  | nil => rfl
  | cons b rest =>
    rw [Environment.declare, if_neg (by simp), h.representation]
    exact List.flatten_singleton

theorem OneFrame.declare {env : Environment} (h : env.OneFrame) (bindings : List Binding) :
    (env.declare bindings).OneFrame := by
  refine ⟨(representation_declare env bindings).trans h.representation, ?_, ?_⟩
  · unfold Environment.declare
    rw [h.representation]
    split
    · exact h.frames
    · exact Or.inr ⟨_, rfl⟩
  · rw [h.frames_declare]
    exact nodup_foldl_overwrite h.nodup

/-- In a flat environment, too, a declaration shadows what there is. -/
theorem OneFrame.lookup_declare {env : Environment} (h : env.OneFrame) (bindings : List Binding)
    (name : String) :
    (env.declare bindings).lookup name = (lookupFrame name bindings).or (env.lookup name) := by
  rw [(h.declare bindings).lookup, h.frames_declare, lookupFrame_foldl_overwrite h.nodup, h.lookup]

theorem oneFrame_flatten {env : Environment} (hr : env.representation = .frames) :
    env.flatten.OneFrame := by
  unfold flatten
  rw [hr]
  induction env.frames with
  | nil => exact oneFrame_empty
  | cons frame rest ih => exact ih.declare frame

/-- **Flattening keeps every lookup.** -/
theorem lookup_flatten (env : Environment) (name : String) :
    env.flatten.lookup name = env.lookup name := by
  obtain ⟨r, frames⟩ := env
  cases r with
  | flat => rfl
  | frames =>
    induction frames with
    | nil => rfl
    | cons frame rest ih =>
      have hcons : flatten ⟨.frames, frame :: rest⟩ = (flatten ⟨.frames, rest⟩).declare frame := rfl
      rw [hcons, (oneFrame_flatten rfl).lookup_declare, ih]
      unfold lookup
      rw [List.findSome?_cons]
      cases lookupFrame name frame <;> rfl

end Environment

/-! ## Evaluators that ask for names -/

/-- The value of an expression depends on the lookups in the environment only. -/
def Evaluator.ReadsByName (evaluate : Evaluator) : Prop :=
  ∀ (e : Expr) (env env' : Environment), (∀ name, env.lookup name = env'.lookup name) →
    evaluate e env = evaluate e env'

theorem Expr.readsByName_eval : Evaluator.ReadsByName Expr.eval := by
  intro e env env' h
  induction e with
  | const => rfl
  | var | leftExtent | rightExtent => simp only [Expr.eval, Expr.read, h]
  | not e ih => simp only [Expr.eval, ih]
  | binary op left right ihl ihr => cases op <;> simp only [Expr.eval, ihl, ihr]

theorem Evaluator.ReadsByName.overriding {base : Evaluator} (h : base.ReadsByName)
    (fixed : List Binding) : (Evaluator.overriding fixed base).ReadsByName := by
  intro e env env' hsame
  cases e with
  | var name =>
    unfold Evaluator.overriding
    dsimp only
    rw [h _ env env' hsame]
  | const | leftExtent | rightExtent | not | binary => exact h _ env env' hsame

/-! ## Facts with flat environments -/

/-- The thread with a flat environment. -/
def Thread.flatten (t : Thread) : Thread := { t with env := t.env.flatten }

/-- The caller with a flat environment. -/
def Caller.flatten (c : Caller) : Caller := { c with env := c.env.flatten }

/-- The fact with a flat environment, if it has one. -/
def Fact.flatten : Fact → Fact
  | posted t => posted t.flatten
  | passed t => passed t.flatten
  | awaited key c => awaited key c.flatten
  | f => f

namespace Fact

variable {f : Fact}

theorem flatten_eq_called_iff {key : Stack.Key} : f.flatten = .called key ↔ f = .called key := by
  cases f <;> simp [flatten]

theorem flatten_eq_posted_iff {t' : Thread} :
    f.flatten = .posted t' ↔ ∃ t, f = .posted t ∧ t.flatten = t' := by
  cases f <;> simp [flatten]

theorem flatten_eq_passed_iff {t' : Thread} :
    f.flatten = .passed t' ↔ ∃ t, f = .passed t ∧ t.flatten = t' := by
  cases f <;> simp [flatten]

theorem flatten_eq_awaited_iff {key : Stack.Key} {c' : Caller} :
    f.flatten = .awaited key c' ↔ ∃ c, f = .awaited key c ∧ c.flatten = c' := by
  cases f <;> simp [flatten, eq_comm]

theorem flatten_eq_result_iff {key : Stack.Key} {right : Nat} {value : Option Value} :
    f.flatten = .result key right value ↔ f = .result key right value := by
  cases f <;> simp [flatten]

theorem flatten_eq_of_forest {f' : Fact} (h : f'.OfForest) : f.flatten = f' ↔ f = f' := by
  cases f <;> cases f' <;> simp_all [flatten, OfForest]

end Fact

theorem Piece.map_flatten_joinFacts (slot : Nat) (arguments : Option (List Value))
    (left : Option Piece) (right : Piece) :
    (Piece.joinFacts slot arguments left right).map Fact.flatten
      = Piece.joinFacts slot arguments left right := by
  cases left <;> rfl

namespace Annotations

variable {μ : Type} (notes : Annotations μ) (env : Environment)

theorem flatten_bindScan (input : Input) (left right : Nat) :
    (notes.bindScan input left right env).flatten
      = notes.bindScan input left right env.flatten := by
  unfold bindScan
  cases notes.label with
  | none => rfl
  | some x => exact Environment.flatten_declare _ _

theorem flatten_bindCall (left : Nat) :
    (notes.bindCall left env).flatten = notes.bindCall left env.flatten := by
  unfold bindCall
  cases notes.label with
  | none => rfl
  | some x => exact Environment.flatten_declare _ _

theorem flatten_bindReturn (value : Option Value) (right : Nat) :
    (notes.bindReturn value right env).flatten = notes.bindReturn value right env.flatten := by
  unfold bindReturn
  cases notes.label with
  | none => rfl
  | some x => exact Environment.flatten_declare _ _

end Annotations

namespace Parser

variable {μ : Type} [Matcher μ] {p : Parser μ} {c : Configuration}

/-! ## Moves do not see the representation -/

section

variable (hreads : p.evaluate.ReadsByName)

include hreads

omit [Matcher μ] in
theorem evaluate_flatten (e : Expr) (env : Environment) :
    p.evaluate e env.flatten = p.evaluate e env :=
  hreads e _ _ env.lookup_flatten

omit [Matcher μ] in
theorem truth_flatten (e : Expr) (env : Environment) :
    p.evaluate.truth e env.flatten = p.evaluate.truth e env := by
  unfold Evaluator.truth
  rw [evaluate_flatten hreads]

theorem allHold_flatten (conditions : List (Condition μ)) (left right : Nat) (env : Environment) :
    Condition.allHold p.evaluate p.input left right env.flatten conditions
      = Condition.allHold p.evaluate p.input left right env conditions := by
  induction conditions with
  | nil => rfl
  | cons c rest ih =>
    have hholds : c.holds p.evaluate p.input left right env.flatten
        = c.holds p.evaluate p.input left right env := by
      cases c with
      | expr e => exact truth_flatten hreads e env
      | context => rfl
    rw [Condition.allHold, Condition.allHold, hholds, ih]

theorem scanned_flatten (terminal left : Nat) (notes : Annotations μ) (env : Environment) :
    p.scanned terminal notes left env.flatten
      = Option.map (fun found => (found.1, found.2.flatten))
        <$> p.scanned terminal notes left env := by
  unfold scanned
  rw [allHold_flatten hreads]
  cases Condition.allHold p.evaluate p.input left left env notes.pre with
  | error e => rfl
  | ok b =>
    cases b with
    | false => rfl
    | true =>
      cases (p.graph.terminal terminal).matchAt p.input left with
      | none => rfl
      | some right =>
        simp only [bind, Except.bind, if_true, ← Annotations.flatten_bindScan,
          allHold_flatten hreads]
        cases Condition.allHold p.evaluate p.input left right
            (notes.bindScan p.input left right env) notes.post with
        | error e => rfl
        | ok b => cases b <;> rfl

omit [Matcher μ] in
theorem argumentsFor_flatten (callee : Nat) (arguments : List Expr) (env : Environment) :
    p.argumentsFor callee arguments env.flatten = p.argumentsFor callee arguments env := by
  unfold argumentsFor
  simp only [evaluate_flatten hreads]

theorem calling_flatten (callee left : Nat) (arguments : List Expr) (notes : Annotations μ)
    (env : Environment) :
    p.calling callee arguments notes left env.flatten
      = Option.map (fun found => (found.1, found.2.flatten))
        <$> p.calling callee arguments notes left env := by
  unfold calling
  rw [allHold_flatten hreads]
  cases Condition.allHold p.evaluate p.input left left env notes.pre with
  | error e => rfl
  | ok b =>
    cases b with
    | false => rfl
    | true =>
      simp only [bind, Except.bind, if_true, ← Annotations.flatten_bindCall,
        argumentsFor_flatten hreads]
      cases p.argumentsFor callee arguments (notes.bindCall left env) <;> rfl

omit [Matcher μ] in
theorem returned_flatten (returns : Option Expr) (env : Environment) :
    p.returned returns env.flatten = p.returned returns env := by
  unfold returned
  cases returns with
  | none => rfl
  | some e => simp only [evaluate_flatten hreads]

theorem resumed_flatten (notes : Annotations μ) (dest left right : Nat) (value : Option Value)
    (env : Environment) :
    p.resumed notes dest left right value env.flatten
      = Option.map Environment.flatten <$> p.resumed notes dest left right value env := by
  unfold resumed
  simp only [← Annotations.flatten_bindReturn, allHold_flatten hreads]
  cases Condition.allHold p.evaluate p.input left right (notes.bindReturn value right env)
      notes.post with
  | error e => rfl
  | ok b =>
    cases b with
    | false => rfl
    | true =>
      simp only [bind, Except.bind, if_true]
      split <;> rfl

omit hreads [Matcher μ] in
/-- Facts that are found only if something goes on, with flat environments. -/
theorem elim_flatten {α ε : Type} {x : Except ε (Option α)} {flat : α → α}
    {k k' : α → List Fact} (hk : ∀ a, k' (flat a) = (k a).map Fact.flatten) :
    (Option.elim · [] k') <$> (Option.map flat <$> x)
      = List.map Fact.flatten <$> ((Option.elim · [] k) <$> x) := by
  cases x with
  | error e => rfl
  | ok o =>
    cases o with
    | none => rfl
    | some a => exact congrArg Except.ok (hk a)

/-- **A thread with a flat environment moves as the thread itself does.** -/
theorem move_flatten (t : Thread) :
    p.move t.flatten = List.map Fact.flatten <$> p.move t := by
  have hslot : t.flatten.slot = t.slot := rfl
  unfold move
  rw [hslot]
  cases (p.graph.slot t.slot).action with
  | scan terminal notes dest =>
    dsimp only
    rw [show t.flatten.env = t.env.flatten from rfl, scanned_flatten hreads]
    refine elim_flatten fun found => ?_
    simp only [scanFacts, List.map_cons, Piece.map_flatten_joinFacts]
    rfl
  | call callee arguments notes dest =>
    dsimp only
    rw [show t.flatten.env = t.env.flatten from rfl, calling_flatten hreads]
    refine elim_flatten fun found => ?_
    unfold callFacts
    dsimp only
    split <;> rfl
  | branch condition ifTrue ifFalse =>
    dsimp only
    rw [show t.flatten.env = t.env.flatten from rfl, truth_flatten hreads]
    cases p.evaluate.truth condition t.env <;> rfl
  | complete returns =>
    dsimp only
    rw [show t.flatten.env = t.env.flatten from rfl, returned_flatten hreads]
    cases p.returned returns t.env <;> rfl

/-- A caller with a flat environment goes on as the caller itself does. -/
theorem resume_flatten (key : Stack.Key) (c : Caller) (right : Nat) (value : Option Value) :
    p.resume key c.flatten right value
      = List.map Fact.flatten <$> p.resume key c right value := by
  have hslot : c.flatten.slot = c.slot := rfl
  unfold resume
  rw [hslot]
  cases (p.graph.slot c.slot).action with
  | call callee arguments notes dest =>
    dsimp only
    rw [show c.flatten.env = c.env.flatten from rfl, resumed_flatten hreads]
    refine elim_flatten fun env => ?_
    simp only [resumeFacts, List.map_cons, Piece.map_flatten_joinFacts]
    rfl
  | scan | branch | complete => rfl

/-! ## What flat parses find out -/

variable (hflat : c.environment = .flat)

include hflat

omit [Matcher μ] hreads in
theorem opening_flatten (key : Stack.Key) (slot : Nat) :
    ({ p with config := c } : Parser μ).opening key slot = (p.opening key slot).flatten := by
  unfold opening calleeEnvironment Thread.flatten
  dsimp only
  rw [hflat, Environment.flatten_declare, Environment.flatten_empty]

theorem Entails.flatten {f : Fact} (h : p.Entails f) :
    ({ p with config := c } : Parser μ).Entails f.flatten := by
  induction h with
  | start hne => exact .start hne
  | opening _ hslot ih =>
    rw [Fact.flatten, ← opening_flatten hflat]
    exact .opening ih hslot
  | delivered _ ih => exact .delivered ih
  | @move t facts f _ hmove hf ih =>
    have hflattened : p.move t.flatten = .ok (facts.map Fact.flatten) := by
      rw [move_flatten hreads, hmove]
      rfl
    exact .move ih hflattened (List.mem_map_of_mem hf)
  | @resume key caller right value facts f _ _ hresume hf ihc ihr =>
    have hflattened : p.resume key caller.flatten right value = .ok (facts.map Fact.flatten) := by
      rw [resume_flatten hreads, hresume]
      rfl
    exact .resume ihc ihr hflattened (List.mem_map_of_mem hf)

/-- **A parse with flat environments finds out exactly the flattened facts.** -/
theorem entails_flat_iff {f' : Fact} :
    ({ p with config := c } : Parser μ).Entails f' ↔ ∃ f, p.Entails f ∧ f.flatten = f' := by
  constructor
  · intro h
    induction h with
    | start hne => exact ⟨_, .start hne, rfl⟩
    | opening _ hslot ih =>
      obtain ⟨f, hf, heq⟩ := ih
      obtain rfl := Fact.flatten_eq_called_iff.mp heq
      exact ⟨_, .opening hf hslot, by rw [opening_flatten hflat]; rfl⟩
    | delivered _ ih =>
      obtain ⟨f, hf, heq⟩ := ih
      obtain ⟨t, rfl, rfl⟩ := Fact.flatten_eq_posted_iff.mp heq
      exact ⟨_, .delivered hf, rfl⟩
    | @move t' facts' f' _ hmove hf' ih =>
      obtain ⟨f, hf, heq⟩ := ih
      obtain ⟨t, rfl, rfl⟩ := Fact.flatten_eq_passed_iff.mp heq
      have hflattened : List.map Fact.flatten <$> p.move t = .ok facts' :=
        (move_flatten hreads t).symm.trans hmove
      obtain ⟨facts, hmoved, rfl⟩ := Except.map_eq_ok_iff.mp hflattened
      obtain ⟨found, hfound, rfl⟩ := List.mem_map.mp hf'
      exact ⟨found, .move hf hmoved hfound, rfl⟩
    | @resume key c' right value facts' f' _ _ hresume hf' ihc ihr =>
      obtain ⟨f, hf, heq⟩ := ihc
      obtain ⟨f₁, hf₁, heq₁⟩ := ihr
      obtain ⟨caller, rfl, rfl⟩ := Fact.flatten_eq_awaited_iff.mp heq
      obtain rfl := Fact.flatten_eq_result_iff.mp heq₁
      have hflattened : List.map Fact.flatten <$> p.resume key caller right value = .ok facts' :=
        (resume_flatten hreads key caller right value).symm.trans hresume
      obtain ⟨facts, hresumed, rfl⟩ := Except.map_eq_ok_iff.mp hflattened
      obtain ⟨found, hfound, rfl⟩ := List.mem_map.mp hf'
      exact ⟨found, .resume hf hf₁ hresumed hfound, rfl⟩
  · intro h
    obtain ⟨f, hf, rfl⟩ := h
    exact hf.flatten hreads hflat

/-- An expression without an answer is met in both parses. -/
theorem faulty_flat_iff : ({ p with config := c } : Parser μ).Faulty ↔ p.Faulty := by
  constructor
  · intro h
    cases h with
    | @move t' e ht hmove =>
      obtain ⟨f, hf, heq⟩ := (entails_flat_iff hreads hflat).mp ht
      obtain ⟨t, rfl, rfl⟩ := Fact.flatten_eq_passed_iff.mp heq
      have hflattened : List.map Fact.flatten <$> p.move t = .error e :=
        (move_flatten hreads t).symm.trans hmove
      exact .move hf (Except.map_eq_error_iff.mp hflattened)
    | @resume key c' right value e hc hr hresume =>
      obtain ⟨f, hf, heq⟩ := (entails_flat_iff hreads hflat).mp hc
      obtain ⟨f₁, hf₁, heq₁⟩ := (entails_flat_iff hreads hflat).mp hr
      obtain ⟨caller, rfl, rfl⟩ := Fact.flatten_eq_awaited_iff.mp heq
      obtain rfl := Fact.flatten_eq_result_iff.mp heq₁
      have hflattened : List.map Fact.flatten <$> p.resume key caller right value = .error e :=
        (resume_flatten hreads key caller right value).symm.trans hresume
      exact .resume hf hf₁ (Except.map_eq_error_iff.mp hflattened)
  · intro h
    cases h with
    | @move t e ht hmove =>
      have hflattened : p.move t.flatten = .error e := by
        rw [move_flatten hreads, hmove]
        rfl
      exact .move (ht.flatten hreads hflat) hflattened
    | @resume key caller right value e hc hr hresume =>
      have hflattened : p.resume key caller.flatten right value = .error e := by
        rw [resume_flatten hreads, hresume]
        rfl
      exact .resume (hc.flatten hreads hflat) (hr.flatten hreads hflat) hflattened

end

end Parser

end GeneralLL
