import GeneralLL.Proofs.Parts
import GeneralLL.Proofs.Places

/-!
# What a parse without arguments and values can meet

In a grammar without parameters and return values the environment of a thread depends on
little: the labels that its rule has crossed and the positions that they were bound to. So
a rule can make finitely many environments (`environments`), and no call makes others.

With the places that threads keep to (`located_of_entails`) this leaves finitely many
threads to be met, whatever the evaluator answers and however the grammar recurs
(`mem_threads_of_entails`).
-/

namespace GeneralLL

open SlotGraph

/-- A grammar in which calls have neither arguments nor values. -/
structure Grammar.IsValueless {μ : Type} (g : Grammar μ) : Prop where
  /-- No nonterminal has parameters. -/
  parameters : ∀ name, g.parametersOf name = []
  /-- No rule returns a value. -/
  returns : ∀ r ∈ g.rules, r.returns = none

/-- What the terminals and calls of a grammar are annotated with. -/
def Grammar.annotations {μ : Type} (g : Grammar μ) : List (Annotations μ) :=
  g.rules.flatMap fun r => r.body.flatMap fun s => s.branches.map Symbol.notes

theorem Grammar.mem_annotations {μ : Type} {g : Grammar μ} {r : Rule μ} {s b : Symbol μ}
    (hr : r ∈ g.rules) (hs : s ∈ r.body) (hb : b ∈ s.branches) : b.notes ∈ g.annotations :=
  List.mem_flatMap.mpr ⟨r, hr, List.mem_flatMap.mpr ⟨s, hs, List.mem_map_of_mem hb⟩⟩

namespace Parser

variable {μ : Type} {p : Parser μ} {g : Grammar μ}

/-! ## Environments -/

/-- The environments behind a symbol: a terminal was matched or a call has come back. -/
def bindings (p : Parser μ) (g : Grammar μ) (env : Environment) : List Environment :=
  g.annotations.flatMap fun notes =>
    (List.range (p.input.length + 1)).flatMap fun left =>
      (List.range (p.input.length + 1)).flatMap fun right =>
        [notes.bindScan p.input left right env,
          notes.bindReturn none right (notes.bindCall left env)]

/-- The environments that a rule can make before symbol `i`. -/
def environments (p : Parser μ) (g : Grammar μ) : (i : Nat) → List Environment
  | 0 => [.empty p.config.environment]
  | i + 1 => p.environments g i ++ (p.environments g i).flatMap (p.bindings g)

theorem environments_mono {env : Environment} {i j : Nat} (h : env ∈ p.environments g i)
    (hij : i ≤ j) : env ∈ p.environments g j := by
  induction hij with
  | refl => exact h
  | step _ ih => exact List.mem_append_left _ ih

section

variable {notes : Annotations μ} {env : Environment} {i left right : Nat}
  (hnotes : notes ∈ g.annotations) (henv : env ∈ p.environments g i)
  (hleft : left ≤ p.input.length) (hright : right ≤ p.input.length)

include hnotes henv hleft hright

theorem bindScan_mem_environments :
    notes.bindScan p.input left right env ∈ p.environments g (i + 1) := by
  refine List.mem_append_right _ (List.mem_flatMap.mpr ⟨env, henv, ?_⟩)
  refine List.mem_flatMap.mpr ⟨notes, hnotes, List.mem_flatMap.mpr
    ⟨left, List.mem_range.mpr (by omega), List.mem_flatMap.mpr
      ⟨right, List.mem_range.mpr (by omega), List.mem_cons_self⟩⟩⟩

theorem bindReturn_mem_environments :
    notes.bindReturn none right (notes.bindCall left env) ∈ p.environments g (i + 1) := by
  refine List.mem_append_right _ (List.mem_flatMap.mpr ⟨env, henv, ?_⟩)
  refine List.mem_flatMap.mpr ⟨notes, hnotes, List.mem_flatMap.mpr
    ⟨left, List.mem_range.mpr (by omega), List.mem_flatMap.mpr
      ⟨right, List.mem_range.mpr (by omega), List.mem_cons_of_mem _ (List.mem_singleton_self _)⟩⟩⟩

end

/-- An environment is one of those that can be made before this slot. -/
def MadeAt (p : Parser μ) (g : Grammar μ) (slot : Nat) (env : Environment) : Prop :=
  env ∈ p.environments g (p.graph.slot slot).position

/-- The fact is about calls without arguments, and about environments that rules can make. -/
def Tame (p : Parser μ) (g : Grammar μ) : Fact → Prop
  | .called key => key.arguments = none
  | .posted t | .passed t =>
    t.call.arguments = none ∧ (∀ w ∈ t.part, w.IsBare) ∧ p.MadeAt g t.slot t.env
  | .awaited key c =>
    key.arguments = none ∧ c.call.arguments = none ∧ (∀ w ∈ c.part, w.IsBare) ∧
      ∃ callee arguments notes dest,
        (p.graph.slot c.slot).action = .call callee arguments notes dest ∧
          ∃ env, p.MadeAt g c.slot env ∧ c.env = notes.bindCall key.position env
  | .result key _ value => key.arguments = none ∧ value = none
  | .piece w => w.IsBare
  | .packing _ => True

theorem isBare_join {slot : Nat} {part : Option Piece} {w : Piece} (hw : w.IsBare) :
    ∀ v ∈ some (Piece.join slot none part w), v.IsBare := by
  intro v hv
  obtain rfl := Option.some.inj hv
  cases part with
  | none => exact hw
  | some l => rfl

theorem tame_joinFacts {slot : Nat} {part : Option Piece} {w : Piece} {f : Fact}
    (hf : f ∈ Piece.joinFacts slot none part w) : p.Tame g f := by
  cases part with
  | none => exact absurd hf List.not_mem_nil
  | some l =>
    simp only [Piece.joinFacts, List.mem_cons, List.not_mem_nil, or_false] at hf
    rcases hf with rfl | rfl
    · rfl
    · exact trivial

variable [DecidableEq μ] [Matcher μ]

section

variable (hg : SlotGraph.ofGrammar g = .ok p.graph) (hvalueless : g.IsValueless)
  (hbounded : g.Bounded p.input)

include hg hvalueless hbounded

/-- A thread without arguments leads to calls without arguments. -/
theorem tame_of_leadsTo {k i : Nat} {r : Rule μ} {symbols : List (Symbol μ)} {t : Thread}
    {f : Fact} (hfollows : p.Follows g k r i symbols t) (ht : p.Tame g (.passed t))
    (h : p.LeadsTo t f) : p.Tame g f := by
  obtain ⟨hnone, hbare, hmade⟩ := ht
  have hr := hfollows.rule
  have hrule := List.mem_of_getElem? hr
  have hmade' : t.env ∈ p.environments g i := by
    rw [MadeAt, hfollows.before.lies.position] at hmade
    exact hmade
  cases finds_of_leadsTo hg hr hfollows.before h with
  | @complete value _ hi hslot hvalue hf =>
    rw [hvalueless.returns r hrule] at hvalue
    obtain rfl := Except.ok.inj hvalue
    simp only [completeFacts, List.mem_cons, List.not_mem_nil, or_false] at hf
    rcases hf with rfl | rfl | rfl | rfl
    · exact ⟨hnone, rfl⟩
    · show (p.child t).IsBare
      unfold child
      cases hw : t.part with
      | none => exact trivial
      | some w => exact hbare w hw
    · exact hnone
    · exact trivial
  | @scan id right s terminal notes _ hs hb _ hid hmatch hf =>
    have hmem := List.mem_of_getElem? hs
    obtain ⟨hle, hright⟩ := hbounded.matchAt hrule hmem hb hfollows.le_length hmatch
    obtain ⟨hi, -⟩ := List.getElem?_eq_some_iff.mp hs
    simp only [scanFacts, hnone, List.mem_cons] at hf
    rcases hf with rfl | rfl | hf
    · refine ⟨hnone, isBare_join trivial, ?_⟩
      rw [MadeAt, (before_base_graph hg hr (i := i + 1) hi).lies.position]
      exact bindScan_mem_environments (Grammar.mem_annotations hrule hmem hb) hmade'
        hfollows.le_length hright
    · exact trivial
    · exact tame_joinFacts hf
  | @call s arguments notes key _ hs hb haction hcallee hposition harguments hf =>
    have hkey : key.arguments = none := by
      rw [argumentsFor_eq_ok_iff, ← parametersOf_nonterminalName hg hcallee,
        hvalueless.parameters] at harguments
      exact harguments
    unfold callFacts at hf
    split at hf
    · exact absurd hf List.not_mem_nil
    simp only [List.mem_cons, List.not_mem_nil, or_false] at hf
    rcases hf with rfl | rfl
    · exact hkey
    · refine ⟨hkey, hnone, hbare, _, _, _, _, haction, t.env, hmade, ?_⟩
      rw [hposition]
  | @branch i' slot symbols' hi hbefore _ =>
    refine ⟨hnone, hbare, ?_⟩
    rw [MadeAt, hbefore.lies.position]
    exact environments_mono hmade' hi

omit hvalueless hbounded in
/-- A caller without arguments goes on without them. -/
theorem tame_of_resumesTo {k i right : Nat} {r : Rule μ} {arguments : List Expr}
    {notes : Annotations μ} {key : Stack.Key} {c : Caller} {f : Fact}
    (hawaiting : p.Awaiting g k r i arguments notes key c) (hc : p.Tame g (.awaited key c))
    (hright : right ≤ p.input.length) (h : p.ResumesTo key c right none f) : p.Tame g f := by
  obtain ⟨hkey, hnone, hbare, callee, arguments', notes', dest, haction, env, hmade, henv⟩ := hc
  rw [hawaiting.action] at haction
  obtain ⟨-, -, rfl, -⟩ := Action.call.inj haction
  obtain ⟨s, hs, hb⟩ := hawaiting.symbol
  obtain ⟨hi, -⟩ := List.getElem?_eq_some_iff.mp hs
  have hf := hawaiting.goesOn h
  have hpiece : (resultPiece key right).IsBare := hkey
  simp only [resumeFacts, hnone, List.mem_cons] at hf
  rcases hf with rfl | hf
  · refine ⟨hnone, isBare_join hpiece, ?_⟩
    rw [MadeAt, hawaiting.lies.position] at hmade
    rw [MadeAt, (before_base_graph hg hawaiting.rule (i := i + 1) hi).lies.position, henv]
    exact bindReturn_mem_environments (Grammar.mem_annotations
      (List.mem_of_getElem? hawaiting.rule) (List.mem_of_getElem? hs) hb) hmade
      hawaiting.le_length hright
  · exact tame_joinFacts hf

/-- **A parse without arguments and values stays tame.** -/
theorem tame_of_entails {f : Fact} (h : p.Entails f) : p.Tame g f := by
  induction h with
  | start _ => rfl
  | @opening key slot hcalled hslot hkey =>
    obtain ⟨hcallee, -⟩ := located_of_entails hg hbounded hcalled
    obtain ⟨k, r, hr, hhead, rfl, -⟩ := (mem_openings_iff hg hcallee).mp hslot
    refine ⟨hkey, fun w hw => absurd hw (by simp [opening]), ?_⟩
    have hlies := (before_base_graph hg hr (Nat.zero_le _)).lies
    rw [Nat.add_zero] at hlies
    rw [MadeAt, opening, hlies.position]
    show p.calleeEnvironment key.nonterminal key.arguments ∈ p.environments g 0
    rw [calleeEnvironment_eq hg hcallee, entry, hvalueless.parameters]
    exact List.mem_singleton_self _
  | delivered _ ht => exact ht
  | move hpassed hmove hf ht =>
    obtain ⟨k, r, i, symbols, hfollows⟩ := located_of_entails hg hbounded hpassed
    exact tame_of_leadsTo hg hvalueless hbounded hfollows ht ⟨_, hmove, hf⟩
  | @resume key c right value _ _ hawaited hresult hresume hf hc hvalue =>
    obtain ⟨k, r, i, arguments, notes, hawaiting⟩ := located_of_entails hg hbounded hawaited
    obtain ⟨-, hright⟩ := located_of_entails hg hbounded hresult
    obtain ⟨-, rfl⟩ := hvalue
    exact tame_of_resumesTo hg hawaiting hc hright ⟨_, hresume, hf⟩

end

/-! ## Finitely many threads -/

/-- The pieces without arguments that cover a stretch of the text. -/
def pieces (p : Parser μ) : List Piece :=
  (List.range (p.input.length + 1)).flatMap fun left =>
    (List.range (p.input.length + 1)).flatMap fun right =>
      (List.range p.graph.terminals.size).map (Piece.terminal · left right) ++
        (List.range p.graph.nonterminals.size).map (Piece.nonterminal · none left right) ++
        (List.range p.graph.slots.size).map (Piece.intermediate · none left right)

/-- The calls without arguments. -/
def keys (p : Parser μ) : List Stack.Key :=
  (List.range p.graph.nonterminals.size).flatMap fun id =>
    (List.range (p.input.length + 1)).map fun position => ⟨id, position, none⟩

/-- The threads that a parse without arguments and values can meet. -/
def threads (p : Parser μ) (g : Grammar μ) : List Thread :=
  (List.range p.graph.slots.size).flatMap fun slot =>
    (List.range (p.input.length + 1)).flatMap fun position =>
      p.keys.flatMap fun call =>
        (none :: p.pieces.map some).flatMap fun part =>
          (p.environments g (p.graph.slot slot).position).map fun env =>
            ⟨slot, position, call, part, env⟩

omit [DecidableEq μ] [Matcher μ] in
theorem mem_pieces {w : Piece} (hw : p.Covering w) (hbare : w.IsBare) : w ∈ p.pieces := by
  obtain ⟨hnumber, hle, hright⟩ := hw
  have hleft : w.left < p.input.length + 1 := by omega
  have hright : w.right < p.input.length + 1 := by omega
  refine List.mem_flatMap.mpr ⟨w.left, List.mem_range.mpr hleft,
    List.mem_flatMap.mpr ⟨w.right, List.mem_range.mpr hright, ?_⟩⟩
  cases w with
  | terminal id l r =>
    obtain ⟨t, ht⟩ := Option.isSome_iff_exists.mp hnumber
    have hid : id < p.graph.terminals.size := (Array.getElem?_eq_some_iff.mp ht).1
    exact List.mem_append_left _ (List.mem_append_left _
      (List.mem_map.mpr ⟨id, List.mem_range.mpr hid, rfl⟩))
  | nonterminal id values l r =>
    obtain rfl : values = none := hbare
    exact List.mem_append_left _ (List.mem_append_right _
      (List.mem_map.mpr ⟨id, List.mem_range.mpr hnumber, rfl⟩))
  | intermediate slot values l r =>
    obtain rfl : values = none := hbare
    exact List.mem_append_right _ (List.mem_map.mpr ⟨slot, List.mem_range.mpr hnumber, rfl⟩)

/-- **A parse without arguments and values meets finitely many threads.** -/
theorem mem_threads_of_entails (hg : SlotGraph.ofGrammar g = .ok p.graph)
    (hvalueless : g.IsValueless) (hbounded : g.Bounded p.input) {t : Thread}
    (h : p.Entails (.posted t)) : t ∈ p.threads g := by
  obtain ⟨k, r, i, symbols, hfollows⟩ := located_of_entails hg hbounded h
  obtain ⟨hnone, hbare, hmade⟩ := tame_of_entails hg hvalueless hbounded h
  have hcallee := (nonterminalName_head hg hfollows.rule).1
  rw [← hfollows.head] at hcallee
  have hposition := hfollows.le_length
  have hstart := hfollows.start_le
  obtain ⟨slot, position, ⟨callee, start, values⟩, part, env⟩ := t
  dsimp only at hnone hcallee hposition hstart
  subst hnone
  refine List.mem_flatMap.mpr ⟨slot, List.mem_range.mpr hfollows.before.lies.lt,
    List.mem_flatMap.mpr ⟨position, List.mem_range.mpr (by omega),
      List.mem_flatMap.mpr ⟨⟨callee, start, none⟩, ?_,
        List.mem_flatMap.mpr ⟨part, ?_, List.mem_map.mpr ⟨env, hmade, rfl⟩⟩⟩⟩⟩
  · exact List.mem_flatMap.mpr ⟨callee, List.mem_range.mpr hcallee,
      List.mem_map.mpr ⟨start, List.mem_range.mpr (by omega), rfl⟩⟩
  · cases part with
    | none => exact List.mem_cons_self
    | some w =>
      have hcovering : p.Covering w := hfollows.part.covering hg hfollows.rule
        hfollows.before.le_length hstart hposition
      exact List.mem_cons_of_mem _ (List.mem_map_of_mem (mem_pieces hcovering (hbare w rfl)))

end Parser

end GeneralLL
