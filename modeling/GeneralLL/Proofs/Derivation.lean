import GeneralLL.Parser
import GeneralLL.Proofs.FirstFollow

/-!
# What a grammar derives

The meaning of a grammar, without stacks, agendas and lookahead. `Passes` reads the
symbols of a body one after the other: it says from which position to which they lead
and how they change the environment. `Derives` is the same for a nonterminal with its
arguments: one of its rules leads from `left` to `right` and returns a value.

The last part shows that lookahead never excludes a derivation. What a body leads over
starts with a character that FIRST of the body admits, or it is empty and the body is
nullable (`Passes.front_admitted`); so where FOLLOW of the head admits what comes behind a rest, the
lookahead set of the rest admits what comes before it (`Passes.lookahead_admits`).
-/

namespace GeneralLL

variable {μ : Type}

/-! ## Labels -/

namespace Annotations

/-- A labelled terminal binds its extents and the text it matched. -/
def bindScan (notes : Annotations μ) (input : Input) (left right : Nat) (env : Environment) :
    Environment :=
  match notes.label with
  | none => env
  | some x => env.declare
      [(Expr.leftExtentName x, .ofNat left), (Expr.rightExtentName x, .ofNat right),
        (x, .str (input.substring left right))]

/-- A labelled call binds where it starts before its arguments are evaluated. -/
def bindCall (notes : Annotations μ) (left : Nat) (env : Environment) : Environment :=
  match notes.label with
  | none => env
  | some x => env.declare [(Expr.leftExtentName x, .ofNat left)]

/-- A labelled call binds what the callee returned and where it ended. -/
def bindReturn (notes : Annotations μ) (value : Option Value) (right : Nat) (env : Environment) :
    Environment :=
  match notes.label with
  | none => env
  | some x => env.declare [(x, value.getD .unit), (Expr.rightExtentName x, .ofNat right)]

end Annotations

/-! ## Derivations -/

namespace Parser

variable [Matcher μ]

/-- All conditions hold of a region. -/
def AllHold (p : Parser μ) (conditions : List (Condition μ)) (left right : Nat)
    (env : Environment) : Prop :=
  ∀ c ∈ conditions, c.holds p.evaluate p.input left right env = .ok true

theorem allHold_nil {p : Parser μ} {left right : Nat} {env : Environment} :
    p.AllHold [] left right env := fun _ h => absurd h List.not_mem_nil

/-- The environment in which the rules of a nonterminal start: it binds the parameters only. -/
def entry (p : Parser μ) (g : Grammar μ) (name : String) (arguments : Option (List Value)) :
    Environment :=
  (Environment.empty p.config.environment).declare
    ((g.parametersOf name).zip (arguments.getD []))

/-- The arguments of a call. A nonterminal without parameters is called without arguments. -/
def Passing (p : Parser μ) (g : Grammar μ) (name : String) (arguments : List Expr)
    (env : Environment) (values : Option (List Value)) : Prop :=
  if (g.parametersOf name).isEmpty then values = none
  else ∃ vs, arguments.mapM (p.evaluate · env) = .ok vs ∧ values = some vs

/-- The value that a rule returns. -/
def Returning (p : Parser μ) (r : Rule μ) (env : Environment) (value : Option Value) : Prop :=
  match r.returns with
  | none => value = none
  | some e => ∃ v, p.evaluate e env = .ok v ∧ value = some v

/-- Symbols lead from an environment and a position to others. A conditional symbol stands for
the branch that is taken; without an alternative it may stand for nothing. -/
inductive Passes (p : Parser μ) (g : Grammar μ) :
    List (Symbol μ) → Environment → Nat → Environment → Nat → Prop where
  | nil {env : Environment} {i : Nat} : Passes p g [] env i env i
  | terminal {t : Terminal μ} {notes : Annotations μ} {rest : List (Symbol μ)}
      {env env' : Environment} {i j k : Nat} :
      p.AllHold notes.pre i i env → t.matchAt p.input i = some j →
      p.AllHold notes.post i j (notes.bindScan p.input i j env) →
      Passes p g rest (notes.bindScan p.input i j env) j env' k →
      Passes p g (.terminal t notes :: rest) env i env' k
  | call {name : String} {arguments : List Expr} {notes : Annotations μ}
      {rest : List (Symbol μ)} {env inner env' : Environment} {i j k : Nat}
      {values : Option (List Value)} {r : Rule μ} {value : Option Value} :
      p.AllHold notes.pre i i env →
      p.Passing g name arguments (notes.bindCall i env) values →
      r ∈ g.rules → r.head = name → Passes p g r.body (p.entry g name values) i inner j →
      p.Returning r inner value →
      p.AllHold notes.post i j (notes.bindReturn value j (notes.bindCall i env)) →
      Passes p g rest (notes.bindReturn value j (notes.bindCall i env)) j env' k →
      Passes p g (.call name arguments notes :: rest) env i env' k
  | taken {condition : Expr} {body : Symbol μ} {notes : Annotations μ} {rest : List (Symbol μ)}
      {env env' : Environment} {i k : Nat} :
      p.evaluate.truth condition env = .ok true → Passes p g (body :: rest) env i env' k →
      Passes p g (.ifThen condition body notes :: rest) env i env' k
  | skipped {condition : Expr} {body : Symbol μ} {notes : Annotations μ} {rest : List (Symbol μ)}
      {env env' : Environment} {i k : Nat} :
      p.evaluate.truth condition env = .ok false → Passes p g rest env i env' k →
      Passes p g (.ifThen condition body notes :: rest) env i env' k
  | thenTaken {condition : Expr} {body otherwise : Symbol μ} {notes : Annotations μ}
      {rest : List (Symbol μ)} {env env' : Environment} {i k : Nat} :
      p.evaluate.truth condition env = .ok true → Passes p g (body :: rest) env i env' k →
      Passes p g (.ifThenElse condition body otherwise notes :: rest) env i env' k
  | elseTaken {condition : Expr} {body otherwise : Symbol μ} {notes : Annotations μ}
      {rest : List (Symbol μ)} {env env' : Environment} {i k : Nat} :
      p.evaluate.truth condition env = .ok false → Passes p g (otherwise :: rest) env i env' k →
      Passes p g (.ifThenElse condition body otherwise notes :: rest) env i env' k

/-- A nonterminal with its arguments derives the text from `left` to `right` and returns a
value. -/
def Derives (p : Parser μ) (g : Grammar μ) (name : String) (arguments : Option (List Value))
    (left right : Nat) (value : Option Value) : Prop :=
  ∃ r ∈ g.rules, r.head = name ∧
    ∃ env, p.Passes g r.body (p.entry g name arguments) left env right ∧ p.Returning r env value

end Parser

/-! ## Honest matchers -/

variable [Matcher μ]

/-- A matcher that announces how its matches start keeps to it: a match is empty only if it may
be, and any other match starts with a character that was announced. -/
def Matcher.Honest (input : Input) (m : μ) : Prop :=
  ∀ s, Matcher.first m = some s → ∀ i j, Matcher.matchAt m input i = some j →
    j = i ∧ Matcher.nullable m ∨ ∃ c, input.symbolAt? i = some c ∧ s.contains c

/-- All matchers that a grammar uses are honest about a text. -/
def Grammar.Honest (g : Grammar μ) (input : Input) : Prop :=
  ∀ m : μ, .custom m ∈ (g.rules.flatMap fun r => r.body.flatMap Symbol.terminals) →
    Matcher.Honest input m

namespace Terminal

/-- What may come next where a terminal matches. -/
def lookahead (t : Terminal μ) : Lookahead := t.first.elim .anything .ofClass

/-- **A match starts as announced,** or it is empty and the terminal is nullable. -/
theorem admits_of_matchAt {input : Input} {t : Terminal μ} {i j : Nat}
    (hm : ∀ m, t = .custom m → Matcher.Honest input m) (h : t.matchAt input i = some j) :
    t.lookahead.admits (input.symbolAt? i) ∨ t.nullable ∧ j = i := by
  cases t with
  | epsilon =>
    rw [matchAt] at h
    exact Or.inr ⟨rfl, (Option.some.inj h).symm⟩
  | char c =>
    rw [matchAt] at h
    split at h
    · rename_i hc
      rw [hc]
      exact Or.inl (Lookahead.admits_ofClass.mpr (CharClass.contains_single.mpr rfl))
    · exact absurd h (by simp)
  | oneOf s =>
    rw [matchAt] at h
    split at h
    · rename_i hc
      obtain ⟨c, hsymbol, hc⟩ := (Option.any_eq_true _ _).mp hc
      rw [hsymbol]
      exact Or.inl (Lookahead.admits_ofClass.mpr hc)
    · exact absurd h (by simp)
  | literal text =>
    rw [matchAt] at h
    unfold lookahead first nullable
    dsimp only
    rw [← String.toList_eq_nil_iff.trans String.isEmpty_iff.symm]
    cases htext : text.toList with
    | nil =>
      rw [htext, matchChars] at h
      exact Or.inr ⟨rfl, (Option.some.inj h).symm⟩
    | cons c cs =>
      rw [htext, matchChars] at h
      split at h
      · rename_i hc
        rw [hc]
        exact Or.inl (Lookahead.admits_ofClass.mpr (CharClass.contains_single.mpr rfl))
      · exact absurd h (by simp)
  | custom m =>
    rw [matchAt] at h
    unfold lookahead first nullable
    dsimp only
    cases hfirst : Matcher.first m with
    | none => exact Or.inl Lookahead.admits_anything
    | some s =>
      rcases hm m rfl s hfirst i j h with ⟨hj, hnull⟩ | ⟨c, hsymbol, hc⟩
      · exact Or.inr ⟨hnull, hj⟩
      · rw [hsymbol]
        exact Or.inl (Lookahead.admits_ofClass.mpr hc)

end Terminal

/-! ## Lookahead admits what can be derived -/

namespace Symbol

/-- The matchers of a symbol are honest about a text. -/
def Honest (input : Input) (s : Symbol μ) : Prop :=
  ∀ m : μ, .custom m ∈ s.terminals → Matcher.Honest input m

theorem Honest.ifThen {input : Input} {condition : Expr} {body : Symbol μ}
    {notes : Annotations μ} (h : (Symbol.ifThen condition body notes).Honest input) :
    body.Honest input := h

theorem Honest.thenBranch {input : Input} {condition : Expr} {body otherwise : Symbol μ}
    {notes : Annotations μ} (h : (Symbol.ifThenElse condition body otherwise notes).Honest input) :
    body.Honest input := fun m hm => h m (List.mem_append_left _ hm)

theorem Honest.elseBranch {input : Input} {condition : Expr} {body otherwise : Symbol μ}
    {notes : Annotations μ} (h : (Symbol.ifThenElse condition body otherwise notes).Honest input) :
    otherwise.Honest input := fun m hm => h m (List.mem_append_right _ hm)

end Symbol

theorem Grammar.Honest.of_mem {g : Grammar μ} {input : Input} (h : g.Honest input) {r : Rule μ}
    (hr : r ∈ g.rules) {s : Symbol μ} (hs : s ∈ r.body) : s.Honest input :=
  fun m hm => h m (List.mem_flatMap.mpr ⟨r, hr, List.mem_flatMap.mpr ⟨s, hs, hm⟩⟩)

namespace Parser

open FirstFollow

variable {p : Parser μ} {g : Grammar μ}

/-- **What symbols lead over starts as FIRST says,** or it is empty and the symbols are nullable. -/
theorem Passes.front_admitted (hg : g.Honest p.input) {symbols : List (Symbol μ)}
    {env env' : Environment} {i j : Nat} (h : p.Passes g symbols env i env' j)
    (hs : ∀ s ∈ symbols, s.Honest p.input) :
    ((ofGrammar g).restFirst symbols).admits (p.input.symbolAt? i) ∨
      (ofGrammar g).restNullable symbols ∧ j = i := by
  unfold restFirst restNullable
  induction h with
  | nil => exact Or.inr ⟨rfl, rfl⟩
  | @terminal t notes rest env env' i j k _ hmatch _ _ ih =>
    have ht : ∀ m, t = .custom m → Matcher.Honest p.input m := fun m hm =>
      hs _ List.mem_cons_self m (by simp [Symbol.terminals, hm])
    -- either the match starts as announced, or it is empty and what follows comes first
    have ih := ih fun s h => hs s (List.mem_cons_of_mem _ h)
    rw [admits_sequenceFirst_cons, sequenceNullable_cons]
    rcases Terminal.admits_of_matchAt ht hmatch with h | ⟨hnull, rfl⟩
    · exact Or.inl (Or.inl h)
    · rcases ih with h | ⟨hrest, hk⟩
      · exact Or.inl (Or.inr ⟨hnull, h⟩)
      · exact Or.inr ⟨⟨hnull, hrest⟩, hk⟩
  | @call name arguments notes rest env inner env' i j k values r value _ _ hr hname _ _ _ _
      ihbody ihrest =>
    have ihbody := ihbody fun s h => hg.of_mem hr h
    have ihrest := ihrest fun s h => hs s (List.mem_cons_of_mem _ h)
    rw [admits_sequenceFirst_cons, sequenceNullable_cons]
    rcases ihbody with h | ⟨hnull, rfl⟩
    · exact Or.inl (Or.inl (hname ▸ admits_first_of_body hr h))
    · -- a body that is empty makes its nonterminal nullable
      have hnull : (Symbol.call name arguments notes).nullable (ofGrammar g).nullable :=
        decide_eq_true (hname ▸ nullable_of_body hr hnull)
      rcases ihrest with h | ⟨hrest, hk⟩
      · exact Or.inl (Or.inr ⟨hnull, h⟩)
      · exact Or.inr ⟨⟨hnull, hrest⟩, hk⟩
  | @taken condition body notes rest env env' i k _ _ ih =>
    have ih := ih fun s h => (List.mem_cons.mp h).elim
      (fun h => h ▸ (hs _ List.mem_cons_self).ifThen) (fun h => hs s (List.mem_cons_of_mem _ h))
    rw [admits_sequenceFirst_cons, sequenceNullable_cons] at ih ⊢
    rcases ih with (h | ⟨_, h⟩) | ⟨⟨_, hrest⟩, hk⟩
    · exact Or.inl (Or.inl h)
    · exact Or.inl (Or.inr ⟨rfl, h⟩)
    · exact Or.inr ⟨⟨rfl, hrest⟩, hk⟩
  | @skipped condition body notes rest env env' i k _ _ ih =>
    have ih := ih fun s h => hs s (List.mem_cons_of_mem _ h)
    rw [admits_sequenceFirst_cons, sequenceNullable_cons]
    rcases ih with h | ⟨hrest, hk⟩
    · exact Or.inl (Or.inr ⟨rfl, h⟩)
    · exact Or.inr ⟨⟨rfl, hrest⟩, hk⟩
  | @thenTaken condition body otherwise notes rest env env' i k _ _ ih =>
    have ih := ih fun s h => (List.mem_cons.mp h).elim
      (fun h => h ▸ (hs _ List.mem_cons_self).thenBranch)
      (fun h => hs s (List.mem_cons_of_mem _ h))
    rw [admits_sequenceFirst_cons, sequenceNullable_cons] at ih ⊢
    simp only [Symbol.first, Symbol.nullable, Lookahead.admits_union, Bool.or_eq_true]
    rcases ih with (h | ⟨hnull, h⟩) | ⟨⟨hnull, hrest⟩, hk⟩
    · exact Or.inl (Or.inl (Or.inl h))
    · exact Or.inl (Or.inr ⟨Or.inl hnull, h⟩)
    · exact Or.inr ⟨⟨Or.inl hnull, hrest⟩, hk⟩
  | @elseTaken condition body otherwise notes rest env env' i k _ _ ih =>
    have ih := ih fun s h => (List.mem_cons.mp h).elim
      (fun h => h ▸ (hs _ List.mem_cons_self).elseBranch)
      (fun h => hs s (List.mem_cons_of_mem _ h))
    rw [admits_sequenceFirst_cons, sequenceNullable_cons] at ih ⊢
    simp only [Symbol.first, Symbol.nullable, Lookahead.admits_union, Bool.or_eq_true]
    rcases ih with (h | ⟨hnull, h⟩) | ⟨⟨hnull, hrest⟩, hk⟩
    · exact Or.inl (Or.inl (Or.inr h))
    · exact Or.inl (Or.inr ⟨Or.inr hnull, h⟩)
    · exact Or.inr ⟨⟨Or.inr hnull, hrest⟩, hk⟩

/-- **The lookahead set of a rest admits what comes next,** if FOLLOW of the head admits what
comes behind. -/
theorem Passes.lookahead_admits (hg : g.Honest p.input) {symbols : List (Symbol μ)}
    {env env' : Environment} {i j : Nat} {head : String} (h : p.Passes g symbols env i env' j)
    (hs : ∀ s ∈ symbols, s.Honest p.input)
    (hfollow : (lookup (ofGrammar g).follow head).admits (p.input.symbolAt? j)) :
    ((ofGrammar g).lookahead head symbols).admits (p.input.symbolAt? i) := by
  unfold lookahead
  rcases h.front_admitted hg hs with hfirst | ⟨hnull, rfl⟩
  · split
    · exact Lookahead.admits_union.mpr (Or.inl hfirst)
    · exact hfirst
  · rw [if_pos hnull]
    exact Lookahead.admits_union.mpr (Or.inr hfollow)

end Parser

/-! ## What can be left of a rule -/

/-- Symbols that can be left of a body: a rest of it, or one whose first symbol was replaced by a
branch. -/
inductive Remainder (body : List (Symbol μ)) : List (Symbol μ) → Prop where
  | whole : Remainder body body
  | rest {s : Symbol μ} {rest : List (Symbol μ)} :
      Remainder body (s :: rest) → Remainder body rest
  | taken {condition : Expr} {s : Symbol μ} {notes : Annotations μ} {rest : List (Symbol μ)} :
      Remainder body (.ifThen condition s notes :: rest) → Remainder body (s :: rest)
  | thenTaken {condition : Expr} {s t : Symbol μ} {notes : Annotations μ}
      {rest : List (Symbol μ)} :
      Remainder body (.ifThenElse condition s t notes :: rest) → Remainder body (s :: rest)
  | elseTaken {condition : Expr} {s t : Symbol μ} {notes : Annotations μ}
      {rest : List (Symbol μ)} :
      Remainder body (.ifThenElse condition s t notes :: rest) → Remainder body (t :: rest)

omit [Matcher μ] in
/-- What is left comes from a symbol of the body with what stands behind it. -/
theorem Remainder.exists_suffix {body : List (Symbol μ)} {s' : Symbol μ} {rest : List (Symbol μ)}
    (h : Remainder body (s' :: rest)) :
    ∃ s, s :: rest <:+ body ∧ (∀ a ∈ s'.references, a ∈ s.references) ∧
      ∀ t ∈ s'.terminals, t ∈ s.terminals := by
  generalize hsymbols : s' :: rest = symbols at h
  induction h generalizing s' rest with
  | whole => exact ⟨s', hsymbols ▸ List.suffix_refl _, fun _ h => h, fun _ h => h⟩
  | @rest s rest' _ ih =>
    obtain ⟨t, hsuffix, -, -⟩ := ih rfl
    rw [← hsymbols] at hsuffix
    exact ⟨s', (List.suffix_cons ..).trans hsuffix, fun _ h => h, fun _ h => h⟩
  | @taken condition s notes rest' _ ih =>
    injection hsymbols with hs hrest
    subst hs hrest
    obtain ⟨u, hsuffix, hreferences, hterminals⟩ := ih rfl
    exact ⟨u, hsuffix, hreferences, hterminals⟩
  | @thenTaken condition s t notes rest' _ ih =>
    injection hsymbols with hs hrest
    subst hs hrest
    obtain ⟨u, hsuffix, hreferences, hterminals⟩ := ih rfl
    refine ⟨u, hsuffix, fun a ha => hreferences a ?_, fun a ha => hterminals a ?_⟩
    · simp only [Symbol.references, Symbol.calls, List.map_append, List.mem_append] at ha ⊢
      exact Or.inl ha
    · exact List.mem_append_left _ ha
  | @elseTaken condition s t notes rest' _ ih =>
    injection hsymbols with hs hrest
    subst hs hrest
    obtain ⟨u, hsuffix, hreferences, hterminals⟩ := ih rfl
    refine ⟨u, hsuffix, fun a ha => hreferences a ?_, fun a ha => hterminals a ?_⟩
    · simp only [Symbol.references, Symbol.calls, List.map_append, List.mem_append] at ha ⊢
      exact Or.inr ha
    · exact List.mem_append_right _ ha

omit [Matcher μ] in
theorem Remainder.suffix {body rest : List (Symbol μ)} {s : Symbol μ}
    (h : Remainder body (s :: rest)) : rest <:+ body := by
  obtain ⟨t, hsuffix, -⟩ := h.exists_suffix
  exact (List.suffix_cons ..).trans hsuffix

end GeneralLL
