import GeneralLL.Proofs.Environments
import GeneralLL.Proofs.Licences
import Mathlib.Data.List.Flatten

/-!
# Names that are declared once

Where no rule declares a name twice, nothing is ever shadowed (`Grammar.Unshadowed`). Then an
environment can be told from its bindings in the order of declaration: the names say which
symbols have declared them, and so where each frame ends (`Lays.inj`).

**So environments that flatten to the same are the same,** if they belong to threads at one
slot of one call (`flatten_thread_inj`), or to callers at one slot of one call
(`flatten_caller_inj`).
-/

namespace GeneralLL

open SlotGraph

/-! ## What a rule declares -/

namespace Annotations

variable {μ : Type} (notes : Annotations μ)

/-- The names of the frame that a labelled terminal declares. -/
def scanFrames : List (List String) :=
  match notes.label with
  | none => []
  | some x => [[Expr.leftExtentName x, Expr.rightExtentName x, x]]

/-- The names of the frame that a labelled call declares before its arguments. -/
def callFrames : List (List String) :=
  match notes.label with
  | none => []
  | some x => [[Expr.leftExtentName x]]

/-- The names of the frame that a labelled call declares with its result. -/
def returnFrames : List (List String) :=
  match notes.label with
  | none => []
  | some x => [[x, Expr.rightExtentName x]]

end Annotations

namespace Symbol

variable {μ : Type}

/-- The names that a symbol declares, whichever branches are taken. -/
def declares : Symbol μ → List String
  | terminal _ notes => notes.scanFrames.flatten
  | call _ _ notes => (notes.callFrames ++ notes.returnFrames).flatten
  | ifThen _ body _ => body.declares
  | ifThenElse _ body otherwise _ => body.declares ++ otherwise.declares

/-- A symbol lays frames with these names over an environment when it is crossed. -/
inductive Lays : Symbol μ → List (List String) → Prop where
  | terminal {t : Terminal μ} {notes : Annotations μ} : Lays (.terminal t notes) notes.scanFrames
  | call {name : String} {arguments : List Expr} {notes : Annotations μ} :
      Lays (.call name arguments notes) (notes.callFrames ++ notes.returnFrames)
  | taken {condition : Expr} {body : Symbol μ} {notes : Annotations μ} {σ : List (List String)} :
      Lays body σ → Lays (.ifThen condition body notes) σ
  | skipped {condition : Expr} {body : Symbol μ} {notes : Annotations μ} :
      Lays (.ifThen condition body notes) []
  | thenTaken {condition : Expr} {body otherwise : Symbol μ} {notes : Annotations μ}
      {σ : List (List String)} :
      Lays body σ → Lays (.ifThenElse condition body otherwise notes) σ
  | elseTaken {condition : Expr} {body otherwise : Symbol μ} {notes : Annotations μ}
      {σ : List (List String)} :
      Lays otherwise σ → Lays (.ifThenElse condition body otherwise notes) σ

theorem declares_of_branch {b : Symbol μ} :
    ∀ {s : Symbol μ}, b ∈ s.branches → b.declares.Sublist s.declares
  | .terminal .., h => List.mem_singleton.mp h ▸ List.Sublist.refl _
  | .call .., h => List.mem_singleton.mp h ▸ List.Sublist.refl _
  | .ifThen _ body _, h => declares_of_branch (s := body) h
  | .ifThenElse _ body otherwise _, h => by
    rcases List.mem_append.mp h with h | h
    · exact (declares_of_branch h).trans (List.sublist_append_left _ _)
    · exact (declares_of_branch h).trans (List.sublist_append_right _ _)

theorem Lays.sublist {s : Symbol μ} {σ : List (List String)} (h : s.Lays σ) :
    σ.flatten.Sublist s.declares := by
  induction h with
  | terminal | call => exact List.Sublist.refl _
  | taken _ ih => exact ih
  | skipped => exact List.nil_sublist _
  | thenTaken _ ih => exact ih.trans (List.sublist_append_left _ _)
  | elseTaken _ ih => exact ih.trans (List.sublist_append_right _ _)

/-- No frame is empty. -/
theorem Lays.eq_nil {s : Symbol μ} {σ : List (List String)} (h : s.Lays σ) :
    σ.flatten = [] → σ = [] := by
  induction h with
  | @terminal t notes =>
    unfold Annotations.scanFrames
    cases notes.label <;> simp
  | @call name arguments notes =>
    unfold Annotations.callFrames Annotations.returnFrames
    cases notes.label <;> simp
  | taken _ ih | thenTaken _ ih | elseTaken _ ih => exact ih
  | skipped => exact fun _ => rfl

/-- Symbols that share no name lay the same names only if they lay none. -/
theorem Lays.eq_of_disjoint {s s' : Symbol μ} {σ σ' : List (List String)}
    (hdisjoint : ∀ a ∈ s.declares, ∀ b ∈ s'.declares, a ≠ b) (h : s.Lays σ) (h' : s'.Lays σ')
    (heq : σ.flatten = σ'.flatten) : σ = σ' := by
  have hnil : σ.flatten = [] := List.eq_nil_iff_forall_not_mem.mpr fun x hx =>
    hdisjoint x (h.sublist.subset hx) x (h'.sublist.subset (heq ▸ hx)) rfl
  rw [h.eq_nil hnil, h'.eq_nil (heq ▸ hnil)]

/-- **The names tell the frames** that a symbol has laid, if it declares none twice. -/
theorem Lays.inj {s : Symbol μ} {σ σ' : List (List String)} (hs : s.declares.Nodup)
    (h : s.Lays σ) (h' : s.Lays σ') (heq : σ.flatten = σ'.flatten) : σ = σ' := by
  induction h generalizing σ' with
  | terminal =>
    cases h' with
    | terminal => rfl
  | call =>
    cases h' with
    | call => rfl
  | taken hbody ih =>
    cases h' with
    | taken hbody' => exact ih hs hbody' heq
    | skipped => exact hbody.eq_nil heq
  | skipped =>
    cases h' with
    | taken hbody' => exact (hbody'.eq_nil heq.symm).symm
    | skipped => rfl
  | thenTaken hbody ih =>
    obtain ⟨hthen, -, hdisjoint⟩ := List.nodup_append.mp hs
    cases h' with
    | thenTaken hbody' => exact ih hthen hbody' heq
    | elseTaken hother => exact hbody.eq_of_disjoint hdisjoint hother heq
  | elseTaken hother ih =>
    obtain ⟨-, helse, hdisjoint⟩ := List.nodup_append.mp hs
    cases h' with
    | elseTaken hother' => exact ih helse hother' heq
    | thenTaken hbody => exact (hbody.eq_of_disjoint hdisjoint hother heq.symm).symm

end Symbol

/-- Symbols lay frames with these names over an environment. -/
inductive Lays {μ : Type} : List (Symbol μ) → List (List String) → Prop where
  | nil : Lays [] []
  | cons {s : Symbol μ} {rest : List (Symbol μ)} {σ τ : List (List String)} :
      s.Lays σ → Lays rest τ → Lays (s :: rest) (σ ++ τ)

/-- The names that a rule declares, those of the parameters included. -/
def Grammar.declares {μ : Type} (g : Grammar μ) (r : Rule μ) : List String :=
  g.parametersOf r.head ++ r.body.flatMap Symbol.declares

/-- No rule declares a name twice. -/
def Grammar.Unshadowed {μ : Type} (g : Grammar μ) : Prop := ∀ r ∈ g.rules, (g.declares r).Nodup

instance {μ : Type} (g : Grammar μ) : Decidable g.Unshadowed := List.decidableBAll _ _

section

variable {μ : Type}

/-- A symbol lays what its branch lays. -/
theorem Lays.of_branch {s b : Symbol μ} {rest : List (Symbol μ)} {σ : List (List String)}
    (hb : ∀ {τ}, b.Lays τ → s.Lays τ) (h : Lays (b :: rest) σ) : Lays (s :: rest) σ := by
  cases h with
  | cons hbranch hrest => exact .cons (hb hbranch) hrest

theorem Lays.sublist {symbols : List (Symbol μ)} {σ : List (List String)} (h : Lays symbols σ) :
    σ.flatten.Sublist (symbols.flatMap Symbol.declares) := by
  induction h with
  | nil => exact List.Sublist.refl _
  | cons hs _ ih =>
    rw [List.flatten_append, List.flatMap_cons]
    exact hs.sublist.append ih

/-- Lists that are put together of the same two sets are put together alike. -/
theorem append_inj_of_disjoint {l₁ l₁' l₂ l₂' d₁ d₂ : List String}
    (hdisjoint : ∀ a ∈ d₁, ∀ b ∈ d₂, a ≠ b) (h₁ : l₁ ⊆ d₁) (h₁' : l₁' ⊆ d₁) (h₂ : l₂ ⊆ d₂)
    (h₂' : l₂' ⊆ d₂) (heq : l₁ ++ l₂ = l₁' ++ l₂') : l₁ = l₁' ∧ l₂ = l₂' := by
  have hfilter {l m : List String} (hl : l ⊆ d₁) (hm : m ⊆ d₂) :
      (l ++ m).filter (· ∈ d₁) = l := by
    rw [List.filter_append, List.filter_eq_self.mpr fun a ha => decide_eq_true (hl ha),
      List.filter_eq_nil_iff.mpr fun b hb hmem =>
        hdisjoint b (of_decide_eq_true hmem) b (hm hb) rfl, List.append_nil]
  have hsame : l₁ = l₁' := by
    rw [← hfilter h₁ h₂, heq, hfilter h₁' h₂']
  subst hsame
  exact ⟨rfl, List.append_cancel_left heq⟩

/-- **The names tell the frames** that symbols have laid, if they declare none twice. -/
theorem Lays.inj {symbols : List (Symbol μ)} {σ σ' : List (List String)}
    (hsymbols : (symbols.flatMap Symbol.declares).Nodup) (h : Lays symbols σ)
    (h' : Lays symbols σ') (heq : σ.flatten = σ'.flatten) : σ = σ' := by
  induction h generalizing σ' with
  | nil =>
    cases h' with
    | nil => rfl
  | cons hs hrest ih =>
    cases h' with
    | cons hs' hrest' =>
      rw [List.flatMap_cons, List.nodup_append] at hsymbols
      obtain ⟨hfirst, hothers, hdisjoint⟩ := hsymbols
      rw [List.flatten_append, List.flatten_append] at heq
      obtain ⟨heq, heq'⟩ := append_inj_of_disjoint hdisjoint hs.sublist.subset
        hs'.sublist.subset hrest.sublist.subset hrest'.sublist.subset heq
      rw [hs.inj hfirst hs' heq, ih hothers hrest' heq']

end

/-! ## Environments that grow -/

namespace Environment

/-- The bindings in the order of declaration. -/
def listing (env : Environment) : List Binding := env.frames.reverse.flatten

/-- Frames with these names were laid over an environment. -/
structure Grows (env : Environment) (σ : List (List String)) (env' : Environment) : Prop where
  /-- The environment before is made of frames. -/
  before : env.representation = .frames
  /-- The environment after is made of frames. -/
  after : env'.representation = .frames
  /-- The new frames have the names of `σ`, and stand in front of the old ones. -/
  frames : ∃ l : List (List Binding), env'.frames = l.reverse ++ env.frames ∧
    l.map (List.map Prod.fst) = σ

variable {env env' env'' : Environment} {σ τ : List (List String)}

theorem Grows.refl (h : env.representation = .frames) : env.Grows [] env :=
  ⟨h, h, [], rfl, rfl⟩

theorem Grows.trans (h : env.Grows σ env') (h' : env'.Grows τ env'') :
    env.Grows (σ ++ τ) env'' := by
  obtain ⟨l, hl, rfl⟩ := h.frames
  obtain ⟨l', hl', rfl⟩ := h'.frames
  refine ⟨h.before, h'.after, l ++ l', ?_, List.map_append⟩
  rw [hl', hl, List.reverse_append, List.append_assoc]

theorem Grows.declare (h : env.representation = .frames) {bindings : List Binding}
    {names : List String} (hne : bindings ≠ []) (hnames : bindings.map Prod.fst = names) :
    env.Grows [names] (env.declare bindings) := by
  subst hnames
  refine ⟨h, (representation_declare env bindings).trans h, [bindings], ?_, rfl⟩
  rw [Environment.declare, if_neg (by simpa using hne), h]
  rfl

theorem listing_declare (h : env.representation = .frames) (bindings : List Binding) :
    (env.declare bindings).listing = env.listing ++ bindings := by
  cases bindings with
  | nil => rw [declare_nil, List.append_nil]
  | cons b rest =>
    rw [declare, if_neg (by simp), h]
    unfold listing
    dsimp only
    rw [List.reverse_cons, List.flatten_append, List.flatten_singleton]

/-- What has grown lists the bindings of the frames behind those there were. -/
theorem Grows.exists_listing (h : env.Grows σ env') :
    ∃ l : List (List Binding), env'.frames = l.reverse ++ env.frames ∧
      l.map (List.map Prod.fst) = σ ∧ env'.listing = env.listing ++ l.flatten := by
  obtain ⟨l, hl, hσ⟩ := h.frames
  refine ⟨l, hl, hσ, ?_⟩
  unfold listing
  rw [hl, List.reverse_append, List.reverse_reverse, List.flatten_append]

theorem Grows.names (h : env.Grows σ env') :
    env'.listing.map Prod.fst = env.listing.map Prod.fst ++ σ.flatten := by
  obtain ⟨l, -, rfl, hlisting⟩ := h.exists_listing
  rw [hlisting, List.map_append, List.map_flatten]

/-- What has grown in the same way is known by its listing. -/
theorem Grows.eq_of_listing (h : env.Grows σ env') (h' : env.Grows σ env'')
    (heq : env'.listing = env''.listing) : env' = env'' := by
  obtain ⟨l, hl, hσ, hlisting⟩ := h.exists_listing
  obtain ⟨l', hl', hσ', hlisting'⟩ := h'.exists_listing
  rw [hlisting, hlisting'] at heq
  have hlengths (l : List (List Binding)) :
      l.map List.length = (l.map (List.map Prod.fst)).map List.length := by
    rw [List.map_map]
    exact List.map_congr_left fun frame _ => (List.length_map _).symm
  have hsame : l = l' := List.eq_iff_flatten_eq.mpr
    ⟨List.append_cancel_left heq, by rw [hlengths, hlengths, hσ, hσ']⟩
  have hframes : env'.frames = env''.frames := by rw [hl, hl', hsame]
  have hrepresentation := h.after.trans h'.after.symm
  cases env'
  cases env''
  rw [Environment.mk.injEq]
  exact ⟨hrepresentation, hframes⟩

/-- **Flattening forgets frames only,** where no name is bound twice. -/
theorem frames_flatten (hr : env.representation = .frames)
    (hnodup : (env.listing.map Prod.fst).Nodup) : env.flatten.frames.flatten = env.listing := by
  obtain ⟨r, frames⟩ := env
  obtain rfl : r = .frames := hr
  unfold listing at hnodup ⊢
  dsimp only at hnodup ⊢
  induction frames with
  | nil => rfl
  | cons frame rest ih =>
    have hcons : flatten ⟨.frames, frame :: rest⟩ = (flatten ⟨.frames, rest⟩).declare frame := rfl
    rw [List.reverse_cons, List.flatten_append, List.flatten_singleton] at hnodup ⊢
    have hrest : (rest.reverse.flatten.map Prod.fst).Nodup := by
      rw [List.map_append, List.nodup_append] at hnodup
      exact hnodup.1
    rw [hcons, (oneFrame_flatten rfl).frames_declare, ih hrest, foldl_overwrite_eq_append hnodup]

theorem listing_eq_of_flatten_eq (hr : env.representation = .frames)
    (hr' : env'.representation = .frames) (hnodup : (env.listing.map Prod.fst).Nodup)
    (hnodup' : (env'.listing.map Prod.fst).Nodup) (heq : env.flatten = env'.flatten) :
    env.listing = env'.listing := by
  rw [← frames_flatten hr hnodup, heq, frames_flatten hr' hnodup']

end Environment

namespace Annotations

variable {μ : Type} (notes : Annotations μ) {env : Environment}

theorem grows_bindScan (h : env.representation = .frames) (input : Input) (left right : Nat) :
    env.Grows notes.scanFrames (notes.bindScan input left right env) := by
  unfold scanFrames bindScan
  cases notes.label with
  | none => exact .refl h
  | some x => exact .declare h (List.cons_ne_nil _ _) rfl

theorem grows_bindCall (h : env.representation = .frames) (left : Nat) :
    env.Grows notes.callFrames (notes.bindCall left env) := by
  unfold callFrames bindCall
  cases notes.label with
  | none => exact .refl h
  | some x => exact .declare h (List.cons_ne_nil _ _) rfl

theorem grows_bindReturn (h : env.representation = .frames) (value : Option Value) (right : Nat) :
    env.Grows notes.returnFrames (notes.bindReturn value right env) := by
  unfold returnFrames bindReturn
  cases notes.label with
  | none => exact .refl h
  | some x => exact .declare h (List.cons_ne_nil _ _) rfl

/-- Calls from one slot at one position bind the same. -/
theorem listing_bindCall (left : Nat) :
    ∃ l, ∀ env : Environment, env.representation = .frames →
      (notes.bindCall left env).listing = env.listing ++ l := by
  unfold bindCall
  cases notes.label with
  | none => exact ⟨[], fun env _ => (List.append_nil _).symm⟩
  | some x => exact ⟨_, fun env h => Environment.listing_declare h _⟩

end Annotations

namespace Parser

variable {μ : Type} [Matcher μ] {p : Parser μ} {g : Grammar μ}

/-- **Symbols that lead to an environment lay frames over the one they started in.** -/
theorem Passes.grows {symbols : List (Symbol μ)} {env env' : Environment} {i j : Nat}
    (h : p.Passes g symbols env i env' j) :
    env.representation = .frames → ∃ σ, Lays symbols σ ∧ env.Grows σ env' := by
  induction h with
  | nil => exact fun hr => ⟨[], .nil, .refl hr⟩
  | @terminal t notes rest env env' i j k _ _ _ _ ih =>
    intro hr
    have hbind := notes.grows_bindScan hr p.input i j
    obtain ⟨τ, hlays, hgrows⟩ := ih hbind.after
    exact ⟨_, .cons .terminal hlays, hbind.trans hgrows⟩
  | @call name arguments notes rest env inner env' i j k values r value _ _ _ _ _ _ _ _ _ ih =>
    intro hr
    have hcall := notes.grows_bindCall hr i
    have hbind := hcall.trans (notes.grows_bindReturn hcall.after value j)
    obtain ⟨τ, hlays, hgrows⟩ := ih hbind.after
    exact ⟨_, .cons .call hlays, hbind.trans hgrows⟩
  | taken _ _ ih =>
    intro hr
    obtain ⟨σ, hlays, hgrows⟩ := ih hr
    exact ⟨σ, hlays.of_branch .taken, hgrows⟩
  | skipped _ _ ih =>
    intro hr
    obtain ⟨σ, hlays, hgrows⟩ := ih hr
    exact ⟨_, .cons .skipped hlays, hgrows⟩
  | thenTaken _ _ ih =>
    intro hr
    obtain ⟨σ, hlays, hgrows⟩ := ih hr
    exact ⟨σ, hlays.of_branch .thenTaken, hgrows⟩
  | elseTaken _ _ ih =>
    intro hr
    obtain ⟨σ, hlays, hgrows⟩ := ih hr
    exact ⟨σ, hlays.of_branch .elseTaken, hgrows⟩

/-- Symbols that declare no name twice lead to environments that are known by their listings. -/
theorem Passes.eq_of_listing {symbols : List (Symbol μ)} {env env₁ env₂ : Environment}
    {i i' j j' : Nat} (hsymbols : (symbols.flatMap Symbol.declares).Nodup)
    (hr : env.representation = .frames) (h₁ : p.Passes g symbols env i env₁ j)
    (h₂ : p.Passes g symbols env i' env₂ j') (heq : env₁.listing = env₂.listing) :
    env₁ = env₂ := by
  obtain ⟨σ, hσ, hgrows⟩ := h₁.grows hr
  obtain ⟨σ', hσ', hgrows'⟩ := h₂.grows hr
  have hnames : σ.flatten = σ'.flatten := by
    have hall := congrArg (List.map Prod.fst) heq
    rw [hgrows.names, hgrows'.names] at hall
    exact List.append_cancel_left hall
  obtain rfl := hσ.inj hsymbols hσ' hnames
  exact hgrows.eq_of_listing hgrows' heq

section

variable (hframes : p.config.environment = .frames)

include hframes

omit [Matcher μ] in
theorem representation_entry (name : String) (values : Option (List Value)) :
    (p.entry g name values).representation = .frames := by
  rw [entry, Environment.representation_declare, Environment.empty, hframes]

omit [Matcher μ] in
/-- The rules of a nonterminal start with parameters only. -/
theorem names_entry (name : String) (values : Option (List Value)) :
    ((p.entry g name values).listing.map Prod.fst).Sublist (g.parametersOf name) := by
  have hzip (names : List String) (values : List Value) :
      ((names.zip values).map Prod.fst).Sublist names := by
    induction names generalizing values with
    | nil => exact List.nil_sublist _
    | cons name rest ih =>
      cases values with
      | nil => exact List.nil_sublist _
      | cons v vs => exact (ih vs).cons_cons name
  have hempty : (Environment.empty p.config.environment).representation = .frames := hframes
  rw [entry, Environment.listing_declare hempty]
  exact hzip _ _

/-- Behind some symbols of a rule no more is bound than parameters and what they declare. -/
theorem Passes.names {r : Rule μ} {values : Option (List Value)} {symbols : List (Symbol μ)}
    {env : Environment} {i j : Nat}
    (h : p.Passes g symbols (p.entry g r.head values) i env j) :
    env.representation = .frames ∧ (env.listing.map Prod.fst).Sublist
      (g.parametersOf r.head ++ symbols.flatMap Symbol.declares) := by
  obtain ⟨σ, hσ, hgrows⟩ := h.grows (representation_entry hframes _ _)
  refine ⟨hgrows.after, ?_⟩
  rw [hgrows.names]
  exact (names_entry hframes _ _).append hσ.sublist

variable (hunshadowed : g.Unshadowed)

include hunshadowed

omit [Matcher μ] hframes in
/-- The front of a rule declares no name twice. -/
theorem nodup_front {r : Rule μ} (hr : r ∈ g.rules) (i : Nat) :
    (g.parametersOf r.head ++ (r.body.take i).flatMap Symbol.declares).Nodup :=
  ((List.Sublist.refl _).append ((List.take_sublist i r.body).flatMap _)).nodup
    (hunshadowed r hr)

omit [Matcher μ] hframes in
theorem nodup_take {r : Rule μ} (hr : r ∈ g.rules) (i : Nat) :
    ((r.body.take i).flatMap Symbol.declares).Nodup :=
  (List.nodup_append.mp (nodup_front hunshadowed hr i)).2.1

variable [DecidableEq μ] (hg : SlotGraph.ofGrammar g = .ok p.graph)

include hg

/-- **Threads that differ in flattened-out frames only are the same.** -/
theorem flatten_thread_inj {t t' : Thread} (ht : p.Entails (.posted t))
    (ht' : p.Entails (.posted t')) (heq : t.flatten = t'.flatten) : t = t' := by
  obtain ⟨k, r, i, symbols, hproceeds⟩ := permitted_of_entails hg ht
  obtain ⟨k', r', i', symbols', hproceeds'⟩ := permitted_of_entails hg ht'
  obtain ⟨slot, position, call, part, env⟩ := t
  obtain ⟨slot', position', call', part', env'⟩ := t'
  obtain ⟨rfl, rfl, rfl, rfl, henv⟩ := Thread.mk.inj heq
  -- one slot is at one place of one rule
  have hplace := hproceeds.before.lies
  have hplace' := hproceeds'.before.lies
  obtain rfl : k = k' := hplace.rule.symm.trans hplace'.rule
  obtain rfl : i = i' := hplace.position.symm.trans hplace'.position
  obtain rfl := Option.some.inj (hproceeds.rule.symm.trans hproceeds'.rule)
  have hr := List.mem_of_getElem? hproceeds.rule
  obtain ⟨hrep, hnames⟩ := hproceeds.passes.names hframes
  obtain ⟨hrep', hnames'⟩ := hproceeds'.passes.names hframes
  have hnodup := nodup_front hunshadowed hr i
  have hlisting := Environment.listing_eq_of_flatten_eq hrep hrep' (hnames.nodup hnodup)
    (hnames'.nodup hnodup) henv
  have hsame : env = env' := hproceeds.passes.eq_of_listing (nodup_take hunshadowed hr i)
    (representation_entry hframes _ _) hproceeds'.passes hlisting
  rw [hsame]

omit hg in
/-- What a caller has bound is declared by its rule up to the call. -/
theorem Attends.names {k i : Nat} {r : Rule μ} {s : Symbol μ} {env : Environment}
    {arguments : List Expr} {notes : Annotations μ} {key : Stack.Key} {c : Caller}
    (h : p.Attends g k r i s env arguments notes key c) :
    c.env.representation = .frames ∧ (c.env.listing.map Prod.fst).Nodup := by
  obtain ⟨hrep, hnames⟩ := h.passes.names hframes
  have hcall := notes.grows_bindCall hrep key.position
  rw [← h.env_eq] at hcall
  refine ⟨hcall.after, ?_⟩
  have hdeclared : notes.callFrames.flatten.Sublist s.declares := by
    refine List.Sublist.trans ?_ (Symbol.declares_of_branch h.branch)
    rw [Symbol.declares, List.flatten_append]
    exact List.sublist_append_left _ _
  have hfront := nodup_front hunshadowed (List.mem_of_getElem? h.rule) (i + 1)
  rw [List.take_add_one, h.symbol, Option.toList_some, List.flatMap_append, List.flatMap_singleton,
    ← List.append_assoc] at hfront
  rw [hcall.names]
  exact (hnames.append hdeclared).nodup hfront

/-- **Callers that differ in flattened-out frames only are the same.** -/
theorem flatten_caller_inj {key : Stack.Key} {c c' : Caller} (hc : p.Entails (.awaited key c))
    (hc' : p.Entails (.awaited key c')) (heq : c.flatten = c'.flatten) : c = c' := by
  obtain ⟨k, r, i, s, env, arguments, notes, hattends⟩ := permitted_of_entails hg hc
  obtain ⟨k', r', i', s', env', arguments', notes', hattends'⟩ := permitted_of_entails hg hc'
  obtain ⟨hrep, hnodup⟩ := hattends.names hframes hunshadowed
  obtain ⟨hrep', hnodup'⟩ := hattends'.names hframes hunshadowed
  obtain ⟨call, slot, part, cenv⟩ := c
  obtain ⟨call', slot', part', cenv'⟩ := c'
  obtain ⟨rfl, rfl, rfl, henv⟩ := Caller.mk.inj heq
  -- one slot has one action, which leads behind the symbol
  obtain ⟨-, -, rfl, hdest⟩ := Action.call.inj (hattends.action.symm.trans hattends'.action)
  obtain ⟨rfl, rfl, hi⟩ := place_inj hg hattends.rule hattends'.rule
    (List.getElem?_eq_some_iff.mp hattends.symbol).1
    (List.getElem?_eq_some_iff.mp hattends'.symbol).1 hdest
  obtain rfl := Nat.succ.inj hi
  have hlisting := Environment.listing_eq_of_flatten_eq hrep hrep' hnodup hnodup' henv
  obtain ⟨l, hl⟩ := notes.listing_bindCall key.position
  have hbefore := hattends.passes.names hframes
  have hbefore' := hattends'.passes.names hframes
  obtain rfl : cenv = notes.bindCall key.position env := hattends.env_eq
  obtain rfl : cenv' = notes.bindCall key.position env' := hattends'.env_eq
  rw [hl env hbefore.1, hl env' hbefore'.1] at hlisting
  have hsame : env = env' := hattends.passes.eq_of_listing
    (nodup_take hunshadowed (List.mem_of_getElem? hattends.rule) i)
    (representation_entry hframes _ _) hattends'.passes (List.append_cancel_right hlisting)
  rw [hsame]

end

end Parser

end GeneralLL
