import GeneralLL.FirstFollow
import GeneralLL.Proofs.CharClass
import GeneralLL.Proofs.Numbering
import GeneralLL.Proofs.Reachability
import Mathlib.Data.List.Perm.Subperm

/-!
# The sets of a grammar are the least that are closed under its rules

Lookahead may reject an alternative only if it cannot succeed, so the sets have to
admit at least what the rules say:

* the head of a rule with a nullable body is nullable;
* FIRST of a head has the features that FIRST of a body has;
* FOLLOW of a name has the features of what can start behind the name in a rule and,
  where nothing has to stand behind it, those of FOLLOW of the head. FOLLOW of the start
  symbol has those of the end of the text.

And **they have no others** (`nullableNames_least`, `holds_first_least`,
`holds_follow_least`): what holds of all names that have a feature because of the rules
holds of all that have it.
-/

namespace GeneralLL

variable {μ : Type} [Matcher μ]

/-! ## Symbols -/

namespace Symbol

/-- A symbol shows a feature with its own terminals, or with a name in it of which it is known. -/
def Shows (F : Lookahead.Feature) (T : String → Prop) (s : Symbol μ) : Prop :=
  F.Holds (s.first fun _ => .empty) ∨ ∃ a ∈ s.references, T a

theorem holds_first_iff (F : Lookahead.Feature) {sets : String → Lookahead} {s : Symbol μ} :
    F.Holds (s.first sets) ↔ s.Shows F fun a => F.Holds (sets a) := by
  unfold Shows
  induction s with
  | terminal t notes => simp [first, references, calls]
  | call name arguments notes => simp [first, references, calls, F.empty]
  | ifThen condition body notes ih => simpa [first, references, calls] using ih
  | ifThenElse condition body otherwise notes ihb iho =>
    simp only [first, references, calls, F.union, List.map_append, List.mem_append] at ihb iho ⊢
    rw [ihb, iho]
    constructor
    · intro hunion
      rcases hunion with (h | ⟨a, ha, h⟩) | (h | ⟨a, ha, h⟩)
      · exact Or.inl (Or.inl h)
      · exact Or.inr ⟨a, Or.inl ha, h⟩
      · exact Or.inl (Or.inr h)
      · exact Or.inr ⟨a, Or.inr ha, h⟩
    · intro hparts
      rcases hparts with (h | h) | ⟨a, ha | ha, h⟩
      · exact Or.inl (Or.inl h)
      · exact Or.inr (Or.inl h)
      · exact Or.inl (Or.inr ⟨a, ha, h⟩)
      · exact Or.inr (Or.inr ⟨a, ha, h⟩)

end Symbol

namespace FirstFollow

/-! ## Sequences -/

/-- The front of a sequence shows a feature. -/
def FrontShows (F : Lookahead.Feature) (names : List String) (T : String → Prop)
    (body : List (Symbol μ)) : Prop := ∃ s ∈ front names body, s.Shows F T

theorem FrontShows.mono {F : Lookahead.Feature} {names : List String} {T T' : String → Prop}
    {body : List (Symbol μ)} (h : FrontShows F names T body) (hT : ∀ a, T a → T' a) :
    FrontShows F names T' body := by
  obtain ⟨s, hs, hshows⟩ := h
  refine ⟨s, hs, hshows.imp_right ?_⟩
  intro hname
  obtain ⟨a, ha, h⟩ := hname
  exact ⟨a, ha, hT a h⟩

theorem holds_sequenceFirst_iff (F : Lookahead.Feature) {names : List String}
    {sets : String → Lookahead} {body : List (Symbol μ)} :
    F.Holds (sequenceFirst names sets body) ↔
      FrontShows F names (fun a => F.Holds (sets a)) body := by
  rw [sequenceFirst, F.holds_foldl_union, or_iff_right F.empty]
  simp only [Symbol.holds_first_iff, FrontShows]

theorem sequenceNullable_cons {names : List String} {s : Symbol μ} {rest : List (Symbol μ)} :
    sequenceNullable names (s :: rest) ↔ s.nullable names ∧ sequenceNullable names rest := by
  simp [sequenceNullable]

theorem sequenceNullable_append {names : List String} {u v : List (Symbol μ)} :
    sequenceNullable names (u ++ v) ↔ sequenceNullable names u ∧ sequenceNullable names v := by
  simp [sequenceNullable]

theorem frontShows_cons {F : Lookahead.Feature} {names : List String} {T : String → Prop}
    {s : Symbol μ} {rest : List (Symbol μ)} :
    FrontShows F names T (s :: rest) ↔
      s.Shows F T ∨ s.nullable names ∧ FrontShows F names T rest := by
  rw [FrontShows, front]
  by_cases h : s.nullable names <;> simp [h, FrontShows]

/-- A sequence starts with what its first symbol starts with and, if that is nullable, with what
the rest starts with. -/
theorem holds_sequenceFirst_cons (F : Lookahead.Feature) {names : List String}
    {sets : String → Lookahead} {s : Symbol μ} {rest : List (Symbol μ)} :
    F.Holds (sequenceFirst names sets (s :: rest)) ↔
      F.Holds (s.first sets) ∨ s.nullable names ∧ F.Holds (sequenceFirst names sets rest) := by
  rw [holds_sequenceFirst_iff, holds_sequenceFirst_iff, Symbol.holds_first_iff, frontShows_cons]

/-- An empty sequence starts with nothing. -/
theorem not_holds_sequenceFirst_nil (F : Lookahead.Feature) {names : List String}
    {sets : String → Lookahead} :
    ¬F.Holds (sequenceFirst names sets ([] : List (Symbol μ))) := F.empty

/-- A sequence starts with what its first part starts with and, if that is nullable, with what
the second part starts with. -/
theorem holds_sequenceFirst_append (F : Lookahead.Feature) {names : List String}
    {sets : String → Lookahead} {u v : List (Symbol μ)} :
    F.Holds (sequenceFirst names sets (u ++ v)) ↔
      F.Holds (sequenceFirst names sets u) ∨
        sequenceNullable names u ∧ F.Holds (sequenceFirst names sets v) := by
  induction u with
  | nil => simp [not_holds_sequenceFirst_nil, sequenceNullable]
  | cons s rest ih =>
    rw [List.cons_append, holds_sequenceFirst_cons, holds_sequenceFirst_cons, ih,
      sequenceNullable_cons, and_or_left, or_assoc, and_assoc]

theorem admits_sequenceFirst_cons {names : List String} {sets : String → Lookahead}
    {s : Symbol μ} {rest : List (Symbol μ)} {next : Option Char} :
    (sequenceFirst names sets (s :: rest)).admits next ↔
      (s.first sets).admits next ∨
        s.nullable names ∧ (sequenceFirst names sets rest).admits next :=
  holds_sequenceFirst_cons (.admitting next)

omit [Matcher μ] in
/-- Every symbol of a sequence is found with what stands behind it. -/
theorem mem_withRests_iff {s : Symbol μ} {rest : List (Symbol μ)} {body : List (Symbol μ)} :
    (s, rest) ∈ withRests body ↔ s :: rest <:+ body := by
  induction body with
  | nil => simp [withRests]
  | cons t body ih =>
    rw [withRests, List.mem_cons, ih, List.suffix_cons_iff, Prod.mk.injEq, List.cons.injEq]

/-! ## Nullable names -/

/-- One rule of a round. -/
def addHead (names : List String) (r : Rule μ) : List String :=
  if r.head ∉ names ∧ sequenceNullable names r.body then names ++ [r.head] else names

theorem nullableRound_cons (r : Rule μ) (rules : List (Rule μ)) (names : List String) :
    nullableRound (r :: rules) names = nullableRound rules (addHead names r) := rfl

theorem length_le_nullableRound (rules : List (Rule μ)) :
    ∀ names : List String, names.length ≤ (nullableRound rules names).length := by
  induction rules with
  | nil => exact fun _ => Nat.le_refl _
  | cons r rest ih =>
    intro names
    rw [nullableRound_cons]
    refine Nat.le_trans ?_ (ih _)
    unfold addHead
    split <;> simp

/-- The names that are known to be nullable are closed under a list of rules. -/
def NullableClosed (rules : List (Rule μ)) (names : List String) : Prop :=
  ∀ r ∈ rules, sequenceNullable names r.body → r.head ∈ names

/-- A round that adds nothing had nothing to add. -/
theorem nullableClosed_of_length {rules : List (Rule μ)} :
    ∀ {names : List String}, (nullableRound rules names).length = names.length →
      NullableClosed rules names := by
  induction rules with
  | nil => exact fun _ r hr => absurd hr List.not_mem_nil
  | cons r rest ih =>
    intro names hlen
    rw [nullableRound_cons] at hlen
    by_cases hadd : r.head ∉ names ∧ sequenceNullable names r.body
    · have hgrow := length_le_nullableRound rest (addHead names r)
      rw [addHead, if_pos hadd, List.length_append] at hgrow
      rw [addHead, if_pos hadd] at hlen
      simp only [List.length_singleton] at hgrow
      omega
    · rw [addHead, if_neg hadd] at hlen
      intro q hq hnull
      rcases List.mem_cons.mp hq with rfl | hq
      · exact Decidable.not_not.mp fun h => hadd ⟨h, hnull⟩
      · exact ih hlen q hq hnull

/-- Rounds collect distinct heads of rules. -/
theorem nullableRound_heads {all rules : List (Rule μ)} (hsub : ∀ r ∈ rules, r ∈ all) :
    ∀ {names : List String}, names.Nodup → (∀ a ∈ names, a ∈ all.map Rule.head) →
      (nullableRound rules names).Nodup ∧
        ∀ a ∈ nullableRound rules names, a ∈ all.map Rule.head := by
  induction rules with
  | nil => exact fun hnd hmem => ⟨hnd, hmem⟩
  | cons r rest ih =>
    intro names hnd hmem
    rw [nullableRound_cons]
    refine ih (fun q hq => hsub q (List.mem_cons_of_mem _ hq)) ?_ ?_
    · unfold addHead
      split
      · rename_i hadd
        refine List.nodup_append.mpr ⟨hnd, by simp, ?_⟩
        intro a ha b hb hab
        rw [List.mem_singleton] at hb
        exact hadd.1 (hb ▸ hab ▸ ha)
      · exact hnd
    · intro a ha
      unfold addHead at ha
      split at ha
      · rcases List.mem_append.mp ha with ha | ha
        · exact hmem a ha
        · rw [List.mem_singleton] at ha
          exact ha ▸ List.mem_map_of_mem (hsub r List.mem_cons_self)
      · exact hmem a ha

/-- Enough rounds end in names to which no rule adds. -/
theorem nullableClosed_nullableRounds {rules : List (Rule μ)} :
    ∀ (n : Nat) {names : List String}, names.Nodup → (∀ a ∈ names, a ∈ rules.map Rule.head) →
      rules.length ≤ names.length + n → NullableClosed rules (nullableRounds rules n names)
  | 0, names, hnd, hmem, hlen => by
    -- all heads are known
    intro r hr _
    have hperm := (List.subperm_of_subset hnd hmem).perm_of_length_le
      (by rw [List.length_map]; omega)
    exact hperm.mem_iff.mpr (List.mem_map_of_mem hr)
  | n + 1, names, hnd, hmem, hlen => by
    rw [nullableRounds]
    split
    · rename_i hsame
      exact nullableClosed_of_length hsame
    · rename_i hdiff
      obtain ⟨hnd', hmem'⟩ := nullableRound_heads (fun r hr => hr) hnd hmem
      have hle := length_le_nullableRound rules names
      exact nullableClosed_nullableRounds n hnd' hmem' (by omega)

/-- **The head of a rule with a nullable body is nullable.** -/
theorem nullableNames_closed (g : Grammar μ) : NullableClosed g.rules (nullableNames g) :=
  nullableClosed_nullableRounds g.rules.length List.nodup_nil
    (fun a ha => absurd ha List.not_mem_nil) (by simp)

/-- What rules pass on from the names in their bodies to their heads is kept by a round. -/
theorem nullableRound_least {rules : List (Rule μ)} {T : String → Prop}
    (hT : ∀ r ∈ rules, ∀ names, (∀ a ∈ names, T a) → sequenceNullable names r.body → T r.head) :
    ∀ {names : List String}, (∀ a ∈ names, T a) → ∀ a ∈ nullableRound rules names, T a := by
  induction rules with
  | nil => exact fun hnames => hnames
  | cons r rest ih =>
    intro names hnames
    rw [nullableRound_cons]
    refine ih (fun q hq => hT q (List.mem_cons_of_mem _ hq)) ?_
    intro a ha
    unfold addHead at ha
    split at ha
    · rename_i hadd
      rcases List.mem_append.mp ha with ha | ha
      · exact hnames a ha
      · rw [List.mem_singleton] at ha
        exact ha ▸ hT r List.mem_cons_self names hnames hadd.2
    · exact hnames a ha

/-- **No names are nullable but the heads of rules with nullable bodies.** -/
theorem nullableNames_least {g : Grammar μ} {T : String → Prop} {name : String}
    (hT : ∀ r ∈ g.rules, ∀ names, (∀ a ∈ names, T a) → sequenceNullable names r.body → T r.head)
    (h : name ∈ nullableNames g) : T name := by
  have hrounds (n : Nat) : ∀ names : List String, (∀ a ∈ names, T a) →
      ∀ a ∈ nullableRounds g.rules n names, T a := by
    induction n with
    | zero => exact fun _ hnames => hnames
    | succ n ih =>
      intro names hnames
      rw [nullableRounds]
      split
      · exact hnames
      · exact ih _ (nullableRound_least hT hnames)
  exact hrounds g.rules.length [] (fun a ha => absurd ha List.not_mem_nil) name h

/-! ## Tables -/

omit [Matcher μ] in
theorem mem_nonterminals_iff {g : Grammar μ} {name : String} :
    name ∈ g.nonterminals ↔ name ∈ g.rules.map Rule.head :=
  Numbering.mem_ofList

omit [Matcher μ] in
theorem mem_alternatives_iff {g : Grammar μ} {name : String} {r : Rule μ} :
    r ∈ g.alternatives name ↔ r ∈ g.rules ∧ r.head = name := by
  simp [Grammar.alternatives, List.mem_filter]

/-- A table with one entry for each name of a list answers for exactly these names. -/
theorem lookup_map {names : List String} {f : String → Lookahead} {name : String} :
    lookup (names.map fun a => (a, f a)) name = if name ∈ names then f name else .empty := by
  induction names with
  | nil => rfl
  | cons a rest ih =>
    unfold lookup lookup? at ih ⊢
    rw [List.map_cons, List.find?_cons]
    by_cases ha : a = name
    · simp [ha]
    · simp only [ha, decide_false, ih, List.mem_cons]
      simp [Ne.symm ha]

theorem isSome_lookup?_map {names : List String} {f : String → Lookahead} {name : String} :
    (lookup? (names.map fun a => (a, f a)) name).isSome ↔ name ∈ names := by
  simp [lookup?, List.find?_isSome]

/-- The set for a name has a feature exactly if there is an entry that has it. -/
theorem exists_lookup?_iff (F : Lookahead.Feature) {table : List (String × Lookahead)}
    {name : String} :
    (∃ set, lookup? table name = some set ∧ F.Holds set) ↔ F.Holds (lookup table name) := by
  unfold lookup
  cases lookup? table name with
  | none => simp [F.empty]
  | some set => simp

/-- The table that unites the direct sets of all names that a name reaches. -/
def linked (g : Grammar μ) (links : String → List String) (direct : String → Lookahead) :
    List (String × Lookahead) :=
  g.nonterminals.map fun a =>
    (a, (Explore.reachable links (g.rules.map Rule.head) a).foldl
      (fun set b => set.union (lookup (g.nonterminals.map fun c => (c, direct c)) b)) .empty)

omit [Matcher μ] in
theorem holds_linked_iff (F : Lookahead.Feature) {g : Grammar μ} {links : String → List String}
    {direct : String → Lookahead} {name : String} :
    F.Holds (lookup (linked g links direct) name) ↔
      name ∈ g.nonterminals ∧ ∃ b ∈ g.nonterminals,
        Explore.Walk links (g.rules.map Rule.head) name b ∧ F.Holds (direct b) := by
  rw [linked, lookup_map]
  by_cases hname : name ∈ g.nonterminals
  · rw [if_pos hname, F.holds_foldl_union, or_iff_right F.empty]
    simp only [hname, true_and]
    constructor
    · intro hwalk
      obtain ⟨b, hb, h⟩ := hwalk
      rw [lookup_map] at h
      split at h
      · exact ⟨b, by assumption, Explore.mem_reachable_iff.mp hb, h⟩
      · exact absurd h F.empty
    · intro hreach
      obtain ⟨b, hmem, hwalk, h⟩ := hreach
      refine ⟨b, Explore.mem_reachable_iff.mpr hwalk, ?_⟩
      rw [lookup_map, if_pos hmem]
      exact h
  · rw [if_neg hname]
    exact ⟨fun h => absurd h F.empty, fun h => absurd h.1 hname⟩

omit [Matcher μ] in
/-- A name has what a name has to which it is linked. -/
theorem holds_linked_of_link (F : Lookahead.Feature) {g : Grammar μ}
    {links : String → List String} {direct : String → Lookahead} {a b : String}
    (ha : a ∈ g.nonterminals) (hlink : b ∈ links a)
    (h : F.Holds (lookup (linked g links direct) b)) :
    F.Holds (lookup (linked g links direct) a) := by
  rw [holds_linked_iff] at h ⊢
  obtain ⟨-, c, hc, hwalk, h⟩ := h
  exact ⟨ha, c, hc, Relation.ReflTransGen.head ⟨mem_nonterminals_iff.mp ha, hlink⟩ hwalk, h⟩

omit [Matcher μ] in
/-- A name has what it has directly. -/
theorem holds_linked_of_direct (F : Lookahead.Feature) {g : Grammar μ}
    {links : String → List String} {direct : String → Lookahead} {a : String}
    (ha : a ∈ g.nonterminals) (h : F.Holds (direct a)) :
    F.Holds (lookup (linked g links direct) a) :=
  (holds_linked_iff F).mpr ⟨ha, a, ha, Relation.ReflTransGen.refl, h⟩

omit [Matcher μ] in
/-- A name has nothing but what it has directly or by its links. -/
theorem holds_linked_least (F : Lookahead.Feature) {g : Grammar μ}
    {links : String → List String} {direct : String → Lookahead} {T : String → Prop} {a : String}
    (hdirect : ∀ b ∈ g.nonterminals, F.Holds (direct b) → T b)
    (hlink : ∀ b ∈ g.nonterminals, ∀ c ∈ links b, T c → T b)
    (h : F.Holds (lookup (linked g links direct) a)) : T a := by
  obtain ⟨-, b, hb, hwalk, hfeature⟩ := (holds_linked_iff F).mp h
  clear h
  induction hwalk using Relation.ReflTransGen.head_induction_on with
  | refl => exact hdirect b hb hfeature
  | head hstep _ ih => exact hlink _ (mem_nonterminals_iff.mpr hstep.1) _ hstep.2 ih

/-! ## The laws -/

section

variable {F : Lookahead.Feature} {g : Grammar μ} {r : Rule μ}

omit [Matcher μ] in
theorem head_mem_nonterminals (hr : r ∈ g.rules) : r.head ∈ g.nonterminals :=
  mem_nonterminals_iff.mpr (List.mem_map_of_mem hr)

theorem first_eq_linked : (ofGrammar g).first
    = linked g (leads g (nullableNames g)) (directFirst g (nullableNames g)) := rfl

theorem holds_directFirst_iff {names : List String} {name : String} :
    F.Holds (directFirst g names name) ↔ ∃ r ∈ g.alternatives name,
      ∃ s ∈ front names r.body, F.Holds (s.first fun _ => .empty) := by
  rw [directFirst, F.holds_foldl_union, or_iff_right F.empty]
  simp only [sequenceFirst, F.holds_foldl_union, or_iff_right F.empty]

/-- **FIRST of a head has what FIRST of a body has.** -/
theorem holds_first_of_body (hr : r ∈ g.rules) (h : F.Holds ((ofGrammar g).restFirst r.body)) :
    F.Holds (lookup (ofGrammar g).first r.head) := by
  have hhead := head_mem_nonterminals hr
  have halt : r ∈ g.alternatives r.head := mem_alternatives_iff.mpr ⟨hr, rfl⟩
  obtain ⟨s, hs, h⟩ := (holds_sequenceFirst_iff F).mp h
  rw [first_eq_linked] at h ⊢
  rcases h with h | ⟨a, ha, h⟩
  · exact holds_linked_of_direct F hhead (holds_directFirst_iff.mpr ⟨r, halt, s, hs, h⟩)
  · exact holds_linked_of_link F hhead
      (List.mem_flatMap.mpr ⟨r, halt, List.mem_flatMap.mpr ⟨s, hs, ha⟩⟩) h

/-- **FIRST has nothing but what comes from the bodies of rules.** -/
theorem holds_first_least {T : String → Prop} {name : String}
    (hT : ∀ r ∈ g.rules, FrontShows F (nullableNames g) T r.body → T r.head)
    (h : F.Holds (lookup (ofGrammar g).first name)) : T name := by
  rw [first_eq_linked] at h
  refine holds_linked_least F (fun b _ hdirect => ?_) (fun b _ c hc hname => ?_) h
  · obtain ⟨r, halt, s, hs, hshows⟩ := holds_directFirst_iff.mp hdirect
    obtain ⟨hr, rfl⟩ := mem_alternatives_iff.mp halt
    exact hT r hr ⟨s, hs, Or.inl hshows⟩
  · obtain ⟨r, halt, hfront⟩ := List.mem_flatMap.mp hc
    obtain ⟨s, hs, hcs⟩ := List.mem_flatMap.mp hfront
    obtain ⟨hr, rfl⟩ := mem_alternatives_iff.mp halt
    exact hT r hr ⟨s, hs, Or.inr ⟨c, hcs, hname⟩⟩

theorem admits_first_of_body {next : Option Char} (hr : r ∈ g.rules)
    (h : ((ofGrammar g).restFirst r.body).admits next) :
    (lookup (ofGrammar g).first r.head).admits next :=
  holds_first_of_body (F := .admitting next) hr h

/-- The head of a rule with a nullable body is nullable. -/
theorem nullable_of_body (hr : r ∈ g.rules) (h : (ofGrammar g).restNullable r.body) :
    r.head ∈ (ofGrammar g).nullable :=
  nullableNames_closed g r hr h

theorem follow_eq_linked : (ofGrammar g).follow
    = linked g (closes g (nullableNames g))
        (directFollow g (nullableNames g) (lookup (firstTable g (nullableNames g)))) := rfl

theorem holds_directFollow_iff {names : List String} {sets : String → Lookahead}
    {name : String} :
    F.Holds (directFollow g names sets name) ↔
      F.Holds (if name = g.start then Lookahead.endOfText else .empty) ∨
        ∃ p ∈ g.rules.flatMap fun r => withRests r.body,
          name ∈ p.1.references ∧ F.Holds (sequenceFirst names sets p.2) := by
  refine F.holds_foldl fun s p => ?_
  by_cases h : name ∈ p.1.references
  · simp only [h, if_true, true_and]
    exact F.union
  · simp [h]

omit [Matcher μ] in
theorem mem_rests_iff {s : Symbol μ} {rest : List (Symbol μ)} :
    (s, rest) ∈ g.rules.flatMap (fun r => withRests r.body) ↔
      ∃ r ∈ g.rules, s :: rest <:+ r.body := by
  simp only [List.mem_flatMap, mem_withRests_iff]

theorem mem_closes_iff {names : List String} {name head : String} :
    head ∈ closes g names name ↔ ∃ r ∈ g.rules, r.head = head ∧ ∃ s rest, s :: rest <:+ r.body ∧
      name ∈ s.references ∧ sequenceNullable names rest := by
  simp only [closes, List.mem_flatMap, Prod.exists, mem_withRests_iff]
  constructor
  · intro h
    obtain ⟨r, hr, s, rest, hsuffix, hhead⟩ := h
    split at hhead
    · rename_i hcond
      exact ⟨r, hr, (List.mem_singleton.mp hhead).symm, s, rest, hsuffix, hcond⟩
    · exact absurd hhead List.not_mem_nil
  · intro h
    obtain ⟨r, hr, rfl, s, rest, hsuffix, hcond⟩ := h
    exact ⟨r, hr, s, rest, hsuffix, by rw [if_pos hcond]; exact List.mem_singleton_self _⟩

theorem holds_lookahead_iff {sets : FirstFollow} {head : String}
    {rest : List (Symbol μ)} :
    F.Holds (sets.lookahead head rest) ↔ F.Holds (sets.restFirst rest) ∨
      sets.restNullable rest ∧ F.Holds (lookup sets.follow head) := by
  unfold lookahead
  by_cases h : sets.restNullable rest
  · simp [h, F.union]
  · simp [h]

/-- **FOLLOW of a name has what may come next behind it in a rule.** -/
theorem holds_follow_of_lookahead {s : Symbol μ} {rest : List (Symbol μ)} {name : String}
    (hr : r ∈ g.rules) (hsuffix : s :: rest <:+ r.body) (hname : name ∈ s.references)
    (hmem : name ∈ g.nonterminals) (h : F.Holds ((ofGrammar g).lookahead r.head rest)) :
    F.Holds (lookup (ofGrammar g).follow name) := by
  have hdirect (h : F.Holds ((ofGrammar g).restFirst rest)) :
      F.Holds (lookup (ofGrammar g).follow name) := by
    rw [follow_eq_linked]
    refine holds_linked_of_direct F hmem (holds_directFollow_iff.mpr (Or.inr ?_))
    exact ⟨(s, rest), mem_rests_iff.mpr ⟨r, hr, hsuffix⟩, hname, h⟩
  rcases holds_lookahead_iff.mp h with h | ⟨hnull, h⟩
  · exact hdirect h
  · rw [follow_eq_linked] at h ⊢
    exact holds_linked_of_link F hmem
      (mem_closes_iff.mpr ⟨r, hr, rfl, s, rest, hsuffix, hname, hnull⟩) h

/-- FOLLOW of the start symbol has what the end of the text has. -/
theorem holds_follow_start (hstart : g.start ∈ g.nonterminals) (h : F.Holds .endOfText) :
    F.Holds (lookup (ofGrammar g).follow g.start) := by
  rw [follow_eq_linked]
  refine holds_linked_of_direct F hstart (holds_directFollow_iff.mpr (Or.inl ?_))
  rwa [if_pos rfl]

/-- **FOLLOW has nothing but what comes from the places of names in rules,** and the end of the text
behind the start symbol. -/
theorem holds_follow_least {T : String → Prop} {name : String}
    (hstart : F.Holds .endOfText → T g.start)
    (hT : ∀ r ∈ g.rules, ∀ s rest, s :: rest <:+ r.body → ∀ a ∈ s.references,
      F.Holds ((ofGrammar g).restFirst rest) ∨ (ofGrammar g).restNullable rest ∧ T r.head → T a)
    (h : F.Holds (lookup (ofGrammar g).follow name)) : T name := by
  rw [follow_eq_linked] at h
  refine holds_linked_least F (fun b _ hdirect => ?_) (fun b _ c hc hhead => ?_) h
  · rcases holds_directFollow_iff.mp hdirect with hend | ⟨⟨s, rest⟩, hmem, hname, hfirst⟩
    · split at hend
      · rename_i hb
        exact hb ▸ hstart hend
      · exact absurd hend F.empty
    · obtain ⟨r, hr, hsuffix⟩ := mem_rests_iff.mp hmem
      exact hT r hr s rest hsuffix b hname (Or.inl hfirst)
  · obtain ⟨r, hr, rfl, s, rest, hsuffix, hname, hnull⟩ := mem_closes_iff.mp hc
    exact hT r hr s rest hsuffix b hname (Or.inr ⟨hnull, hhead⟩)

theorem admits_follow_of_lookahead {s : Symbol μ} {rest : List (Symbol μ)} {name : String}
    {next : Option Char} (hr : r ∈ g.rules) (hsuffix : s :: rest <:+ r.body)
    (hname : name ∈ s.references) (hmem : name ∈ g.nonterminals)
    (h : ((ofGrammar g).lookahead r.head rest).admits next) :
    (lookup (ofGrammar g).follow name).admits next :=
  holds_follow_of_lookahead (F := .admitting next) hr hsuffix hname hmem h

/-- FOLLOW of the start symbol admits the end of the text. -/
theorem admits_follow_start (hstart : g.start ∈ g.nonterminals) :
    (lookup (ofGrammar g).follow g.start).admits none :=
  holds_follow_start (F := .admitting none) hstart Lookahead.admits_endOfText

end

end FirstFollow

end GeneralLL
