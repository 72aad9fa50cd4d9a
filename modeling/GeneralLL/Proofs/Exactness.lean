import GeneralLL.Proofs.Layout
import GeneralLL.Proofs.Rewriting
import GeneralLL.Proofs.Settling
import GeneralLL.Terminal.Run

/-!
# The sets say exactly what the grammar says

The sets of a grammar are compared with the text-book reading of its rules:

* a name is nullable exactly if a call of it can be **rewritten to nothing**;
* FIRST of a name has exactly what the sequences **start with** to which a call can be
  rewritten;
* FOLLOW of a name has exactly what **follows** it by the rules, if the name has rules.

One direction is an invariant of rewriting, read backwards: what the sets say of the
sequence after a step they say of the sequence before it, because they are closed under
the rules. The other holds because they are the least sets that are.

Nothing is asked of the grammar. Names without rules have no sets. FIRST misses nothing
by that, since their calls are never rewritten, but **FOLLOW does**: what stands behind
such a name in a rule is not recorded.
-/

namespace GeneralLL

variable {μ : Type} [Matcher μ]

/-! ## Marks -/

/-- A terminal announces what its set has. -/
theorem Terminal.announces_iff {t : Terminal μ} {mark : Mark} :
    t.Announces mark ↔ (t.first.elim .anything .ofClass : Lookahead).Has mark := by
  cases mark <;> cases hfirst : t.first <;>
    simp [Announces, Lookahead.Has, Lookahead.anything, Lookahead.ofClass, hfirst,
      CharClass.not_contains_empty]

theorem Lookahead.has_endOfText_iff {mark : Mark} :
    Lookahead.endOfText.Has mark ↔ mark = .endOfText := by
  cases mark <;> simp [Has, endOfText, CharClass.not_contains_empty]

namespace FirstFollow

variable {g : Grammar μ}

/-! ## Entries -/

omit [Matcher μ] in
theorem mem_nonterminals_iff_hasNonterminal {name : String} :
    name ∈ g.nonterminals ↔ g.hasNonterminal name := by
  rw [mem_nonterminals_iff, Grammar.hasNonterminal_iff]

theorem isSome_first?_iff {name : String} :
    ((ofGrammar g).first? name).isSome ↔ g.hasNonterminal name := by
  rw [← mem_nonterminals_iff_hasNonterminal, first?, first_eq_linked]
  exact isSome_lookup?_map

theorem isSome_follow?_iff {name : String} :
    ((ofGrammar g).follow? name).isSome ↔ g.hasNonterminal name := by
  rw [← mem_nonterminals_iff_hasNonterminal, follow?, follow_eq_linked]
  exact isSome_lookup?_map

/-! ## Nullable -/

/-- What a symbol is rewritten to when it is nullable by names that are. -/
theorem rewritesTo_nil_of_nullable {names : List String}
    (hnames : ∀ a ∈ names, ∀ arguments notes, g.RewritesTo [.call a arguments notes] [])
    {s : Symbol μ} (h : s.nullable names) : g.RewritesTo [s] [] := by
  induction s with
  | terminal t notes => exact (Grammar.Expands.vanishing h notes).rewritesTo
  | call name arguments notes => exact hnames name (by simpa [Symbol.nullable] using h) _ _
  | ifThen condition body notes => exact (Grammar.Expands.skipped condition body notes).rewritesTo
  | ifThenElse condition body otherwise notes ihb iho =>
    rcases Bool.or_eq_true_iff.mp h with h | h
    · exact (Grammar.Expands.first condition body otherwise notes).rewritesTo.trans (ihb h)
    · exact (Grammar.Expands.second condition body otherwise notes).rewritesTo.trans (iho h)

theorem rewritesTo_nil_of_sequence {names : List String}
    (hnames : ∀ a ∈ names, ∀ arguments notes, g.RewritesTo [.call a arguments notes] [])
    {body : List (Symbol μ)} (h : sequenceNullable names body) : g.RewritesTo body [] := by
  induction body with
  | nil => exact Relation.ReflTransGen.refl
  | cons s rest ih =>
    obtain ⟨hs, hrest⟩ := sequenceNullable_cons.mp h
    exact (rewritesTo_nil_of_nullable hnames hs).append (ih hrest)

/-- Calls of nullable names can be rewritten to nothing. -/
theorem rewritesTo_nil_of_mem {name : String} (h : name ∈ nullableNames g)
    (arguments : List Expr) (notes : Annotations μ) :
    g.RewritesTo [.call name arguments notes] [] := by
  refine nullableNames_least
    (T := fun name => ∀ arguments notes, g.RewritesTo [.call name arguments notes] []) ?_ h _ _
  intro r hr names hnames hbody arguments notes
  exact (Grammar.Expands.rule hr arguments notes).rewritesTo.trans
    (rewritesTo_nil_of_sequence hnames hbody)

/-- A symbol that can be replaced by something nullable is nullable. -/
theorem nullable_of_expands {s : Symbol μ} {body : List (Symbol μ)} (h : g.Expands s body)
    (hbody : (ofGrammar g).restNullable body) : (ofGrammar g).symbolNullable s := by
  cases h with
  | rule hr arguments notes => exact decide_eq_true (nullable_of_body hr hbody)
  | vanishing ht notes => exact ht
  | taken condition body notes => rfl
  | skipped condition body notes => rfl
  | first condition body otherwise notes =>
    exact Bool.or_eq_true_iff.mpr (Or.inl (sequenceNullable_cons.mp hbody).1)
  | second condition body otherwise notes =>
    exact Bool.or_eq_true_iff.mpr (Or.inr (sequenceNullable_cons.mp hbody).1)

/-- Rewriting does not make anything nullable that was not. -/
theorem restNullable_of_rewrites {u v : List (Symbol μ)} (h : g.Rewrites u v)
    (hv : (ofGrammar g).restNullable v) : (ofGrammar g).restNullable u := by
  obtain ⟨pre, post, h⟩ := h
  obtain ⟨hpre, hrest⟩ := sequenceNullable_append.mp hv
  obtain ⟨hbody, hpost⟩ := sequenceNullable_append.mp hrest
  exact sequenceNullable_append.mpr
    ⟨hpre, sequenceNullable_cons.mpr ⟨nullable_of_expands h hbody, hpost⟩⟩

/-- **A sequence is nullable exactly if it can be rewritten to nothing.** -/
theorem restNullable_iff {body : List (Symbol μ)} :
    (ofGrammar g).restNullable body ↔ g.RewritesTo body [] := by
  constructor
  · exact rewritesTo_nil_of_sequence fun _ hmem => rewritesTo_nil_of_mem hmem
  · intro h
    induction h using Relation.ReflTransGen.head_induction_on with
    | refl => rfl
    | head hstep _ ih => exact restNullable_of_rewrites hstep ih

theorem isNullable_iff {name : String} (arguments : List Expr) (notes : Annotations μ) :
    (ofGrammar g).isNullable name ↔ g.RewritesTo [.call name arguments notes] [] := by
  rw [← restNullable_iff]
  simp [isNullable, restNullable, sequenceNullable, Symbol.nullable]

/-! ## FIRST -/

section

variable {mark : Mark}

/-- What a symbol shows, a sequence starts with that consists of it. -/
theorem starts_of_shows {T : String → Prop}
    (hT : ∀ a, T a → ∀ arguments notes, g.Starts mark [.call a arguments notes]) {s : Symbol μ}
    (h : s.Shows (.having mark) T) : g.Starts mark [s] := by
  induction s with
  | terminal t notes =>
    simp only [Symbol.Shows, Symbol.references, Symbol.calls, List.map_nil, List.not_mem_nil,
      false_and, exists_false, or_false] at h
    exact .of_announces (Terminal.announces_iff.mpr h) notes
  | call name arguments notes =>
    rcases h with h | ⟨a, ha, h⟩
    · exact absurd h (Lookahead.Feature.having mark).empty
    · obtain rfl := List.mem_singleton.mp ha
      exact hT a h arguments notes
  | ifThen condition body notes ih =>
    exact (ih h).of_rewritesTo (Grammar.Expands.taken condition body notes).rewritesTo
  | ifThenElse condition body otherwise notes ihb iho =>
    have hparts : body.Shows (.having mark) T ∨ otherwise.Shows (.having mark) T := by
      rcases h with h | ⟨a, ha, h⟩
      · exact ((Lookahead.Feature.having mark).union.mp h).imp Or.inl Or.inl
      · simp only [Symbol.references, Symbol.calls, List.map_append, List.mem_append] at ha
        exact ha.imp (fun ha => Or.inr ⟨a, ha, h⟩) (fun ha => Or.inr ⟨a, ha, h⟩)
    rcases hparts with h | h
    · exact (ihb h).of_rewritesTo
        (Grammar.Expands.first condition body otherwise notes).rewritesTo
    · exact (iho h).of_rewritesTo
        (Grammar.Expands.second condition body otherwise notes).rewritesTo

/-- What the front of a sequence shows, the sequence starts with. -/
theorem starts_of_frontShows {T : String → Prop}
    (hT : ∀ a, T a → ∀ arguments notes, g.Starts mark [.call a arguments notes])
    {body : List (Symbol μ)} (h : FrontShows (.having mark) (nullableNames g) T body) :
    g.Starts mark body := by
  induction body with
  | nil =>
    obtain ⟨s, hs, -⟩ := h
    exact absurd hs List.not_mem_nil
  | cons s rest ih =>
    rcases frontShows_cons.mp h with hs | ⟨hnull, hrest⟩
    · exact (starts_of_shows hT hs).append_right rest
    · have hs : g.RewritesTo [s] [] :=
        rewritesTo_nil_of_nullable (fun _ hmem => rewritesTo_nil_of_mem hmem) hnull
      exact (ih hrest).append_left hs

/-- What is in FIRST of a name, a call of the name starts with. -/
theorem starts_of_first {name : String} (h : (lookup (ofGrammar g).first name).Has mark)
    (arguments : List Expr) (notes : Annotations μ) :
    g.Starts mark [.call name arguments notes] := by
  refine holds_first_least (F := .having mark)
    (T := fun name => ∀ arguments notes, g.Starts mark [.call name arguments notes]) ?_ h _ _
  intro r hr hfront arguments notes
  exact (starts_of_frontShows (fun _ h => h) hfront).of_rewritesTo
    (Grammar.Expands.rule hr arguments notes).rewritesTo

/-- A sequence of one symbol starts with what the symbol starts with. -/
theorem has_restFirst_singleton {sets : FirstFollow} {s : Symbol μ} :
    (sets.restFirst [s]).Has mark ↔ (sets.symbolFirst s).Has mark := by
  have hcons : (sets.restFirst [s]).Has mark ↔ (sets.symbolFirst s).Has mark ∨
      s.nullable sets.nullable ∧ (sets.restFirst ([] : List (Symbol μ))).Has mark :=
    holds_sequenceFirst_cons (.having mark)
  rw [hcons]
  exact or_iff_left fun h => not_holds_sequenceFirst_nil (.having mark) h.2

/-- A symbol starts with what it can be replaced by starts with. -/
theorem has_first_of_expands {s : Symbol μ} {body : List (Symbol μ)} (h : g.Expands s body)
    (hbody : ((ofGrammar g).restFirst body).Has mark) : ((ofGrammar g).symbolFirst s).Has mark := by
  cases h with
  | rule hr arguments notes => exact holds_first_of_body (F := .having mark) hr hbody
  | vanishing ht notes => exact absurd hbody (not_holds_sequenceFirst_nil (.having mark))
  | taken condition body notes => exact (has_restFirst_singleton (s := body)).mp hbody
  | skipped condition body notes => exact absurd hbody (not_holds_sequenceFirst_nil (.having mark))
  | first condition body otherwise notes =>
    exact (Lookahead.Feature.having mark).union.mpr (Or.inl (has_restFirst_singleton.mp hbody))
  | second condition body otherwise notes =>
    exact (Lookahead.Feature.having mark).union.mpr (Or.inr (has_restFirst_singleton.mp hbody))

/-- Rewriting does not make a sequence start with anything new. -/
theorem has_restFirst_of_rewrites {u v : List (Symbol μ)} (h : g.Rewrites u v)
    (hv : ((ofGrammar g).restFirst v).Has mark) : ((ofGrammar g).restFirst u).Has mark := by
  obtain ⟨pre, post, h⟩ := h
  refine (holds_sequenceFirst_append (.having mark)).mpr ?_
  rcases (holds_sequenceFirst_append (.having mark)).mp hv with hpre | ⟨hpre, hrest⟩
  · exact Or.inl hpre
  · refine Or.inr ⟨hpre, (holds_sequenceFirst_cons (.having mark)).mpr ?_⟩
    rcases (holds_sequenceFirst_append (.having mark)).mp hrest with hbody | ⟨hbody, hpost⟩
    · exact Or.inl (has_first_of_expands h hbody)
    · exact Or.inr ⟨nullable_of_expands h hbody, hpost⟩

/-- **FIRST of a sequence has exactly what the sequence starts with.** -/
theorem has_restFirst_iff {body : List (Symbol μ)} :
    ((ofGrammar g).restFirst body).Has mark ↔ g.Starts mark body := by
  constructor
  · intro h
    have hfront := (holds_sequenceFirst_iff (.having mark)).mp h
    exact starts_of_frontShows (fun _ h => starts_of_first h) hfront
  · intro h
    obtain ⟨pre, t, notes, post, hbody, hpre, ht⟩ := h
    induction hbody using Relation.ReflTransGen.head_induction_on with
    | refl =>
      have hfirst : ((ofGrammar g).restFirst (.terminal t notes :: post)).Has mark :=
        (holds_sequenceFirst_cons (.having mark)).mpr (Or.inl (Terminal.announces_iff.mp ht))
      exact (holds_sequenceFirst_append (.having mark)).mpr
        (Or.inr ⟨restNullable_iff.mpr hpre, hfirst⟩)
    | head hstep _ ih => exact has_restFirst_of_rewrites hstep ih

theorem has_first_iff {name : String} (arguments : List Expr) (notes : Annotations μ) :
    (lookup (ofGrammar g).first name).Has mark ↔ g.Starts mark [.call name arguments notes] := by
  rw [← has_restFirst_iff, has_restFirst_singleton]
  rfl

/-! ## FOLLOW -/

/-- What is in FOLLOW of a name follows it. -/
theorem follows_of_follow {name : String} (h : (lookup (ofGrammar g).follow name).Has mark) :
    g.Follows mark name := by
  refine holds_follow_least (F := .having mark) ?_ ?_ h
  · exact fun hend => .start (Lookahead.has_endOfText_iff.mp hend)
  · intro r hr s rest hsuffix a ha hmore
    have hplace : r.Places a rest := ⟨s, hsuffix, ha⟩
    rcases hmore with hfirst | ⟨hnull, hhead⟩
    · exact .rest hr hplace (has_restFirst_iff.mp hfirst)
    · exact .head hr hplace (restNullable_iff.mp hnull) hhead

/-- What follows a name with rules is in FOLLOW of it. -/
theorem has_follow_of_follows {name : String} (h : g.Follows mark name)
    (hmem : name ∈ g.nonterminals) : (lookup (ofGrammar g).follow name).Has mark := by
  induction h with
  | start hmark =>
    exact holds_follow_start (F := .having mark) hmem (Lookahead.has_endOfText_iff.mpr hmark)
  | rest hr hplace hstarts =>
    obtain ⟨s, hsuffix, hname⟩ := hplace
    refine holds_follow_of_lookahead (F := .having mark) hr hsuffix hname hmem ?_
    exact holds_lookahead_iff.mpr (Or.inl (has_restFirst_iff.mpr hstarts))
  | head hr hplace hnull _ ih =>
    obtain ⟨s, hsuffix, hname⟩ := hplace
    refine holds_follow_of_lookahead (F := .having mark) hr hsuffix hname hmem ?_
    exact holds_lookahead_iff.mpr
      (Or.inr ⟨restNullable_iff.mpr hnull, ih (head_mem_nonterminals hr)⟩)

/-- **FOLLOW of a name with rules has exactly what follows the name.** -/
theorem has_follow_iff {name : String} :
    (lookup (ofGrammar g).follow name).Has mark ↔
      g.hasNonterminal name ∧ g.Follows mark name := by
  constructor
  · intro h
    obtain ⟨set, hset, -⟩ := (exists_lookup?_iff (.having mark)).mpr h
    have hentry : ((ofGrammar g).follow? name).isSome := Option.isSome_of_eq_some hset
    exact ⟨isSome_follow?_iff.mp hentry, follows_of_follow h⟩
  · intro h
    exact has_follow_of_follows h.2 (mem_nonterminals_iff_hasNonterminal.mpr h.1)

end

/-! ## Exactness -/

/-- The sets say what the rules say, of every name, every sequence of symbols and every mark. -/
structure Exact (g : Grammar μ) (sets : FirstFollow) : Prop where
  /-- A name has a FIRST set exactly if it has rules. -/
  firstEntries : ∀ name, (sets.first? name).isSome ↔ g.hasNonterminal name
  /-- A name has a FOLLOW set exactly if it has rules. -/
  followEntries : ∀ name, (sets.follow? name).isSome ↔ g.hasNonterminal name
  /-- A name is nullable exactly if it can be rewritten to nothing. -/
  nullable : ∀ name arguments notes,
    sets.isNullable name ↔ g.RewritesTo [.call name arguments notes] []
  /-- FIRST has the marks that a name can start with, and no others. -/
  first : ∀ name arguments notes mark, (∃ set, sets.first? name = some set ∧ set.Has mark) ↔
    g.Starts mark [.call name arguments notes]
  /-- Only names with rules have a set to which what follows them could be added. -/
  follow : ∀ name mark, (∃ set, sets.follow? name = some set ∧ set.Has mark) ↔
    g.hasNonterminal name ∧ g.Follows mark name
  /-- A sequence is nullable exactly if it can be rewritten to nothing. -/
  restNullable : ∀ rest, sets.restNullable rest ↔ g.RewritesTo rest []
  /-- FIRST of a sequence has the marks that it can start with, and no others. -/
  restFirst : ∀ rest mark, (sets.restFirst rest).Has mark ↔ g.Starts mark rest
  /-- Lookahead has the marks that the rest of a rule starts with and, if this can be rewritten to
  nothing, those that follow the head. -/
  lookahead : ∀ head rest mark, (sets.lookahead head rest).Has mark ↔
    g.Starts mark rest ∨ g.RewritesTo rest [] ∧ g.hasNonterminal head ∧ g.Follows mark head

/-- **The loops for nullable, FIRST and FOLLOW come to an end for every grammar, and the sets they
arrive at are exact.** -/
theorem exact_ofGrammar (g : Grammar μ) : Settled g (ofGrammar g) ∧ Exact g (ofGrammar g) := by
  refine ⟨settled_ofGrammar g, ?_⟩
  constructor
  case firstEntries => exact fun _ => isSome_first?_iff
  case followEntries => exact fun _ => isSome_follow?_iff
  case nullable => exact fun _ arguments notes => isNullable_iff arguments notes
  case first =>
    intro name arguments notes mark
    exact (exists_lookup?_iff (.having mark)).trans (has_first_iff arguments notes)
  case follow => exact fun _ mark => (exists_lookup?_iff (.having mark)).trans has_follow_iff
  case restNullable => exact fun _ => restNullable_iff
  case restFirst => exact fun _ _ => has_restFirst_iff
  case lookahead =>
    intro head rest mark
    rw [← has_follow_iff, ← restNullable_iff, ← has_restFirst_iff]
    exact holds_lookahead_iff (F := .having mark)

/-- A nullable name twice in a row: each of its calls can be followed by what the other starts
with. -/
def repeated : Grammar RunMatcher where
  name := "repeated"
  start := "S"
  rules :=
    [⟨"S", [.call "A" [] {}, .call "A" [] {}, .terminal (.char 'b') {}], none⟩,
      ⟨"A", [.terminal (.char 'a') {}], none⟩, ⟨"A", [], none⟩]

example : (ofGrammar repeated).nullable = ["A"] ∧
    lookup (ofGrammar repeated).first "S" = .ofClass (.range 'a' 'b') ∧
    lookup (ofGrammar repeated).follow "A" = .ofClass (.range 'a' 'b') ∧
    lookup (ofGrammar repeated).follow "S" = .endOfText := by
  decide +kernel

/-! ## Names without rules -/

/-- A name without rules is called before a letter. -/
def dangling : Grammar RunMatcher where
  name := "dangling"
  start := "S"
  rules := [⟨"S", [.call "X" [] {}, .terminal (.char 'a') {}], none⟩]

/-- **A name without rules is followed by what stands behind it, but has no FOLLOW set.** -/
theorem follow_lost :
    ¬((∃ set, (ofGrammar dangling).follow? "X" = some set ∧ set.Has (.char 'a')) ↔
      dangling.Follows (.char 'a') "X") := by
  have hfollows : dangling.Follows (.char 'a') "X" := by
    have hannounces : (Terminal.char 'a' : Terminal RunMatcher).Announces (.char 'a') :=
      ⟨.single 'a', rfl, CharClass.contains_single.mpr rfl⟩
    exact .rest (List.mem_singleton_self _) ⟨.call "X" [] {}, List.suffix_rfl, by decide⟩
      (.of_announces hannounces {})
  intro hiff
  obtain ⟨set, hset, -⟩ := hiff.mpr hfollows
  have hentry : dangling.hasNonterminal "X" :=
    isSome_follow?_iff.mp (Option.isSome_of_eq_some hset)
  exact absurd hentry (by decide)

end FirstFollow

end GeneralLL
