import GeneralLL.Proofs.FirstFollow
import Mathlib.Data.Finite.Prod
import Mathlib.Data.Fintype.Card
import Mathlib.Data.Fintype.Powerset
import Mathlib.Order.Lattice

/-!
# The loops that compute the sets come to an end

The usual way to compute nullable names, FIRST and FOLLOW is to pass over the rules again
and again: each rule adds to the sets what it shows with the sets as they are by
then, and the loop ends with the first pass that changes nothing. What is found in rounds
and by exploration here is what these **loops arrive at**, whatever the grammar
(`settled_ofGrammar`).

Whether a set was changed is a comparison of normal forms. Since these are determined by
the features of a set, the sets are partially ordered, a union is a least upper bound, and
a reported change is a step up in the order. There are only finitely many sets, so a loop cannot
go up for ever; it stays below the final sets, and these are the least that no
rule adds to, so it cannot stop before it has reached them.
-/

namespace GeneralLL

/-! ## The order of the sets -/

namespace Lookahead

namespace Feature

/-- To cover a code point. -/
def covering (n : Nat) : Feature where
  Holds s := s.chars.Covers n
  union := CharClass.covers_union
  empty := CharClass.not_covers_empty

/-- To admit the end of the text. -/
def ending : Feature where
  Holds s := s.eof
  union := by simp [Lookahead.union]
  empty := by simp [Lookahead.empty]

/-- To admit everything. -/
def everything : Feature where
  Holds s := s.any
  union := by simp [Lookahead.union]
  empty := by simp [Lookahead.empty]

end Feature

/-- **Sets with the same features are the same.** -/
theorem ext_of_features {s t : Lookahead} (h : ∀ F : Feature, F.Holds s ↔ F.Holds t) : s = t := by
  obtain ⟨chars, eof, any⟩ := s
  obtain ⟨chars', eof', any'⟩ := t
  obtain rfl : chars = chars' := CharClass.ext_of_covers fun n => h (.covering n)
  obtain rfl : eof = eof' := Bool.eq_iff_iff.mpr (h .ending)
  obtain rfl : any = any' := Bool.eq_iff_iff.mpr (h .everything)
  rfl

/-- A set is below another that has all its features. -/
instance : SemilatticeSup Lookahead where
  le s t := ∀ F : Feature, F.Holds s → F.Holds t
  le_refl _ _ h := h
  le_trans _ _ _ hst htu F h := htu F (hst F h)
  le_antisymm _ _ hst hts := ext_of_features fun F => ⟨hst F, hts F⟩
  sup := union
  le_sup_left _ _ F h := F.union.mpr (Or.inl h)
  le_sup_right _ _ F h := F.union.mpr (Or.inr h)
  sup_le _ _ _ hs ht F h := (F.union.mp h).elim (hs F) (ht F)

theorem empty_le (s : Lookahead) : empty ≤ s := fun F h => absurd h F.empty

/-- Characters have code points below a bound, so there are only finitely many sets. -/
instance : Finite Lookahead := by
  let features (s : Lookahead) : Set (Fin UInt32.size) × Bool × Bool :=
    ({n | s.chars.Covers n}, s.eof, s.any)
  refine Finite.of_injective features fun s t h => ?_
  simp only [features, Prod.mk.injEq] at h
  obtain ⟨hcovers, heof, hany⟩ := h
  have hbound (r : CharRange) : r.last.toNat < UInt32.size := r.last.val.toNat_lt
  have hchars : s.chars = t.chars := CharClass.ext_of_covers fun n => by
    by_cases hn : n < UInt32.size
    · exact Set.ext_iff.mp hcovers ⟨n, hn⟩
    · refine iff_of_false ?_ ?_ <;>
      · intro hn'
        obtain ⟨r, -, -, hlast⟩ := hn'
        have := hbound r
        omega
  obtain ⟨chars, eof, any⟩ := s
  obtain ⟨chars', eof', any'⟩ := t
  obtain rfl := hchars
  obtain rfl := heof
  obtain rfl := hany
  rfl

end Lookahead

/-! ## Loops -/

/-- A loop makes passes up to the first that reports no change. From `a` it gets to `b`. -/
inductive Settles {α : Type} (pass : α → Bool × α) : α → α → Prop where
  | done {a : α} (h : (pass a).1 = false) : Settles pass a (pass a).2
  | again {a b : α} (h : (pass a).1 = true) (hrest : Settles pass (pass a).2 b) : Settles pass a b

/-- Takes one step for each element of a list, and reports whether one of them changed
anything. -/
def inTurn {α β : Type} (step : α → β → Bool × α) (a : α) : List β → Bool × α
  | [] => (false, a)
  | b :: rest =>
    let first := step a b
    let others := inTurn step first.2 rest
    (first.1 || others.1, others.2)

/-- What is reported as changed went up, and what is not is what it was. -/
structure Grows {α : Type} [PartialOrder α] (a : α) (result : Bool × α) : Prop where
  /-- Nothing went down. -/
  le : a ≤ result.2
  /-- A change is reported exactly if there was one. -/
  changed_iff : result.1 ↔ result.2 ≠ a

section

variable {α β : Type} [PartialOrder α] {step : α → β → Bool × α}

theorem Grows.eq_of_unchanged {a : α} {result : Bool × α} (h : Grows a result)
    (hflag : result.1 = false) : result.2 = a := by
  by_contra hne
  have hchanged := h.changed_iff.mpr hne
  rw [hflag] at hchanged
  exact Bool.noConfusion hchanged

theorem grows_inTurn (hstep : ∀ a b, Grows a (step a b)) (l : List β) :
    ∀ a, Grows a (inTurn step a l) := by
  induction l with
  | nil => exact fun a => ⟨le_refl a, by simp [inTurn]⟩
  | cons b rest ih =>
    intro a
    have hfirst := hstep a b
    have hothers := ih (step a b).2
    refine ⟨hfirst.le.trans hothers.le, ?_⟩
    simp only [inTurn, Bool.or_eq_true]
    rw [hfirst.changed_iff, hothers.changed_iff]
    constructor
    · intro hchanged heq
      -- what is between two equal sets is equal to them
      have hmiddle : (step a b).2 = a := le_antisymm (hothers.le.trans (le_of_eq heq)) hfirst.le
      rw [hmiddle] at hchanged heq
      exact hchanged.elim (fun h => h rfl) (fun h => h heq)
    · intro hne
      by_cases hmiddle : (step a b).2 = a
      · exact Or.inr fun heq => hne (heq.trans hmiddle)
      · exact Or.inl hmiddle

/-- Steps that stay below a bound stay below it in turn. -/
theorem inTurn_le {bound : α} {l : List β} (hbound : ∀ b ∈ l, ∀ a ≤ bound, (step a b).2 ≤ bound) :
    ∀ a ≤ bound, (inTurn step a l).2 ≤ bound := by
  induction l with
  | nil => exact fun a ha => ha
  | cons b rest ih =>
    intro a ha
    exact ih (fun c hc => hbound c (List.mem_cons_of_mem _ hc)) _
      (hbound b List.mem_cons_self a ha)

/-- If no change is reported, no step makes one. -/
theorem step_eq_of_inTurn (hstep : ∀ a b, Grows a (step a b)) {a : α} {l : List β}
    (h : (inTurn step a l).1 = false) : ∀ b ∈ l, (step a b).2 = a := by
  induction l with
  | nil => exact fun b hb => absurd hb List.not_mem_nil
  | cons c rest ih =>
    simp only [inTurn, Bool.or_eq_false_iff] at h
    have hc := (hstep a c).eq_of_unchanged h.1
    rw [hc] at h
    intro b hb
    rcases List.mem_cons.mp hb with rfl | hb
    · exact hc
    · exact ih h.2 b hb

/-- **A loop arrives at the least state above its start in which no step makes a change,** if there
are only finitely many states. -/
theorem settles_of_least [WellFoundedGT α] {l : List β} {start final : α}
    (hstep : ∀ a b, Grows a (step a b)) (hstart : start ≤ final)
    (hbound : ∀ b ∈ l, ∀ a ≤ final, (step a b).2 ≤ final)
    (hleast : ∀ a, start ≤ a → (∀ b ∈ l, (step a b).2 = a) → final ≤ a) :
    Settles (fun a => inTurn step a l) start final := by
  suffices h : ∀ a, start ≤ a → a ≤ final → Settles (fun a => inTurn step a l) a final from
    h start (le_refl start) hstart
  intro a
  induction a using WellFoundedGT.induction with
  | _ a ih =>
    intro hlow hhigh
    have hgrows := grows_inTurn hstep l a
    cases hflag : (inTurn step a l).1 with
    | false =>
      have hfinal : a = final :=
        le_antisymm hhigh (hleast a hlow (step_eq_of_inTurn hstep hflag))
      have hend : (inTurn step a l).2 = final := (hgrows.eq_of_unchanged hflag).trans hfinal
      have hdone : Settles (fun a => inTurn step a l) a (inTurn step a l).2 := .done hflag
      rwa [hend] at hdone
    | true =>
      have hup : a < (inTurn step a l).2 :=
        lt_of_le_of_ne hgrows.le (hgrows.changed_iff.mp hflag).symm
      exact .again hflag (ih _ hup (hlow.trans hgrows.le) (inTurn_le hbound a hhigh))

end

namespace FirstFollow

/-! ## Nullable names -/

section

variable {μ : Type} [Matcher μ]

/-- Adds the head of a rule whose body is nullable, if it is new. -/
def addNullable (names : List String) (r : Rule μ) : Bool × List String :=
  if r.head ∉ names ∧ sequenceNullable names r.body then (true, names ++ [r.head])
  else (false, names)

theorem inTurn_addNullable (rules : List (Rule μ)) :
    ∀ names, (inTurn addNullable names rules).2 = nullableRound rules names ∧
      ((inTurn addNullable names rules).1 ↔
        (nullableRound rules names).length ≠ names.length) := by
  induction rules with
  | nil => exact fun names => ⟨rfl, by simp [inTurn, nullableRound]⟩
  | cons r rest ih =>
    intro names
    rw [nullableRound_cons]
    by_cases hadd : r.head ∉ names ∧ sequenceNullable names r.body
    · have hround : addHead names r = names ++ [r.head] := if_pos hadd
      have hstep : addNullable names r = (true, names ++ [r.head]) := if_pos hadd
      have hgrow := length_le_nullableRound rest (names ++ [r.head])
      rw [List.length_append, List.length_singleton] at hgrow
      rw [inTurn, hstep, hround]
      exact ⟨(ih _).1, iff_of_true rfl (by omega)⟩
    · have hround : addHead names r = names := if_neg hadd
      have hstep : addNullable names r = (false, names) := if_neg hadd
      rw [inTurn, hstep, hround]
      exact ⟨(ih _).1, (ih _).2⟩

/-- Where there is nothing to add, a round adds nothing. -/
theorem nullableRound_of_closed {rules : List (Rule μ)} {names : List String}
    (h : NullableClosed rules names) : nullableRound rules names = names := by
  induction rules with
  | nil => rfl
  | cons r rest ih =>
    have hr : addHead names r = names :=
      if_neg fun hadd => hadd.1 (h r List.mem_cons_self hadd.2)
    rw [nullableRound_cons, hr]
    exact ih fun q hq => h q (List.mem_cons_of_mem _ hq)

/-- The loop for the nullable names arrives at what the rounds find. -/
theorem settles_nullableRounds {rules : List (Rule μ)} :
    ∀ (n : Nat) {names : List String}, names.Nodup → (∀ a ∈ names, a ∈ rules.map Rule.head) →
      rules.length ≤ names.length + n →
      Settles (fun names => inTurn addNullable names rules) names
        (nullableRounds rules n names) := by
  have hstop {names : List String} (h : NullableClosed rules names) :
      Settles (fun names => inTurn addNullable names rules) names names := by
    obtain ⟨hround, hflag⟩ := inTurn_addNullable rules names
    rw [nullableRound_of_closed h] at hround hflag
    have hsame : (inTurn addNullable names rules).1 = false := by simpa using hflag
    have hdone : Settles (fun names => inTurn addNullable names rules) names _ := .done hsame
    rwa [hround] at hdone
  intro n
  induction n with
  | zero =>
    intro names hnd hmem hlen
    exact hstop (nullableClosed_nullableRounds 0 hnd hmem hlen)
  | succ n ih =>
    intro names hnd hmem hlen
    rw [nullableRounds]
    split
    · rename_i hsame
      exact hstop (nullableClosed_of_length hsame)
    · rename_i hdiff
      obtain ⟨hround, hflag⟩ := inTurn_addNullable rules names
      obtain ⟨hnd', hmem'⟩ := nullableRound_heads (fun r hr => hr) hnd hmem
      have hle := length_le_nullableRound rules names
      refine .again (hflag.mpr hdiff) ?_
      rw [hround]
      exact ih hnd' hmem' (by omega)

/-- **The loop for the nullable names ends with them.** -/
theorem settles_nullable (g : Grammar μ) :
    Settles (fun names => inTurn addNullable names g.rules) [] (ofGrammar g).nullable :=
  settles_nullableRounds g.rules.length List.nodup_nil (fun a ha => absurd ha List.not_mem_nil)
    (by simp)

end

/-! ## FIRST and FOLLOW -/

/-- A table with one set for each name of a list. -/
abbrev Table (names : List String) : Type := {a // a ∈ names} → Lookahead

namespace Table

variable {names : List String}

/-- The set for a name, the empty set if it has no entry. -/
def get (table : Table names) (name : String) : Lookahead :=
  if h : name ∈ names then table ⟨name, h⟩ else .empty

/-- Adds to the set for a name, if it has an entry, and reports whether that changed the set. -/
def extend (set : Lookahead) (table : Table names) (name : String) : Bool × Table names :=
  if h : name ∈ names then
    let grown := (table ⟨name, h⟩).extend set
    (grown.1, Function.update table ⟨name, h⟩ grown.2)
  else (false, table)

theorem get_of_mem {table : Table names} {name : String} (h : name ∈ names) :
    table.get name = table ⟨name, h⟩ := dif_pos h

theorem get_mono {table table' : Table names} (h : table ≤ table') (name : String) :
    table.get name ≤ table'.get name := by
  unfold get
  split
  · exact h _
  · exact le_refl _

theorem grows_extend (set : Lookahead) (table : Table names) (name : String) :
    Grows table (table.extend set name) := by
  unfold extend
  split
  · rename_i h
    refine ⟨?_, ?_⟩
    · exact le_update_self_iff.mpr (le_sup_left (a := table ⟨name, h⟩) (b := set))
    · rw [ne_eq, Function.update_eq_self_iff]
      simp only [Lookahead.extend, decide_eq_true_eq]
  · exact ⟨le_refl table, by simp⟩

/-- A bound of the table and of what is added to one of its entries is a bound of the result. -/
theorem extend_le {set : Lookahead} {table bound : Table names} {name : String}
    (htable : table ≤ bound) (hset : ∀ h : name ∈ names, set ≤ bound ⟨name, h⟩) :
    (table.extend set name).2 ≤ bound := by
  unfold extend
  split
  · rename_i h
    exact update_le_iff.mpr ⟨sup_le (htable ⟨name, h⟩) (hset h), fun a _ => htable a⟩
  · exact htable

/-- What changes nothing was there before. -/
theorem le_of_extend_eq {set : Lookahead} {table : Table names} {name : String}
    (h : name ∈ names) (heq : (table.extend set name).2 = table) : set ≤ table ⟨name, h⟩ := by
  rw [extend, dif_pos h] at heq
  exact sup_eq_left.mp (Function.update_eq_self_iff.mp heq)

end Table

/-- One line of a loop: a value that is computed from the sets is added to the sets for some
names. -/
structure Update (names : List String) where
  /-- What is added, computed from the sets as they are. -/
  value : Table names → Lookahead
  /-- The names whose sets it is added to. -/
  targets : List String

namespace Update

variable {names : List String}

/-- The value is computed once, before it is added anywhere. -/
def run (table : Table names) (u : Update names) : Bool × Table names :=
  inTurn (Table.extend (u.value table)) table u.targets

/-- The update has nothing to add. -/
def Closed (u : Update names) (table : Table names) : Prop :=
  ∀ a ∈ u.targets, ∀ h : a ∈ names, u.value table ≤ table ⟨a, h⟩

theorem grows_run (table : Table names) (u : Update names) : Grows table (u.run table) :=
  grows_inTurn (Table.grows_extend _) _ _

theorem run_le {u : Update names} {table bound : Table names} (hmono : Monotone u.value)
    (hclosed : u.Closed bound) (h : table ≤ bound) : (u.run table).2 ≤ bound :=
  inTurn_le (fun a ha _ htable =>
    Table.extend_le htable fun hmem => (hmono h).trans (hclosed a ha hmem)) table h

theorem closed_of_run_eq {u : Update names} {table : Table names}
    (h : (u.run table).2 = table) : u.Closed table := by
  intro a ha hmem
  have hflag : (u.run table).1 = false :=
    Bool.eq_false_iff.mpr fun hchanged => (grows_run table u).changed_iff.mp hchanged h
  exact Table.le_of_extend_eq hmem (step_eq_of_inTurn (Table.grows_extend _) hflag a ha)

/-- **A loop of monotone updates arrives at the least table to which none of them adds.** -/
theorem settles {updates : List (Update names)} {start final : Table names}
    (hmono : ∀ u ∈ updates, Monotone u.value) (hstart : start ≤ final)
    (hclosed : ∀ u ∈ updates, u.Closed final)
    (hleast : ∀ table, start ≤ table → (∀ u ∈ updates, u.Closed table) → final ≤ table) :
    Settles (fun table => inTurn run table updates) start final :=
  settles_of_least grows_run hstart
    (fun u hu _ htable => run_le (hmono u hu) (hclosed u hu) htable)
    (fun table hlow hfixed => hleast table hlow fun u hu => closed_of_run_eq (hfixed u hu))

end Update

section

variable {μ : Type} [Matcher μ]

/-- The entries for the nonterminals of a grammar. -/
def entries (g : Grammar μ) (sets : List (String × Lookahead)) : Table g.nonterminals :=
  fun a => lookup sets a

/-- The head of a rule starts with what the body starts with. -/
def firstUpdate (g : Grammar μ) (sets : FirstFollow) (r : Rule μ) : Update g.nonterminals where
  value table := sequenceFirst sets.nullable table.get r.body
  targets := [r.head]

/-- The loop for FIRST has one line for each rule. -/
def firstUpdates (g : Grammar μ) (sets : FirstFollow) : List (Update g.nonterminals) :=
  g.rules.map (firstUpdate g sets)

/-- Behind the names in a symbol may come what starts the rest and, if that is nullable, what
comes behind the head. -/
def followUpdate (g : Grammar μ) (sets : FirstFollow) (head : String) (s : Symbol μ)
    (rest : List (Symbol μ)) : Update g.nonterminals where
  value table :=
    let set := sets.restFirst rest
    if sets.restNullable rest then set.union (table.get head) else set
  targets := s.references

/-- The loop for FOLLOW has one line for each symbol of each rule. -/
def followUpdates (g : Grammar μ) (sets : FirstFollow) : List (Update g.nonterminals) :=
  g.rules.flatMap fun r => (withRests r.body).map fun p => followUpdate g sets r.head p.1 p.2

/-- Before the loop for FOLLOW only the end of the text is known, behind the start symbol. -/
def followStart (g : Grammar μ) : Table g.nonterminals :=
  fun a => if a.1 = g.start then .endOfText else .empty

/-- The three loops, one after the other, end with these sets. -/
structure Settled (g : Grammar μ) (sets : FirstFollow) : Prop where
  /-- The loop over nullable heads ends with the nullable names. -/
  nullable : Settles (fun names => inTurn addNullable names g.rules) [] sets.nullable
  /-- Then the loop for FIRST ends with the FIRST sets. -/
  first : Settles (fun table => inTurn Update.run table (firstUpdates g sets)) (fun _ => .empty)
    (entries g sets.first)
  /-- Then the loop for FOLLOW ends with the FOLLOW sets. -/
  follow : Settles (fun table => inTurn Update.run table (followUpdates g sets)) (followStart g)
    (entries g sets.follow)

variable {g : Grammar μ}

omit [Matcher μ] in
/-- Names without an entry have nothing in the whole table either. -/
theorem get_entries_linked {links : String → List String} {direct : String → Lookahead} :
    (entries g (linked g links direct)).get = lookup (linked g links direct) := by
  funext name
  by_cases h : name ∈ g.nonterminals
  · exact Table.get_of_mem h
  · rw [Table.get, dif_neg h, linked, lookup_map, if_neg h]

theorem get_entries_first : (entries g (ofGrammar g).first).get = lookup (ofGrammar g).first := by
  rw [first_eq_linked]
  exact get_entries_linked

theorem get_entries_follow :
    (entries g (ofGrammar g).follow).get = lookup (ofGrammar g).follow := by
  rw [follow_eq_linked]
  exact get_entries_linked

theorem firstUpdate_value_entries {r : Rule μ} :
    (firstUpdate g (ofGrammar g) r).value (entries g (ofGrammar g).first)
      = (ofGrammar g).restFirst r.body := by
  show sequenceFirst _ (entries g (ofGrammar g).first).get r.body = _
  rw [get_entries_first]
  rfl

theorem followUpdate_value_entries {head : String} {s : Symbol μ} {rest : List (Symbol μ)} :
    (followUpdate g (ofGrammar g) head s rest).value (entries g (ofGrammar g).follow)
      = (ofGrammar g).lookahead head rest := by
  simp only [followUpdate, get_entries_follow, lookahead]

theorem monotone_firstUpdate {r : Rule μ} : Monotone (firstUpdate g (ofGrammar g) r).value := by
  intro table table' hle F h
  rw [firstUpdate, holds_sequenceFirst_iff] at h ⊢
  exact h.mono fun a => Table.get_mono hle a F

theorem monotone_followUpdate {head : String} {s : Symbol μ} {rest : List (Symbol μ)} :
    Monotone (followUpdate g (ofGrammar g) head s rest).value := by
  intro table table' hle
  simp only [followUpdate]
  split
  · exact sup_le_sup_left (Table.get_mono hle head) ((ofGrammar g).restFirst rest)
  · exact le_refl _

theorem mem_followUpdates_iff {u : Update g.nonterminals} :
    u ∈ followUpdates g (ofGrammar g) ↔ ∃ r ∈ g.rules, ∃ s rest, s :: rest <:+ r.body ∧
      followUpdate g (ofGrammar g) r.head s rest = u := by
  simp only [followUpdates, List.mem_flatMap, List.mem_map, Prod.exists, mem_withRests_iff]

/-- FIRST is below every table to which no rule adds. -/
theorem entries_first_le {table : Table g.nonterminals}
    (hclosed : ∀ u ∈ firstUpdates g (ofGrammar g), u.Closed table) :
    entries g (ofGrammar g).first ≤ table := by
  intro a F h
  have hget : table.get a.1 = table a := Table.get_of_mem a.2
  rw [← hget]
  refine holds_first_least (T := fun name => F.Holds (table.get name)) ?_ h
  intro r hr hfront
  have hhead := head_mem_nonterminals hr
  have hvalue : F.Holds ((firstUpdate g (ofGrammar g) r).value table) :=
    (holds_sequenceFirst_iff F).mpr hfront
  rw [Table.get_of_mem hhead]
  exact hclosed _ (List.mem_map_of_mem hr) r.head (List.mem_singleton_self _) hhead F hvalue

/-- FOLLOW is below every table that has the end of the text behind the start symbol and to which
no place in a rule adds. -/
theorem entries_follow_le {table : Table g.nonterminals} (hlow : followStart g ≤ table)
    (hclosed : ∀ u ∈ followUpdates g (ofGrammar g), u.Closed table) :
    entries g (ofGrammar g).follow ≤ table := by
  intro a F h
  -- nothing is claimed of the names without rules: they have no entries
  have hleast : a.1 ∈ g.nonterminals → F.Holds (table.get a.1) := by
    refine holds_follow_least (T := fun name => name ∈ g.nonterminals → F.Holds (table.get name))
      ?_ ?_ h
    · intro hend hstart
      rw [Table.get_of_mem hstart]
      refine hlow ⟨g.start, hstart⟩ F ?_
      rwa [followStart, if_pos rfl]
    · intro r hr s rest hsuffix name hname hmore hmem
      have hvalue : F.Holds ((followUpdate g (ofGrammar g) r.head s rest).value table) := by
        simp only [followUpdate]
        rcases hmore with hfirst | ⟨hnull, hhead⟩
        · split
          · exact F.union.mpr (Or.inl hfirst)
          · exact hfirst
        · rw [if_pos hnull]
          exact F.union.mpr (Or.inr (hhead (head_mem_nonterminals hr)))
      rw [Table.get_of_mem hmem]
      exact hclosed _ (mem_followUpdates_iff.mpr ⟨r, hr, s, rest, hsuffix, rfl⟩) name hname hmem F
        hvalue
  rw [Table.get_of_mem a.2] at hleast
  exact hleast a.2

/-- **The loop for FIRST ends with the FIRST sets.** -/
theorem settles_first (g : Grammar μ) :
    Settles (fun table => inTurn Update.run table (firstUpdates g (ofGrammar g)))
      (fun _ => .empty) (entries g (ofGrammar g).first) := by
  refine Update.settles ?mono (fun a => Lookahead.empty_le _) ?closed
    fun table _ hclosed => entries_first_le hclosed
  case mono =>
    intro u hu
    obtain ⟨r, -, rfl⟩ := List.mem_map.mp hu
    exact monotone_firstUpdate
  case closed =>
    intro u hu a ha hmem F h
    obtain ⟨r, hr, rfl⟩ := List.mem_map.mp hu
    obtain rfl := List.mem_singleton.mp ha
    rw [firstUpdate_value_entries] at h
    exact holds_first_of_body hr h

/-- **The loop for FOLLOW ends with the FOLLOW sets.** -/
theorem settles_follow (g : Grammar μ) :
    Settles (fun table => inTurn Update.run table (followUpdates g (ofGrammar g)))
      (followStart g) (entries g (ofGrammar g).follow) := by
  refine Update.settles ?mono ?start ?closed
    fun table hlow hclosed => entries_follow_le hlow hclosed
  case mono =>
    intro u hu
    obtain ⟨r, -, s, rest, -, rfl⟩ := mem_followUpdates_iff.mp hu
    exact monotone_followUpdate
  case start =>
    intro a F h
    unfold followStart at h
    split at h
    · rename_i hstart
      have hfollow := holds_follow_start (hstart ▸ a.2) h
      rwa [← hstart] at hfollow
    · exact absurd h F.empty
  case closed =>
    intro u hu a ha hmem F h
    obtain ⟨r, hr, s, rest, hsuffix, rfl⟩ := mem_followUpdates_iff.mp hu
    rw [followUpdate_value_entries] at h
    exact holds_follow_of_lookahead hr hsuffix ha hmem h

/-- **The sets of a grammar are what the loops arrive at.** -/
theorem settled_ofGrammar (g : Grammar μ) : Settled g (ofGrammar g) where
  nullable := settles_nullable g
  first := settles_first g
  follow := settles_follow g

end

end FirstFollow

end GeneralLL
