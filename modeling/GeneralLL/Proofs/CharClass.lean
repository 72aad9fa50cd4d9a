import GeneralLL.Lookahead

/-!
# What a character class holds

A class is kept in normal form and searched by bisection. Both are invisible from
outside: a class holds exactly the characters that lie in one of its ranges, an
insertion adds exactly the characters of the new range, and a union holds what one of
its sides holds.

Ranges cover code points, and a few of these are no characters. It is the code points that
are covered that **determine the normal form** (`CharClass.ext_of_covers`).

A **feature** of lookahead sets is a property that a union has exactly if one of its sides has
it. To admit what comes next is one of them.
-/

namespace GeneralLL

/-! ## Bisection -/

namespace Search

variable {α : Type} {test : α → Bool} {items : Array α}

/-- Everything before the answer passes the test and nothing from it on does, provided that this
holds of the two ends of the window. -/
theorem bisect_splits (hmono : ∀ i j : Nat, i ≤ j → (items[j]?).any test → (items[i]?).any test)
    (lo hi : Nat) (hlo : ∀ i, i < lo → (items[i]?).any test)
    (hhi : ∀ i, hi ≤ i → ¬ (items[i]?).any test) :
    ∀ i, i < bisect test items lo hi ↔ (items[i]?).any test := by
  induction lo, hi using bisect.induct test items with
  | case1 lo hi hlt middle hmid ih =>
    rw [bisect, if_pos hlt, if_pos hmid]
    exact ih (fun i hi' => hmono i middle (Nat.le_of_lt_succ hi') hmid) hhi
  | case2 lo hi hlt middle hmid ih =>
    rw [bisect, if_pos hlt, if_neg hmid]
    exact ih hlo (fun i hi' h => hmid (hmono middle i hi' h))
  | case3 lo hi hge =>
    rw [bisect, if_neg hge]
    intro i
    constructor
    · exact hlo i
    · intro h
      rcases Nat.lt_or_ge i lo with hi' | hi'
      · exact hi'
      · exact absurd h (hhi i (by omega))

/-- The partition point counts the elements that pass the test. -/
theorem lt_partitionPoint_iff
    (hmono : ∀ i j : Nat, i ≤ j → (items[j]?).any test → (items[i]?).any test) (i : Nat) :
    i < partitionPoint test items ↔ (items[i]?).any test := by
  refine bisect_splits hmono 0 items.size (fun i hi => absurd hi (Nat.not_lt_zero i)) ?_ i
  intro i hi
  rw [Array.getElem?_eq_none hi]
  simp

end Search

/-! ## Ranges -/

namespace CharRange

/-- The code point lies between the bounds. -/
def Covers (r : CharRange) (n : Nat) : Prop := r.first.toNat ≤ n ∧ n ≤ r.last.toNat

theorem contains_iff {r : CharRange} {c : Char} : r.contains c ↔ r.Covers c.toNat := by
  simp [contains, Covers, Char.le_def, UInt32.le_iff_toNat_le]

theorem first_join (r s : CharRange) :
    (r.join s).first.toNat = min r.first.toNat s.first.toNat := by
  simp only [join, Char.le_def, UInt32.le_iff_toNat_le, Char.toNat_val]
  split <;> omega

theorem last_join (r s : CharRange) :
    (r.join s).last.toNat = max r.last.toNat s.last.toNat := by
  simp only [join, Char.le_def, UInt32.le_iff_toNat_le, Char.toNat_val]
  split <;> omega

/-- Two ranges that touch leave nothing out between them. -/
theorem covers_join {r s : CharRange} (hrs : ¬ r.Before s) (hsr : ¬ s.Before r) {n : Nat} :
    (r.join s).Covers n ↔ r.Covers n ∨ s.Covers n := by
  have hr : r.first.toNat ≤ r.last.toNat := r.first_le_last
  have hs : s.first.toNat ≤ s.last.toNat := s.first_le_last
  unfold Before at hrs hsr
  rw [Covers, Covers, Covers, first_join, last_join]
  omega

/-- **Insertion adds what the new range covers.** -/
theorem exists_covers_insertInto {l : List CharRange} {n : Nat} :
    ∀ {r : CharRange}, (∃ s ∈ r.insertInto l, s.Covers n) ↔ r.Covers n ∨ ∃ s ∈ l, s.Covers n := by
  induction l with
  | nil => intro r; simp [insertInto]
  | cons s rest ih =>
    intro r
    rw [insertInto]
    split
    · simp only [List.mem_cons, exists_eq_or_imp, ih]
      exact or_left_comm
    · split
      · simp only [List.mem_cons, exists_eq_or_imp]
      · rename_i hsr hrs
        simp only [List.mem_cons, exists_eq_or_imp, ih, covers_join hrs hsr, or_assoc]

/-- What comes behind a range covers nothing up to the code point behind its end. -/
theorem not_covers_of_before {q : CharRange} {l : List CharRange} (h : ∀ s ∈ l, q.Before s)
    {n : Nat} (hn : n ≤ q.last.toNat + 1) : ¬∃ s ∈ l, s.Covers n := by
  intro hcovers
  obtain ⟨s, hs, hfirst, -⟩ := hcovers
  have hbefore := h s hs
  unfold Before at hbefore
  omega

/-- The first range in normal form reaches as far as code points are covered without a gap. -/
theorem eq_of_covers {r s : CharRange} {l m : List CharRange} (hr : ∀ t ∈ l, r.Before t)
    (hs : ∀ t ∈ m, s.Before t)
    (h : ∀ n, (∃ t ∈ r :: l, t.Covers n) ↔ ∃ t ∈ s :: m, t.Covers n) : r = s := by
  have hrle : r.first.toNat ≤ r.last.toNat := r.first_le_last
  have hsle : s.first.toNat ≤ s.last.toNat := s.first_le_last
  simp only [List.mem_cons, exists_eq_or_imp] at h
  have hlow {n : Nat} {q : CharRange} {k : List CharRange} (hq : ∀ t ∈ k, q.Before t)
      (hn : q.Covers n ∨ ∃ t ∈ k, t.Covers n) : q.first.toNat ≤ n := by
    rcases hn with hn | ⟨t, ht, hfirst, -⟩
    · exact hn.1
    · have hbefore := hq t ht
      have hq' : q.first.toNat ≤ q.last.toNat := q.first_le_last
      unfold Before at hbefore
      omega
  have hfirst : r.first.toNat = s.first.toNat := Nat.le_antisymm
    (hlow hr ((h _).mpr (Or.inl ⟨Nat.le_refl _, hsle⟩)))
    (hlow hs ((h _).mp (Or.inl ⟨Nat.le_refl _, hrle⟩)))
  have hlast : r.last.toNat = s.last.toNat := by
    -- the longer one of the two would cover what is left out behind the other
    rcases Nat.lt_trichotomy r.last.toNat s.last.toNat with hlt | heq | hgt
    · rcases (h (r.last.toNat + 1)).mpr (Or.inl ⟨by omega, by omega⟩) with hn | hn
      · exact absurd hn.2 (by omega)
      · exact absurd hn (not_covers_of_before hr (Nat.le_refl _))
    · exact heq
    · rcases (h (s.last.toNat + 1)).mp (Or.inl ⟨by omega, by omega⟩) with hn | hn
      · exact absurd hn.2 (by omega)
      · exact absurd hn (not_covers_of_before hs (Nat.le_refl _))
  obtain ⟨first, last, hle⟩ := r
  obtain ⟨first', last', hle'⟩ := s
  obtain rfl := Char.toNat_inj.mp hfirst
  obtain rfl := Char.toNat_inj.mp hlast
  rfl

/-- **Ranges in normal form are determined by what they cover.** -/
theorem eq_of_pairwise {l : List CharRange} :
    ∀ {m : List CharRange}, l.Pairwise Before → m.Pairwise Before →
      (∀ n, (∃ r ∈ l, r.Covers n) ↔ ∃ r ∈ m, r.Covers n) → l = m := by
  induction l with
  | nil =>
    intro m _ _ h
    cases m with
    | nil => rfl
    | cons s rest =>
      have hs : ∃ r ∈ s :: rest, r.Covers s.first.toNat :=
        ⟨s, List.mem_cons_self, Nat.le_refl _, s.first_le_last⟩
      exact absurd ((h _).mpr hs) (by simp)
  | cons r rest ih =>
    intro m hl hm h
    have hr : ∃ s ∈ r :: rest, s.Covers r.first.toNat :=
      ⟨r, List.mem_cons_self, Nat.le_refl _, r.first_le_last⟩
    cases m with
    | nil => exact absurd ((h _).mp hr) (by simp)
    | cons s others =>
      obtain ⟨hrest, hlrest⟩ := List.pairwise_cons.mp hl
      obtain ⟨hothers, hmothers⟩ := List.pairwise_cons.mp hm
      obtain rfl := eq_of_covers hrest hothers h
      rw [ih hlrest hmothers fun n => ?_]
      -- behind the first range, what is covered is covered by the others
      simp only [List.mem_cons, exists_eq_or_imp] at h
      by_cases hn : n ≤ r.last.toNat
      · have hgap : n ≤ r.last.toNat + 1 := by omega
        exact iff_of_false (not_covers_of_before hrest hgap) (not_covers_of_before hothers hgap)
      · have hnot : ¬r.Covers n := fun hc => hn hc.2
        simpa [hnot] using h n

end CharRange

/-! ## Classes -/

namespace CharClass

theorem mem_iff {s : CharClass} {c : Char} : c ∈ s ↔ ∃ r ∈ s.ranges.toList, r.contains c := by
  show (∃ r ∈ s.ranges, r.contains c) ↔ _
  simp only [Array.mem_toList_iff]

/-- Ranges further right end further right. -/
theorem last_le_last {s : CharClass} {i j : Nat} {r t : CharRange} (hij : i ≤ j)
    (hr : s.ranges[i]? = some r) (ht : s.ranges[j]? = some t) :
    r.last.toNat ≤ t.last.toNat := by
  rcases Nat.lt_or_eq_of_le hij with hlt | rfl
  · obtain ⟨hi, rfl⟩ := Array.getElem?_eq_some_iff.mp hr
    obtain ⟨hj, rfl⟩ := Array.getElem?_eq_some_iff.mp ht
    have hbefore := List.pairwise_iff_getElem.mp s.sorted i j (by simpa using hi)
      (by simpa using hj) hlt
    have hle : s.ranges[j].first.toNat ≤ s.ranges[j].last.toNat := s.ranges[j].first_le_last
    simp only [Array.getElem_toList, CharRange.Before] at hbefore
    omega
  · obtain rfl := Option.some.inj (hr.symm.trans ht)
    exact Nat.le_refl _

/-- **Bisection finds what is there:** a class contains the characters of its ranges. -/
theorem contains_iff_mem {s : CharClass} {c : Char} : s.contains c ↔ c ∈ s := by
  let ends : CharRange → Bool := fun r => r.last < c
  have hends : ∀ r : CharRange, ends r ↔ r.last.toNat < c.toNat := by
    intro r
    simp [ends, Char.lt_def, UInt32.lt_iff_toNat_lt]
  have hmono : ∀ i j : Nat, i ≤ j → (s.ranges[j]?).any ends → (s.ranges[i]?).any ends := by
    intro i j hij h
    obtain ⟨t, ht, htc⟩ := (Option.any_eq_true _ _).mp h
    obtain ⟨hj, -⟩ := Array.getElem?_eq_some_iff.mp ht
    have hr : s.ranges[i]? = some s.ranges[i] := Array.getElem?_eq_getElem (by omega)
    have hle := last_le_last hij hr ht
    rw [hends] at htc
    rw [hr, Option.any_some, hends]
    omega
  have hsplit := Search.lt_partitionPoint_iff hmono
  have hcontains : s.contains c ↔
      ∃ r, s.ranges[Search.partitionPoint ends s.ranges]? = some r ∧ r.first ≤ c := by
    unfold contains
    rw [Option.any_eq_true]
    simp [ends]
  rw [hcontains, mem_iff]
  constructor
  · intro hrange
    obtain ⟨r, hr, hfirst⟩ := hrange
    have hlast : ¬ ends r := by
      have h := mt (hsplit _).mpr (Nat.lt_irrefl _)
      rwa [hr, Option.any_some] at h
    rw [hends] at hlast
    exact ⟨r, Array.mem_toList_iff.mpr (Array.mem_of_getElem? hr),
      CharRange.contains_iff.mpr ⟨hfirst, by omega⟩⟩
  · intro hrange
    obtain ⟨r, hr, hc⟩ := hrange
    obtain ⟨i, hi, rfl⟩ := Array.getElem_of_mem (Array.mem_toList_iff.mp hr)
    obtain ⟨hfirst, hlast⟩ := CharRange.contains_iff.mp hc
    have hge : Search.partitionPoint ends s.ranges ≤ i := by
      refine Nat.le_of_not_lt fun hlt => ?_
      have h := (hsplit i).mp hlt
      rw [Array.getElem?_eq_getElem hi, Option.any_some, hends] at h
      omega
    -- the range that is found cannot lie further left: it would end before the character
    have hk : Search.partitionPoint ends s.ranges < s.ranges.size := by omega
    refine ⟨_, Array.getElem?_eq_getElem hk, ?_⟩
    rcases Nat.lt_or_eq_of_le hge with hlt | heq
    · have hbefore := List.pairwise_iff_getElem.mp s.sorted _ i (by simpa using hk)
        (by simpa using hi) hlt
      have hstop : ¬ ends (s.ranges[Search.partitionPoint ends s.ranges]) := by
        have h := mt (hsplit _).mpr (Nat.lt_irrefl _)
        rwa [Array.getElem?_eq_getElem hk, Option.any_some] at h
      rw [hends] at hstop
      simp only [Array.getElem_toList, CharRange.Before] at hbefore
      omega
    · subst heq
      exact hfirst

/-- The code point lies in one of the ranges. -/
def Covers (s : CharClass) (n : Nat) : Prop := ∃ r ∈ s.ranges.toList, r.Covers n

theorem contains_iff_covers {s : CharClass} {c : Char} : s.contains c ↔ s.Covers c.toNat := by
  rw [contains_iff_mem, mem_iff, Covers]
  simp only [CharRange.contains_iff]

theorem covers_insertRange {s : CharClass} {r : CharRange} {n : Nat} :
    (s.insertRange r).Covers n ↔ r.Covers n ∨ s.Covers n := by
  rw [Covers, insertRange]
  exact CharRange.exists_covers_insertInto

theorem covers_foldl_insertRange {l : List CharRange} {n : Nat} :
    ∀ {s : CharClass}, (l.foldl insertRange s).Covers n ↔ s.Covers n ∨ ∃ r ∈ l, r.Covers n := by
  induction l with
  | nil => intro s; simp
  | cons r rest ih =>
    intro s
    rw [List.foldl_cons, ih, covers_insertRange, or_comm (a := r.Covers n), or_assoc]
    simp only [List.mem_cons, exists_eq_or_imp]

/-- **A union covers what one of its sides covers.** -/
theorem covers_union {s t : CharClass} {n : Nat} :
    (s.union t).Covers n ↔ s.Covers n ∨ t.Covers n := by
  rw [union, ← Array.foldl_toList, covers_foldl_insertRange]
  rfl

theorem not_covers_empty {n : Nat} : ¬empty.Covers n := by
  simp [Covers, empty]

/-- **Classes that cover the same are the same.** -/
theorem ext_of_covers {s t : CharClass} (h : ∀ n, s.Covers n ↔ t.Covers n) : s = t := by
  obtain ⟨ranges, hsorted⟩ := s
  obtain ⟨ranges', hsorted'⟩ := t
  obtain rfl : ranges = ranges' :=
    Array.toList_inj.mp (CharRange.eq_of_pairwise hsorted hsorted' h)
  rfl

theorem contains_union {s t : CharClass} {c : Char} :
    (s.union t).contains c ↔ s.contains c ∨ t.contains c := by
  rw [contains_iff_covers, contains_iff_covers, contains_iff_covers, covers_union]

theorem contains_single {c d : Char} : (single c).contains d ↔ d = c := by
  rw [contains_iff_covers, Covers]
  simp only [single, List.mem_singleton, exists_eq_left, CharRange.Covers]
  rw [← Char.toNat_inj]
  omega

theorem not_contains_empty {c : Char} : ¬ empty.contains c := by
  rw [contains_iff_covers]
  exact not_covers_empty

end CharClass

/-! ## Lookahead sets -/

namespace Lookahead

/-- **A union admits what one of its sides admits.** -/
theorem admits_union {s t : Lookahead} {next : Option Char} :
    (s.union t).admits next ↔ s.admits next ∨ t.admits next := by
  cases next with
  | none =>
    simp only [admits, union, Option.elim_none, Bool.or_eq_true]
    exact or_or_or_comm
  | some c =>
    simp only [admits, union, Option.elim_some, Bool.or_eq_true, CharClass.contains_union]
    exact or_or_or_comm

theorem not_admits_empty {next : Option Char} : ¬ empty.admits next := by
  cases next with
  | none => simp [admits, empty]
  | some c =>
    simp only [admits, empty, Option.elim_some, Bool.false_or]
    exact CharClass.not_contains_empty

theorem admits_ofClass {s : CharClass} {c : Char} : (ofClass s).admits (some c) ↔ s.contains c := by
  simp [admits, ofClass]

theorem admits_anything {next : Option Char} : anything.admits next := by
  simp [admits, anything]

theorem admits_endOfText : endOfText.admits none := by
  simp [admits, endOfText]

/-! ## Features -/

/-- A property that a union has exactly if one of its sides has it, and that the empty set does
not have. -/
structure Feature where
  /-- To have the property. -/
  Holds : Lookahead → Prop
  /-- A union has what one of its sides has, and nothing else. -/
  union : ∀ {s t : Lookahead}, Holds (s.union t) ↔ Holds s ∨ Holds t
  /-- The empty set does not have it. -/
  empty : ¬Holds .empty

namespace Feature

/-- To admit what comes next. -/
def admitting (next : Option Char) : Feature where
  Holds s := s.admits next
  union := admits_union
  empty := not_admits_empty

/-- The feature of a set that was put together step by step. -/
theorem holds_foldl (F : Feature) {α : Type} {step : Lookahead → α → Lookahead} {P : α → Prop}
    (hstep : ∀ s a, F.Holds (step s a) ↔ F.Holds s ∨ P a) {l : List α} :
    ∀ {s : Lookahead}, F.Holds (l.foldl step s) ↔ F.Holds s ∨ ∃ a ∈ l, P a := by
  induction l with
  | nil => intro s; simp
  | cons a rest ih =>
    intro s
    rw [List.foldl_cons, ih, hstep, or_assoc]
    simp only [List.mem_cons, exists_eq_or_imp]

/-- A union over a list has the feature of one of its members. -/
theorem holds_foldl_union (F : Feature) {α : Type} {f : α → Lookahead} {l : List α}
    {s : Lookahead} : F.Holds (l.foldl (fun s a => s.union (f a)) s)
      ↔ F.Holds s ∨ ∃ a ∈ l, F.Holds (f a) :=
  F.holds_foldl (P := fun a => F.Holds (f a)) fun _ _ => F.union

end Feature

end Lookahead

end GeneralLL
