import GeneralLL.Proofs.CharClass
import GeneralLL.Proofs.Numbering
import GeneralLL.Terminal

/-!
# How a character class was built

A class starts out from nothing, a character or some ranges, and then characters, ranges and other
classes are added to it (`CharClass.History`). It does not remember how:

* it holds exactly the characters that were put in, and its ranges are those that one gets by
  **sorting** everything that was put in and **sweeping** over it once (`build_exact`);
* two histories build the same class exactly if they put in the same characters and either both or
  neither put in a range that **bridges** the code points that are no characters
  (`build_determined`).

The bridge is the one thing that the characters do not tell. Nothing lies between U+D7FF and
U+E000, so a range that ends with the one and a range that starts with the other hold the same
characters as both in one, but they are kept apart (`built_apart`). Terminals are numbered apart
then, and a lookahead set is reported to change although it admits nothing new.
-/

namespace GeneralLL

/-! ## Sorting and sweeping -/

namespace CharRange

/-- Goes through ranges behind `r`, and joins to it those that it overlaps or touches. -/
def sweepFrom (r : CharRange) : List CharRange → List CharRange
  | [] => [r]
  | s :: rest =>
    if s.first.toNat ≤ r.last.toNat + 1 then sweepFrom (r.join s) rest else r :: sweepFrom s rest

/-- Goes through ranges once, joining neighbours that overlap or touch. -/
def sweep : List CharRange → List CharRange
  | [] => []
  | r :: rest => sweepFrom r rest

/-- Ranges in any order, sorted by their starts. -/
def sort (rs : List CharRange) : List CharRange :=
  rs.mergeSort fun r s => r.first.toNat ≤ s.first.toNat

/-- Ranges in any order, sorted and swept. -/
def normalize (rs : List CharRange) : List CharRange := sweep (sort rs)

/-- No range starts before one that precedes it. -/
def Sorted (rs : List CharRange) : Prop := rs.Pairwise fun r s => r.first.toNat ≤ s.first.toNat

theorem sorted_sort (rs : List CharRange) : Sorted (sort rs) := by
  have htrans (r s t : CharRange) : decide (r.first.toNat ≤ s.first.toNat) →
      decide (s.first.toNat ≤ t.first.toNat) → decide (r.first.toNat ≤ t.first.toNat) := by
    simp only [decide_eq_true_eq]
    exact Nat.le_trans
  have htotal (r s : CharRange) :
      decide (r.first.toNat ≤ s.first.toNat) || decide (s.first.toNat ≤ r.first.toNat) := by
    simp only [Bool.or_eq_true, decide_eq_true_eq]
    exact Nat.le_total ..
  exact (List.pairwise_mergeSort htrans htotal rs).imp of_decide_eq_true

theorem mem_sort {rs : List CharRange} {r : CharRange} : r ∈ sort rs ↔ r ∈ rs := List.mem_mergeSort

theorem Sorted.join {r s : CharRange} {l : List CharRange} (h : Sorted (r :: s :: l)) :
    Sorted (r.join s :: l) := by
  obtain ⟨hr, hl⟩ := List.pairwise_cons.mp h
  refine List.pairwise_cons.mpr ⟨fun t ht => ?_, (List.pairwise_cons.mp hl).2⟩
  have hrt := hr t (List.mem_cons_of_mem s ht)
  rw [first_join]
  omega

theorem Sorted.first_le {r s : CharRange} {l : List CharRange} (h : Sorted (r :: s :: l)) :
    r.first.toNat ≤ s.first.toNat :=
  (List.pairwise_cons.mp h).1 s List.mem_cons_self

/-- A sweep starts no range before the first one. -/
theorem first_le_of_mem_sweepFrom {l : List CharRange} :
    ∀ {r : CharRange}, Sorted (r :: l) → ∀ t ∈ r.sweepFrom l, r.first.toNat ≤ t.first.toNat := by
  induction l with
  | nil =>
    intro r _ t ht
    rw [sweepFrom, List.mem_singleton] at ht
    exact ht ▸ Nat.le_refl _
  | cons s rest ih =>
    intro r h t ht
    have hrs := h.first_le
    rw [sweepFrom] at ht
    split at ht
    · have hle := ih h.join t ht
      rw [first_join] at hle
      omega
    · rcases List.mem_cons.mp ht with rfl | ht
      · exact Nat.le_refl _
      · exact Nat.le_trans hrs (ih h.of_cons t ht)

/-- **A sweep over sorted ranges leaves them in normal form.** -/
theorem pairwise_sweepFrom {l : List CharRange} :
    ∀ {r : CharRange}, Sorted (r :: l) → (r.sweepFrom l).Pairwise Before := by
  induction l with
  | nil => exact fun _ => List.pairwise_singleton ..
  | cons s rest ih =>
    intro r h
    rw [sweepFrom]
    split
    · exact ih h.join
    · rename_i hgap
      refine List.pairwise_cons.mpr ⟨fun t ht => ?_, ih h.of_cons⟩
      have hle := first_le_of_mem_sweepFrom h.of_cons t ht
      unfold Before
      omega

/-- **A sweep over sorted ranges covers what they cover.** -/
theorem exists_covers_sweepFrom {l : List CharRange} {n : Nat} :
    ∀ {r : CharRange}, Sorted (r :: l) →
      ((∃ t ∈ r.sweepFrom l, t.Covers n) ↔ r.Covers n ∨ ∃ s ∈ l, s.Covers n) := by
  induction l with
  | nil => intro r _; simp [sweepFrom]
  | cons s rest ih =>
    intro r h
    rw [sweepFrom]
    split
    · rename_i htouch
      have hfirst := h.first_le
      have hs : s.first.toNat ≤ s.last.toNat := s.first_le_last
      have hrs : ¬r.Before s := by unfold Before; omega
      have hsr : ¬s.Before r := by unfold Before; omega
      simp only [ih h.join, covers_join hrs hsr, List.mem_cons, exists_eq_or_imp, or_assoc]
    · simp only [List.mem_cons, exists_eq_or_imp, ih h.of_cons]

theorem pairwise_normalize (rs : List CharRange) : (normalize rs).Pairwise Before := by
  have hsorted := sorted_sort rs
  rw [normalize]
  cases hrs : sort rs with
  | nil => exact List.Pairwise.nil
  | cons r rest => exact pairwise_sweepFrom (hrs ▸ hsorted)

theorem exists_covers_normalize {rs : List CharRange} {n : Nat} :
    (∃ r ∈ normalize rs, r.Covers n) ↔ ∃ r ∈ rs, r.Covers n := by
  have hsorted := sorted_sort rs
  have hmem : (∃ r ∈ sort rs, r.Covers n) ↔ ∃ r ∈ rs, r.Covers n := by simp only [mem_sort]
  rw [← hmem, normalize]
  cases hrs : sort rs with
  | nil => rfl
  | cons r rest =>
    rw [sweep, exists_covers_sweepFrom (hrs ▸ hsorted)]
    simp only [List.mem_cons, exists_eq_or_imp]

/-- The character lies between two bounds, whichever of them comes first. -/
def Within (a b c : Char) : Prop := a ≤ c ∧ c ≤ b ∨ b ≤ c ∧ c ≤ a

/-- The range between two bounds is the same whichever comes first. -/
theorem covers_between {a b : Char} {n : Nat} :
    (between a b).Covers n
      ↔ a.toNat ≤ n ∧ n ≤ b.toNat ∨ b.toNat ≤ n ∧ n ≤ a.toNat := by
  unfold between Covers
  split
  · rename_i hle
    have hle : a.toNat ≤ b.toNat := hle
    dsimp only
    omega
  · rename_i hnot
    have hle : ¬a.toNat ≤ b.toNat := hnot
    dsimp only
    omega

theorem contains_between {a b c : Char} : (between a b).contains c ↔ Within a b c :=
  contains_iff.trans covers_between

theorem within_self {a c : Char} : Within a a c ↔ c = a := by
  rw [Within, and_comm, or_self]
  constructor
  · intro h
    exact Char.le_antisymm h.1 h.2
  · rintro rfl
    exact ⟨Char.le_refl c, Char.le_refl c⟩

/-! ## Code points that are no characters -/

/-- The range holds the characters on both sides of the code points that are no characters. -/
def Bridges (r : CharRange) : Prop := r.contains '\uD7FF' ∧ r.contains '\uE000'

instance (r : CharRange) : Decidable r.Bridges := inferInstanceAs (Decidable (_ ∧ _))

/-- A range covers code points that are no characters only together with those around them. -/
theorem bridges_iff_covers {r : CharRange} {n : Nat} (hlow : 0xD7FF < n) (hhigh : n < 0xE000) :
    r.Bridges ↔ r.Covers n := by
  have hfirst : Char.isValidCharNat r.first.toNat := r.first.valid
  have hlast : Char.isValidCharNat r.last.toNat := r.last.valid
  have hbefore : '\uD7FF'.toNat = 0xD7FF := rfl
  have hbehind : '\uE000'.toNat = 0xE000 := rfl
  rw [Bridges, contains_iff, contains_iff, Covers, Covers, Covers, hbefore, hbehind]
  unfold Char.isValidCharNat at hfirst hlast
  omega

/-- All that the first ranges hold, the second ones hold, and if one of the first bridges the code
points that are no characters, one of the second does. -/
structure Included (l m : List CharRange) : Prop where
  /-- What the first ranges hold is held by the second. -/
  holds : ∀ c, (∃ r ∈ l, r.contains c) → ∃ r ∈ m, r.contains c
  /-- If the first ranges have a bridge, then so have the second. -/
  bridges : (∃ r ∈ l, r.Bridges) → ∃ r ∈ m, r.Bridges

/-- **What ranges cover is what they hold and whether they bridge.** -/
theorem covers_imp_iff_included {l m : List CharRange} :
    (∀ n, (∃ r ∈ l, r.Covers n) → ∃ r ∈ m, r.Covers n) ↔ Included l m := by
  constructor
  · intro h
    refine ⟨fun c hc => ?_, fun hbridges => ?_⟩
    · simp only [contains_iff] at hc ⊢
      exact h _ hc
    · simp only [bridges_iff_covers (n := 0xD800) (by omega) (by omega)] at hbridges ⊢
      exact h _ hbridges
  · intro h n hn
    by_cases hvalid : Char.isValidCharNat n
    · obtain ⟨c, rfl⟩ : ∃ c : Char, c.toNat = n := ⟨Char.ofNatAux n hvalid, rfl⟩
      have hc := h.holds c
      simp only [contains_iff] at hc
      exact hc hn
    · -- the number is below the end of a range, so it is not too large for a character
      have hgap : 0xD7FF < n ∧ n < 0xE000 := by
        obtain ⟨r, -, -, hlast⟩ := hn
        have hend : Char.isValidCharNat r.last.toNat := r.last.valid
        unfold Char.isValidCharNat at hvalid hend
        omega
      have hbridges := h.bridges
      simp only [bridges_iff_covers hgap.1 hgap.2] at hbridges
      exact hbridges hn

end CharRange

/-! ## Histories -/

namespace CharClass

/-- How a class starts out. -/
inductive Origin where
  | empty
  | single (c : Char)
  | range (a b : Char)
  | ofRanges (rs : List (Char × Char))

/-- What is added to a class. -/
inductive Change where
  | add (c : Char)
  | addRange (a b : Char)
  | union (t : CharClass)

/-- A class starts out, and then one thing after the other is added to it. -/
structure History where
  /-- What the class starts out with. -/
  origin : Origin
  /-- What is added to it, in order. -/
  changes : List Change

namespace Origin

/-- The class that is started out with. -/
def toClass : Origin → CharClass
  | empty => .empty
  | single c => .single c
  | range a b => .range a b
  | ofRanges rs => .ofRanges rs

/-- The class starts out with this character. -/
def Brings (c : Char) : Origin → Prop
  | empty => False
  | single a => c = a
  | range a b => CharRange.Within a b c
  | ofRanges rs => ∃ r ∈ rs, CharRange.Within r.1 r.2 c

/-- The ranges that are put in. -/
def ranges : Origin → List CharRange
  | empty => []
  | single c => [.between c c]
  | range a b => [.between a b]
  | ofRanges rs => rs.map fun r => .between r.1 r.2

theorem brings_iff {origin : Origin} {c : Char} :
    origin.Brings c ↔ ∃ r ∈ origin.ranges, r.contains c := by
  cases origin with
  | empty => simp [Brings, ranges]
  | single a => simp [Brings, ranges, CharRange.contains_between, CharRange.within_self]
  | range a b => simp [Brings, ranges, CharRange.contains_between]
  | ofRanges rs =>
    simp only [Brings, ranges, List.mem_map, ← CharRange.contains_between]
    constructor
    · rintro ⟨r, hr, hc⟩
      exact ⟨_, ⟨r, hr, rfl⟩, hc⟩
    · rintro ⟨_, ⟨r, hr, rfl⟩, hc⟩
      exact ⟨r, hr, hc⟩

theorem covers_toClass {origin : Origin} {n : Nat} :
    origin.toClass.Covers n ↔ ∃ r ∈ origin.ranges, r.Covers n := by
  cases origin with
  | empty => exact iff_of_false not_covers_empty (by simp [ranges])
  | single c =>
    have hbetween : CharRange.between c c = ⟨c, c, Char.le_refl c⟩ := dif_pos (Char.le_refl c)
    rw [ranges, hbetween]
    rfl
  | range a b =>
    have hrange : toClass (.range a b) = [CharRange.between a b].foldl insertRange .empty := rfl
    rw [hrange, covers_foldl_insertRange, or_iff_right not_covers_empty, ranges]
  | ofRanges rs =>
    have hranges : toClass (.ofRanges rs)
        = (rs.map fun r => CharRange.between r.1 r.2).foldl insertRange .empty :=
      List.foldl_map.symm
    rw [hranges, covers_foldl_insertRange, or_iff_right not_covers_empty, ranges]

end Origin

namespace Change

/-- The class after something was added. -/
def apply (s : CharClass) : Change → CharClass
  | add c => s.add c
  | addRange a b => s.addRange a b
  | union t => s.union t

/-- This character is added. -/
def Brings (c : Char) : Change → Prop
  | add a => c = a
  | addRange a b => CharRange.Within a b c
  | union t => t.contains c

/-- The ranges that are put in, those of the classes included. -/
def ranges : Change → List CharRange
  | add c => [.between c c]
  | addRange a b => [.between a b]
  | union t => t.ranges.toList

theorem brings_iff {change : Change} {c : Char} :
    change.Brings c ↔ ∃ r ∈ change.ranges, r.contains c := by
  cases change with
  | add a => simp [Brings, ranges, CharRange.contains_between, CharRange.within_self]
  | addRange a b => simp [Brings, ranges, CharRange.contains_between]
  | union t =>
    rw [Brings, contains_iff_mem, mem_iff, ranges]

/-- Whatever is added, its ranges are inserted. -/
theorem apply_eq (s : CharClass) (change : Change) :
    change.apply s = change.ranges.foldl insertRange s := by
  cases change with
  | add | addRange => rfl
  | union t => exact (Array.foldl_toList ..).symm

end Change

namespace History

variable {h k : History}

/-- The class that was built. -/
def build (h : History) : CharClass := h.changes.foldl Change.apply h.origin.toClass

/-- The character was put in. -/
def Brings (h : History) (c : Char) : Prop :=
  h.origin.Brings c ∨ ∃ change ∈ h.changes, change.Brings c

/-- All ranges that were put in. -/
def ranges (h : History) : List CharRange := h.origin.ranges ++ h.changes.flatMap Change.ranges

theorem covers_build {n : Nat} : h.build.Covers n ↔ ∃ r ∈ h.ranges, r.Covers n := by
  have happly : Change.apply = fun s change => change.ranges.foldl insertRange s :=
    funext fun s => funext fun change => change.apply_eq s
  have hinsert :
      h.build = (h.changes.flatMap Change.ranges).foldl insertRange h.origin.toClass := by
    rw [List.foldl_flatMap, build, happly]
  rw [hinsert, covers_foldl_insertRange, Origin.covers_toClass, ranges]
  simp only [List.mem_append, or_and_right, exists_or]

/-- A character is in the class if one of the ranges that were put in holds it. -/
theorem contains_build {c : Char} : h.build.contains c ↔ ∃ r ∈ h.ranges, r.contains c := by
  rw [contains_iff_covers, covers_build]
  simp only [CharRange.contains_iff]

theorem brings_iff {c : Char} : h.Brings c ↔ ∃ r ∈ h.ranges, r.contains c := by
  have hchanges : (∃ change ∈ h.changes, change.Brings c)
      ↔ ∃ r ∈ h.changes.flatMap Change.ranges, r.contains c := by
    simp only [Change.brings_iff, List.mem_flatMap]
    constructor
    · rintro ⟨change, hchange, r, hr, hc⟩
      exact ⟨r, ⟨change, hchange, hr⟩, hc⟩
    · rintro ⟨r, ⟨change, hchange, hr⟩, hc⟩
      exact ⟨change, hchange, r, hr, hc⟩
  rw [Brings, Origin.brings_iff, hchanges, ranges]
  simp only [List.mem_append, or_and_right, exists_or]

/-- **The ranges of a class are those that were put in, sorted and swept.** -/
theorem ranges_build (h : History) : h.build.ranges.toList = CharRange.normalize h.ranges :=
  CharRange.eq_of_pairwise h.build.sorted (CharRange.pairwise_normalize _) fun n => by
    rw [CharRange.exists_covers_normalize]
    exact covers_build

/-- **A class is in normal form and holds what was put in,** whatever was put in and in whatever
order. -/
theorem build_exact (h : History) :
    -- The normal form: sorted, bounds in order, and a code point left out between two ranges.
    h.build.ranges.toList.Pairwise CharRange.Before ∧
      (∀ r ∈ h.build.ranges, r.first ≤ r.last) ∧
      (∀ (i : Nat) (r s : CharRange), h.build.ranges[i]? = some r →
        h.build.ranges[i + 1]? = some s → r.last.toNat + 1 < s.first.toNat) ∧
      -- It is what sorting and sweeping makes of all ranges that were put in.
      h.build.ranges.toList = CharRange.normalize h.ranges ∧
      -- Bisection finds exactly the characters that were put in.
      ∀ c, h.build.contains c = true ↔ h.Brings c := by
  refine ⟨h.build.sorted, fun r _ => r.first_le_last, fun i r s hr hs => ?_, h.ranges_build,
    fun _ => contains_build.trans brings_iff.symm⟩
  obtain ⟨hi, rfl⟩ := Array.getElem?_eq_some_iff.mp hr
  obtain ⟨hj, rfl⟩ := Array.getElem?_eq_some_iff.mp hs
  exact List.pairwise_iff_getElem.mp h.build.sorted i (i + 1) hi hj (Nat.lt_succ_self i)

/-- One of the ranges that were put in bridges the code points that are no characters. -/
def Bridges (h : History) : Prop := ∃ r ∈ h.ranges, r.Bridges

/-- The classes hold the same characters, and either both bridge the code points that are no
characters or neither does. -/
def Alike (h k : History) : Prop :=
  (∀ c, h.build.contains c = true ↔ k.build.contains c = true) ∧ (h.Bridges ↔ k.Bridges)

theorem included_iff :
    CharRange.Included h.ranges k.ranges ↔
      (∀ c, h.build.contains c = true → k.build.contains c = true) ∧ (h.Bridges → k.Bridges) := by
  simp only [contains_build]
  exact ⟨fun hsub => ⟨hsub.holds, hsub.bridges⟩, fun hsub => ⟨hsub.1, hsub.2⟩⟩

theorem build_eq_iff : h.build = k.build ↔ h.Alike k := by
  have hcovers : h.build = k.build ↔ CharRange.Included h.ranges k.ranges ∧
      CharRange.Included k.ranges h.ranges := by
    rw [← CharRange.covers_imp_iff_included, ← CharRange.covers_imp_iff_included]
    simp only [← covers_build]
    constructor
    · intro heq
      rw [heq]
      exact ⟨fun _ => id, fun _ => id⟩
    · exact fun hboth => ext_of_covers fun n => ⟨hboth.1 n, hboth.2 n⟩
  rw [hcovers, included_iff, included_iff]
  constructor
  · intro hboth
    obtain ⟨⟨hkeeps, hbridge⟩, hkeeps', hbridge'⟩ := hboth
    exact ⟨fun c => ⟨hkeeps c, hkeeps' c⟩, hbridge, hbridge'⟩
  · intro halike
    obtain ⟨hsame, hbridge⟩ := halike
    exact ⟨⟨fun c => (hsame c).mp, hbridge.mp⟩, fun c => (hsame c).mpr, hbridge.mpr⟩

/-- A union changes nothing if it puts in nothing new. -/
theorem union_build_eq_iff :
    h.build.union k.build = h.build ↔ CharRange.Included k.ranges h.ranges := by
  rw [← CharRange.covers_imp_iff_included]
  simp only [← covers_build]
  constructor
  · intro heq n hn
    rw [← heq, covers_union]
    exact Or.inr hn
  · exact fun hsub => ext_of_covers fun n => covers_union.trans (or_iff_left_of_imp (hsub n))

/-- **A lookahead set is reported to change if it admits more,** or if its characters bridge the
code points that are no characters and did not do so before. -/
theorem extend_build_iff {eof eof' any any' : Bool} :
    (Lookahead.extend ⟨h.build, eof, any⟩ ⟨k.build, eof', any'⟩).1 = true ↔
      (∃ c, k.build.contains c = true ∧ ¬h.build.contains c = true) ∨ (k.Bridges ∧ ¬h.Bridges) ∨
        (eof' = true ∧ eof = false) ∨ (any' = true ∧ any = false) := by
  have hflag (a b : Bool) : ¬(a || b) = a ↔ b = true ∧ a = false := by
    cases a <;> cases b <;> decide
  have hclass : ¬h.build.union k.build = h.build ↔
      (∃ c, k.build.contains c = true ∧ ¬h.build.contains c = true) ∨ (k.Bridges ∧ ¬h.Bridges) := by
    rw [union_build_eq_iff, included_iff, Classical.not_and_iff_not_or_not, Classical.not_forall,
      Classical.not_imp]
    simp only [Classical.not_imp]
  rw [Lookahead.extend, decide_eq_true_eq, Ne, Lookahead.union, Lookahead.mk.injEq]
  simp only [Classical.not_and_iff_not_or_not, hclass, hflag, or_assoc]

/-- **A class is determined by its characters and by whether it bridges** the code points that are
no characters, and so are the terminal that it makes, the number of this terminal and what it adds
to a lookahead set. How often and in which order its ranges were put in makes no difference. -/
theorem build_determined {μ : Type} [DecidableEq μ] (h k : History) (n : Numbering (Terminal μ))
    (eof eof' any any' : Bool) :
    (h.build = k.build ↔ h.Alike k) ∧
      ((.oneOf h.build : Terminal μ) = .oneOf k.build ↔ h.Alike k) ∧
      (((n.insert (.oneOf h.build)).2.insert (.oneOf k.build)).1 = (n.insert (.oneOf h.build)).1
        ↔ h.Alike k) ∧
      ((Lookahead.extend ⟨h.build, eof, any⟩ ⟨k.build, eof', any'⟩).1 = true ↔
        (∃ c, k.build.contains c = true ∧ ¬h.build.contains c = true) ∨
          (k.Bridges ∧ ¬h.Bridges) ∨ (eof' = true ∧ eof = false) ∨ (any' = true ∧ any = false)) ∧
      ((∀ r, r ∈ h.ranges ↔ r ∈ k.ranges) → h.build = k.build) := by
  have hterminal : (.oneOf h.build : Terminal μ) = .oneOf k.build ↔ h.Alike k := by
    rw [Terminal.oneOf.injEq, build_eq_iff]
  refine ⟨build_eq_iff, hterminal, Numbering.insert_insert_eq_iff.trans hterminal,
    extend_build_iff, fun hranges => ext_of_covers fun n => ?_⟩
  rw [covers_build, covers_build]
  simp only [hranges]

/-- A character and two ranges that overlap, one of them with its bounds the other way round. -/
def stepwise : History := ⟨.empty, [.addRange 'c' 'a', .add 'x', .addRange 'b' 'k']⟩

/-- The same ranges in another order, one of them as a class. -/
def together : History := ⟨.single 'x', [.union (.range 'b' 'k'), .addRange 'a' 'c']⟩

/-- Both ways lead to the same class. -/
theorem build_determined_together : stepwise.build = together.build ∧ stepwise.Alike together := by
  obtain ⟨hclass, -, -, -, horder⟩ := build_determined (μ := Empty) stepwise together .empty
    false false false false
  have hperm : stepwise.ranges.Perm together.ranges := by decide +kernel
  have hsame := horder fun r => hperm.mem_iff
  exact ⟨hsame, hclass.mp hsame⟩

/-- All characters, in two ranges between which there are only code points that are no
characters. -/
def inTwo : History := ⟨.ofRanges [('\u0000', '\uD7FF'), ('\uE000', Char.ofNat 0x10FFFF)], []⟩

/-- All characters, in one range. -/
def inOne : History := ⟨.range '\u0000' (Char.ofNat 0x10FFFF), []⟩

/-- **Both hold every character, but they are two classes,** make two terminals with numbers of
their own, and one changes a lookahead set that admits all of it already. -/
theorem built_apart :
    (∀ c, inTwo.build.contains c = true) ∧ (∀ c, inOne.build.contains c = true) ∧
      inTwo.build ≠ inOne.build ∧
      (.oneOf inTwo.build : Terminal Empty) ≠ .oneOf inOne.build ∧
      (Numbering.ofList [(.oneOf inTwo.build : Terminal Empty), .oneOf inOne.build]).size = 2 ∧
      (Lookahead.extend (.ofClass inTwo.build) (.ofClass inOne.build)).1 = true := by
  refine ⟨fun c => ?_, fun c => ?_, by decide +kernel, by decide +kernel, by decide +kernel,
    by decide +kernel⟩
  · have hvalid : Char.isValidCharNat c.toNat := c.valid
    rw [contains_iff_covers, covers_build]
    rcases hvalid with hlow | ⟨hhigh, hmax⟩
    · exact ⟨.between '\u0000' '\uD7FF', List.mem_cons_self,
        CharRange.covers_between.mpr (Or.inl ⟨Nat.zero_le _, Nat.le_of_lt_succ hlow⟩)⟩
    · exact ⟨.between '\uE000' (Char.ofNat 0x10FFFF), List.mem_cons_of_mem _ List.mem_cons_self,
        CharRange.covers_between.mpr (Or.inl ⟨hhigh, Nat.le_of_lt_succ hmax⟩)⟩
  · have hvalid : Char.isValidCharNat c.toNat := c.valid
    have hmax : c.toNat ≤ 0x10FFFF := by
      unfold Char.isValidCharNat at hvalid
      omega
    rw [contains_iff_covers, covers_build]
    exact ⟨.between '\u0000' (Char.ofNat 0x10FFFF), List.mem_cons_self,
      CharRange.covers_between.mpr (Or.inl ⟨Nat.zero_le _, hmax⟩)⟩

end History

end CharClass

end GeneralLL
