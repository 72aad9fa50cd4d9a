import GeneralLL.Search
import GeneralLL.Text.Escape

/-!
# Character classes

A character class is a set of characters, kept as inclusive ranges in **normal
form**: sorted, each with its bounds in order, and with at least one code point
left out between one range and the next. Insertion keeps the normal form by
absorbing every range that the new one overlaps or touches, and membership is
decided by bisection, which is right because the ranges are sorted.

Touching is a matter of code points. No character lies between U+D7FF and
U+E000, yet two thousand code points do, so these two do not touch.
-/

namespace GeneralLL

/-- The characters from `first` to `last`, both included. -/
structure CharRange where
  /-- The least character of the range. -/
  first : Char
  /-- The greatest character of the range. -/
  last : Char
  /-- The bounds are in order, so no range is empty. -/
  first_le_last : first ≤ last
  deriving DecidableEq, Repr

namespace CharRange

/-- The range between two characters given in either order. -/
def between (a b : Char) : CharRange :=
  if h : a ≤ b then ⟨a, b, h⟩ else ⟨b, a, (Char.le_total a b).resolve_left h⟩

/-- Does a character lie between the bounds? -/
def contains (r : CharRange) (c : Char) : Bool :=
  r.first ≤ c && c ≤ r.last

/-- `r` ends before `s` starts, with a code point left out in between. -/
def Before (r s : CharRange) : Prop :=
  r.last.toNat + 1 < s.first.toNat

instance (r s : CharRange) : Decidable (r.Before s) :=
  inferInstanceAs (Decidable (_ < _))

theorem Before.trans {r s t : CharRange} (hrs : r.Before s) (hst : s.Before t) : r.Before t := by
  have hs : s.first.toNat ≤ s.last.toNat := s.first_le_last
  unfold Before at hrs hst ⊢
  omega

/-- The least range that covers both. -/
def join (r s : CharRange) : CharRange where
  first := if r.first ≤ s.first then r.first else s.first
  last := if r.last ≤ s.last then s.last else r.last
  first_le_last := by
    have hr : r.first.toNat ≤ r.last.toNat := r.first_le_last
    have hs : s.first.toNat ≤ s.last.toNat := s.first_le_last
    simp only [Char.le_def, UInt32.le_iff_toNat_le]
    split <;> split <;> simp only [Char.toNat] at * <;> omega

/-- A single character stands for itself, more are written with a dash. -/
def toText (r : CharRange) : String :=
  let written := Text.escape ['"', '\'']
  if r.first = r.last then written r.first else written r.first ++ "-" ++ written r.last

/-- Adds a range to ranges in normal form: passes the ranges before it and absorbs those that
it overlaps or touches. -/
def insertInto (r : CharRange) : List CharRange → List CharRange
  | [] => [r]
  | s :: rest =>
    if s.Before r then s :: insertInto r rest
    else if r.Before s then r :: s :: rest
    else insertInto (r.join s) rest

theorem Before.join {q r s : CharRange} (hr : q.Before r) (hs : q.Before s) :
    q.Before (r.join s) := by
  unfold Before at hr hs ⊢
  simp only [CharRange.join]
  split <;> assumption

/-- What comes before a new range and before all old ones comes before the result. -/
theorem before_of_mem_insertInto {q : CharRange} {l : List CharRange} :
    ∀ {r : CharRange}, q.Before r → (∀ s ∈ l, q.Before s) → ∀ t ∈ r.insertInto l, q.Before t := by
  induction l with
  | nil =>
    intro r hr _ t ht
    rw [insertInto, List.mem_singleton] at ht
    exact ht ▸ hr
  | cons s rest ih =>
    intro r hr hl t ht
    have hs : q.Before s := hl s (List.mem_cons_self ..)
    have hrest : ∀ s ∈ rest, q.Before s := fun s h => hl s (List.mem_cons_of_mem _ h)
    rw [insertInto] at ht
    split at ht
    · rcases List.mem_cons.mp ht with rfl | ht
      · exact hs
      · exact ih hr hrest t ht
    · split at ht
      · rcases List.mem_cons.mp ht with rfl | ht
        · exact hr
        · exact hl t ht
      · exact ih (hr.join hs) hrest t ht

/-- **Insertion keeps the normal form.** -/
theorem pairwise_insertInto {l : List CharRange} :
    ∀ {r : CharRange}, l.Pairwise Before → (r.insertInto l).Pairwise Before := by
  induction l with
  | nil => exact fun _ => List.pairwise_singleton ..
  | cons s rest ih =>
    intro r hl
    obtain ⟨hs, hrest⟩ := List.pairwise_cons.mp hl
    rw [insertInto]
    split
    · rename_i hsr
      exact List.pairwise_cons.mpr ⟨before_of_mem_insertInto hsr hs, ih hrest⟩
    · split
      · rename_i hrs
        refine List.pairwise_cons.mpr ⟨fun t ht => ?_, hl⟩
        rcases List.mem_cons.mp ht with rfl | ht
        · exact hrs
        · exact hrs.trans (hs t ht)
      · exact ih hrest

end CharRange

/-- A set of characters. -/
structure CharClass where
  /-- The ranges, from the least characters to the greatest. -/
  ranges : Array CharRange
  /-- The normal form. -/
  sorted : ranges.toList.Pairwise CharRange.Before
  deriving DecidableEq, Repr

namespace CharClass

/-- The class without characters. -/
def empty : CharClass := ⟨#[], List.Pairwise.nil⟩

instance : Inhabited CharClass := ⟨empty⟩

/-- Are there no characters in the class? -/
def isEmpty (s : CharClass) : Bool := s.ranges.isEmpty

/-- Adds the characters of one range. -/
def insertRange (s : CharClass) (r : CharRange) : CharClass :=
  ⟨(r.insertInto s.ranges.toList).toArray, CharRange.pairwise_insertInto s.sorted⟩

/-- Adds the characters between two bounds, which may be given in either order. -/
def addRange (s : CharClass) (a b : Char) : CharClass :=
  s.insertRange (.between a b)

/-- Adds one character. -/
def add (s : CharClass) (c : Char) : CharClass :=
  s.addRange c c

/-- The class of one character. -/
def single (c : Char) : CharClass :=
  ⟨#[⟨c, c, Char.le_refl c⟩], List.pairwise_singleton ..⟩

/-- The class of the characters between two bounds, given in either order. -/
def range (a b : Char) : CharClass := empty.addRange a b

/-- Adds ranges one after the other; the bounds of each may be given in either order. -/
def ofRanges (rs : List (Char × Char)) : CharClass :=
  rs.foldl (fun s r => s.addRange r.1 r.2) empty

/-- All characters of two classes. -/
def union (s t : CharClass) : CharClass :=
  t.ranges.foldl insertRange s

/-- The first range that does not end before `c` is the only one that can hold it. -/
def contains (s : CharClass) (c : Char) : Bool :=
  (s.ranges[Search.partitionPoint (·.last < c) s.ranges]?).any (·.first ≤ c)

/-- A character is in a class if one of the ranges holds it. -/
instance : Membership Char CharClass := ⟨fun s c => ∃ r ∈ s.ranges, r.contains c⟩

/-- The ranges between brackets, without separators. -/
def toText (s : CharClass) : String :=
  "[" ++ String.join (s.ranges.toList.map CharRange.toText) ++ "]"

end CharClass

end GeneralLL
