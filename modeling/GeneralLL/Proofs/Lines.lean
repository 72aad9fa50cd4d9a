import GeneralLL.Input
import GeneralLL.Proofs.CharClass
import Mathlib.Order.Nat

/-!
# Lines and columns of positions

The table of line starts is strictly increasing (`pairwise_lineStarts`) and has the start of
the text and the places behind newlines in it, and nothing else (`mem_lineStarts_iff`). So the
bisection counts, whether it hits an entry or not (`Search.Locates.partitionPoint_eq`): from
one position to the next the line changes exactly if there is a newline between them
(`lineNumber_succ`), and the entry from which the column counts is the start of the line
(`exists_lineFrom`).

**Every position, past the end as well, has the line and the column that it should have, and
is found again from these two** (`lineColumn_exact`). What comes later in the text comes later
by line and column.
-/

namespace GeneralLL

namespace Search

/-- What a binary search for a number may answer: a place where the number stands, or if it stands
nowhere, the place where it belongs. -/
inductive Locates (items : Array Nat) (a : Nat) : Except Nat Nat → Prop where
  | hit {k : Nat} : items[k]? = some a → Locates items a (.ok k)
  | miss {m : Nat} : m ≤ items.size → (∀ k b, k < m → items[k]? = some b → b < a) →
      (∀ k b, m ≤ k → items[k]? = some b → a < b) → Locates items a (.error m)

/-- The place behind a hit, or where what was missed belongs. -/
def behind : Except Nat Nat → Nat
  | .ok k => k + 1
  | .error m => m

variable {items : Array Nat} (hitems : items.toList.Pairwise (· < ·))

include hitems

/-- Later entries of an increasing table are greater. -/
theorem getElem?_lt {k l a b : Nat} (ha : items[k]? = some a) (hb : items[l]? = some b)
    (hkl : k < l) : a < b := by
  obtain ⟨hk, rfl⟩ := Array.getElem?_eq_some_iff.mp ha
  obtain ⟨hl, rfl⟩ := Array.getElem?_eq_some_iff.mp hb
  exact List.pairwise_iff_getElem.mp hitems k l hk hl hkl

theorem getElem?_le {k l a b : Nat} (ha : items[k]? = some a) (hb : items[l]? = some b)
    (hkl : k ≤ l) : a ≤ b := by
  rcases Nat.eq_or_lt_of_le hkl with rfl | hlt
  · exact Nat.le_of_eq (Option.some.inj (ha.symm.trans hb))
  · exact Nat.le_of_lt (getElem?_lt hitems ha hb hlt)

/-- Bisection finds where the entries up to a bound end. -/
theorem lt_partitionPoint_le_iff {bound k : Nat} :
    k < partitionPoint (· ≤ bound) items ↔ ∃ a, items[k]? = some a ∧ a ≤ bound := by
  rw [lt_partitionPoint_iff, Option.any_eq_true]
  · simp
  · intro k l hkl hl
    obtain ⟨b, hb, hle⟩ := (Option.any_eq_true _ _).mp hl
    obtain ⟨hlt, -⟩ := Array.getElem?_eq_some_iff.mp hb
    have ha := Array.getElem?_eq_getElem (Nat.lt_of_le_of_lt hkl hlt)
    have hless := Nat.le_trans (getElem?_le hitems ha hb hkl) (of_decide_eq_true hle)
    exact (Option.any_eq_true _ _).mpr ⟨_, ha, decide_eq_true hless⟩

/-- The place in a table where the entries up to a bound end is the one that bisection finds. -/
theorem partitionPoint_le_eq {bound m : Nat} (hm : m ≤ items.size)
    (hbefore : ∀ k a, k < m → items[k]? = some a → a ≤ bound)
    (hbehind : ∀ k a, m ≤ k → items[k]? = some a → bound < a) :
    partitionPoint (· ≤ bound) items = m := by
  refine eq_of_forall_lt_iff fun k => (lt_partitionPoint_le_iff hitems).trans
    ⟨fun h => ?_, fun h => ?_⟩
  · obtain ⟨a, ha, hle⟩ := h
    by_contra hk
    exact Nat.not_lt_of_le hle (hbehind k a (Nat.le_of_not_lt hk) ha)
  · have ha := Array.getElem?_eq_getElem (Nat.lt_of_lt_of_le h hm)
    exact ⟨_, ha, hbefore k _ h ha⟩

/-- **If the bound is hit,** the entries up to it end behind the hit. -/
theorem partitionPoint_le_of_hit {m a : Nat} (ha : items[m]? = some a) :
    partitionPoint (· ≤ a) items = m + 1 := by
  obtain ⟨hm, -⟩ := Array.getElem?_eq_some_iff.mp ha
  exact partitionPoint_le_eq hitems hm
    (fun k b hk hb => getElem?_le hitems hb ha (Nat.le_of_lt_succ hk))
    fun k b hk hb => getElem?_lt hitems ha hb hk

/-- A bound just below an entry takes in what stands before the entry. -/
theorem partitionPoint_le_of_below {m bound : Nat} (ha : items[m]? = some (bound + 1)) :
    partitionPoint (· ≤ bound) items = m := by
  obtain ⟨hm, -⟩ := Array.getElem?_eq_some_iff.mp ha
  exact partitionPoint_le_eq hitems (Nat.le_of_lt hm)
    (fun k b hk hb => Nat.le_of_lt_succ (getElem?_lt hitems hb ha hk))
    fun k b hk hb => getElem?_le hitems ha hb hk

/-- **If the bound is missed,** a smaller bound does as well. -/
theorem partitionPoint_le_of_miss {bound : Nat} (hmiss : bound + 1 ∉ items) :
    partitionPoint (· ≤ bound + 1) items = partitionPoint (· ≤ bound) items := by
  refine eq_of_forall_lt_iff fun k => ?_
  rw [lt_partitionPoint_le_iff hitems, lt_partitionPoint_le_iff hitems]
  refine exists_congr fun a => and_congr_right fun ha => ?_
  have hne : a ≠ bound + 1 := fun h => hmiss (h ▸ Array.mem_of_getElem? ha)
  omega

/-- A bound that is greater by one takes in one entry more if it is an entry, and else none. -/
theorem partitionPoint_le_succ (bound : Nat) :
    partitionPoint (· ≤ bound + 1) items
      = partitionPoint (· ≤ bound) items + if bound + 1 ∈ items then 1 else 0 := by
  split
  · rename_i hmem
    obtain ⟨m, hm⟩ := Array.mem_iff_getElem?.mp hmem
    rw [partitionPoint_le_of_hit hitems hm, partitionPoint_le_of_below hitems hm]
  · rename_i hmiss
    exact partitionPoint_le_of_miss hitems hmiss

/-- **Hit or missed,** the answer says where the entries up to the number end. -/
theorem Locates.partitionPoint_eq {a : Nat} {r : Except Nat Nat} (h : Locates items a r) :
    partitionPoint (· ≤ a) items = behind r := by
  cases h with
  | hit ha => exact partitionPoint_le_of_hit hitems ha
  | miss hm hbefore hbehind =>
    exact partitionPoint_le_eq hitems hm (fun k b hk hb => Nat.le_of_lt (hbefore k b hk hb)) hbehind

/-- A number that stands nowhere belongs behind the smaller entries. -/
theorem exists_locates (a : Nat) : ∃ r, Locates items a r := by
  by_cases hmem : a ∈ items
  · obtain ⟨k, hk⟩ := Array.mem_iff_getElem?.mp hmem
    exact ⟨_, .hit hk⟩
  · have hcount {k : Nat} : k < partitionPoint (· ≤ a) items ↔ ∃ b, items[k]? = some b ∧ b ≤ a :=
      lt_partitionPoint_le_iff hitems
    refine ⟨_, .miss (m := partitionPoint (· ≤ a) items) ?_ (fun k b hk hb => ?_)
      fun k b hk hb => ?_⟩
    · by_contra hlt
      obtain ⟨b, hb, -⟩ := hcount.mp (Nat.lt_of_not_le hlt)
      exact absurd (Array.getElem?_eq_some_iff.mp hb).1 (Nat.lt_irrefl _)
    · obtain ⟨b', hb', hle⟩ := hcount.mp hk
      obtain rfl := Option.some.inj (hb.symm.trans hb')
      exact Nat.lt_of_le_of_ne hle fun h => hmem (h ▸ Array.mem_of_getElem? hb)
    · by_contra hle
      exact absurd (hcount.mpr ⟨b, hb, Nat.le_of_not_lt hle⟩) (Nat.not_lt_of_le hk)

end Search

namespace Input

variable {t : Input} {i j start : Nat}

/-! ## The table of line starts -/

/-- A line starts here: at the start of the text, or behind a newline. -/
def StartsLine (t : Input) (start : Nat) : Prop :=
  start = 0 ∨ ∃ i, start = i + 1 ∧ t.symbolAt? i = some '\n'

/-- The position is on the line from `start`: no newline stands between the two. -/
structure LineFrom (t : Input) (start i : Nat) : Prop where
  /-- A line starts there. -/
  starts : t.StartsLine start
  /-- The line does not start behind the position. -/
  le : start ≤ i
  /-- No newline comes in between. -/
  unbroken : ∀ k, start ≤ k → k < i → t.symbolAt? k ≠ some '\n'

theorem mem_lineStarts_iff : start ∈ t.lineStarts ↔ t.StartsLine start := by
  unfold lineStarts StartsLine
  rw [List.mem_toArray, List.mem_cons, List.mem_filterMap]
  refine or_congr_right ⟨fun h => ?_, fun h => ?_⟩
  · obtain ⟨i, -, h⟩ := h
    split at h
    · rename_i hnewline
      exact ⟨i, (Option.some.inj h).symm, hnewline⟩
    · exact absurd h (by simp)
  · obtain ⟨i, rfl, hnewline⟩ := h
    have hlt : i < t.length := (Array.getElem?_eq_some_iff.mp hnewline).1
    exact ⟨i, List.mem_range.mpr hlt, by rw [if_pos hnewline]⟩

/-- **Line starts are in increasing order,** and none is there twice. -/
theorem pairwise_lineStarts (t : Input) : t.lineStarts.toList.Pairwise (· < ·) := by
  unfold lineStarts
  rw [List.toList_toArray, List.pairwise_cons]
  refine ⟨fun start h => ?_, ?_⟩
  · obtain ⟨i, -, h⟩ := List.mem_filterMap.mp h
    split at h
    · exact Option.some.inj h ▸ Nat.succ_pos i
    · exact absurd h (by simp)
  · rw [List.pairwise_filterMap]
    refine List.pairwise_lt_range.imp fun {i j} hij a ha b hb => ?_
    split at ha <;> split at hb <;> simp_all
    omega

/-! ## Lines -/

theorem lineNumber_zero (t : Input) : t.lineNumber 0 = 1 :=
  Search.partitionPoint_le_of_hit t.pairwise_lineStarts (m := 0) rfl

/-- **A newline ends its line.** -/
theorem lineNumber_succ (t : Input) (i : Nat) :
    t.lineNumber (i + 1) = t.lineNumber i + if t.symbolAt? i = some '\n' then 1 else 0 := by
  have hstarts : t.StartsLine (i + 1) ↔ t.symbolAt? i = some '\n' := by simp [StartsLine]
  rw [lineNumber, Search.partitionPoint_le_succ t.pairwise_lineStarts]
  simp only [mem_lineStarts_iff, hstarts]
  rfl

/-- **The line of a position counts the newlines before it.** -/
theorem lineNumber_eq (t : Input) (i : Nat) :
    t.lineNumber i = 1 + (t.chars.toList.take i).count '\n' := by
  induction i with
  | zero => exact t.lineNumber_zero
  | succ i ih =>
    have hsymbol : t.symbolAt? i = t.chars.toList[i]? := (Array.getElem?_toList).symm
    rw [lineNumber_succ, ih, List.take_add_one, List.count_append, hsymbol, Nat.add_assoc]
    cases t.chars.toList[i]? with
    | none => rfl
    | some c => simp [List.count_singleton]

theorem lineNumber_le (h : i ≤ j) : t.lineNumber i ≤ t.lineNumber j := by
  rw [lineNumber_eq, lineNumber_eq]
  exact Nat.add_le_add_left ((List.take_prefix_take_left h).sublist.count_le _) 1

/-! ## Columns -/

/-- A position is on one line only. -/
theorem LineFrom.unique {start' : Nat} (h : t.LineFrom start i) (h' : t.LineFrom start' i) :
    start = start' := by
  have hle {a b : Nat} (ha : t.LineFrom a i) (hb : t.LineFrom b i) : b ≤ a := by
    rcases hb.starts with rfl | ⟨k, rfl, hk⟩
    · exact Nat.zero_le _
    · -- the newline before `b` is not behind `a`
      rcases Nat.lt_or_ge k a with hlt | hge
      · exact hlt
      · exact absurd hk (ha.unbroken k hge hb.le)
  exact Nat.le_antisymm (hle h' h) (hle h h')

/-- **The entry from which the column of a position counts is the start of its line.** -/
theorem exists_lineFrom (t : Input) (i : Nat) :
    ∃ start, t.lineStarts[t.lineNumber i - 1]? = some start ∧ t.LineFrom start i := by
  have hcount {k : Nat} : k < t.lineNumber i ↔ ∃ a, t.lineStarts[k]? = some a ∧ a ≤ i :=
    Search.lt_partitionPoint_le_iff t.pairwise_lineStarts
  have hpos : 0 < t.lineNumber i := by rw [lineNumber_eq]; omega
  obtain ⟨start, hstart, hle⟩ := hcount.mp (Nat.sub_lt hpos Nat.one_pos)
  refine ⟨start, hstart, mem_lineStarts_iff.mp (Array.mem_of_getElem? hstart), hle,
    fun k hk hki hnewline => ?_⟩
  -- a newline between them would start another line before the position
  obtain ⟨m, hm⟩ := Array.mem_iff_getElem?.mp
    (mem_lineStarts_iff.mpr (Or.inr ⟨k, rfl, hnewline⟩) : k + 1 ∈ t.lineStarts)
  have hlast : m < t.lineNumber i := hcount.mpr ⟨_, hm, hki⟩
  rcases Nat.eq_or_lt_of_le (Nat.le_sub_one_of_lt hlast) with rfl | hlt
  · obtain rfl := Option.some.inj (hstart.symm.trans hm)
    omega
  · have hless := Search.getElem?_lt t.pairwise_lineStarts hm hstart hlt
    omega

/-- The column counts from the start of the line. -/
theorem LineFrom.columnNumber_eq (h : t.LineFrom start i) :
    t.columnNumber i = 1 + (i - start) := by
  obtain ⟨start', hstart', h'⟩ := t.exists_lineFrom i
  obtain rfl := h.unique h'
  rw [columnNumber, hstart', Option.getD_some, Nat.add_comm]

/-- The positions in the first column are the line starts. -/
theorem columnNumber_eq_one_iff : t.columnNumber i = 1 ↔ t.isStartOfLine i := by
  obtain ⟨start, -, h⟩ := t.exists_lineFrom i
  have hle := h.le
  have hbol : t.isStartOfLine i ↔ t.StartsLine i := by
    rw [← mem_lineStarts_iff, isStartOfLine, Array.contains_iff_mem]
  rw [hbol, h.columnNumber_eq]
  constructor
  · intro hone
    obtain rfl : start = i := by omega
    exact h.starts
  · intro hi
    have hself : t.LineFrom i i := ⟨hi, Nat.le_refl _, fun k hk hki => absurd hk (by omega)⟩
    rw [h.unique hself]
    omega

/-! ## Lines and columns together -/

/-- The position that has this line and this column. -/
def positionAt (t : Input) (place : Nat × Nat) : Nat :=
  t.lineStarts[place.1 - 1]?.getD 0 + (place.2 - 1)

theorem positionAt_lineColumn (t : Input) (i : Nat) : t.positionAt (t.lineColumn i) = i := by
  obtain ⟨start, hstart, h⟩ := t.exists_lineFrom i
  have hle := h.le
  show t.lineStarts[t.lineNumber i - 1]?.getD 0 + (t.columnNumber i - 1) = i
  rw [hstart, Option.getD_some, h.columnNumber_eq]
  omega

/-- **What comes later in the text comes later by line and column.** -/
theorem lineColumn_lt (h : i < j) :
    Prod.Lex (· < ·) (· < ·) (t.lineColumn i) (t.lineColumn j) := by
  rw [Prod.lex_def]
  rcases Nat.eq_or_lt_of_le (t.lineNumber_le (Nat.le_of_lt h)) with hline | hline
  · -- on one line both columns count from the same start
    obtain ⟨start, hstart, hi⟩ := t.exists_lineFrom i
    obtain ⟨start', hstart', hj⟩ := t.exists_lineFrom j
    rw [← hline] at hstart'
    obtain rfl := Option.some.inj (hstart.symm.trans hstart')
    refine Or.inr ⟨hline, ?_⟩
    show t.columnNumber i < t.columnNumber j
    have hle := hi.le
    rw [hi.columnNumber_eq, hj.columnNumber_eq]
    omega
  · exact Or.inl hline

/-- **Lines and columns are exact, and they tell positions apart.** Whether a search in the table
hits or misses a position, it leads to the line of the position. This is one more than the number
of newlines before it, and its column one more than its distance from the start of the line, an
entry of the table that is not behind the position. So the position is found again from the two,
and they keep the order of the text. -/
theorem lineColumn_exact (t : Input) :
    (∀ i, (∃ r, Search.Locates t.lineStarts i r) ∧
      (∀ r, Search.Locates t.lineStarts i r → t.lineNumber i = Search.behind r) ∧
      t.lineNumber i = 1 + (t.chars.toList.take i).count '\n' ∧
      ∃ start, t.lineStarts[t.lineNumber i - 1]? = some start ∧ t.LineFrom start i ∧
        t.columnNumber i = 1 + (i - start)) ∧
    (∀ i, t.positionAt (t.lineColumn i) = i) ∧
    ∀ i j, i < j → Prod.Lex (· < ·) (· < ·) (t.lineColumn i) (t.lineColumn j) := by
  refine ⟨fun i => ⟨Search.exists_locates t.pairwise_lineStarts i,
    fun r h => h.partitionPoint_eq t.pairwise_lineStarts, t.lineNumber_eq i, ?_⟩,
    t.positionAt_lineColumn, fun i j => lineColumn_lt⟩
  obtain ⟨start, hstart, h⟩ := t.exists_lineFrom i
  exact ⟨start, hstart, h, h.columnNumber_eq⟩

example : ([0, 2, 3, 6, 7, 9].map (ofString "ab\ncd\n\nx").lineColumn)
    = [(1, 1), (1, 3), (2, 1), (3, 1), (4, 1), (4, 3)] := by decide +kernel

end Input

end GeneralLL
