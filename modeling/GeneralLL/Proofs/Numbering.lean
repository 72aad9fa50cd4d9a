import GeneralLL.Numbering

/-!
# What a numbering remembers

Numbers are positions, so a number found for a thing leads back to the thing, a new
thing is added behind all others, and the numbers handed out before stay valid.
-/

namespace GeneralLL.Numbering

variable {α : Type} [DecidableEq α]

/-- Looking a thing up and reading its number are inverse to each other. -/
theorem find?_eq_some_iff {n : Numbering α} {a : α} {i : Nat} :
    n.find? a = some i ↔ n.get? i = some a := by
  unfold find? get?
  rw [Array.findIdx?_eq_some_iff_getElem]
  constructor
  · intro hfound
    obtain ⟨hi, hp, -⟩ := hfound
    rw [Array.getElem?_eq_getElem hi]
    exact congrArg some (of_decide_eq_true hp)
  · intro h
    obtain ⟨hi, rfl⟩ := Array.getElem?_eq_some_iff.mp h
    refine ⟨hi, decide_eq_true rfl, fun j hj hp => ?_⟩
    have hne := List.pairwise_iff_getElem.mp n.nodup j i (by simp; omega) (by simpa using hi) hj
    exact hne (by simpa using hp)

theorem find?_eq_none_iff {n : Numbering α} {a : α} : n.find? a = none ↔ a ∉ n.toList := by
  constructor
  · exact notMem_of_find?_eq_none
  · intro h
    cases hf : n.find? a with
    | none => rfl
    | some i =>
      have hget := Array.mem_of_getElem? (find?_eq_some_iff.mp hf)
      exact absurd (Array.mem_toList_iff.mpr hget) h

theorem find?_isSome_iff {n : Numbering α} {a : α} : (n.find? a).isSome ↔ a ∈ n.toList := by
  cases hf : n.find? a with
  | none => simpa using find?_eq_none_iff.mp hf
  | some i => simpa using Decidable.not_not.mp (mt find?_eq_none_iff.mpr (by simp [hf]))

/-- No thing has two numbers. -/
theorem get?_inj {n : Numbering α} {a : α} {i j : Nat} (hi : n.get? i = some a)
    (hj : n.get? j = some a) : i = j := by
  rw [← find?_eq_some_iff] at hi hj
  exact Option.some.inj (hi.symm.trans hj)

omit [DecidableEq α] in
theorem mem_toList_iff {n : Numbering α} {a : α} : a ∈ n.toList ↔ ∃ i, n.get? i = some a := by
  unfold toList get?
  rw [Array.mem_toList_iff, Array.mem_iff_getElem?]

/-! ## Insertion -/

/-- A thing that is numbered already changes nothing. -/
theorem insert_of_find? {n : Numbering α} {a : α} {i : Nat} (h : n.find? a = some i) :
    n.insert a = (i, n) := by
  unfold insert
  split
  · rename_i j hj
    rw [Option.some.inj (h.symm.trans hj)]
  · rename_i hnone
    rw [h] at hnone
    exact absurd hnone (by simp)

/-- A new thing gets the next number. -/
theorem insert_of_notMem {n : Numbering α} {a : α} (h : a ∉ n.toList) :
    (n.insert a).1 = n.size ∧ (n.insert a).2.toList = n.toList ++ [a] := by
  unfold insert
  split
  · rename_i j hj
    rw [find?_eq_none_iff.mpr h] at hj
    exact absurd hj (by simp)
  · exact ⟨rfl, Array.toList_push ..⟩

theorem mem_insert {n : Numbering α} {a b : α} :
    b ∈ (n.insert a).2.toList ↔ b ∈ n.toList ∨ b = a := by
  cases hf : n.find? a with
  | some i =>
    have hmem : a ∈ n.toList := find?_isSome_iff.mp (by rw [hf]; rfl)
    rw [insert_of_find? hf]
    constructor
    · exact Or.inl
    · intro hmem
      rcases hmem with h | rfl
      · exact h
      · exact hmem
  | none =>
    rw [(insert_of_notMem (find?_eq_none_iff.mp hf)).2, List.mem_append, List.mem_singleton]

omit [DecidableEq α] in
theorem get?_eq_toList {n : Numbering α} {i : Nat} : n.get? i = n.toList[i]? := by
  unfold get? toList
  rw [Array.getElem?_toList]

/-- **Numbers stay valid.** -/
theorem get?_insert_of_get? {n : Numbering α} {a b : α} {i : Nat} (h : n.get? i = some b) :
    (n.insert a).2.get? i = some b := by
  cases hf : n.find? a with
  | some j =>
    rw [insert_of_find? hf]
    exact h
  | none =>
    rw [get?_eq_toList] at h ⊢
    obtain ⟨hi, -⟩ := List.getElem?_eq_some_iff.mp h
    rw [(insert_of_notMem (find?_eq_none_iff.mp hf)).2, List.getElem?_append_left hi]
    exact h

/-- The number that an insertion answers leads back to the thing. -/
theorem get?_insert_self (n : Numbering α) (a : α) :
    (n.insert a).2.get? (n.insert a).1 = some a := by
  cases hf : n.find? a with
  | some j =>
    rw [insert_of_find? hf]
    exact find?_eq_some_iff.mp hf
  | none =>
    obtain ⟨hnum, hlist⟩ := insert_of_notMem (find?_eq_none_iff.mp hf)
    have hsize : n.size = n.toList.length := by simp [size, toList]
    rw [get?_eq_toList, hnum, hlist, hsize]
    simp

/-- **Two things get the same number exactly if they are the same.** -/
theorem insert_insert_eq_iff {n : Numbering α} {a b : α} :
    ((n.insert a).2.insert b).1 = (n.insert a).1 ↔ a = b := by
  have ha := get?_insert_self n a
  constructor
  · intro h
    have hb := get?_insert_self (n.insert a).2 b
    rw [h, get?_insert_of_get? ha] at hb
    exact Option.some.inj hb
  · rintro rfl
    rw [insert_of_find? (find?_eq_some_iff.mpr ha)]

/-! ## First occurrences -/

section

variable [BEq α] [LawfulBEq α]

omit [DecidableEq α] in
theorem eraseDups_concat_of_mem {l : List α} {a : α} (h : a ∈ l) :
    (l ++ [a]).eraseDups = l.eraseDups := by
  have hnone : [a].removeAll l = [] := by simp [List.removeAll, h]
  rw [List.eraseDups_append, hnone, List.eraseDups_nil, List.append_nil]

omit [DecidableEq α] in
/-- One more thing is a first occurrence if it has not occurred before. -/
theorem eraseDups_concat_of_notMem {l : List α} {a : α} (h : a ∉ l) :
    (l ++ [a]).eraseDups = l.eraseDups ++ [a] := by
  have hone : [a].removeAll l = [a] := by simp [List.removeAll, h]
  rw [List.eraseDups_append, hone]
  rfl

omit [DecidableEq α] in
theorem nodup_eraseDups (l : List α) : l.eraseDups.Nodup := by
  rw [← List.reverse_reverse l]
  induction l.reverse with
  | nil => exact List.nodup_nil
  | cons a rest ih =>
    rw [List.reverse_cons]
    by_cases ha : a ∈ rest.reverse
    · rw [eraseDups_concat_of_mem ha]
      exact ih
    · rw [eraseDups_concat_of_notMem ha]
      exact (List.perm_append_singleton a _).nodup_iff.mpr
        (List.nodup_cons.mpr ⟨mt List.mem_eraseDups.mp ha, ih⟩)

/-- A numbering of first occurrences stays one. -/
theorem toList_insert_of_eraseDups {n : Numbering α} {l : List α} (h : n.toList = l.eraseDups)
    (a : α) : (n.insert a).2.toList = (l ++ [a]).eraseDups := by
  by_cases ha : a ∈ l
  · obtain ⟨i, hi⟩ := mem_toList_iff.mp (h ▸ List.mem_eraseDups.mpr ha)
    rw [insert_of_find? (find?_eq_some_iff.mpr hi), h, eraseDups_concat_of_mem ha]
  · have hnew : a ∉ n.toList := by
      rw [h]
      exact mt List.mem_eraseDups.mp ha
    rw [(insert_of_notMem hnew).2, h, eraseDups_concat_of_notMem ha]

end

/-! ## Lists of things -/

theorem mem_foldl_insert {l : List α} {b : α} :
    ∀ {n : Numbering α}, b ∈ (l.foldl (fun n a => (n.insert a).2) n).toList
      ↔ b ∈ n.toList ∨ b ∈ l := by
  induction l with
  | nil => intro n; simp
  | cons a rest ih =>
    intro n
    rw [List.foldl_cons, ih, mem_insert, List.mem_cons, or_assoc]

theorem mem_ofList {l : List α} {b : α} : b ∈ (ofList l).toList ↔ b ∈ l := by
  unfold ofList
  rw [mem_foldl_insert]
  simp [empty, toList]

theorem get?_foldl_insert {l : List α} {b : α} {i : Nat} :
    ∀ {n : Numbering α}, n.get? i = some b →
      (l.foldl (fun n a => (n.insert a).2) n).get? i = some b := by
  induction l with
  | nil => exact fun h => h
  | cons a rest ih => exact fun h => ih (get?_insert_of_get? h)

/-- The first thing of a list has the number 0. -/
theorem get?_ofList_zero {a : α} {l : List α} : (ofList (a :: l)).get? 0 = some a := by
  have hnew : (empty.insert a).1 = 0 := (insert_of_notMem (by simp [empty, toList])).1
  have hget := get?_insert_self empty a
  rw [hnew] at hget
  rw [ofList, List.foldl_cons]
  exact get?_foldl_insert hget

end GeneralLL.Numbering
