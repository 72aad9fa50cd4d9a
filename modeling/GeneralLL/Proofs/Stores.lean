import Mathlib.Algebra.GroupWithZero.Nat
import Mathlib.Data.List.Induction
import Mathlib.Data.List.Nodup

/-!
# Stores

A stack and a forest are stores: they are used by calls, one after the other, and everything that
they keep is kept in parts, one for each number. A call may be invalid, for instance if it names
a number that the store has not given out yet, and then nothing is said about it.

`Performs` is such a sequence of valid calls; what every valid call keeps, all of them keep
(`Performs.keeps`).
-/

namespace GeneralLL

/-! ## Sequences of calls -/

section

variable {σ κ : Type}

/-- **What calls make of a store,** each of which is valid when its turn comes. -/
inductive Performs (valid : σ → κ → Prop) (perform : σ → κ → σ) (s : σ) : List κ → σ → Prop where
  | nothing : Performs valid perform s [] s
  | call {calls : List κ} {s' : σ} {c : κ} : Performs valid perform s calls s' → valid s' c →
      Performs valid perform s (calls ++ [c]) (perform s' c)

variable {valid : σ → κ → Prop} {perform : σ → κ → σ} {s s' : σ} {calls : List κ}

/-- What a valid call keeps, a sequence of calls keeps. -/
theorem Performs.keeps (h : Performs valid perform s calls s') {P : σ → Prop} (hs : P s)
    (hcall : ∀ {s : σ} {c : κ}, P s → valid s c → P (perform s c)) : P s' := by
  induction h with
  | nothing => exact hs
  | call _ hvalid ih => exact hcall ih hvalid

/-- Calls that are all valid can be performed. -/
theorem performs_foldl (calls : List κ)
    (h : ∀ k : Fin calls.length, valid ((calls.take k).foldl perform s) calls[k]) :
    Performs valid perform s calls (calls.foldl perform s) := by
  induction calls using List.reverseRecOn with
  | nil => exact .nothing
  | append_singleton calls c ih =>
    rw [List.foldl_append]
    refine .call (ih fun k => ?_) ?_
    · have hk := h ⟨k, by rw [List.length_append]; omega⟩
      simpa [List.take_append_of_le_length (Nat.le_of_lt k.isLt), List.getElem_append_left k.isLt]
        using hk
    · simpa using h ⟨calls.length, by simp⟩

/-- One more call adds what it contributes to a record of the calls. -/
theorem filterMap_concat {α : Type} (calls : List κ) (c : κ) (f : κ → Option α) :
    (calls ++ [c]).filterMap f = calls.filterMap f ++ (f c).toList := by
  rw [List.filterMap_append]
  cases hc : f c <;> simp [hc]

end

/-! ## Numbers -/

/-- Things with different numbers have different keys. -/
theorem nodup_map_toList {α β : Type} {xs : Array α} {key : α → β}
    (h : ∀ {i j : Nat} {a b : α}, xs[i]? = some a → xs[j]? = some b → key a = key b → i = j) :
    (xs.toList.map key).Nodup := by
  rw [List.nodup_iff_pairwise_ne, List.pairwise_iff_getElem]
  intro i j hi hj hlt heq
  simp only [List.length_map, Array.length_toList] at hi hj
  simp only [List.getElem_map, Array.getElem_toList] at heq
  have hij := h (Array.getElem?_eq_getElem hi) (Array.getElem?_eq_getElem hj) heq
  omega

/-- If all things keep their numbers, new ones have only come behind them. -/
theorem toList_prefix {α : Type} {xs ys : Array α}
    (h : ∀ {i : Nat} {a : α}, xs[i]? = some a → ys[i]? = some a) : xs.toList <+: ys.toList := by
  refine List.prefix_iff_getElem?.mpr fun i hi => ?_
  rw [Array.getElem?_toList, Array.getElem_toList]
  exact h (Array.getElem?_eq_getElem hi)

/-! ## Parts -/

/-- Things that are kept in parts are as many as the parts have together. -/
theorem length_eq_sum_parts {α : Type} {l : List α} (size : Nat) (part : Nat → List α)
    (hl : l.Nodup) (hpart : ∀ i < size, (part i).Nodup)
    (hdisjoint : ∀ {i j : Nat} {a : α}, a ∈ part i → a ∈ part j → i = j)
    (hmem : ∀ a, a ∈ l ↔ ∃ i < size, a ∈ part i) :
    l.length = ((List.range size).map fun i => (part i).length).sum := by
  have hnodup : ((List.range size).flatMap part).Nodup := by
    refine List.nodup_flatMap.mpr ⟨fun i hi => hpart i (List.mem_range.mp hi), ?_⟩
    exact List.nodup_range.imp fun hne a hi hj => hne (hdisjoint hi hj)
  have hall (a : α) : a ∈ l ↔ a ∈ (List.range size).flatMap part := by
    rw [hmem, List.mem_flatMap]
    simp only [List.mem_range]
  rw [((List.perm_ext_iff_of_nodup hl hnodup).mpr hall).length_eq, List.length_flatMap]

end GeneralLL
