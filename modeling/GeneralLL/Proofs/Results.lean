import Mathlib.Data.List.Forall2

/-!
# Results that may be errors

When a chain of steps, a check of a list or a list of results has a result, and when it ends with
an error.
-/

namespace GeneralLL.Except

variable {α β ε : Type}

/-! ## Steps -/

theorem bind_eq_ok_iff {x : Except ε α} {f : α → Except ε β} {b : β} :
    (x >>= f) = .ok b ↔ ∃ a, x = .ok a ∧ f a = .ok b := by
  cases x with
  | error e => simp [bind, Except.bind]
  | ok a => simp [bind, Except.bind]

theorem bind_eq_error_iff {x : Except ε α} {f : α → Except ε β} {e : ε} :
    x >>= f = .error e ↔ x = .error e ∨ ∃ a, x = .ok a ∧ f a = .error e := by
  cases x with
  | error e => simp [bind, Except.bind]
  | ok a => simp [bind, Except.bind]

theorem map_eq_ok_iff {x : Except ε α} {f : α → β} {b : β} :
    f <$> x = .ok b ↔ ∃ a, x = .ok a ∧ f a = b := by
  cases x with
  | error e => simp [Functor.map, Except.map]
  | ok a => simp [Functor.map, Except.map]

theorem map_eq_error_iff {x : Except ε α} {f : α → β} {e : ε} :
    f <$> x = .error e ↔ x = .error e := by
  cases x <;> simp [Functor.map, Except.map]

/-! ## Lists of checks -/

theorem forM_eq_ok_iff {f : α → Except ε Unit} {l : List α} :
    l.forM f = .ok () ↔ ∀ a ∈ l, f a = .ok () := by
  induction l with
  | nil => exact ⟨fun _ _ h => absurd h List.not_mem_nil, fun _ => rfl⟩
  | cons a rest ih =>
    show (f a >>= fun _ => rest.forM f) = .ok () ↔ _
    cases hf : f a with
    | error e => simp [bind, Except.bind, hf]
    | ok u =>
      show rest.forM f = .ok () ↔ _
      rw [ih]
      simp [hf]

/-- A check of a list fails at the first member for which it does. -/
theorem forM_eq_error_iff {f : α → Except ε Unit} {l : List α} {e : ε} :
    l.forM f = .error e ↔ ∃ before a after, l = before ++ a :: after ∧
      (∀ b ∈ before, f b = .ok ()) ∧ f a = .error e := by
  induction l with
  | nil => exact ⟨fun h => absurd h (by simp [pure, Except.pure]), fun h => by simp at h⟩
  | cons a rest ih =>
    show (f a >>= fun _ => rest.forM f) = .error e ↔ _
    cases hf : f a with
    | error e' =>
      constructor
      · intro h
        obtain rfl : e' = e := by simpa [bind, Except.bind] using h
        exact ⟨[], a, rest, rfl, fun _ h => absurd h List.not_mem_nil, hf⟩
      · intro h
        obtain ⟨before, b, after, heq, hok, herror⟩ := h
        -- nothing that is in order comes before the first member
        cases before with
        | nil =>
          obtain ⟨rfl, rfl⟩ := List.cons.inj heq
          exact hf.symm.trans herror
        | cons c before =>
          obtain ⟨rfl, -⟩ := List.cons.inj heq
          exact absurd (hf.symm.trans (hok a List.mem_cons_self)) (by simp)
    | ok u =>
      show rest.forM f = .error e ↔ _
      rw [ih]
      constructor
      · intro h
        obtain ⟨before, b, after, rfl, hok, herror⟩ := h
        exact ⟨a :: before, b, after, rfl, List.forall_mem_cons.mpr ⟨hf, hok⟩, herror⟩
      · intro h
        obtain ⟨before, b, after, heq, hok, herror⟩ := h
        cases before with
        | nil =>
          obtain ⟨rfl, -⟩ := List.cons.inj heq
          exact absurd (hf.symm.trans herror) (by simp)
        | cons c before =>
          obtain ⟨-, rfl⟩ := List.cons.inj heq
          exact ⟨before, b, after, rfl, fun d hd => hok d (List.mem_cons_of_mem _ hd), herror⟩

/-- Lists that are checked one after the other are checked like one list. -/
theorem forM_flatMap {g : β → List α} {f : α → Except ε Unit} {l : List β} :
    (l.flatMap g).forM f = l.forM fun b => (g b).forM f := by
  induction l with
  | nil => rfl
  | cons b rest ih =>
    have happ : (g b ++ rest.flatMap g).forM f
        = (do (g b).forM f; (rest.flatMap g).forM f) := List.forM_append
    rw [List.flatMap_cons, happ, ih]
    rfl

/-! ## Lists of results -/

/-- A list of results has a result if all of them have, and then it is the list of these. -/
theorem mapM_eq_ok_iff {f : α → Except ε β} {l : List α} {bs : List β} :
    l.mapM f = .ok bs ↔ List.Forall₂ (fun a b => f a = .ok b) l bs := by
  induction l generalizing bs with
  | nil =>
    rw [List.mapM_nil, List.forall₂_nil_left_iff]
    exact ⟨fun h => (Except.ok.inj h).symm, fun h => h ▸ rfl⟩
  | cons a l ih =>
    rw [List.mapM_cons, List.forall₂_cons_left_iff]
    simp only [bind_eq_ok_iff, ih]
    constructor
    · intro h
      obtain ⟨b, hb, bs', hbs, hpure⟩ := h
      exact ⟨b, bs', hb, hbs, (Except.ok.inj hpure).symm⟩
    · intro h
      obtain ⟨b, bs', hb, hbs, rfl⟩ := h
      exact ⟨b, hb, bs', hbs, rfl⟩

end GeneralLL.Except
