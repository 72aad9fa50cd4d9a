import GeneralLL.Condition

/-!
# Matches that end at a position

A terminal that looks back from a position asks whether **some** match ends there, wherever it
starts (`Terminal.matchesBefore_iff`). For most terminals one start is tried only, the one from
which a match would have the right length; since their matches all have this length
(`Terminal.matchAt_fixedLength`), no other start has to be tried. A position that is too small for
this start has no match before it, and positions behind the end of the text are no exception.

A condition in the negative is the exact opposite of the one in the positive, whichever side it
looks at (`Condition.holds_not`). So of the two conditions that look back one holds exactly if there
is such a match, and the other one exactly if there is none (`precedes_exactly`).
-/

namespace GeneralLL

namespace Terminal

variable {μ : Type}

theorem matchChars_eq_add_length {input : Input} {text : List Char} :
    ∀ {i j : Nat}, matchChars input text i = some j → j = i + text.length := by
  induction text with
  | nil =>
    intro i j h
    exact (Option.some.inj h).symm
  | cons c rest ih =>
    intro i j h
    rw [matchChars] at h
    split at h
    · rw [ih h, List.length_cons]
      omega
    · exact absurd h (by simp)

variable [Matcher μ] {terminal : Terminal μ} {input : Input} {i j : Nat}

/-- **Every match of a terminal has its length,** if the terminal has one. -/
theorem matchAt_fixedLength {n : Nat} (hn : terminal.fixedLength? = some n)
    (h : terminal.matchAt input j = some i) : i = j + n := by
  cases terminal with
  | epsilon =>
    obtain rfl := Option.some.inj hn
    exact (Option.some.inj h).symm
  | char c =>
    obtain rfl := Option.some.inj hn
    rw [matchAt] at h
    split at h
    · exact (Option.some.inj h).symm
    · exact absurd h (by simp)
  | oneOf s =>
    obtain rfl := Option.some.inj hn
    rw [matchAt] at h
    split at h
    · exact (Option.some.inj h).symm
    · exact absurd h (by simp)
  | literal text =>
    obtain rfl := Option.some.inj hn
    exact matchChars_eq_add_length h
  | custom m => exact absurd hn (by simp [fixedLength?])

/-- **Looking back finds every match that ends at a position,** and nothing else. -/
theorem matchesBefore_iff :
    terminal.matchesBefore input i = true ↔ ∃ j ≤ i, terminal.matchAt input j = some i := by
  unfold matchesBefore
  cases hlength : terminal.fixedLength? with
  | none =>
    simp only [List.any_eq_true, List.mem_range, Nat.lt_succ_iff, decide_eq_true_eq]
  | some n =>
    simp only [Bool.and_eq_true, decide_eq_true_eq]
    constructor
    · intro h
      exact ⟨i - n, Nat.sub_le i n, h.2⟩
    · intro h
      obtain ⟨j, -, hmatch⟩ := h
      -- the match has the length of the terminal, so it is the one that was tried
      have hi := matchAt_fixedLength hlength hmatch
      have hj : i - n = j := by omega
      exact ⟨by omega, hj ▸ hmatch⟩

end Terminal

namespace Condition

variable {μ : Type} [Matcher μ]

/-- **The two forms of a comparison are opposites.** -/
theorem holds_not (evaluate : Evaluator) (input : Input) (left right : Nat) (env : Environment)
    (side : Context) (expected : Bool) (terminal : Terminal μ) :
    holds evaluate input left right env (.context side (!expected) terminal)
      = (holds evaluate input left right env (.context side expected terminal)).map (!·) := by
  rw [holds, holds]
  cases side.test input left right terminal <;> cases expected <;> rfl

theorem holds_precede_iff {evaluate : Evaluator} {input : Input} {left right : Nat}
    {env : Environment} {terminal : Terminal μ} :
    holds evaluate input left right env (.context .precede true terminal) = .ok true
      ↔ ∃ j ≤ left, terminal.matchAt input j = some left := by
  rw [← Terminal.matchesBefore_iff, holds, Context.test, Except.ok.injEq, beq_true]

/-- **Looking back is exact,** for every terminal, text and position, and so are both conditions
that look back from the left end of a region. -/
theorem precedes_exactly (terminal : Terminal μ) (input : Input) (i : Nat) :
    (terminal.matchesBefore input i = true ↔ ∃ j ≤ i, terminal.matchAt input j = some i) ∧
      ∀ (evaluate : Evaluator) (right : Nat) (env : Environment),
        (holds evaluate input i right env (.context .precede true terminal) = .ok true
          ↔ ∃ j ≤ i, terminal.matchAt input j = some i) ∧
        (holds evaluate input i right env (.context .precede false terminal) = .ok true
          ↔ ¬∃ j ≤ i, terminal.matchAt input j = some i) ∧
        holds evaluate input i right env (.context .precede false terminal)
          = (holds evaluate input i right env (.context .precede true terminal)).map (!·) := by
  refine ⟨Terminal.matchesBefore_iff, fun evaluate right env => ?_⟩
  have hnot := holds_not evaluate input i right env .precede true terminal
  refine ⟨holds_precede_iff, ?_, hnot⟩
  rw [← Terminal.matchesBefore_iff, holds, Context.test, Except.ok.injEq, beq_false,
    Bool.not_eq_true', Bool.not_eq_true]

end Condition

end GeneralLL
