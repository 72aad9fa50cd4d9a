import GeneralLL.Expr.Eval
import GeneralLL.Proofs.Results
import Mathlib.Data.Int.Bitwise

/-!
# What an expression evaluates to

The value of an expression depends on the variables that it **reads**, and on nothing else in an
environment: not on other bindings, and not on how bindings are stored (`eval_congr`). An error
always comes from a **part** of the expression that raises it by itself (`exists_raises`): a
variable that is not bound, a division by zero, or operands of the wrong kind. Of these only a
division or a remainder raises the second one.

Arithmetic is that of the **integers**, reduced to a machine word: `Operator.Exact` says what an
operator gives on integers without bounds, and `Operator.apply_int` that this is what it gives on
words up to the bits that do not fit. The smallest integer divided by minus one, which
does not fit, is no exception. All of it together is `eval_exact`.
-/

namespace GeneralLL

/-! ## Machine words -/

section Words

theorem getLsbD_ofInt (w : Nat) (n : Int) (k : Nat) :
    (BitVec.ofInt w n).getLsbD k = (decide (k < w) && n.testBit k) := by
  cases n with
  | ofNat m =>
    rw [Int.ofNat_eq_natCast, BitVec.ofInt_natCast, BitVec.getLsbD_ofNat]
    rfl
  | negSucc m =>
    rw [BitVec.ofInt_negSucc_eq_not_ofNat, BitVec.getLsbD_not, BitVec.getLsbD_ofNat]
    by_cases hk : k < w <;> simp [hk, Int.testBit]

variable {a b : Int64}

theorem testBit_toInt {k : Nat} (hk : k < 64) : a.toInt.testBit k = a.toBitVec.getLsbD k := by
  have h := getLsbD_ofInt 64 a.toInt k
  rw [decide_eq_true hk, Bool.true_and, Int64.toInt, BitVec.ofInt_toInt] at h
  exact h.symm

/-- A word is what its bits say. -/
theorem ofInt_eq_of_testBit {n : Int} (h : ∀ k < 64, n.testBit k = a.toBitVec.getLsbD k) :
    Int64.ofInt n = a := by
  rw [← Int64.toBitVec_inj, Int64.toBitVec_ofInt]
  refine BitVec.eq_of_getLsbD_eq fun k hk => ?_
  rw [getLsbD_ofInt, h k hk, decide_eq_true hk, Bool.true_and]

theorem ofInt_land : Int64.ofInt (a.toInt.land b.toInt) = a &&& b := by
  refine ofInt_eq_of_testBit fun k hk => ?_
  rw [Int.testBit_land, testBit_toInt hk, testBit_toInt hk, Int64.toBitVec_and, BitVec.getLsbD_and]

theorem ofInt_lor : Int64.ofInt (a.toInt.lor b.toInt) = a ||| b := by
  refine ofInt_eq_of_testBit fun k hk => ?_
  rw [Int.testBit_lor, testBit_toInt hk, testBit_toInt hk, Int64.toBitVec_or, BitVec.getLsbD_or]

theorem ofInt_xor : Int64.ofInt (a.toInt.xor b.toInt) = a ^^^ b := by
  refine ofInt_eq_of_testBit fun k hk => ?_
  rw [Int.testBit_lxor, testBit_toInt hk, testBit_toInt hk, Int64.toBitVec_xor, BitVec.getLsbD_xor]

/-- A shift by less than the length of a word is a shift by the number itself. -/
theorem toNat_smod_of_lt (h : 0 ≤ b) (hlt : b < 64) :
    (b.toBitVec.smod 64).toNat = b.toInt.toNat := by
  have hnonneg : 0 ≤ b.toInt := Int64.le_iff_toInt_le.mp h
  have hsmall : b.toInt < 64 := Int64.lt_iff_toInt_lt.mp hlt
  have hint : (b.toBitVec.smod 64).toInt = b.toInt := by
    rw [BitVec.toInt_smod, Int64.toInt_toBitVec, Int.fmod_eq_emod_of_nonneg _ (by decide)]
    exact Int.emod_eq_of_lt hnonneg hsmall
  rw [← hint, BitVec.toNat_toInt_of_msb]
  rw [BitVec.msb_eq_toInt, hint, decide_eq_false_iff_not]
  omega

theorem ofInt_mul_two_pow (h : 0 ≤ b) (hlt : b < 64) :
    Int64.ofInt (a.toInt * 2 ^ b.toInt.toNat) = a <<< b := by
  have hpow : BitVec.ofInt 64 (2 ^ b.toInt.toNat) = BitVec.twoPow 64 b.toInt.toNat := by
    have hcast : (2 ^ b.toInt.toNat : Int) = (2 ^ b.toInt.toNat : Nat) := by push_cast; rfl
    rw [← BitVec.toNat_inj, hcast, BitVec.ofInt_natCast, BitVec.toNat_ofNat, BitVec.toNat_twoPow]
  rw [← Int64.toBitVec_inj, Int64.toBitVec_ofInt, BitVec.ofInt_mul, hpow, Int64.toInt,
    BitVec.ofInt_toInt, BitVec.mul_twoPow_eq_shiftLeft, Int64.toBitVec_shiftLeft,
    BitVec.shiftLeft_eq', toNat_smod_of_lt h hlt]

/-- A shift to the right rounds down. -/
theorem ofInt_div_two_pow (h : 0 ≤ b) (hlt : b < 64) :
    Int64.ofInt (a.toInt / 2 ^ b.toInt.toNat) = a >>> b := by
  rw [← Int64.toBitVec_inj, Int64.toBitVec_shiftRight, Int64.toBitVec_ofInt,
    ← BitVec.ofInt_toInt (x := a.toBitVec.sshiftRight' _), BitVec.toInt_sshiftRight',
    toNat_smod_of_lt h hlt, Int.shiftRight_eq_div_pow]
  push_cast
  rfl

end Words

/-! ## Operators -/

namespace Operator

/-- The operators that make an integer of two integers. -/
def IsArithmetic (op : Operator) : Prop :=
  op ∈ [add, sub, mul, div, mod, bitAnd, bitOr, bitXor, shiftLeft, shiftRight]

/-- The operators that divide. -/
def Divides (op : Operator) : Prop := op = div ∨ op = mod

/-- The operators that shift. -/
def Shifts (op : Operator) : Prop := op = shiftLeft ∨ op = shiftRight

/-- What an operator gives on integers without bounds. Bits are those of two's complement, in
which a negative integer has ones all the way to the left. -/
inductive Exact : Operator → Int → Int → Int → Prop where
  | add (a b : Int) : Exact .add a b (a + b)
  | sub (a b : Int) : Exact .sub a b (a - b)
  | mul (a b : Int) : Exact .mul a b (a * b)
  /-- The quotient goes toward zero. -/
  | div (a : Int) {b : Int} (h : b ≠ 0) : Exact .div a b (a.tdiv b)
  /-- The remainder that goes with this quotient. -/
  | mod (a : Int) {b : Int} (h : b ≠ 0) : Exact .mod a b (a.tmod b)
  | bitAnd (a b : Int) : Exact .bitAnd a b (a.land b)
  | bitOr (a b : Int) : Exact .bitOr a b (a.lor b)
  | bitXor (a b : Int) : Exact .bitXor a b (a.xor b)
  | shiftLeft (a : Int) {b : Int} (h : 0 ≤ b ∧ b < 64) : Exact .shiftLeft a b (a * 2 ^ b.toNat)
  /-- A shift to the right rounds down. -/
  | shiftRight (a : Int) {b : Int} (h : 0 ≤ b ∧ b < 64) : Exact .shiftRight a b (a / 2 ^ b.toNat)

variable {op : Operator}

theorem IsArithmetic.ne_and (h : op.IsArithmetic) : op ≠ .and := by
  rintro rfl
  simp [IsArithmetic] at h

theorem IsArithmetic.ne_or (h : op.IsArithmetic) : op ≠ .or := by
  rintro rfl
  simp [IsArithmetic] at h

theorem amount_iff {b : Int64} : (0 ≤ b ∧ b < 64) ↔ (0 ≤ b.toInt ∧ b.toInt < 64) := by
  rw [Int64.le_iff_toInt_le, Int64.lt_iff_toInt_lt]
  rfl

theorem toInt_ne_zero {b : Int64} (h : b ≠ 0) : b.toInt ≠ 0 := by
  rwa [Ne, ← Int64.toInt_zero, Int64.toInt_inj]

/-- **Arithmetic is exact up to the bits that do not fit.** Only a division by zero and a shift by
an amount that is no bit of a word have no result. -/
theorem apply_int (h : op.IsArithmetic) (a b : Int64) :
    (∃ n, op.Exact a.toInt b.toInt n ∧ op.apply (.int a) (.int b) = .ok (.int (.ofInt n))) ∨
      (op.Divides ∧ b = 0 ∧ op.apply (.int a) (.int b) = .error .divisionByZero) ∨
      (op.Shifts ∧ ¬(0 ≤ b ∧ b < 64) ∧
        op.apply (.int a) (.int b) = .error (.typeMismatch op.symbol .int .int)) := by
  have hexact {n : Int} {c : Int64} (hn : op.Exact a.toInt b.toInt n) (hc : Int64.ofInt n = c)
      (happly : op.applyInt a b = .ok (.int c)) :
      ∃ n, op.Exact a.toInt b.toInt n ∧ op.apply (.int a) (.int b) = .ok (.int (.ofInt n)) :=
    ⟨n, hn, hc ▸ happly⟩
  cases op with
  | add =>
    exact Or.inl (hexact (.add _ _) (by simp) rfl)
  | sub =>
    exact Or.inl (hexact (.sub _ _) (by simp) rfl)
  | mul =>
    exact Or.inl (hexact (.mul _ _) (by simp) rfl)
  | div =>
    by_cases hb : b = 0
    · exact Or.inr (Or.inl ⟨Or.inl rfl, hb, if_pos hb⟩)
    · have hdiv : Int64.ofInt (a.toInt.tdiv b.toInt) = a / b :=
        (Int64.ofInt_eq_iff_bmod_eq_toInt _ _).mpr (Int64.toInt_div a b).symm
      exact Or.inl (hexact (.div _ (toInt_ne_zero hb)) hdiv (if_neg hb))
  | mod =>
    by_cases hb : b = 0
    · exact Or.inr (Or.inl ⟨Or.inr rfl, hb, if_pos hb⟩)
    · have hmod : Int64.ofInt (a.toInt.tmod b.toInt) = a % b := by
        rw [← Int64.toInt_mod, Int64.ofInt_toInt]
      exact Or.inl (hexact (.mod _ (toInt_ne_zero hb)) hmod (if_neg hb))
  | bitAnd =>
    exact Or.inl (hexact (.bitAnd _ _) ofInt_land rfl)
  | bitOr =>
    exact Or.inl (hexact (.bitOr _ _) ofInt_lor rfl)
  | bitXor =>
    exact Or.inl (hexact (.bitXor _ _) ofInt_xor rfl)
  | shiftLeft =>
    by_cases hb : 0 ≤ b ∧ b < 64
    · exact Or.inl (hexact (.shiftLeft _ (amount_iff.mp hb)) (ofInt_mul_two_pow hb.1 hb.2)
        (if_pos hb))
    · exact Or.inr (Or.inr ⟨Or.inl rfl, hb, if_neg hb⟩)
  | shiftRight =>
    by_cases hb : 0 ≤ b ∧ b < 64
    · exact Or.inl (hexact (.shiftRight _ (amount_iff.mp hb)) (ofInt_div_two_pow hb.1 hb.2)
        (if_pos hb))
    · exact Or.inr (Or.inr ⟨Or.inr rfl, hb, if_neg hb⟩)
  | _ => exact absurd h (by simp [IsArithmetic])

theorem applyInt_error {a b : Int64} {error : EvalError} (h : op.applyInt a b = .error error) :
    (error = .divisionByZero ∧ op.Divides ∧ b = 0) ∨ error = .typeMismatch op.symbol .int .int := by
  cases op with
  | div =>
    rw [applyInt] at h
    split at h
    · rename_i hb
      exact Or.inl ⟨(Except.error.inj h).symm, Or.inl rfl, hb⟩
    · exact absurd h (by simp)
  | mod =>
    rw [applyInt] at h
    split at h
    · rename_i hb
      exact Or.inl ⟨(Except.error.inj h).symm, Or.inr rfl, hb⟩
    · exact absurd h (by simp)
  | shiftLeft | shiftRight =>
    rw [applyInt] at h
    split at h
    · exact absurd h (by simp)
    · exact Or.inr (Except.error.inj h).symm
  | and | or => exact Or.inr (Except.error.inj h).symm
  | _ => exact absurd h (by simp [applyInt])

theorem applyBool_error {a b : Bool} {error : EvalError} (h : op.applyBool a b = .error error) :
    error = .typeMismatch op.symbol .bool .bool := by
  cases op with
  | bitAnd | bitOr | bitXor | eq | ne => exact absurd h (by simp [applyBool])
  | _ => exact (Except.error.inj h).symm

theorem applyStr_error {a b : String} {error : EvalError} (h : op.applyStr a b = .error error) :
    error = .typeMismatch op.symbol .string .string := by
  cases op with
  | add | eq | ne | lt | le | gt | ge => exact absurd h (by simp [applyStr])
  | _ => exact (Except.error.inj h).symm

/-- **An operator has two errors of its own:** operands of a wrong kind, and a division by zero. -/
theorem apply_error {v w : Value} {error : EvalError} (h : op.apply v w = .error error) :
    (error = .divisionByZero ∧ op.Divides ∧ (∃ a, v = .int a) ∧ w = .int 0) ∨
      error = .typeMismatch op.symbol v.kind w.kind := by
  unfold apply at h
  split at h
  · rcases applyInt_error h with ⟨herror, hop, hzero⟩ | herror
    · exact Or.inl ⟨herror, hop, ⟨_, rfl⟩, congrArg Value.int hzero⟩
    · exact Or.inr herror
  · exact Or.inr (applyBool_error h)
  · exact Or.inr (applyStr_error h)
  · -- operands of two kinds can be compared for equality only
    split at h
    · exact absurd h (by simp)
    · exact absurd h (by simp)
    · exact Or.inr (Except.error.inj h).symm

end Operator

/-! ## Expressions -/

namespace Expr

/-- An expression is a part of itself, and what it is made of are parts of it. -/
inductive Part : Expr → Expr → Prop where
  | refl (e : Expr) : Part e e
  | not {d e : Expr} (h : Part d e) : Part d (.not e)
  | left {d l : Expr} (op : Operator) (r : Expr) (h : Part d l) : Part d (.binary op l r)
  | right {d r : Expr} (op : Operator) (l : Expr) (h : Part d r) : Part d (.binary op l r)

/-- The expression stands for a variable. -/
inductive Stands : Expr → String → Prop where
  | var (name : String) : Stands (.var name) name
  | leftExtent (label : String) : Stands (.leftExtent label) (leftExtentName label)
  | rightExtent (label : String) : Stands (.rightExtent label) (rightExtentName label)

/-- The errors that an expression raises by itself, its parts having values. -/
inductive Raises (env : Environment) : Expr → EvalError → Prop where
  | unbound {e : Expr} {name : String} (h : Stands e name) (hnone : env.lookup name = none) :
    Raises env e (.undefinedVariable name)
  | negation {e : Expr} {v : Value} (h : eval e env = .ok v) (hv : v.kind ≠ .bool) :
    Raises env (.not e) (.typeMismatch "!" v.kind .unit)
  /-- What comes first in `&&` or `||` is no truth value, and the rest is not looked at. -/
  | first {op : Operator} {l r : Expr} {v : Value} (hop : op = .and ∨ op = .or)
      (hl : eval l env = .ok v) (hv : v.kind ≠ .bool) :
    Raises env (.binary op l r) (.typeMismatch op.symbol v.kind .unit)
  /-- What comes second in `&&` or `||` is no truth value, and the first has left it open. -/
  | second {op : Operator} {l r : Expr} {b : Bool} {w : Value} (hop : op = .and ∨ op = .or)
      (hl : eval l env = .ok (.bool b)) (hr : eval r env = .ok w) (hw : w.kind ≠ .bool) :
    Raises env (.binary op l r) (.typeMismatch op.symbol .bool w.kind)
  /-- The operator does not apply to these operands. -/
  | operands {op : Operator} {l r : Expr} {v w : Value} {error : EvalError}
      (hl : eval l env = .ok v) (hr : eval r env = .ok w) (h : op.apply v w = .error error) :
    Raises env (.binary op l r) error

variable {env env' : Environment} {error : EvalError}

theorem Part.names_subset {d e : Expr} (h : Part d e) : ∀ x ∈ d.names, x ∈ e.names := by
  induction h with
  | refl => exact fun x hx => hx
  | not _ ih => exact ih
  | left op r _ ih => exact fun x hx => List.mem_append_left _ (ih x hx)
  | right op l _ ih => exact fun x hx => List.mem_append_right _ (ih x hx)

/-- All operators but `&&` and `||` take the values of both operands. -/
theorem eval_binary {op : Operator} (hand : op ≠ .and) (hor : op ≠ .or) (l r : Expr) :
    eval (.binary op l r) env = eval l env >>= fun v => eval r env >>= op.apply v := by
  cases op <;> first | rfl | contradiction

/-- The operators `&&` and `||` look at the second operand if the first one leaves it open. -/
theorem eval_lazy {op : Operator} {stop : Bool}
    (hop : (op = .and ∧ stop = false) ∨ (op = .or ∧ stop = true)) (l r : Expr) :
    eval (.binary op l r) env = eval l env >>= fun
      | .bool b => if b = stop then .ok (.bool b) else eval r env >>= deciding op
      | v => op.mismatch v .unit := by
  rcases hop with ⟨rfl, rfl⟩ | ⟨rfl, rfl⟩
  all_goals
    rw [eval]
    congr 1
    funext v
    rcases v with _ | b | _ | _
    case bool => cases b <;> rfl
    all_goals rfl

/-- **An expression reads its own names only.** -/
theorem eval_congr (e : Expr) (h : ∀ x ∈ e.names, env.lookup x = env'.lookup x) :
    eval e env = eval e env' := by
  induction e with
  | const v => rfl
  | var name => rw [eval, eval, read, read, h name List.mem_cons_self]
  | leftExtent label => rw [eval, eval, read, read, h _ List.mem_cons_self]
  | rightExtent label => rw [eval, eval, read, read, h _ List.mem_cons_self]
  | not e ih => rw [eval, eval, ih h]
  | binary op l r ihl ihr =>
    have hl := ihl fun x hx => h x (List.mem_append_left _ hx)
    have hr := ihr fun x hx => h x (List.mem_append_right _ hx)
    cases op <;> simp only [eval, hl, hr]

theorem deciding_error {op : Operator} {v : Value} (h : deciding op v = .error error) :
    v.kind ≠ .bool ∧ error = .typeMismatch op.symbol .bool v.kind := by
  cases v with
  | bool b => exact absurd h (by simp [deciding])
  | _ => exact ⟨by simp [Value.kind], (Except.error.inj h).symm⟩

theorem eval_not_error {e : Expr} (h : eval (.not e) env = .error error) :
    eval e env = .error error ∨ Raises env (.not e) error := by
  rw [eval] at h
  rcases Except.bind_eq_error_iff.mp h with h | ⟨v, hv, h⟩
  · exact Or.inl h
  · right
    cases v with
    | bool b => exact absurd h (by simp)
    | _ => exact Except.error.inj h ▸ .negation hv (by simp [Value.kind])

theorem eval_lazy_error {op : Operator} (hop : op = .and ∨ op = .or) {l r : Expr}
    (h : eval (.binary op l r) env = .error error) :
    eval l env = .error error ∨ eval r env = .error error ∨
      Raises env (.binary op l r) error := by
  obtain ⟨stop, hstop⟩ : ∃ stop, (op = .and ∧ stop = false) ∨ (op = .or ∧ stop = true) := by
    simpa using hop
  rw [eval_lazy hstop] at h
  rcases Except.bind_eq_error_iff.mp h with h | ⟨v, hv, h⟩
  · exact Or.inl h
  · right
    cases v with
    | bool b =>
      simp only at h
      split at h
      · exact absurd h (by simp)
      · rcases Except.bind_eq_error_iff.mp h with h | ⟨w, hw, h⟩
        · exact Or.inl h
        · obtain ⟨hkind, rfl⟩ := deciding_error h
          exact Or.inr (.second hop hv hw hkind)
    | _ => exact Or.inr (Except.error.inj h ▸ .first hop hv (by simp [Value.kind]))

/-- **Where an error of a binary expression comes from:** from one of the operands, or from the
operator. -/
theorem eval_binary_error {op : Operator} {l r : Expr}
    (h : eval (.binary op l r) env = .error error) :
    eval l env = .error error ∨ eval r env = .error error ∨
      Raises env (.binary op l r) error := by
  by_cases hop : op = .and ∨ op = .or
  · exact eval_lazy_error hop h
  · obtain ⟨hand, hor⟩ := not_or.mp hop
    rw [eval_binary hand hor] at h
    rcases Except.bind_eq_error_iff.mp h with h | ⟨v, hv, h⟩
    · exact Or.inl h
    · rcases Except.bind_eq_error_iff.mp h with h | ⟨w, hw, h⟩
      · exact Or.inr (Or.inl h)
      · exact Or.inr (Or.inr (.operands hv hw h))

theorem read_error {name : String} (h : read name env = .error error) :
    error = .undefinedVariable name ∧ env.lookup name = none := by
  rw [read] at h
  split at h
  · exact absurd h (by simp)
  · exact ⟨(Except.error.inj h).symm, by assumption⟩

/-- **Every error is raised by a part of the expression.** -/
theorem exists_raises {e : Expr} (h : eval e env = .error error) :
    ∃ d, Part d e ∧ Raises env d error := by
  induction e with
  | const v => exact absurd h (by simp [eval])
  | var name =>
    obtain ⟨rfl, hnone⟩ := read_error h
    exact ⟨_, .refl _, .unbound (.var name) hnone⟩
  | leftExtent label =>
    obtain ⟨rfl, hnone⟩ := read_error h
    exact ⟨_, .refl _, .unbound (.leftExtent label) hnone⟩
  | rightExtent label =>
    obtain ⟨rfl, hnone⟩ := read_error h
    exact ⟨_, .refl _, .unbound (.rightExtent label) hnone⟩
  | not e ih =>
    rcases eval_not_error h with h | h
    · obtain ⟨d, hd, hraises⟩ := ih h
      exact ⟨d, hd.not, hraises⟩
    · exact ⟨_, .refl _, h⟩
  | binary op l r ihl ihr =>
    rcases eval_binary_error h with h | h | h
    · obtain ⟨d, hd, hraises⟩ := ihl h
      exact ⟨d, hd.left op r, hraises⟩
    · obtain ⟨d, hd, hraises⟩ := ihr h
      exact ⟨d, hd.right op l, hraises⟩
    · exact ⟨_, .refl _, h⟩

/-- **Only a name that is read and not bound is reported as undefined.** -/
theorem mem_names_of_undefined {e : Expr} {x : String}
    (h : eval e env = .error (.undefinedVariable x)) : x ∈ e.names ∧ env.lookup x = none := by
  obtain ⟨d, hd, hraises⟩ := exists_raises h
  cases hraises with
  | unbound hstands hnone =>
    refine ⟨hd.names_subset x ?_, hnone⟩
    cases hstands <;> exact List.mem_cons_self
  | operands hl hr happly =>
    rcases Operator.apply_error happly with ⟨herror, -⟩ | herror <;> exact absurd herror (by simp)

/-- **Only a division or a remainder by zero is reported as one.** -/
theorem exists_division {e : Expr} (h : eval e env = .error .divisionByZero) :
    ∃ op l r a, Part (.binary op l r) e ∧ op.Divides ∧ eval l env = .ok (.int a) ∧
      eval r env = .ok (.int 0) := by
  obtain ⟨d, hd, hraises⟩ := exists_raises h
  cases hraises with
  | operands hl hr happly =>
    rcases Operator.apply_error happly with ⟨-, hop, ⟨a, rfl⟩, rfl⟩ | herror
    · exact ⟨_, _, _, a, hd, hop, hl, hr⟩
    · exact absurd herror (by simp)

/-- **What an expression evaluates to,** in every environment. -/
theorem eval_exact (e : Expr) :
    -- It depends on what the names that are read are bound to.
    (∀ env env' : Environment, (∀ x ∈ e.names, env.lookup x = env'.lookup x) →
      eval e env = eval e env') ∧
      -- A variable that is reported as undefined is read and not bound.
      (∀ env x, eval e env = .error (.undefinedVariable x) → x ∈ e.names ∧ env.lookup x = none) ∧
      (∀ env, (∀ x ∈ e.names, (env.lookup x).isSome) →
        ∀ x, eval e env ≠ .error (.undefinedVariable x)) ∧
      -- A division by zero is reported where a part of the expression divides by zero.
      (∀ env, eval e env = .error .divisionByZero → ∃ op l r a, Part (.binary op l r) e ∧
        op.Divides ∧ eval l env = .ok (.int a) ∧ eval r env = .ok (.int 0)) ∧
      -- Arithmetic is exact up to the bits that do not fit.
      ∀ env op l r a b, Part (.binary op l r) e → op.IsArithmetic → eval l env = .ok (.int a) →
        eval r env = .ok (.int b) →
          (∃ n, op.Exact a.toInt b.toInt n ∧
            eval (.binary op l r) env = .ok (.int (.ofInt n))) ∨
          (op.Divides ∧ b = 0 ∧ eval (.binary op l r) env = .error .divisionByZero) ∨
          (op.Shifts ∧ ¬(0 ≤ b ∧ b < 64) ∧
            eval (.binary op l r) env = .error (.typeMismatch op.symbol .int .int)) := by
  refine ⟨fun _ _ => eval_congr e, fun _ _ => mem_names_of_undefined, fun env hbound x h => ?_,
    fun _ => exists_division, fun env op l r a b _ hop hl hr => ?_⟩
  · obtain ⟨hmem, hnone⟩ := mem_names_of_undefined h
    have hsome := hbound x hmem
    rw [hnone] at hsome
    exact absurd hsome (by simp)
  · have happly : eval (.binary op l r) env = op.apply (.int a) (.int b) := by
      rw [eval_binary hop.ne_and hop.ne_or, hl, hr]
      rfl
    rw [happly]
    exact Operator.apply_int hop a b

/-- The quotient of two variables. -/
def quotient : Expr := .binary .div (.var "x") (.var "y")

/-- The smallest integer, and minus one, in a frame. -/
def framed : Environment :=
  (Environment.empty .frames).declare [("x", .int Int64.minValue), ("y", .int (-1))]

/-- The same bindings of these names among others, in a flat environment. -/
def flattened : Environment :=
  ((Environment.empty .flat).declare [("y", .int (-1)), ("z", .unit), ("x", .int 0)]).declare
    [("x", .int Int64.minValue)]

/-- A quotient that does not fit into a word, one that is not defined, and one without a
variable. -/
theorem eval_exact_quotient :
    eval quotient framed = eval quotient flattened ∧
      (∃ n, Operator.Exact .div Int64.minValue.toInt (-1 : Int64).toInt n ∧
        eval quotient framed = .ok (.int (.ofInt n))) ∧
      (∀ x, eval quotient framed ≠ .error (.undefinedVariable x)) ∧
      "x" ∈ quotient.names ∧
      (∃ op l r a, Part (.binary op l r) quotient ∧ op.Divides ∧
        eval l (framed.declare [("y", .int 0)]) = .ok (.int a) ∧
        eval r (framed.declare [("y", .int 0)]) = .ok (.int 0)) := by
  obtain ⟨hcongr, hundefined, hbound, hdivision, harithmetic⟩ := eval_exact quotient
  refine ⟨hcongr _ _ (by decide +kernel), ?_, hbound _ (by decide +kernel),
    (hundefined (.empty .flat) "x" (by decide +kernel)).1, hdivision _ (by decide +kernel)⟩
  rcases harithmetic framed .div (.var "x") (.var "y") Int64.minValue (-1) (.refl _)
    (by simp [Operator.IsArithmetic]) (by decide +kernel) (by decide +kernel) with h | h | h
  · exact h
  · exact absurd h.2.1 (by decide)
  · exact absurd h.1 (by simp [Operator.Shifts])

end Expr

end GeneralLL
