import GeneralLL.Forest.Dot
import GeneralLL.Proofs.Run
import Mathlib.Algebra.Group.Nat.Even
import Mathlib.Data.List.DropRight

/-!
# Where quoted texts end

A quoted text is read up to its first quote that no backslash protects, where a backslash protects
the next character whatever it is. The values of strings are **quoted so that only the last quote
can end them** (`behind_quoted`), since backslashes are escaped along with quotes.

In the labels of a drawing only quotes take a backslash, and the backslashes that are there already
are left alone. So a quote behind an odd number of backslashes ends the label too early. This does
not happen in a drawing exactly for the nodes whose labels are **harmless** (`Harmless`): no bound
of a class and no string among the arguments is or has a quote, and in literals, names and slots
all quotes stand behind an even number of backslashes. For all other nodes a part of the label
ends up among the attributes of the node (`toDot_label_ends_iff`).
-/

namespace GeneralLL

namespace Text

/-! ## Reading a quoted text -/

/-- What is left behind the end of a quoted text whose first quote has been read; `shielded` says
whether the next character is protected. -/
def behind (shielded : Bool) : List Char → Option (List Char)
  | [] => none
  | c :: rest =>
    if shielded then behind false rest
    else if c = '"' then some rest
    else behind (c = '\\') rest

/-- What is left behind a quoted text. -/
def behindQuoted : List Char → Option (List Char)
  | [] => none
  | c :: rest => if c = '"' then behind false rest else none

/-! ## Plain texts -/

/-- A text without quotes and backslashes. -/
def Plain (text : List Char) : Prop := ∀ c ∈ text, c ≠ '"' ∧ c ≠ '\\'

theorem plain_append {text more : List Char} : Plain (text ++ more) ↔ Plain text ∧ Plain more :=
  List.forall_mem_append

theorem plain_toDigits {b n : Nat} (hb : 1 < b) (hb16 : b ≤ 16) : Plain (Nat.toDigits b n) := by
  have hdigit : ∀ k < 16, k.digitChar ≠ '"' ∧ k.digitChar ≠ '\\' := by decide
  induction n using Nat.strong_induction_on with
  | _ n ih =>
    rw [Nat.toDigits_eq_if hb]
    split
    · exact List.forall_mem_singleton.mpr (hdigit n (by omega))
    · have hlast : n % b < 16 := Nat.lt_of_lt_of_le (Nat.mod_lt n (by omega)) hb16
      exact plain_append.mpr ⟨ih (n / b) (Nat.div_lt_self (by omega) hb),
        List.forall_mem_singleton.mpr (hdigit _ hlast)⟩

theorem plain_toString {n : Nat} : Plain (toString n).toList := by
  rw [Nat.toString_eq_ofList_toDigits, String.toList_ofList]
  exact plain_toDigits (by decide) (by decide)

/-- How a character is escaped: by a backslash in front of something, which is a quote only for a
quote, or not at all. -/
theorem escape_cases {quotes : List Char} (hquotes : '"' ∈ quotes) (c : Char) :
    (∃ d more, (escape quotes c).toList = '\\' :: d :: more ∧ Plain more ∧ (d = '"' ↔ c = '"')) ∨
      (escape quotes c).toList = [c] ∧ Plain [c] := by
  unfold escape
  split_ifs with hzero htab hreturn hnewline hself hcode
  · exact Or.inl ⟨'0', [], rfl, by simp [Plain], by simp [hzero]⟩
  · exact Or.inl ⟨'t', [], rfl, by simp [Plain], by simp [htab]⟩
  · exact Or.inl ⟨'r', [], rfl, by simp [Plain], by simp [hreturn]⟩
  · exact Or.inl ⟨'n', [], rfl, by simp [Plain], by simp [hnewline]⟩
  · exact Or.inl ⟨c, [], String.toList_ofList, by simp [Plain], Iff.rfl⟩
  · have hdigits : Plain (hexadecimal c.toNat).toList := by
      rw [hexadecimal, String.toList_ofList]
      exact plain_toDigits (by decide) (by decide)
    refine Or.inl ⟨'u', '\x7b' :: (hexadecimal c.toNat).toList ++ ['\x7d'], ?_, ?_, ?_⟩
    · simp [String.toList_append]
    · exact plain_append.mpr ⟨List.forall_mem_cons.mpr ⟨by decide, hdigits⟩, by simp [Plain]⟩
    · exact iff_of_false (by decide) fun hquote => hself (Or.inr (hquote ▸ hquotes))
  · refine Or.inr ⟨String.toList_singleton c, ?_⟩
    rw [Plain, List.forall_mem_singleton]
    exact ⟨fun hquote => hself (Or.inr (hquote ▸ hquotes)), fun hback => hself (Or.inl hback)⟩

theorem behind_plain {text tail : List Char} (h : Plain text) :
    behind false (text ++ tail) = behind false tail := by
  induction text with
  | nil => rfl
  | cons c text ih =>
    obtain ⟨hc, htext⟩ := List.forall_mem_cons.mp h
    rw [List.cons_append, behind, if_neg Bool.false_ne_true, if_neg hc.1, decide_eq_false hc.2,
      ih htext]

/-- Escaped characters do not end a quoted text, and they protect nothing behind them. -/
theorem behind_escape {quotes : List Char} (hquotes : '"' ∈ quotes) {c : Char} {tail : List Char} :
    behind false ((escape quotes c).toList ++ tail) = behind false tail := by
  rcases escape_cases hquotes c with ⟨d, more, hescape, hmore, -⟩ | ⟨hescape, hc⟩
  · rw [hescape]
    simpa [behind] using behind_plain hmore
  · rw [hescape, behind_plain hc]

/-- **Only the last quote ends a quoted string.** -/
theorem behind_quoted {s : String} {rest : List Char} :
    behindQuoted ((quoted s).toList ++ rest) = some rest := by
  have hinner (text : List Char) : behind false
      ((text.map (escape ['"'])).flatMap String.toList ++ '"' :: rest) = some rest := by
    induction text with
    | nil => rfl
    | cons c text ih =>
      rw [List.map_cons, List.flatMap_cons, List.append_assoc,
        behind_escape List.mem_cons_self, ih]
  have hquoted : (quoted s).toList ++ rest =
      '"' :: ((s.toList.map (escape ['"'])).flatMap String.toList ++ '"' :: rest) := by
    simp [quoted, String.toList_append, String.toList_join]
  rw [hquoted, behindQuoted, if_pos rfl, hinner]

/-! ## Escaping quotes and nothing else -/

/-- The text with a backslash before every quote. -/
def escapeQuotes (text : List Char) : List Char :=
  text.flatMap fun c => if c = '"' then ['\\', '"'] else [c]

/-- Whether the next character is protected behind a character whose quotes have been escaped;
nothing if the text ends there. -/
def afterChar (shielded : Bool) (c : Char) : Option Bool :=
  if c = '"' then (if shielded then none else some false) else some (!shielded && c = '\\')

/-- Whether the character behind a text is protected, if the text does not end before. -/
def afterText (shielded : Bool) (text : List Char) : Option Bool := text.foldlM afterChar shielded

theorem afterText_append {shielded : Bool} {text more : List Char} :
    afterText shielded (text ++ more) =
      (afterText shielded text).bind fun shielded => afterText shielded more :=
  List.foldlM_append

theorem afterText_cons {shielded : Bool} {c : Char} {text : List Char} :
    afterText shielded (c :: text) =
      (afterChar shielded c).bind fun shielded => afterText shielded text :=
  List.foldlM_cons

/-- As long as it does not end, a text with escaped quotes is read character by character. -/
theorem behind_escapeQuotes {text tail : List Char} {shielded shielded' : Bool}
    (h : afterText shielded text = some shielded') :
    behind shielded (escapeQuotes text ++ tail) = behind shielded' tail := by
  induction text generalizing shielded with
  | nil => exact congrArg (behind · tail) (Option.some.inj h)
  | cons c text ih =>
    rw [afterText_cons] at h
    obtain ⟨next, hc, h⟩ := Option.bind_eq_some_iff.mp h
    rw [← ih h, escapeQuotes, List.flatMap_cons, ← escapeQuotes, List.append_assoc]
    rw [afterChar] at hc
    split at hc
    · rename_i hquote
      cases shielded with
      | true => exact absurd hc (by simp)
      | false =>
        obtain rfl := Option.some.inj hc
        simp [behind, hquote]
    · rename_i hquote
      obtain rfl := Option.some.inj hc
      cases shielded <;> simp [behind, hquote]

/-- A text that ends before its time ends at one of its quotes. -/
theorem exists_end {text : List Char} {shielded : Bool} (h : afterText shielded text = none) :
    ∃ before after, text = before ++ '"' :: after ∧ afterText shielded before = some true ∧
      ∀ tail, behind shielded (escapeQuotes text ++ tail) = some (escapeQuotes after ++ tail) := by
  induction text generalizing shielded with
  | nil => exact absurd h (by simp [afterText])
  | cons c text ih =>
    rw [afterText_cons] at h
    cases hc : afterChar shielded c with
    | none =>
      rw [afterChar] at hc
      split at hc
      · rename_i hquote
        cases shielded with
        | false => exact absurd hc (by simp)
        | true =>
          subst hquote
          exact ⟨[], text, rfl, rfl, fun tail => by simp [escapeQuotes, behind]⟩
      · exact absurd hc (by simp)
    | some next =>
      rw [hc] at h
      obtain ⟨before, after, rfl, hbefore, hend⟩ := ih h
      refine ⟨c :: before, after, rfl, ?_, fun tail => ?_⟩
      · rw [afterText_cons, hc]
        exact hbefore
      · have hfirst : afterText shielded [c] = some next := by
          rw [afterText_cons, hc]
          rfl
        rw [← hend, ← behind_escapeQuotes hfirst, ← List.append_assoc]
        simp [escapeQuotes]

/-! ## Quotes and backslashes -/

/-- How many backslashes stand at the end of a text. -/
def backslashes (text : List Char) : Nat := (text.rtakeWhile (· = '\\')).length

/-- All quotes stand behind an even number of backslashes. -/
def EvenQuotes (text : List Char) : Prop :=
  ∀ before after, text = before ++ '"' :: after → Even (backslashes before)

theorem shielded_iff {text : List Char} {shielded : Bool}
    (h : afterText false text = some shielded) : shielded = true ↔ ¬Even (backslashes text) := by
  induction text using List.reverseRecOn generalizing shielded with
  | nil =>
    obtain rfl := Option.some.inj h
    simp [backslashes]
  | append_singleton text c ih =>
    rw [afterText_append] at h
    obtain ⟨previous, htext, h⟩ := Option.bind_eq_some_iff.mp h
    have hc : afterChar previous c = some shielded := by
      rw [afterText_cons] at h
      obtain ⟨next, hc, h⟩ := Option.bind_eq_some_iff.mp h
      exact hc.trans h
    by_cases hback : c = '\\'
    · subst hback
      have hnext : shielded = !previous := by simpa [afterChar, eq_comm] using hc
      rw [backslashes, List.rtakeWhile_concat_pos _ _ _ (by simp), List.length_append,
        List.length_singleton, ← backslashes, Nat.even_add_one, not_not, hnext, Bool.not_eq_true',
        ← Bool.not_eq_true, ih htext, not_not]
    · have hnext : shielded = false := by
        rw [afterChar] at hc
        split at hc
        · cases previous <;> simp_all
        · simpa [hback, eq_comm] using hc
      rw [backslashes, List.rtakeWhile_concat_neg _ _ _ (by simpa using hback), hnext]
      simp

/-- **A text with escaped quotes does not end before its time exactly if its quotes stand behind
even numbers of backslashes.** -/
theorem evenQuotes_iff {text : List Char} : EvenQuotes text ↔ (afterText false text).isSome := by
  constructor
  · intro h
    rw [Option.isSome_iff_ne_none]
    intro hnone
    obtain ⟨before, after, htext, hbefore, -⟩ := exists_end hnone
    exact (shielded_iff hbefore).mp rfl (h before after htext)
  · rintro h before after rfl
    rw [afterText_append] at h
    obtain ⟨_, h⟩ := Option.isSome_iff_exists.mp h
    obtain ⟨shielded, hbefore, h⟩ := Option.bind_eq_some_iff.mp h
    cases shielded with
    | true => exact absurd h (by simp [afterText_cons, afterChar])
    | false => exact not_not.mp fun hodd => absurd ((shielded_iff hbefore).mpr hodd) (by simp)

theorem evenQuotes_of_not_mem {text : List Char} (h : '"' ∉ text) : EvenQuotes text := by
  rintro before after rfl
  exact absurd (List.mem_append_right before List.mem_cons_self) h

/-- Any character but a quote or a backslash separates a text. -/
theorem evenQuotes_append_cons {text more : List Char} {c : Char} (hc : Plain [c]) :
    EvenQuotes (text ++ c :: more) ↔ EvenQuotes text ∧ EvenQuotes more := by
  obtain ⟨hquote, hback⟩ := List.forall_mem_singleton.mp hc
  have hstep (shielded : Bool) : afterChar shielded c = some false := by
    simp [afterChar, hquote, hback]
  rw [evenQuotes_iff, evenQuotes_iff, evenQuotes_iff, afterText_append]
  cases afterText false text with
  | none => simp
  | some shielded => simp [afterText_cons, hstep]

theorem evenQuotes_cons {text : List Char} {c : Char} (hc : Plain [c]) :
    EvenQuotes (c :: text) ↔ EvenQuotes text := by
  rw [← List.nil_append (c :: text), evenQuotes_append_cons hc]
  exact and_iff_right (evenQuotes_of_not_mem List.not_mem_nil)

theorem evenQuotes_concat {text : List Char} {c : Char} (hc : Plain [c]) :
    EvenQuotes (text ++ [c]) ↔ EvenQuotes text := by
  rw [evenQuotes_append_cons hc]
  exact and_iff_left (evenQuotes_of_not_mem List.not_mem_nil)

/-! ## Texts that are escaped already -/

theorem afterText_plain {text : List Char} (h : Plain text) :
    afterText false text = some false := by
  induction text with
  | nil => rfl
  | cons c text ih =>
    obtain ⟨hc, htext⟩ := List.forall_mem_cons.mp h
    rw [afterText_cons, afterChar, if_neg hc.1, decide_eq_false hc.2]
    exact ih htext

/-- An escaped quote stands behind a backslash. -/
theorem afterText_escape {quotes : List Char} (hquotes : '"' ∈ quotes) {c : Char} :
    afterText false (escape quotes c).toList = if c = '"' then none else some false := by
  rcases escape_cases hquotes c with ⟨d, more, hescape, hmore, hd⟩ | ⟨hescape, hc⟩
  · have hfirst : afterText false ('\\' :: d :: more) = afterText true (d :: more) := rfl
    rw [hescape, hfirst, afterText_cons, ← if_congr hd rfl rfl]
    by_cases hquote : d = '"'
    · simp [afterChar, hquote]
    · simp [afterChar, hquote, afterText_plain hmore]
  · rw [hescape, afterText_plain hc, if_neg (List.forall_mem_singleton.mp hc).1]

/-- Pieces that each end the text or protect nothing behind them. -/
theorem afterText_flatMap {α : Type} {written : α → List Char} {bad : α → Prop} [DecidablePred bad]
    (h : ∀ a, afterText false (written a) = if bad a then none else some false) (l : List α) :
    afterText false (l.flatMap written) = if ∃ a ∈ l, bad a then none else some false := by
  induction l with
  | nil => rfl
  | cons a l ih =>
    rw [List.flatMap_cons, afterText_append, h]
    by_cases ha : bad a
    · simp [ha]
    · simp [ha, ih]

theorem evenQuotes_toText_class {s : CharClass} :
    EvenQuotes s.toText.toList ↔ ∀ r ∈ s.ranges, r.first ≠ '"' ∧ r.last ≠ '"' := by
  have hrange (r : CharRange) : afterText false r.toText.toList =
      if r.first = '"' ∨ r.last = '"' then none else some false := by
    have hquotes : '"' ∈ ['"', '\''] := List.mem_cons_self
    rw [CharRange.toText]
    split
    · rename_i heq
      rw [afterText_escape hquotes, ← heq]
      simp only [or_self]
    · rw [String.toList_append, String.toList_append, afterText_append, afterText_append,
        afterText_escape hquotes]
      by_cases hfirst : r.first = '"'
      · simp [hfirst]
      · have hdash : afterText false ['-'] = some false := rfl
        simp [hfirst, hdash, afterText_escape hquotes]
  have htext : s.toText.toList =
      '[' :: (s.ranges.toList.flatMap fun r => r.toText.toList) ++ [']'] := by
    simp [CharClass.toText, String.toList_append, String.toList_join, List.flatMap_map]
  rw [htext, evenQuotes_concat (by simp [Plain]), evenQuotes_cons (by simp [Plain]),
    evenQuotes_iff, afterText_flatMap hrange]
  simp [not_or]

theorem evenQuotes_quoted {s : String} : EvenQuotes (quoted s).toList ↔ '"' ∉ s.toList := by
  have hquoted : (quoted s).toList =
      '"' :: (s.toList.flatMap fun c => (escape ['"'] c).toList) ++ ['"'] := by
    simp [quoted, String.toList_append, String.toList_join, List.flatMap_map]
  rw [hquoted, evenQuotes_iff, List.cons_append, afterText_cons, afterChar, if_pos rfl,
    if_neg Bool.false_ne_true, Option.bind_some, afterText_append,
    afterText_flatMap (fun c => afterText_escape List.mem_cons_self)]
  by_cases hquote : '"' ∈ s.toList
  · simp [hquote]
  · simp [hquote, afterChar, afterText]

theorem evenQuotes_toText_value {v : Value} :
    EvenQuotes v.toText.toList ↔ ∀ s, v = .str s → '"' ∉ s.toList := by
  cases v with
  | str s => simp [Value.toText, evenQuotes_quoted]
  | unit => exact iff_of_true (evenQuotes_of_not_mem (by decide)) (by simp)
  | bool b => cases b <;> exact iff_of_true (evenQuotes_of_not_mem (by decide)) (by simp)
  | int n =>
    refine iff_of_true (evenQuotes_of_not_mem fun hmem => ?_) (by simp)
    have hplain (k : Int) : Plain (toString k).toList := by
      cases k with
      | ofNat k => exact plain_toString
      | negSucc k =>
        have htext : (toString (Int.negSucc k)).toList = '-' :: (toString (k + 1)).toList := by
          simp [toString, Int.repr]
        rw [htext]
        exact List.forall_mem_cons.mpr ⟨by decide, plain_toString⟩
    exact (hplain _ _ hmem).1 rfl

theorem evenQuotes_tupleText {values : List Value} :
    EvenQuotes (Value.tupleText values).toList ↔ ∀ s, .str s ∈ values → '"' ∉ s.toList := by
  have hinner : EvenQuotes (", ".intercalate (values.map Value.toText)).toList ↔
      ∀ v ∈ values, EvenQuotes v.toText.toList := by
    induction values with
    | nil => exact iff_of_true (evenQuotes_of_not_mem (by decide)) (by simp)
    | cons v values ih =>
      cases values with
      | nil => simp
      | cons w values =>
        have htext (rest : String) :
            (v.toText ++ ", " ++ rest).toList = v.toText.toList ++ ',' :: ' ' :: rest.toList := by
          simp [String.toList_append]
        rw [List.map_cons, List.map_cons, String.intercalate_cons_cons, List.forall_mem_cons, ← ih,
          htext, evenQuotes_append_cons (by simp [Plain]), evenQuotes_cons (by simp [Plain]),
          List.map_cons]
  have htext : (Value.tupleText values).toList =
      '(' :: (", ".intercalate (values.map Value.toText)).toList ++ [')'] := by
    simp [Value.tupleText, String.toList_append]
  rw [htext, evenQuotes_concat (by simp [Plain]), evenQuotes_cons (by simp [Plain]), hinner]
  simp only [evenQuotes_toText_value]
  exact ⟨fun h s hs => h _ hs s rfl, fun h v hv s hs => h s (hs ▸ hv)⟩

end Text

open Text

/-! ## Labels -/

/-- The text of a terminal can stand in a label. -/
def Terminal.Harmless {μ : Type} [Matcher μ] : Terminal μ → Prop
  | epsilon => True
  | char _ => True
  | oneOf s => ∀ r ∈ s.ranges, r.first ≠ '"' ∧ r.last ≠ '"'
  | literal text => EvenQuotes text.toList
  | custom m => EvenQuotes (Matcher.name m).toList

theorem Terminal.evenQuotes_toText {μ : Type} [Matcher μ] {t : Terminal μ} :
    EvenQuotes t.toText.toList ↔ t.Harmless := by
  have hbetween (text : String) :
      ("'" ++ text ++ "'").toList = '\'' :: text.toList ++ ['\''] := by
    simp [String.toList_append]
  cases t with
  | epsilon =>
    have hnone : '"' ∉ "ε".toList := by decide
    exact iff_of_true (evenQuotes_of_not_mem hnone) trivial
  | char c =>
    refine iff_of_true ?_ trivial
    rw [toText, hbetween, evenQuotes_concat (by simp [Plain]), evenQuotes_cons (by simp [Plain]),
      evenQuotes_iff]
    by_cases hquote : c = '"' <;> simp [afterText, afterChar, hquote]
  | oneOf s => exact evenQuotes_toText_class
  | literal text =>
    rw [toText, hbetween, evenQuotes_concat (by simp [Plain]), evenQuotes_cons (by simp [Plain]),
      Harmless]
  | custom m => exact Iff.rfl

namespace Forest

variable {μ : Type} [Matcher μ] {f : Forest} {g : SlotGraph μ} {id : Nat}

/-- The name of a label and the arguments of the call can stand in a drawing. -/
def Label.Harmless (f : Forest) (g : SlotGraph μ) : Label → Prop
  | terminal id => (g.terminal id).Harmless
  | nonterminal id arguments => EvenQuotes (g.nonterminalName id).toList ∧
      ∀ list ∈ arguments, ∀ s, .str s ∈ f.argumentsOf list → '"' ∉ s.toList
  | intermediate slot _ => EvenQuotes (g.slot slot).text.toList

/-- The arguments that a description writes behind the name. -/
def Label.argumentsText (f : Forest) : Label → String
  | nonterminal _ arguments => arguments.elim "" fun list => Value.tupleText (f.argumentsOf list)
  | terminal _ => ""
  | intermediate .. => ""

/-- A description is the name with the arguments in front of the extents. -/
theorem toList_describe (f : Forest) (g : SlotGraph μ) (id : Nat) :
    ∃ extents, Plain extents ∧ (f.describe g id).toList =
      ((f.get id).span.label.name g).toList ++ ((f.get id).span.label.argumentsText f).toList
        ++ ' ' :: extents ++ [')'] := by
  let span := (f.get id).span
  have hdescribe : f.describe g id = span.label.name g ++ span.label.argumentsText f
      ++ " [" ++ toString span.left ++ ", " ++ toString span.right ++ ")" := by
    unfold describe
    rcases hlabel : span.label with _ | ⟨_, _ | _⟩ | _ <;> simp only [span] at hlabel <;>
      simp only [hlabel] <;> rfl
  have hcons {c : Char} {text : List Char} (hc : c ≠ '"' ∧ c ≠ '\\') (h : Plain text) :
      Plain (c :: text) := List.forall_mem_cons.mpr ⟨hc, h⟩
  refine ⟨'[' :: (toString span.left).toList ++ ',' :: ' ' :: (toString span.right).toList, ?_, ?_⟩
  · exact plain_append.mpr ⟨hcons (by decide) plain_toString,
      hcons (by decide) (hcons (by decide) plain_toString)⟩
  · rw [hdescribe]
    simp [String.toList_append, span]

/-- **A description can stand in a drawing exactly if its label is harmless.** -/
theorem evenQuotes_describe :
    EvenQuotes (f.describe g id).toList ↔ (f.get id).span.label.Harmless f g := by
  obtain ⟨extents, hextents, hdescribe⟩ := toList_describe f g id
  have hquote : '"' ∉ extents := fun hmem => (hextents _ hmem).1 rfl
  rw [hdescribe, evenQuotes_concat (by simp [Plain]), evenQuotes_append_cons (by simp [Plain]),
    and_iff_left (evenQuotes_of_not_mem hquote)]
  cases (f.get id).span.label with
  | terminal id =>
    rw [Label.argumentsText, String.toList_empty, List.append_nil]
    exact Terminal.evenQuotes_toText
  | nonterminal id arguments =>
    cases arguments with
    | none => simp [Label.Harmless, Label.name, Label.argumentsText]
    | some list =>
      obtain ⟨inner, hinner⟩ : ∃ inner,
          (Value.tupleText (f.argumentsOf list)).toList = '(' :: inner := by
        simp [Value.tupleText, String.toList_append]
      have harguments : EvenQuotes inner ↔
          ∀ s, .str s ∈ f.argumentsOf list → '"' ∉ s.toList := by
        rw [← evenQuotes_tupleText, hinner, evenQuotes_cons (by simp [Plain])]
      rw [Label.argumentsText, Option.elim_some, hinner,
        evenQuotes_append_cons (by simp [Plain]), harguments]
      simp [Label.Harmless, Label.name]
  | intermediate slot arguments =>
    rw [Label.argumentsText, String.toList_empty, List.append_nil]
    exact Iff.rfl

/-! ## Drawings -/

/-- What a drawing has in front of the label of a node. -/
def dotBefore (f : Forest) (g : SlotGraph μ) (id : Nat) : String :=
  "digraph sppf \x7b\n" ++ String.join ((List.range id).map (f.nodeDot g))
    ++ "  " ++ nodeName id ++ " [label="

/-- What a drawing has behind the label of a node. -/
def dotAfter (f : Forest) (g : SlotGraph μ) (id : Nat) : String :=
  ", shape=" ++ (if (f.get id).span.label.isIntermediate then "box" else "ellipse") ++ "]" ++ ";\n"
    ++ String.join ((f.get id).packed.map (f.packedDot id))
    ++ String.join ((List.range' (id + 1) (f.size - (id + 1))).map (f.nodeDot g)) ++ "\x7d\n"

/-- What is left of a drawing behind the label of a node, where a reader of quoted texts finds its
end. -/
def behindLabel (f : Forest) (g : SlotGraph μ) (id : Nat) : Option (List Char) :=
  behindQuoted ((dotLabel (f.describe g id)).toList ++ (f.dotAfter g id).toList)

theorem toDot_eq (h : id < f.size) :
    f.toDot g = f.dotBefore g id ++ dotLabel (f.describe g id) ++ f.dotAfter g id := by
  have hrange : List.range f.size =
      List.range id ++ id :: List.range' (id + 1) (f.size - (id + 1)) := by
    have hsize : f.size = id + (f.size - (id + 1) + 1) := by omega
    rw [← List.range'_succ, List.range_eq_range', List.range_eq_range']
    nth_rewrite 1 [hsize]
    rw [← List.range'_append_1, Nat.zero_add]
  unfold toDot
  rw [hrange, List.map_append, List.map_cons, String.join_append, String.join_cons]
  have hnode : f.nodeDot g id = "  " ++ (nodeName id ++ " [label=" ++ dotLabel (f.describe g id)
      ++ ", shape=" ++ (if (f.get id).span.label.isIntermediate then "box" else "ellipse") ++ "]")
      ++ ";\n" ++ String.join ((f.get id).packed.map (f.packedDot id)) := rfl
  rw [hnode]
  unfold dotBefore dotAfter
  simp only [String.append_assoc]

theorem behindQuoted_dotLabel {text : String} {rest : List Char} :
    behindQuoted ((dotLabel text).toList ++ rest) =
      behind false (escapeQuotes text.toList ++ '"' :: rest) := by
  have htext : (dotLabel text).toList ++ rest =
      '"' :: (escapeQuotes text.toList ++ '"' :: rest) := by
    simp [dotLabel, String.toList_append, escapeQuotes]
  rw [htext, behindQuoted, if_pos rfl]

/-- The labels of packed nodes are digits only. -/
theorem behindQuoted_pivot {pivot : Nat} {rest : List Char} :
    behindQuoted ((dotLabel (toString pivot)).toList ++ rest) = some rest := by
  rw [behindQuoted_dotLabel, behind_escapeQuotes (afterText_plain plain_toString)]
  rfl

/-- **Reading the label of a node ends at the quote that was put behind it exactly if the label is
harmless.** If it is not, then reading ends at an earlier quote, and the rest of the label is left
among the attributes of the node. -/
theorem toDot_label_ends_iff (h : id < f.size) :
    f.toDot g = f.dotBefore g id ++ dotLabel (f.describe g id) ++ f.dotAfter g id ∧
    (f.behindLabel g id = some (f.dotAfter g id).toList ↔
      (f.get id).span.label.Harmless f g) ∧
    (¬(f.get id).span.label.Harmless f g → ∃ before after,
      (f.describe g id).toList = before ++ '"' :: after ∧ ¬Even (backslashes before) ∧
      f.behindLabel g id = some (escapeQuotes after ++ '"' :: (f.dotAfter g id).toList)) := by
  refine ⟨toDot_eq h, ?_⟩
  rw [← evenQuotes_describe, evenQuotes_iff, behindLabel, behindQuoted_dotLabel]
  cases htext : afterText false (f.describe g id).toList with
  | none =>
    obtain ⟨before, after, heq, hbefore, hend⟩ := exists_end htext
    refine ⟨iff_of_false (fun hrest => ?_) (by simp),
      fun _ => ⟨before, after, heq, (shielded_iff hbefore).mp rfl, hend _⟩⟩
    -- the rest of the label is longer by its own quote
    have hlength := congrArg List.length (Option.some.inj ((hend _).symm.trans hrest))
    simp only [List.length_append, List.length_cons] at hlength
    omega
  | some shielded =>
    -- the description ends with a bracket, so nothing protects the quote behind it
    obtain rfl : shielded = false := by
      obtain ⟨extents, -, hdescribe⟩ := toList_describe f g id
      rw [hdescribe, afterText_append] at htext
      obtain ⟨previous, -, hlast⟩ := Option.bind_eq_some_iff.mp htext
      simpa [afterText, afterChar, eq_comm] using hlast
    exact ⟨iff_of_true ((behind_escapeQuotes htext).trans rfl) rfl, fun hnot => absurd rfl hnot⟩

end Forest

/-! ## An example -/

/-- One quote, which belongs to a class. -/
def quotes : Grammar RunMatcher where
  name := "quotes"
  start := "S"
  rules := [⟨"S", [.terminal (.oneOf (.single '"')) {}], none⟩]

/-- The parser for the quote. -/
def quotesParser : Parser RunMatcher :=
  { graph := SlotGraph.compile quotes, input := .ofString "\"" }

theorem ofGrammar_quotes : SlotGraph.ofGrammar quotes = .ok quotesParser.graph :=
  SlotGraph.ofGrammar_eq_ok_iff.mpr ⟨by decide +kernel, rfl⟩

/-- The forest of the quote has a node for the class, whose label ends too early, and one for the
start symbol. -/
theorem exists_forest_quotes : ∃ root f,
    (quotesParser.parse 100).verdict = .ok (.success root f) ∧ f.size = 2 ∧
      f.behindLabel quotesParser.graph 0 =
        some ("] [0, 1)\"".toList ++ (f.dotAfter quotesParser.graph 0).toList) ∧
      (f.get 1).span.label = .nonterminal 0 none := by
  obtain ⟨root, f, hv, hf⟩ := Verdict.exists_of_succeedsWith
    (x := (quotesParser.parse 100).verdict)
    (q := fun _ f => f.size = 2 ∧ f.behindLabel quotesParser.graph 0 =
      some ("] [0, 1)\"".toList ++ (f.dotAfter quotesParser.graph 0).toList) ∧
        (f.get 1).span.label = .nonterminal 0 none) (by decide +kernel)
  exact ⟨root, f, hv, of_decide_eq_true hf⟩

/-- The label of the start symbol is harmless. -/
theorem toDot_label_ends_iff_quotes :
    ∃ root f, (quotesParser.parse 100).verdict = .ok (.success root f) ∧ 1 < f.size ∧
      (f.get 1).span.label.Harmless f quotesParser.graph ∧
      f.behindLabel quotesParser.graph 1 = some (f.dotAfter quotesParser.graph 1).toList := by
  obtain ⟨root, f, hv, hsize, -, hlabel⟩ := exists_forest_quotes
  have hharmless : (f.get 1).span.label.Harmless f quotesParser.graph := by
    rw [hlabel]
    exact ⟨evenQuotes_of_not_mem (by decide +kernel), by simp⟩
  have h : 1 < f.size := by omega
  exact ⟨root, f, hv, h, hharmless, (Forest.toDot_label_ends_iff h).2.1.mpr hharmless⟩

/-- **The label of the class ends at the quote that it is about.** -/
theorem label_leaks :
    SlotGraph.ofGrammar quotes = .ok quotesParser.graph ∧
      ∃ root f, (quotesParser.parse 100).verdict = .ok (.success root f) ∧ 0 < f.size ∧
        f.behindLabel quotesParser.graph 0 =
          some ("] [0, 1)\"".toList ++ (f.dotAfter quotesParser.graph 0).toList) ∧
        f.behindLabel quotesParser.graph 0 ≠ some (f.dotAfter quotesParser.graph 0).toList := by
  obtain ⟨root, f, hv, hsize, hleak, -⟩ := exists_forest_quotes
  refine ⟨ofGrammar_quotes, root, f, hv, by omega, hleak, fun hend => ?_⟩
  have hlength := congrArg List.length (Option.some.inj (hleak.symm.trans hend))
  have hpos : 0 < "] [0, 1)\"".toList.length := by decide
  rw [List.length_append] at hlength
  omega

end GeneralLL
