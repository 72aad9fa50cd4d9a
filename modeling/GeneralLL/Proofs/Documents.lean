import GeneralLL.Grammar.Document
import GeneralLL.Proofs.ClassHistory
import GeneralLL.Proofs.Results
import Mathlib.Data.String.Basic

/-!
# What a grammar document denotes

The rules of a document are **in order** (`InOrder`) if each nonterminal has an array of arrays of
texts or a description of at least one character. Exactly then there is a grammar, and it
consists of the rules that each nonterminal **denotes** (`Denotes`), nonterminal by nonterminal
in the order of their names. All other documents are refused as invalid. This is `ofJson_exact`.

The format is said here without the functions that read it: a name is something between angle
brackets, a code point is a number written with digits only, and a description **admits** the
digits, the small letters and the characters of its range, less the exceptions.
-/

namespace GeneralLL

/-! ## The order of members -/

namespace Json

theorem mem_insertMember {key : String} {v : Json} {members : List (String × Json)}
    {m : String × Json} (h : m ∈ insertMember key v members) : m.1 = key ∨ m ∈ members := by
  induction members with
  | nil => exact Or.inl (congrArg Prod.fst (List.mem_singleton.mp h))
  | cons m' rest ih =>
    rw [insertMember] at h
    split at h
    · exact (List.mem_cons.mp h).imp_left (congrArg Prod.fst)
    · split at h
      · exact (List.mem_cons.mp h).imp (congrArg Prod.fst) (List.mem_cons_of_mem _)
      · rcases List.mem_cons.mp h with rfl | h
        · exact Or.inr List.mem_cons_self
        · exact (ih h).imp_right (List.mem_cons_of_mem _)

theorem pairwise_insertMember {key : String} {v : Json} {members : List (String × Json)}
    (h : members.Pairwise (·.1 < ·.1)) : (insertMember key v members).Pairwise (·.1 < ·.1) := by
  induction members with
  | nil => exact List.pairwise_singleton _ _
  | cons m rest ih =>
    obtain ⟨hm, hrest⟩ := List.pairwise_cons.mp h
    rw [insertMember]
    split
    · rename_i hlt
      refine List.pairwise_cons.mpr ⟨fun m' hm' => ?_, h⟩
      rcases List.mem_cons.mp hm' with rfl | hm'
      · exact hlt
      · exact String.lt_trans hlt (hm m' hm')
    · rename_i hnot
      split
      · rename_i heq
        exact List.pairwise_cons.mpr ⟨fun m' hm' => heq ▸ hm m' hm', hrest⟩
      · rename_i hne
        have hlt : m.1 < key := (lt_or_gt_of_ne hne).resolve_left hnot
        refine List.pairwise_cons.mpr ⟨fun m' hm' => ?_, ih hrest⟩
        rcases mem_insertMember hm' with heq | hm'
        · exact heq ▸ hlt
        · exact hm m' hm'

theorem pairwise_ofMembers? {room : Nat} {items : List (List Piece × Raw)}
    {done members : List (String × Json)} (hdone : done.Pairwise (·.1 < ·.1))
    (h : ofMembers? room items done = some members) : members.Pairwise (·.1 < ·.1) := by
  induction items generalizing done with
  | nil =>
    rw [ofMembers?] at h
    exact Option.some.inj h ▸ hdone
  | cons item rest ih =>
    obtain ⟨key, item⟩ := item
    rw [ofMembers?] at h
    obtain ⟨key, -, h⟩ := Option.bind_eq_some_iff.mp h
    obtain ⟨v, -, h⟩ := Option.bind_eq_some_iff.mp h
    exact ih (pairwise_insertMember hdone) h

/-- **The members of an object stand in the order of their keys.** -/
theorem pairwise_of_ofRaw? {room : Nat} {raw : Raw} {members : List (String × Json)}
    (h : ofRaw? room raw = some (.object members)) : members.Pairwise (·.1 < ·.1) := by
  cases raw with
  | object items =>
    rw [ofRaw?] at h
    obtain ⟨-, h⟩ := Option.ite_none_left_eq_some.mp h
    obtain ⟨members', h, heq⟩ := Option.map_eq_some_iff.mp h
    exact Json.object.inj heq ▸ pairwise_ofMembers? List.Pairwise.nil h
  | _ => simp [ofRaw?] at h

end Json

namespace GrammarDocument

/-! ## Productions -/

/-- A text that names a nonterminal: something between angle brackets. -/
def IsName (text : String) : Prop := ∃ x : List Char, x ≠ [] ∧ text.toList = '<' :: x ++ ['>']

/-- What a text in a production stands for: a nonterminal, whose name includes the brackets, or
itself. -/
inductive Stands {μ : Type} : String → Symbol μ → Prop where
  | name {text : String} (h : IsName text) : Stands text (.call text [] {})
  | itself {text : String} (h : ¬IsName text) : Stands text (.terminal (.ofText text) {})

theorem isNonterminal_iff {text : String} : isNonterminal text = true ↔ IsName text := by
  simp only [isNonterminal, Bool.and_eq_true, decide_eq_true_eq, List.getLast?_eq_some_iff, IsName]
  constructor
  · intro h
    obtain ⟨⟨hlength, hfirst⟩, front, hlast⟩ := h
    rw [hlast] at hlength hfirst ⊢
    cases front with
    | nil => simp at hlength
    | cons c x =>
      obtain rfl : c = '<' := Option.some.inj hfirst
      refine ⟨x, ?_, rfl⟩
      rintro rfl
      simp at hlength
  · intro h
    obtain ⟨x, hx, htext⟩ := h
    rw [htext]
    have hpos := List.length_pos_of_ne_nil hx
    refine ⟨⟨?_, rfl⟩, '<' :: x, rfl⟩
    simp only [List.cons_append, List.length_cons, List.length_append, List.length_nil]
    omega

theorem stands_iff {μ : Type} {text : String} {s : Symbol μ} : Stands text s ↔ symbol text = s := by
  unfold symbol
  constructor
  · intro h
    cases h with
    | name h => rw [if_pos (isNonterminal_iff.mpr h)]
    | itself h => rw [if_neg (mt isNonterminal_iff.mp h)]
  · rintro rfl
    split
    · rename_i h
      exact .name (isNonterminal_iff.mp h)
    · rename_i h
      exact .itself (mt isNonterminal_iff.mpr h)

/-- A JSON value is a production: an array of texts, and what they stand for. -/
def IsProduction {μ : Type} (item : Json) (body : List (Symbol μ)) : Prop :=
  ∃ texts : List String, item = .array (texts.map .string) ∧ List.Forall₂ Stands texts body

theorem production_eq_ok_iff {μ : Type} {item : Json} {body : List (Symbol μ)} :
    production item = .ok body ↔ IsProduction item body := by
  unfold production IsProduction
  split
  · rename_i items
    rw [Except.mapM_eq_ok_iff]
    simp only [Json.array.injEq]
    constructor
    · intro h
      induction h with
      | nil => exact ⟨[], rfl, .nil⟩
      | @cons item s items body hitem _ ih =>
        obtain ⟨texts, rfl, hbody⟩ := ih
        split at hitem
        · rename_i text
          exact ⟨text :: texts, rfl, .cons (stands_iff.mpr (Except.ok.inj hitem)) hbody⟩
        · exact absurd hitem (by simp)
    · intro h
      obtain ⟨texts, rfl, hbody⟩ := h
      rw [List.forall₂_map_left_iff]
      exact hbody.imp fun _ _ hstands => congrArg Except.ok (stands_iff.mp hstands)
  · rename_i hnot
    refine iff_of_false (by simp) fun h => ?_
    obtain ⟨texts, rfl, -⟩ := h
    exact hnot _ rfl

/-! ## Descriptions of characters -/

/-- A JSON value is a code point: a number below `2 ^ 32` that is written with digits only. -/
def IsCode (v : Json) (n : Nat) : Prop :=
  ∃ digits, v = .number ⟨false, digits, [], none⟩ ∧ Json.natOfDigits digits = n ∧
    n < UInt32.size

theorem asNat?_eq_some_iff {v : Json} {n : Nat} :
    v.asNat? = some n ↔ ∃ digits, v = .number ⟨false, digits, [], none⟩ ∧
      Json.natOfDigits digits = n ∧ n < UInt64.size := by
  constructor
  · intro h
    cases v with
    | number k =>
      rw [Json.asNat?, Json.Number.asNat?] at h
      split at h
      · exact absurd h (by simp)
      · -- neither sign, point nor exponent
        rename_i hplain
        obtain ⟨hsize, hn⟩ := Option.ite_none_right_eq_some.mp h
        obtain ⟨negative, digits, fraction, exponent⟩ := k
        simp only [Bool.or_eq_true, not_or, Bool.not_eq_true, Bool.not_eq_false',
          List.isEmpty_iff, Option.isSome_eq_false_iff, Option.isNone_iff_eq_none] at hplain
        obtain ⟨⟨rfl, rfl⟩, rfl⟩ := hplain
        obtain rfl := Option.some.inj hn
        exact ⟨digits, rfl, rfl, hsize⟩
    | _ => exact absurd h (by simp [Json.asNat?])
  · intro h
    obtain ⟨digits, rfl, rfl, hn⟩ := h
    exact if_pos hn

theorem codePoint?_eq_some_iff {v : Json} {n : Nat} : codePoint? v = some n ↔ IsCode v n := by
  rw [codePoint?, Option.filter_eq_some_iff, asNat?_eq_some_iff, decide_eq_true_eq, IsCode]
  constructor
  · intro h
    obtain ⟨⟨digits, hv, hdigits, -⟩, hn⟩ := h
    exact ⟨digits, hv, hdigits, hn⟩
  · intro h
    obtain ⟨digits, hv, hdigits, hn⟩ := h
    exact ⟨⟨digits, hv, hdigits, Nat.lt_trans hn (by decide)⟩, hn⟩

/-- The member `char_range` starts with two code points. -/
def HasRange (members : List (String × Json)) (start stop : Nat) : Prop :=
  ∃ v w rest, Json.member? members "char_range" = some (.array (v :: w :: rest)) ∧
    IsCode v start ∧ IsCode w stop

/-- The member `exclude` lists a code point. -/
def Excepts (members : List (String × Json)) (n : Nat) : Prop :=
  ∃ items, Json.member? members "exclude" = some (.array items) ∧ ∃ v ∈ items, IsCode v n

/-- A description says of a character that it belongs to the class. -/
inductive Admits (members : List (String × Json)) (c : Char) : Prop where
  | digit (h : Json.member? members "digits" = some (.bool true)) (hc : '0' ≤ c ∧ c ≤ '9')
  | letter (h : Json.member? members "letters" = some (.bool true)) (hc : 'a' ≤ c ∧ c ≤ 'z')
  | range {start stop : Nat} (h : HasRange members start stop)
      (hc : start ≤ c.toNat ∧ c.toNat < stop) (hexcept : ¬Excepts members c.toNat)

theorem isOn_iff {members : List (String × Json)} {key : String} :
    isOn members key = true ↔ Json.member? members key = some (.bool true) := by
  rw [isOn, decide_eq_true_eq, Option.bind_eq_some_iff]
  constructor
  · intro h
    obtain ⟨v, hv, hbool⟩ := h
    cases v with
    | bool b =>
      obtain rfl := Option.some.inj hbool
      exact hv
    | _ => exact absurd hbool (by simp [Json.asBool?])
  · intro h
    exact ⟨_, h, rfl⟩

theorem asArray?_eq_some_iff {v : Json} {items : List Json} :
    v.asArray? = some items ↔ v = .array items := by
  cases v <;> simp [Json.asArray?]

theorem bounds_eq_ok_iff {v : Json} {start stop : Nat} :
    bounds v = .ok (start, stop) ↔
      ∃ a b rest, v = .array (a :: b :: rest) ∧ IsCode a start ∧ IsCode b stop := by
  simp only [← codePoint?_eq_some_iff]
  constructor
  · intro h
    unfold bounds at h
    split at h
    · exact absurd h (by simp)
    · rename_i items hitems
      split at h
      · rename_i ha hb
        simp only [Except.ok.injEq, Prod.mk.injEq] at h
        obtain ⟨rfl, rfl⟩ := h
        obtain rfl := asArray?_eq_some_iff.mp hitems
        match items, ha, hb with
        | [], ha, _ => exact absurd ha (by simp)
        | [a], _, hb => exact absurd hb (by simp)
        | a :: b :: rest, ha, hb => exact ⟨a, b, rest, rfl, ha, hb⟩
      · exact absurd h (by simp)
  · intro h
    obtain ⟨a, b, rest, rfl, ha, hb⟩ := h
    simp [bounds, Json.asArray?, ha, hb]

theorem hasRange_iff {members : List (String × Json)} {start stop : Nat} :
    HasRange members start stop ↔
      ∃ v, Json.member? members "char_range" = some v ∧ bounds v = .ok (start, stop) := by
  simp only [HasRange, bounds_eq_ok_iff]
  constructor
  · intro h
    obtain ⟨a, b, rest, hmember, ha, hb⟩ := h
    exact ⟨_, hmember, a, b, rest, rfl, ha, hb⟩
  · intro h
    obtain ⟨v, hmember, a, b, rest, rfl, ha, hb⟩ := h
    exact ⟨a, b, rest, hmember, ha, hb⟩

theorem HasRange.unique {members : List (String × Json)} {start stop start' stop' : Nat}
    (h : HasRange members start stop) (h' : HasRange members start' stop') :
    start = start' ∧ stop = stop' := by
  obtain ⟨v, hmember, hv⟩ := hasRange_iff.mp h
  obtain ⟨v', hmember', hv'⟩ := hasRange_iff.mp h'
  obtain rfl := Option.some.inj (hmember.symm.trans hmember')
  simpa using hv.symm.trans hv'

theorem mem_exceptions_iff {members : List (String × Json)} {n : Nat} :
    n ∈ exceptions members ↔ Excepts members n := by
  simp only [exceptions, List.mem_filterMap, codePoint?_eq_some_iff, Excepts]
  constructor
  · intro h
    obtain ⟨v, hv, hcode⟩ := h
    cases hitems : (Json.member? members "exclude").bind Json.asArray? with
    | none =>
      rw [hitems] at hv
      exact absurd hv List.not_mem_nil
    | some items =>
      rw [hitems] at hv
      obtain ⟨w, hw, harray⟩ := Option.bind_eq_some_iff.mp hitems
      exact ⟨items, asArray?_eq_some_iff.mp harray ▸ hw, v, hv, hcode⟩
  · intro h
    obtain ⟨items, hitems, v, hv, hcode⟩ := h
    rw [hitems]
    exact ⟨v, hv, hcode⟩

theorem contains_addRange {s : CharClass} {a b c : Char} :
    (s.addRange a b).contains c ↔ CharRange.Within a b c ∨ s.contains c := by
  rw [CharClass.contains_iff_covers, CharClass.contains_iff_covers, CharClass.addRange,
    CharClass.covers_insertRange, ← CharRange.contains_iff, CharRange.contains_between]

theorem contains_add {s : CharClass} {a c : Char} :
    (s.add a).contains c ↔ c = a ∨ s.contains c := by
  rw [CharClass.add, contains_addRange, CharRange.within_self]

theorem contains_addCodePoints {s : CharClass} {start stop : Nat} {except : List Nat} {c : Char} :
    (addCodePoints s start stop except).contains c ↔
      s.contains c ∨ (start ≤ c.toNat ∧ c.toNat < stop) ∧ c.toNat ∉ except := by
  have hstep (s : CharClass) (code : Nat) :
      (if code.isValidChar ∧ code ∉ except then s.add (Char.ofNat code) else s).contains c ↔
        s.contains c ∨ c.toNat = code ∧ c.toNat ∉ except := by
    split
    · rename_i h
      have hchar : c = Char.ofNat code ↔ c.toNat = code := by
        rw [← Char.toNat_inj, Char.ofNat, dif_pos h.1]
        rfl
      rw [contains_add, hchar, or_comm]
      exact or_congr_right (iff_self_and.mpr fun hcode => hcode ▸ h.2)
    · rename_i h
      -- a code point that is no character, or an exception
      refine (or_iff_left fun hcode => h ?_).symm
      exact ⟨hcode.1 ▸ c.valid, hcode.1 ▸ hcode.2⟩
  have hfold (codes : List Nat) : ∀ s : CharClass, (codes.foldl (fun s code =>
      if code.isValidChar ∧ code ∉ except then s.add (Char.ofNat code) else s) s).contains c ↔
        s.contains c ∨ c.toNat ∈ codes ∧ c.toNat ∉ except := by
    induction codes with
    | nil => intro s; simp
    | cons code rest ih =>
      intro s
      rw [List.foldl_cons, ih, hstep, List.mem_cons, or_and_right, or_assoc]
  rw [addCodePoints, hfold, List.mem_range'_1]
  have hvalid : c.toNat < 0x110000 := by
    have h : Char.isValidCharNat c.toNat := c.valid
    unfold Char.isValidCharNat at h
    omega
  have hrange : (start ≤ c.toNat ∧ c.toNat < start + (min stop 0x110000 - start)) ↔
      start ≤ c.toNat ∧ c.toNat < stop := by omega
  rw [hrange]

/-- The digits and the small letters of a description. -/
def named (members : List (String × Json)) : CharClass :=
  let s := if isOn members "digits" then CharClass.empty.addRange '0' '9' else .empty
  if isOn members "letters" then s.addRange 'a' 'z' else s

theorem contains_named {members : List (String × Json)} {c : Char} :
    (named members).contains c ↔
      (Json.member? members "digits" = some (.bool true) ∧ '0' ≤ c ∧ c ≤ '9') ∨
      (Json.member? members "letters" = some (.bool true) ∧ 'a' ≤ c ∧ c ≤ 'z') := by
  have hif (key : String) (s : CharClass) (a b : Char) (hab : a ≤ b) :
      (if isOn members key then s.addRange a b else s).contains c ↔
        s.contains c ∨ Json.member? members key = some (.bool true) ∧ a ≤ c ∧ c ≤ b := by
    have hwithin : CharRange.Within a b c ↔ a ≤ c ∧ c ≤ b :=
      or_iff_left_of_imp fun h => ⟨hab.trans h.1, h.2.trans hab⟩
    split
    · rename_i hon
      rw [contains_addRange, hwithin, or_comm, and_iff_right (isOn_iff.mp hon)]
    · rename_i hoff
      exact (or_iff_left fun h => hoff (isOn_iff.mpr h.1)).symm
  rw [named, hif _ _ _ _ (by decide), hif _ _ _ _ (by decide),
    or_iff_right CharClass.not_contains_empty]

theorem characters_eq_ok_iff {members : List (String × Json)} {s : CharClass} :
    characters members = .ok s ↔
      (Json.member? members "char_range" = none ∧ s = named members) ∨
      ∃ start stop, HasRange members start stop ∧
        s = addCodePoints (named members) start stop (exceptions members) := by
  simp only [hasRange_iff]
  cases hmember : Json.member? members "char_range" with
  | none =>
    have hcharacters : characters members = .ok (named members) := by
      unfold characters
      rw [hmember]
      rfl
    simp [hcharacters, eq_comm]
  | some v =>
    have hcharacters : characters members = bounds v >>= fun range =>
        .ok (addCodePoints (named members) range.1 range.2 (exceptions members)) := by
      unfold characters
      rw [hmember]
      rfl
    rw [hcharacters, Except.bind_eq_ok_iff]
    simp [eq_comm (a := s)]

/-- **The class of a description has the characters that the description admits.** -/
theorem contains_characters {members : List (String × Json)} {s : CharClass}
    (h : characters members = .ok s) {c : Char} : s.contains c ↔ Admits members c := by
  have hadmits : Admits members c ↔ (named members).contains c ∨ ∃ start stop,
      HasRange members start stop ∧ (start ≤ c.toNat ∧ c.toNat < stop) ∧
        ¬Excepts members c.toNat := by
    rw [contains_named]
    constructor
    · intro h
      cases h with
      | digit h hc => exact Or.inl (Or.inl ⟨h, hc⟩)
      | letter h hc => exact Or.inl (Or.inr ⟨h, hc⟩)
      | range h hc hexcept => exact Or.inr ⟨_, _, h, hc, hexcept⟩
    · intro h
      rcases h with (⟨h, hc⟩ | ⟨h, hc⟩) | ⟨start, stop, h, hc, hexcept⟩
      · exact .digit h hc
      · exact .letter h hc
      · exact .range h hc hexcept
  rw [hadmits]
  rcases characters_eq_ok_iff.mp h with ⟨hnone, rfl⟩ | ⟨start, stop, hrange, rfl⟩
  · refine (or_iff_left fun h => ?_).symm
    obtain ⟨start, stop, ⟨v, w, rest, hsome, -⟩, -⟩ := h
    exact absurd (hnone.symm.trans hsome) (by simp)
  · rw [contains_addCodePoints, mem_exceptions_iff]
    refine or_congr_right ⟨fun h => ⟨start, stop, hrange, h⟩, fun h => ?_⟩
    obtain ⟨start', stop', hrange', h⟩ := h
    obtain ⟨rfl, rfl⟩ := hrange.unique hrange'
    exact h

theorem isEmpty_eq_false_iff {s : CharClass} : s.isEmpty = false ↔ ∃ c, s.contains c = true := by
  rw [CharClass.isEmpty, ← Bool.not_eq_true, Array.isEmpty_iff]
  constructor
  · intro h
    obtain ⟨r, hr⟩ := Array.exists_mem_of_ne_empty _ h
    have hfirst : r.contains r.first := CharRange.contains_iff.mpr ⟨Nat.le_refl _, r.first_le_last⟩
    exact ⟨r.first, CharClass.contains_iff_mem.mpr ⟨r, hr, hfirst⟩⟩
  · intro h hempty
    obtain ⟨c, hc⟩ := h
    obtain ⟨r, hr, -⟩ := CharClass.contains_iff_mem.mp hc
    rw [hempty] at hr
    exact absurd hr (by simp)

/-! ## Rules -/

/-- What is said about a nonterminal is in order: an array of arrays of texts, or a description of
at least one character. -/
inductive InOrder : Json → Prop where
  | productions (bodies : List (List String)) :
    InOrder (.array (bodies.map fun texts => .array (texts.map .string)))
  | description {members : List (String × Json)}
      (hrange : Json.member? members "char_range" = none ∨
        ∃ start stop, HasRange members start stop)
      (hc : ∃ c, Admits members c) : InOrder (.object members)

/-- The rules that are given for a nonterminal: one for each production, or a single one for one
character of a class. -/
inductive Denotes {μ : Type} (head : String) : Json → List (Rule μ) → Prop where
  | productions {items : List Json} {rules : List (Rule μ)}
      (h : List.Forall₂ (fun item r => r.head = head ∧ r.returns = none ∧ IsProduction item r.body)
        items rules) : Denotes head (.array items) rules
  | description {members : List (String × Json)} {s : CharClass}
      (h : ∀ c, s.contains c = true ↔ Admits members c) :
    Denotes head (.object members) [{ head, body := [.terminal (.oneOf s) {}] }]

theorem productions_array_eq_ok_iff {μ : Type} {items : List Json}
    {bodies : List (List (Symbol μ))} :
    productions (.array items) = .ok bodies ↔ List.Forall₂ IsProduction items bodies := by
  rw [productions, Except.mapM_eq_ok_iff]
  simp only [production_eq_ok_iff]

theorem productions_object_eq_ok_iff {μ : Type} {members : List (String × Json)}
    {bodies : List (List (Symbol μ))} :
    productions (.object members) = .ok bodies ↔ ∃ s, characters members = .ok s ∧
      s.isEmpty = false ∧ bodies = [[.terminal (.oneOf s) {}]] := by
  rw [productions, Except.bind_eq_ok_iff]
  refine exists_congr fun s => and_congr_right fun _ => ?_
  cases s.isEmpty with
  | true => simp
  | false => simp [pure, Except.pure, eq_comm (a := bodies)]

/-- **A nonterminal has productions exactly if what is said about it is in order.** -/
theorem exists_productions_iff {μ : Type} {v : Json} :
    (∃ bodies : List (List (Symbol μ)), productions v = .ok bodies) ↔ InOrder v := by
  cases v with
  | array items =>
    simp only [productions_array_eq_ok_iff]
    constructor
    · intro h
      obtain ⟨bodies, h⟩ := h
      have htexts : ∃ texts : List (List String),
          items = texts.map fun texts => .array (texts.map .string) := by
        induction h with
        | nil => exact ⟨[], rfl⟩
        | cons hitem _ ih =>
          obtain ⟨texts, rfl, -⟩ := hitem
          obtain ⟨rest, rfl⟩ := ih
          exact ⟨texts :: rest, rfl⟩
      obtain ⟨texts, rfl⟩ := htexts
      exact .productions texts
    · intro h
      cases h with
      | productions bodies =>
        refine ⟨bodies.map (List.map symbol), ?_⟩
        rw [List.forall₂_map_left_iff, List.forall₂_map_right_iff, List.forall₂_same]
        intro texts _
        refine ⟨texts, rfl, ?_⟩
        rw [List.forall₂_map_right_iff, List.forall₂_same]
        exact fun text _ => stands_iff.mpr rfl
  | object members =>
    simp only [productions_object_eq_ok_iff]
    constructor
    · intro h
      obtain ⟨bodies, s, hs, hempty, -⟩ := h
      obtain ⟨c, hc⟩ := isEmpty_eq_false_iff.mp hempty
      refine .description ?_ ⟨c, (contains_characters hs).mp hc⟩
      rcases characters_eq_ok_iff.mp hs with ⟨hnone, -⟩ | ⟨start, stop, hrange, -⟩
      · exact Or.inl hnone
      · exact Or.inr ⟨start, stop, hrange⟩
    · intro h
      cases h with
      | description hrange hc =>
        obtain ⟨s, hs⟩ : ∃ s, characters members = .ok s := by
          simp only [characters_eq_ok_iff]
          rcases hrange with hnone | ⟨start, stop, hrange⟩
          · exact ⟨_, Or.inl ⟨hnone, rfl⟩⟩
          · exact ⟨_, Or.inr ⟨start, stop, hrange, rfl⟩⟩
        obtain ⟨c, hc⟩ := hc
        exact ⟨_, s, hs, isEmpty_eq_false_iff.mpr ⟨c, (contains_characters hs).mpr hc⟩, rfl⟩
  | _ =>
    refine iff_of_false (by simp [productions]) fun h => ?_
    cases h

/-- **The productions of a nonterminal are what is denoted by what is said about it.** -/
theorem denotes_of_productions {μ : Type} {head : String} {v : Json}
    {bodies : List (List (Symbol μ))} (h : productions v = .ok bodies) :
    Denotes head v (bodies.map fun body => { head, body }) := by
  cases v with
  | array items =>
    rw [productions_array_eq_ok_iff] at h
    refine .productions ?_
    rw [List.forall₂_map_right_iff]
    exact h.imp fun _ _ hitem => ⟨rfl, rfl, hitem⟩
  | object members =>
    obtain ⟨s, hs, -, rfl⟩ := productions_object_eq_ok_iff.mp h
    exact .description fun c => contains_characters hs
  | _ => exact absurd h (by simp [productions])

theorem rulesOf_eq_ok_iff {μ : Type} {members : List (String × Json)} {rules : List (Rule μ)} :
    rulesOf members = .ok rules ↔ ∃ groups : List (List (Rule μ)),
      List.Forall₂ (fun m group => ∃ bodies, productions m.2 = .ok bodies ∧
        bodies.map (fun body => { head := m.1, body }) = group) members groups ∧
      groups.flatten = rules := by
  rw [rulesOf, Except.bind_eq_ok_iff]
  simp only [Except.mapM_eq_ok_iff, Except.bind_eq_ok_iff, pure, Except.pure, Except.ok.injEq]

/-! ## Documents -/

theorem ordered_rules {text : String} {d : GrammarDocument} (h : ofJson? text = some d) :
    d.rules.Pairwise (·.1 < ·.1) := by
  obtain ⟨raw, -, h⟩ := Option.bind_eq_some_iff.mp h
  obtain ⟨fields, -, h⟩ := Option.bind_eq_some_iff.mp h
  rw [ofFields?] at h
  obtain ⟨name, -, h⟩ := Option.bind_eq_some_iff.mp h
  obtain ⟨start, -, h⟩ := Option.bind_eq_some_iff.mp h
  obtain ⟨rules, hrules, h⟩ := Option.bind_eq_some_iff.mp h
  have hd : d.rules = rules := by
    dsimp only at h
    split at h
    · exact congrArg GrammarDocument.rules (Option.some.inj h).symm
    · obtain ⟨items, -, h⟩ := Option.bind_eq_some_iff.mp h
      obtain ⟨tests, -, h⟩ := Option.bind_eq_some_iff.mp h
      exact congrArg GrammarDocument.rules (Option.some.inj h).symm
  rw [hd]
  obtain ⟨v, hv, hobject⟩ := Option.bind_eq_some_iff.mp hrules
  obtain ⟨raw, -, hraw⟩ := Option.bind_eq_some_iff.mp hv
  cases v with
  | object members =>
    obtain rfl := Option.some.inj hobject
    exact Json.pairwise_of_ofRaw? hraw
  | _ => exact absurd hobject (by simp [Json.asObject?])

theorem exists_rulesOf_iff {μ : Type} {members : List (String × Json)} :
    (∃ rules : List (Rule μ), rulesOf members = .ok rules) ↔ ∀ m ∈ members, InOrder m.2 := by
  simp only [rulesOf_eq_ok_iff]
  constructor
  · intro h
    obtain ⟨_, groups, h, -⟩ := h
    induction h with
    | nil => exact fun m hm => absurd hm List.not_mem_nil
    | cons hm _ ih =>
      obtain ⟨bodies, hbodies, -⟩ := hm
      exact List.forall_mem_cons.mpr ⟨exists_productions_iff.mp ⟨bodies, hbodies⟩, ih⟩
  · intro h
    induction members with
    | nil => exact ⟨_, [], .nil, rfl⟩
    | cons m rest ih =>
      obtain ⟨hm, hrest⟩ := List.forall_mem_cons.mp h
      obtain ⟨bodies, hbodies⟩ := exists_productions_iff (μ := μ).mpr hm
      obtain ⟨_, groups, hgroups, -⟩ := ih hrest
      exact ⟨_, _ :: groups, .cons ⟨bodies, hbodies, rfl⟩ hgroups, rfl⟩

theorem denotes_of_rulesOf {μ : Type} {members : List (String × Json)} {rules : List (Rule μ)}
    (h : rulesOf members = .ok rules) : ∃ groups : List (List (Rule μ)),
      List.Forall₂ (fun m group => Denotes m.1 m.2 group) members groups ∧
      rules = groups.flatten := by
  obtain ⟨groups, hgroups, hrules⟩ := rulesOf_eq_ok_iff.mp h
  refine ⟨groups, hgroups.imp fun m group hm => ?_, hrules.symm⟩
  obtain ⟨bodies, hbodies, rfl⟩ := hm
  exact denotes_of_productions hbodies

end GrammarDocument

open GrammarDocument in
/-- **Exactly the documents whose rules are in order have a grammar; all others are refused as
invalid.** The grammar has the rules that are denoted by what the document says about each
nonterminal, in the order of their names. -/
theorem Grammar.ofJson_exact {μ : Type} {text : String} {d : GrammarDocument}
    (h : ofJson? text = some d) :
    d.rules.Pairwise (·.1 < ·.1) ∧
    ((∃ g : Grammar μ, ofJson text = .ok g) ↔ ∀ m ∈ d.rules, InOrder m.2) ∧
    ((¬∀ m ∈ d.rules, InOrder m.2) →
      ∃ fault, (ofJson text : Except LoadError (Grammar μ)) = .error (.invalid fault)) ∧
    ∀ g : Grammar μ, ofJson text = .ok g →
      (∃ groups, List.Forall₂ (fun m group => Denotes m.1 m.2 group) d.rules groups ∧
        g.rules = groups.flatten) ∧
      g.name = d.name ∧ g.start = d.start ∧ g.parameters = [] ∧ g.tests = d.tests := by
  have hread : (ofJson text : Except LoadError (Grammar μ)) =
      ((rulesOf d.rules).map fun rules =>
        ({ name := d.name, start := d.start, rules, tests := d.tests } : Grammar μ)).mapError
          .invalid := by
    rw [ofJson, h]
    simp only [GrammarDocument.grammar]
    cases rulesOf (μ := μ) d.rules <;> rfl
  refine ⟨ordered_rules h, ?_⟩
  rw [hread, ← exists_rulesOf_iff (μ := μ)]
  cases hrules : rulesOf (μ := μ) d.rules with
  | error fault =>
    have hnone : ¬∃ rules : List (Rule μ), Except.error fault = Except.ok rules := by simp
    exact ⟨iff_of_false (by simp [Except.map, Except.mapError]) hnone, fun _ => ⟨fault, rfl⟩,
      fun g hg => absurd hg (by simp [Except.map, Except.mapError])⟩
  | ok rules =>
    refine ⟨iff_of_true ⟨_, rfl⟩ ⟨_, rfl⟩, fun hnone => absurd ⟨_, rfl⟩ hnone, fun g hg => ?_⟩
    obtain rfl := Except.ok.inj hg
    exact ⟨denotes_of_rulesOf hrules, rfl, rfl, rfl, rfl⟩

/-- Two nonterminals, one of which is described by a range with a gap. -/
def GrammarDocument.sample : String :=
  "\x7b\"name\":\"sums\",\"start\":\"<S>\",\"rules\":\x7b\"<S>\":[[\"<D>\",\"+\",\"<S>\"],[]]," ++
    "\"<D>\":\x7b\"char_range\":[97,100],\"exclude\":[98]\x7d\x7d\x7d"

open GrammarDocument in
/-- The rules of the sample are in order; the nonterminals come in the order of their names. -/
theorem Grammar.ofJson_exact_sample :
    ∃ (d : GrammarDocument) (g : Grammar Empty), ofJson? sample = some d ∧
      ofJson sample = .ok g ∧ d.rules.map Prod.fst = ["<D>", "<S>"] ∧
      d.rules.Pairwise (·.1 < ·.1) ∧ (∀ m ∈ d.rules, InOrder m.2) ∧
      (∃ groups, List.Forall₂ (fun m group => Denotes m.1 m.2 group) d.rules groups ∧
        g.rules = groups.flatten) ∧
      g.name = d.name ∧ g.start = d.start ∧ g.parameters = [] ∧ g.tests = d.tests := by
  have hnames : (ofJson? sample).map (·.rules.map Prod.fst) = some ["<D>", "<S>"] := by
    decide +kernel
  have hread : (ofJson sample : Except LoadError (Grammar Empty)).toBool = true := by
    decide +kernel
  obtain ⟨d, hd, hnames⟩ := Option.map_eq_some_iff.mp hnames
  cases hg : (ofJson sample : Except LoadError (Grammar Empty)) with
  | error e =>
    rw [hg] at hread
    exact absurd hread Bool.false_ne_true
  | ok g =>
    obtain ⟨hordered, hiff, -, hrules⟩ := ofJson_exact (μ := Empty) hd
    exact ⟨d, g, hd, rfl, hnames, hordered, hiff.mp ⟨g, hg⟩, hrules g hg⟩

end GeneralLL
