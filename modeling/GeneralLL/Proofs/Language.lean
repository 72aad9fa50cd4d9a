import GeneralLL.Proofs.Run

/-!
# A parse recognises its language

**A finished parse succeeds exactly if the start symbol derives the whole text**
(`parse_succeeds_iff`). The grammar may be left recursive, cyclic, ambiguous and nullable,
with conditions, labels, parameters, return values and conditional symbols; the
configuration and the evaluator may be any. Only matchers that are defined outside have
to keep to what they announce about their matches. A run of characters does
(`RunMatcher.honest`).
-/

namespace GeneralLL

namespace Parser

variable {μ : Type} [DecidableEq μ] [Matcher μ] {p : Parser μ} {g : Grammar μ}

/-- **A finished parse succeeds exactly if the start symbol derives the whole text.** -/
theorem parse_succeeds_iff (hg : SlotGraph.ofGrammar g = .ok p.graph) (hhonest : g.Honest p.input)
    {fuel : Nat} {v : Verdict} (hv : (p.parse fuel).verdict = .ok v) (hfinished : v ≠ .unfinished) :
    v.isSuccess ↔ ∃ value, p.Derives g g.start none 0 p.input.length value := by
  rw [← entails_root_iff hg hhonest]
  rcases parse_cases hg fuel with ⟨log, s, hends⟩ | h | ⟨e, h, -⟩
  · rw [hends.report] at hv
    obtain rfl := Except.ok.inj hv
    obtain ⟨ran, hreached⟩ := hends.reaches.reached hg
    rw [isSuccess_verdict_iff hreached.coherent.wf]
    exact ⟨hreached.coherent.sound, fun h => hreached.shows hends.atRest h (by simp) (by simp)⟩
  · exact absurd (Except.ok.inj (hv.symm.trans h)) hfinished
  · exact absurd (hv.symm.trans h) (by simp)

end Parser

/-! ## An example -/

namespace RunMatcher

theorem runLength_pos {s : CharClass} {l : List Char} (h : 0 < runLength s l) :
    ∃ c rest, l = c :: rest ∧ s.contains c := by
  cases l with
  | nil => exact absurd h (by simp [runLength])
  | cons c rest =>
    rw [runLength] at h
    split at h
    · rename_i hc
      exact ⟨c, rest, rfl, hc⟩
    · exact absurd h (by simp)

/-- **A run keeps to what it announces,** unless it may be empty and does not say so. -/
theorem honest {m : RunMatcher} (h : 0 < m.least ∨ m.nullable) (input : Input) :
    Matcher.Honest input m := by
  intro s hfirst i j hmatch
  have hannounced : m.announced ∧ m.chars = s := by
    have hfirst : (if m.announced then some m.chars else none) = some s := hfirst
    split at hfirst
    · rename_i ha
      exact ⟨ha, Option.some.inj hfirst⟩
    · exact absurd hfirst (by simp)
  have hmatch : m.matchAt input i = some j := hmatch
  unfold matchAt at hmatch
  dsimp only at hmatch
  split at hmatch
  · rename_i hleast
    obtain rfl := Option.some.inj hmatch
    rcases Nat.eq_zero_or_pos (runLength m.chars (input.chars.toList.drop i)) with hzero | hpos
    · left
      rw [hzero] at hleast ⊢
      refine ⟨rfl, ?_⟩
      have hnull : m.nullable := h.resolve_left (by omega)
      exact Bool.and_eq_true_iff.mpr ⟨hannounced.1, hnull⟩
    · right
      obtain ⟨c, rest, hdrop, hc⟩ := runLength_pos hpos
      refine ⟨c, ?_, hannounced.2 ▸ hc⟩
      have hget : (input.chars.toList.drop i)[0]? = some c := by rw [hdrop]; rfl
      rw [List.getElem?_drop] at hget
      simpa [Input.symbolAt?] using hget
  · exact absurd hmatch (by simp)

end RunMatcher

/-- A word, then a comma, then the same word again, which is passed as an argument. -/
def echoes : Grammar RunMatcher where
  name := "echoes"
  start := "Start"
  rules :=
    [⟨"Start", [.call "Word" [] { label := some "w" }, .terminal (.char ',') {},
        .call "Echo" [.var "w"] {}], none⟩,
      ⟨"Word", [.terminal (.custom ⟨0, "word", .range 'a' 'z', 1, true, false⟩)
        { label := some "x" }], some (.var "x")⟩,
      ⟨"Echo", [.call "Word" [] ⟨some "x", [], [.expr (.binary .eq (.var "v") (.var "x"))]⟩],
        none⟩]
  parameters := [("Echo", ["v"])]
  tests := []

/-- The parser for words that are echoed. -/
def echoParser (text : String) : Parser RunMatcher :=
  { graph := SlotGraph.compile echoes, input := .ofString text }

/-- The text `ab,ab` is recognised, and so it is derived. -/
theorem parse_succeeds_iff_echoes :
    ∃ v, ((echoParser "ab,ab").parse 200).verdict = .ok v ∧ v ≠ .unfinished ∧
      SlotGraph.ofGrammar echoes = .ok (echoParser "ab,ab").graph ∧
      echoes.Honest (echoParser "ab,ab").input ∧ v.isSuccess ∧
      (v.isSuccess ↔ ∃ value, (echoParser "ab,ab").Derives echoes "Start" none 0 5 value) := by
  have hg : SlotGraph.ofGrammar echoes = .ok (echoParser "ab,ab").graph :=
    SlotGraph.ofGrammar_eq_ok_iff.mpr ⟨by decide +kernel, rfl⟩
  have hhonest : echoes.Honest (echoParser "ab,ab").input := by
    intro m hm
    have hword : m = ⟨0, "word", .range 'a' 'z', 1, true, false⟩ := by
      simpa [echoes, Symbol.terminals] using hm
    exact RunMatcher.honest (Or.inl (by rw [hword]; decide)) _
  obtain ⟨root, forest, hv⟩ : ∃ root forest,
      ((echoParser "ab,ab").parse 200).verdict = .ok (.success root forest) :=
    Verdict.exists_success (by decide +kernel)
  exact ⟨_, hv, by simp, hg, hhonest, rfl, Parser.parse_succeeds_iff hg hhonest hv (by simp)⟩

end GeneralLL
