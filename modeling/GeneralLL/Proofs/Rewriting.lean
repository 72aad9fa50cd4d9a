import GeneralLL.Grammar
import GeneralLL.Proofs.CharClass
import Mathlib.Logic.Relation

/-!
# What a grammar says about nullable, FIRST and FOLLOW

The text-book reading of a grammar, without a text: sequences of symbols are rewritten
symbol by symbol. A call becomes the body of a rule, a terminal that can match the
empty text vanishes, and a condition goes either way.

* A sequence is **nullable** if it can be rewritten to nothing.
* It **starts** with what a terminal announces if it can be rewritten to a sequence in
  which only a nullable part stands before that terminal.
* A name is **followed** by what the rest behind one of its places in a rule starts
  with and, where that rest is nullable, by what follows the head of the rule. Behind
  the start symbol stands the end of the text.

A grammar may use names that have no rules. Calls of these are never rewritten.
-/

namespace GeneralLL

/-- What is asked of a lookahead set: a character, everything, or the end of the text. -/
inductive Mark where
  | char (c : Char)
  | anything
  | endOfText
  deriving DecidableEq, Repr

namespace Lookahead

/-- Does the set have a mark? -/
def Has (s : Lookahead) : Mark → Prop
  | .char c => s.chars.contains c
  | .anything => s.any
  | .endOfText => s.eof

/-- To have a mark. -/
def Feature.having (mark : Mark) : Feature where
  Holds s := s.Has mark
  union := by cases mark <;> simp [Has, Lookahead.union, CharClass.contains_union]
  empty := by cases mark <;> simp [Has, Lookahead.empty, CharClass.not_contains_empty]

end Lookahead

/-- A terminal announces the characters it can start with, or everything if it does not tell. -/
def Terminal.Announces {μ : Type} [Matcher μ] (t : Terminal μ) : Mark → Prop
  | .char c => ∃ s, t.first = some s ∧ s.contains c
  | .anything => t.first = none
  | .endOfText => False

/-- A rule places a name, inside a condition or not, before the rest of its body. -/
def Rule.Places {μ : Type} (r : Rule μ) (name : String) (rest : List (Symbol μ)) : Prop :=
  ∃ s, s :: rest <:+ r.body ∧ name ∈ s.references

namespace Grammar

variable {μ : Type} [Matcher μ]

/-- What one symbol can be replaced by. -/
inductive Expands (g : Grammar μ) : Symbol μ → List (Symbol μ) → Prop where
  | rule {r : Rule μ} (hr : r ∈ g.rules) (arguments : List Expr) (notes : Annotations μ) :
      Expands g (.call r.head arguments notes) r.body
  | vanishing {t : Terminal μ} (h : t.nullable) (notes : Annotations μ) :
      Expands g (.terminal t notes) []
  | taken (condition : Expr) (body : Symbol μ) (notes : Annotations μ) :
      Expands g (.ifThen condition body notes) [body]
  | skipped (condition : Expr) (body : Symbol μ) (notes : Annotations μ) :
      Expands g (.ifThen condition body notes) []
  | first (condition : Expr) (body otherwise : Symbol μ) (notes : Annotations μ) :
      Expands g (.ifThenElse condition body otherwise notes) [body]
  | second (condition : Expr) (body otherwise : Symbol μ) (notes : Annotations μ) :
      Expands g (.ifThenElse condition body otherwise notes) [otherwise]

/-- One symbol of a sequence is replaced. -/
inductive Rewrites (g : Grammar μ) : List (Symbol μ) → List (Symbol μ) → Prop where
  | symbol (pre post : List (Symbol μ)) {s : Symbol μ} {body : List (Symbol μ)}
      (h : g.Expands s body) : Rewrites g (pre ++ s :: post) (pre ++ (body ++ post))

/-- A sequence is rewritten to another in finitely many steps. -/
def RewritesTo (g : Grammar μ) : List (Symbol μ) → List (Symbol μ) → Prop :=
  Relation.ReflTransGen g.Rewrites

/-- A sequence starts with a terminal that announces the mark, behind a nullable part. -/
def Starts (g : Grammar μ) (mark : Mark) (body : List (Symbol μ)) : Prop :=
  ∃ pre t notes post, g.RewritesTo body (pre ++ .terminal t notes :: post) ∧
    g.RewritesTo pre [] ∧ t.Announces mark

/-- What stands behind a name: nothing but what the rules put there and the end of the text. -/
inductive Follows (g : Grammar μ) (mark : Mark) : String → Prop where
  | start (h : mark = .endOfText) : Follows g mark g.start
  | rest {r : Rule μ} {name : String} {rest : List (Symbol μ)} (hr : r ∈ g.rules)
      (hplace : r.Places name rest) (h : g.Starts mark rest) : Follows g mark name
  | head {r : Rule μ} {name : String} {rest : List (Symbol μ)} (hr : r ∈ g.rules)
      (hplace : r.Places name rest) (hnull : g.RewritesTo rest []) (h : Follows g mark r.head) :
      Follows g mark name

/-! ## Rewriting in a context -/

variable {g : Grammar μ}

theorem Rewrites.append_left {u v : List (Symbol μ)} (h : g.Rewrites u v)
    (front : List (Symbol μ)) : g.Rewrites (front ++ u) (front ++ v) := by
  obtain ⟨pre, post, h⟩ := h
  have hstep := Rewrites.symbol (front ++ pre) post h
  rwa [List.append_assoc, List.append_assoc] at hstep

theorem Rewrites.append_right {u v : List (Symbol μ)} (h : g.Rewrites u v)
    (back : List (Symbol μ)) : g.Rewrites (u ++ back) (v ++ back) := by
  obtain ⟨pre, post, h⟩ := h
  have hstep := Rewrites.symbol pre (post ++ back) h
  simpa only [List.append_assoc, List.cons_append] using hstep

theorem RewritesTo.append_left {u v : List (Symbol μ)} (h : g.RewritesTo u v)
    (front : List (Symbol μ)) : g.RewritesTo (front ++ u) (front ++ v) := by
  induction h with
  | refl => exact Relation.ReflTransGen.refl
  | tail _ hstep ih => exact Relation.ReflTransGen.tail ih (hstep.append_left front)

theorem RewritesTo.append_right {u v : List (Symbol μ)} (h : g.RewritesTo u v)
    (back : List (Symbol μ)) : g.RewritesTo (u ++ back) (v ++ back) := by
  induction h with
  | refl => exact Relation.ReflTransGen.refl
  | tail _ hstep ih => exact Relation.ReflTransGen.tail ih (hstep.append_right back)

/-- The two parts of a sequence are rewritten one after the other. -/
theorem RewritesTo.append {u u' v v' : List (Symbol μ)} (hu : g.RewritesTo u u')
    (hv : g.RewritesTo v v') : g.RewritesTo (u ++ v) (u' ++ v') :=
  (hu.append_right v).trans (hv.append_left u')

/-- A symbol on its own is rewritten to what replaces it. -/
theorem Expands.rewritesTo {s : Symbol μ} {body : List (Symbol μ)} (h : g.Expands s body) :
    g.RewritesTo [s] body := by
  have hstep := Rewrites.symbol [] [] h
  rw [List.append_nil] at hstep
  exact Relation.ReflTransGen.single hstep

/-! ## Starting -/

/-- What a sequence can be rewritten to shows what it starts with. -/
theorem Starts.of_rewritesTo {mark : Mark} {u v : List (Symbol μ)} (huv : g.RewritesTo u v)
    (h : g.Starts mark v) : g.Starts mark u := by
  obtain ⟨pre, t, notes, post, hv, hpre, ht⟩ := h
  exact ⟨pre, t, notes, post, huv.trans hv, hpre, ht⟩

/-- A sequence starts with what its first part starts with. -/
theorem Starts.append_right {mark : Mark} {u : List (Symbol μ)} (h : g.Starts mark u)
    (back : List (Symbol μ)) : g.Starts mark (u ++ back) := by
  obtain ⟨pre, t, notes, post, hu, hpre, ht⟩ := h
  refine ⟨pre, t, notes, post ++ back, ?_, hpre, ht⟩
  have hback := hu.append_right back
  rwa [List.append_assoc, List.cons_append] at hback

/-- A sequence starts with what stands behind a nullable part. -/
theorem Starts.append_left {mark : Mark} {front u : List (Symbol μ)} (hnull : g.RewritesTo front [])
    (h : g.Starts mark u) : g.Starts mark (front ++ u) :=
  h.of_rewritesTo (hnull.append_right u)

theorem Starts.of_announces {mark : Mark} {t : Terminal μ} (ht : t.Announces mark)
    (notes : Annotations μ) : g.Starts mark [.terminal t notes] :=
  ⟨[], t, notes, [], Relation.ReflTransGen.refl, Relation.ReflTransGen.refl, ht⟩

end Grammar

end GeneralLL
