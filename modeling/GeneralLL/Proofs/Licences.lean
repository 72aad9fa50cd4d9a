import GeneralLL.Proofs.Parts
import GeneralLL.Proofs.Places

/-!
# What lets a rule go on

A node is shared by all threads that have recognised the same part of a rule in calls with
the same arguments, whatever their environments. So the forest does not tell in which
environment a condition was asked. What it keeps is that there was one:

* A symbol is **licensed** at its place (`Licenses`) if the symbols before it lead, over the
  same stretch of the text, to some environment in which its conditions hold, its branches
  are those taken and its arguments have the values of the call.
* A rule **concludes** (`Concludes`) if it leads as a whole over its stretch and returns a
  value.

A thread has what its place tells of the part behind it (`Gathered`), and **every derivation
of the forest joins a licensed symbol to a part, or concludes a rule**
(`permitted_of_entails`).
-/

namespace GeneralLL

open SlotGraph

/-- What a symbol can stand for: a terminal, or a call with the values of its arguments. -/
inductive Occurrence (μ : Type) where
  | terminal (t : Terminal μ)
  | call (name : String) (values : Option (List Value))

namespace Parser

variable {μ : Type} [Matcher μ] {p : Parser μ} {g : Grammar μ}

/-! ## One symbol in its environment -/

/-- A symbol leads from an environment and a position to others, and stands for an occurrence, or
for nothing if its condition does not hold. -/
inductive Takes (p : Parser μ) (g : Grammar μ) :
    Symbol μ → Environment → Nat → Option (Occurrence μ) → Environment → Nat → Prop where
  | terminal {t : Terminal μ} {notes : Annotations μ} {env : Environment} {i j : Nat} :
      p.AllHold notes.pre i i env → t.matchAt p.input i = some j →
      p.AllHold notes.post i j (notes.bindScan p.input i j env) →
      Takes p g (.terminal t notes) env i (some (.terminal t)) (notes.bindScan p.input i j env) j
  | call {name : String} {arguments : List Expr} {notes : Annotations μ} {env : Environment}
      {i j : Nat} {values : Option (List Value)} {value : Option Value} :
      p.AllHold notes.pre i i env → p.Passing g name arguments (notes.bindCall i env) values →
      p.Derives g name values i j value →
      p.AllHold notes.post i j (notes.bindReturn value j (notes.bindCall i env)) →
      Takes p g (.call name arguments notes) env i (some (.call name values))
        (notes.bindReturn value j (notes.bindCall i env)) j
  | taken {condition : Expr} {body : Symbol μ} {notes : Annotations μ} {env env' : Environment}
      {i j : Nat} {x : Option (Occurrence μ)} :
      p.evaluate.truth condition env = .ok true → Takes p g body env i x env' j →
      Takes p g (.ifThen condition body notes) env i x env' j
  | skipped {condition : Expr} {body : Symbol μ} {notes : Annotations μ} {env : Environment}
      {i : Nat} :
      p.evaluate.truth condition env = .ok false →
      Takes p g (.ifThen condition body notes) env i none env i
  | thenTaken {condition : Expr} {body otherwise : Symbol μ} {notes : Annotations μ}
      {env env' : Environment} {i j : Nat} {x : Option (Occurrence μ)} :
      p.evaluate.truth condition env = .ok true → Takes p g body env i x env' j →
      Takes p g (.ifThenElse condition body otherwise notes) env i x env' j
  | elseTaken {condition : Expr} {body otherwise : Symbol μ} {notes : Annotations μ}
      {env env' : Environment} {i j : Nat} {x : Option (Occurrence μ)} :
      p.evaluate.truth condition env = .ok false → Takes p g otherwise env i x env' j →
      Takes p g (.ifThenElse condition body otherwise notes) env i x env' j

theorem Takes.passes {s : Symbol μ} {env env' : Environment} {i j : Nat}
    {x : Option (Occurrence μ)} (h : p.Takes g s env i x env' j) : p.Passes g [s] env i env' j := by
  induction h with
  | terminal hpre hmatch hpost => exact .terminal hpre hmatch hpost .nil
  | call hpre hvalues hderives hpost =>
    obtain ⟨r, hr, hname, inner, hbody, hreturning⟩ := hderives
    rw [← hname] at hbody
    exact .call hpre hvalues hr hname (hname ▸ hbody) hreturning hpost .nil
  | taken htruth _ ih => exact .taken htruth ih
  | skipped htruth => exact .skipped htruth .nil
  | thenTaken htruth _ ih => exact .thenTaken htruth ih
  | elseTaken htruth _ ih => exact .elseTaken htruth ih

theorem Passes.append {symbols rest : List (Symbol μ)} {env env' env'' : Environment}
    {i j k : Nat} (h : p.Passes g symbols env i env' j) (h' : p.Passes g rest env' j env'' k) :
    p.Passes g (symbols ++ rest) env i env'' k := by
  induction h with
  | nil => exact h'
  | terminal hpre hmatch hpost _ ih => exact .terminal hpre hmatch hpost (ih h')
  | call hpre hvalues hr hname hbody hreturning hpost _ _ ih =>
    exact .call hpre hvalues hr hname hbody hreturning hpost (ih h')
  | taken htruth _ ih => exact .taken htruth (ih h')
  | skipped htruth _ ih => exact .skipped htruth (ih h')
  | thenTaken htruth _ ih => exact .thenTaken htruth (ih h')
  | elseTaken htruth _ ih => exact .elseTaken htruth (ih h')

/-- One more symbol of a body. -/
theorem Passes.take_succ {body : List (Symbol μ)} {s : Symbol μ} {n i j k : Nat}
    {env env' env'' : Environment} {x : Option (Occurrence μ)} (hs : body[n]? = some s)
    (h : p.Passes g (body.take n) env i env' j) (htakes : p.Takes g s env' j x env'' k) :
    p.Passes g (body.take (n + 1)) env i env'' k := by
  rw [List.take_add_one, hs]
  exact h.append htakes.passes

/-! ## Licences -/

/-- Symbol `i` of a rule may stand for the occurrence between two positions, in a call with these
arguments that started at `left`: the symbols before it lead to an environment in which it does. -/
def Licenses (p : Parser μ) (g : Grammar μ) (r : Rule μ) (values : Option (List Value)) (left : Nat)
    (i pos : Nat) (x : Option (Occurrence μ)) (j : Nat) : Prop :=
  ∃ s env env', r.body[i]? = some s ∧
    p.Passes g (r.body.take i) (p.entry g r.head values) left env pos ∧ p.Takes g s env pos x env' j

/-- The rule leads over a stretch of the text and returns a value, in a call with these
arguments. -/
def Concludes (p : Parser μ) (g : Grammar μ) (r : Rule μ) (values : Option (List Value))
    (left right : Nat) : Prop :=
  ∃ env value, p.Passes g r.body (p.entry g r.head values) left env right ∧ p.Returning r env value

variable [DecidableEq μ]

/-- The piece of an occurrence between two positions. -/
inductive PieceOf (p : Parser μ) : Occurrence μ → Nat → Nat → Piece → Prop where
  | terminal {id : Nat} {t : Terminal μ} {left right : Nat} :
      p.graph.terminals.get? id = some t →
      PieceOf p (.terminal t) left right (.terminal id left right)
  | call {id : Nat} {name : String} {values : Option (List Value)} {left right : Nat} :
      id < p.graph.nonterminals.size → p.graph.nonterminalName id = name →
      PieceOf p (.call name values) left right (.nonterminal id values left right)

omit [Matcher μ] [DecidableEq μ] in
theorem PieceOf.extents {x : Occurrence μ} {left right : Nat} {w : Piece}
    (h : p.PieceOf x left right w) : w.left = left ∧ w.right = right := by
  cases h with
  | terminal | call => exact ⟨rfl, rfl⟩

/-- What rule `k` has gathered before symbol `i`, up to a position: nothing, the piece of its first
occurrence, or a part of itself; the symbols that stand for nothing are passed by. -/
inductive Gathered (p : Parser μ) (g : Grammar μ) (k : Nat) (r : Rule μ)
    (values : Option (List Value)) (left : Nat) : Nat → Nat → Option Piece → Prop where
  | front : Gathered p g k r values left 0 left none
  | idle {i pos : Nat} {part : Option Piece} :
      Gathered p g k r values left i pos part → p.Licenses g r values left i pos none pos →
      Gathered p g k r values left (i + 1) pos part
  | first {i pos j : Nat} {x : Occurrence μ} {w : Piece} :
      Gathered p g k r values left i pos none → p.Licenses g r values left i pos (some x) j →
      p.PieceOf x pos j w → Gathered p g k r values left (i + 1) j (some w)
  | part {i j : Nat} :
      i < r.body.length →
      Gathered p g k r values left (i + 1) j
        (some (.intermediate (base g k + (i + 1)) values left j))

section

variable {k i left pos : Nat} {r : Rule μ} {values : Option (List Value)} {part : Option Piece}

/-- A part lies between the start of the call and the position. -/
theorem Gathered.extents (h : p.Gathered g k r values left i pos part) :
    (part = none → pos = left) ∧ ∀ w, part = some w → w.left = left ∧ w.right = pos := by
  induction h with
  | front => exact ⟨fun _ => rfl, fun w h => absurd h (by simp)⟩
  | idle _ _ ih => exact ih
  | first _ _ hw ih =>
    obtain rfl := ih.1 rfl
    refine ⟨fun h => absurd h (by simp), fun w h => ?_⟩
    obtain rfl := Option.some.inj h
    exact hw.extents
  | part =>
    refine ⟨fun h => absurd h (by simp), fun w h => ?_⟩
    obtain rfl := Option.some.inj h
    exact ⟨rfl, rfl⟩

/-- One more occurrence. -/
theorem Gathered.join {j : Nat} {x : Occurrence μ} {w : Piece}
    (h : p.Gathered g k r values left i pos part)
    (hlicenses : p.Licenses g r values left i pos (some x) j) (hw : p.PieceOf x pos j w) :
    p.Gathered g k r values left (i + 1) j
      (some (.join (base g k + (i + 1)) values part w)) := by
  cases part with
  | none => exact .first h hlicenses hw
  | some l =>
    obtain ⟨s, env, env', hs, -⟩ := hlicenses
    rw [Piece.join, (h.extents.2 l rfl).1, hw.extents.2]
    exact .part (List.getElem?_eq_some_iff.mp hs).1

end

/-- A derivation joins a licensed symbol to the part before it, or concludes a rule. -/
inductive Licit (p : Parser μ) (g : Grammar μ) : Packing → Prop where
  | join {k i left pivot right : Nat} {r : Rule μ} {values : Option (List Value)}
      {x : Occurrence μ} {l w : Piece} :
      g.rules[k]? = some r → p.Gathered g k r values left i pivot (some l) →
      p.Licenses g r values left i pivot (some x) right → p.PieceOf x pivot right w →
      Licit p g ⟨.intermediate (base g k + (i + 1)) values left right, base g k + (i + 1), pivot,
        some l, w⟩
  | whole {k left right : Nat} {r : Rule μ} {values : Option (List Value)}
      {part : Option Piece} :
      g.rules[k]? = some r → p.Gathered g k r values left r.body.length right part →
      p.Concludes g r values left right →
      Licit p g ⟨.nonterminal (ownerOf g k r).head values left right,
        base g k + r.body.length, left, none,
        part.getD (.terminal p.graph.epsilon right right)⟩

/-! ## Threads and callers -/

/-- A thread before symbol `i` of a rule of its call: the symbols before it lead to its environment
and its position, and what it has recognised was gathered from them. Of symbol `i` some conditions
may be decided already. -/
structure Proceeds (p : Parser μ) (g : Grammar μ) (k : Nat) (r : Rule μ) (i : Nat)
    (symbols : List (Symbol μ)) (t : Thread) : Prop where
  /-- The rule is one of the grammar. -/
  rule : g.rules[k]? = some r
  /-- The slot is before symbol `i`, and `symbols` are left there. -/
  before : p.graph.Before g k r i t.slot symbols
  /-- The rule is one for the call. -/
  head : t.call.nonterminal = (ownerOf g k r).head
  /-- The symbols before `i` lead to the environment and the position. -/
  passes : p.Passes g (r.body.take i) (p.entry g r.head t.call.arguments) t.call.position t.env
    t.position
  /-- What was recognised was gathered from the symbols before `i`. -/
  part : p.Gathered g k r t.call.arguments t.call.position i t.position t.part
  /-- What the symbol that is left stands for, symbol `i` stands for as well, since the conditions
  in between are decided. -/
  decided : ∀ s s' rest, r.body[i]? = some s → symbols = s' :: rest → ∀ x env' j,
    p.Takes g s' t.env t.position x env' j → p.Takes g s t.env t.position x env' j

/-- A caller before symbol `i` of a rule of its own call: with each result that its conditions
admit, the symbol stands for the call. -/
structure Attends (p : Parser μ) (g : Grammar μ) (k : Nat) (r : Rule μ) (i : Nat) (s : Symbol μ)
    (env : Environment) (arguments : List Expr) (notes : Annotations μ) (key : Stack.Key)
    (c : Caller) : Prop where
  /-- The rule is one of the grammar. -/
  rule : g.rules[k]? = some r
  /-- The symbol that the caller is at. -/
  symbol : r.body[i]? = some s
  /-- The call is the symbol itself or a branch of it. -/
  branch : .call (p.graph.nonterminalName key.nonterminal) arguments notes ∈ s.branches
  /-- The slot makes the call, and goes on behind symbol `i`. -/
  action : (p.graph.slot c.slot).action
    = .call key.nonterminal arguments notes (base g k + (i + 1))
  /-- The callee is a nonterminal of the graph. -/
  callee : key.nonterminal < p.graph.nonterminals.size
  /-- The rule is one for the call that the caller belongs to. -/
  head : c.call.nonterminal = (ownerOf g k r).head
  /-- The symbols before `i` lead to the environment before the call and to its position. -/
  passes : p.Passes g (r.body.take i) (p.entry g r.head c.call.arguments) c.call.position env
    key.position
  /-- The caller keeps what the call has bound. -/
  env_eq : c.env = notes.bindCall key.position env
  /-- What was recognised was gathered from the symbols before `i`. -/
  part : p.Gathered g k r c.call.arguments c.call.position i key.position c.part
  /-- With a result that the conditions behind the call admit, the symbol stands for the call. -/
  takes : ∀ value right, p.Results g key right value →
    p.AllHold notes.post key.position right (notes.bindReturn value right c.env) →
    p.Takes g s env key.position
      (some (.call (p.graph.nonterminalName key.nonterminal) key.arguments))
      (notes.bindReturn value right c.env) right

/-- Threads and callers are on their way through their rules, and derivations are licit. -/
def Permitted (p : Parser μ) (g : Grammar μ) : Fact → Prop
  | .posted t | .passed t => ∃ k r i symbols, p.Proceeds g k r i symbols t
  | .awaited key c => ∃ k r i s env arguments notes, p.Attends g k r i s env arguments notes key c
  | .packing d => p.Licit g d
  | .called _ | .result .. | .piece _ => True

/-- What joining a licensed symbol to a part adds is licit. -/
theorem permitted_joinFacts {k i left pos j : Nat} {r : Rule μ} {values : Option (List Value)}
    {part : Option Piece} {x : Occurrence μ} {w : Piece} {f : Fact} (hr : g.rules[k]? = some r)
    (hpart : p.Gathered g k r values left i pos part)
    (hlicenses : p.Licenses g r values left i pos (some x) j) (hw : p.PieceOf x pos j w)
    (hf : f ∈ Piece.joinFacts (base g k + (i + 1)) values part w) : p.Permitted g f := by
  cases part with
  | none => exact absurd hf List.not_mem_nil
  | some l =>
    obtain ⟨hleft, hright⟩ := hpart.extents.2 l rfl
    simp only [Piece.joinFacts, List.mem_cons, List.not_mem_nil, or_false] at hf
    rcases hf with rfl | rfl
    · exact trivial
    · have hlicit := Licit.join hr hpart hlicenses hw
      rw [← hleft, ← hright, ← hw.extents.2] at hlicit
      exact hlicit

section

variable (hg : SlotGraph.ofGrammar g = .ok p.graph)

include hg

/-- Behind a symbol the next one is met, with nothing of it decided. -/
theorem Proceeds.next {k i pos j : Nat} {r : Rule μ} {s : Symbol μ} {x : Option (Occurrence μ)}
    {call : Stack.Key} {part : Option Piece} {env env' : Environment} (hr : g.rules[k]? = some r)
    (hs : r.body[i]? = some s) (hhead : call.nonterminal = (ownerOf g k r).head)
    (hpasses : p.Passes g (r.body.take i) (p.entry g r.head call.arguments) call.position env pos)
    (htakes : p.Takes g s env pos x env' j)
    (hpart : p.Gathered g k r call.arguments call.position (i + 1) j part) :
    p.Proceeds g k r (i + 1) (r.body.drop (i + 1)) ⟨base g k + (i + 1), j, call, part, env'⟩ where
  rule := hr
  before := before_base_graph hg hr (List.getElem?_eq_some_iff.mp hs).1
  head := hhead
  passes := hpasses.take_succ hs htakes
  part := hpart
  decided s₁ s₂ rest hs₁ hrest x env' j htakes := by
    have hfirst := congrArg (·[0]?) hrest
    simp only [List.getElem?_drop, Nat.add_zero, hs₁, List.getElem?_cons_zero] at hfirst
    exact Option.some.inj hfirst ▸ htakes

omit hg in
/-- A decision leaves a thread where it is, with the branch in place of the symbol. -/
theorem Proceeds.stay {k i slot : Nat} {r : Rule μ} {s s' : Symbol μ}
    {symbols : List (Symbol μ)} {t : Thread} (ht : p.Proceeds g k r i symbols t)
    (hs : r.body[i]? = some s)
    (hbranch : p.graph.Before g k r i slot (s' :: r.body.drop (i + 1)))
    (htakes : ∀ x env' j, p.Takes g s' t.env t.position x env' j →
      p.Takes g s t.env t.position x env' j) :
    p.Proceeds g k r i (s' :: r.body.drop (i + 1)) { t with slot } where
  rule := ht.rule
  before := hbranch
  head := ht.head
  passes := ht.passes
  part := ht.part
  decided s₁ s₂ rest hs₁ hrest := by
    obtain rfl := Option.some.inj (hs.symm.trans hs₁)
    obtain ⟨rfl, -⟩ := List.cons.inj hrest
    exact htakes

omit hg in
/-- The end of a rule concludes it. -/
theorem permitted_completeFacts {k : Nat} {r : Rule μ} {symbols : List (Symbol μ)} {t : Thread}
    {value : Option Value} {f : Fact} (ht : p.Proceeds g k r r.body.length symbols t)
    (hslot : t.slot = base g k + r.body.length) (hvalue : p.Returning r t.env value)
    (hf : f ∈ p.completeFacts t value) : p.Permitted g f := by
  have hpasses := ht.passes
  rw [List.take_length] at hpasses
  simp only [completeFacts, List.mem_cons, List.not_mem_nil, or_false] at hf
  rcases hf with rfl | rfl | rfl | rfl
  · exact trivial
  · exact trivial
  · exact trivial
  · have hlicit := Licit.whole ht.rule ht.part ⟨_, _, hpasses, hvalue⟩
    have hleft : (p.child t).left = t.call.position := by
      have hextents := ht.part.extents
      unfold child
      cases hpart : t.part with
      | none => exact hextents.1 hpart
      | some w => exact (hextents.2 w hpart).1
    show p.Licit g _
    rw [whole, hleft, child, ht.before.lies.head, hslot]
    exact hlicit

omit hg in
/-- A caller waits to stand for its call. -/
theorem Proceeds.attends {k i : Nat} {r : Rule μ} {s : Symbol μ} {name : String}
    {arguments : List Expr} {notes : Annotations μ} {rest : List (Symbol μ)} {t : Thread}
    {key : Stack.Key} (ht : p.Proceeds g k r i (.call name arguments notes :: rest) t)
    (hs : r.body[i]? = some s) (hbranch : .call name arguments notes ∈ s.branches)
    (haction : (p.graph.slot t.slot).action
      = .call key.nonterminal arguments notes (base g k + (i + 1)))
    (hcallee : key.nonterminal < p.graph.nonterminals.size)
    (hname : p.graph.nonterminalName key.nonterminal = name) (hposition : key.position = t.position)
    (hpre : p.AllHold notes.pre t.position t.position t.env)
    (hvalues : p.Passing g name arguments (notes.bindCall t.position t.env) key.arguments) :
    p.Attends g k r i s t.env arguments notes key
      ⟨t.call, t.slot, t.part, notes.bindCall t.position t.env⟩ where
  rule := ht.rule
  symbol := hs
  branch := hname ▸ hbranch
  action := haction
  callee := hcallee
  head := ht.head
  passes := hposition ▸ ht.passes
  env_eq := hposition ▸ rfl
  part := hposition ▸ ht.part
  takes value right hresults hpost := by
    rw [Results, hname, hposition] at hresults
    rw [hposition] at hpost ⊢
    rw [hname]
    exact ht.decided s _ rest hs rfl _ _ _ (.call hpre hvalues hresults hpost)

/-- **A thread on its way leads to what is permitted.** -/
theorem permitted_of_leadsTo {k i : Nat} {r : Rule μ} {symbols : List (Symbol μ)} {t : Thread}
    {f : Fact} (ht : p.Proceeds g k r i symbols t) (h : p.LeadsTo t f) : p.Permitted g f := by
  have hr := ht.rule
  have hbefore := ht.before
  cases hbefore with
  | atEnd _ hslot haction =>
    obtain ⟨value, hvalue, hf⟩ := (leadsTo_complete_iff haction).mp h
    exact permitted_completeFacts ht hslot (returned_eq_ok_iff.mp hvalue) hf
  | @symbol _ _ s s' hs hbranches hsize hcrosses =>
    have hdecided := ht.decided s s' _ hs rfl
    cases hcrosses with
    | @scan _ id terminal notes _ haction hterminal =>
      obtain ⟨⟨right, env⟩, hscanned, hf⟩ := (leadsTo_scan_iff haction).mp h
      obtain ⟨hpre, hmatch, rfl, hpost⟩ := scanned_eq_some_iff.mp hscanned
      rw [SlotGraph.terminal, hterminal] at hmatch
      have htakes := hdecided _ _ _ (.terminal hpre hmatch hpost)
      have hlicenses : p.Licenses g r t.call.arguments t.call.position i t.position
          (some (.terminal terminal)) right := ⟨s, _, _, hs, ht.passes, htakes⟩
      have hw : p.PieceOf (.terminal terminal) t.position right (.terminal id t.position right) :=
        .terminal hterminal
      simp only [scanFacts, List.mem_cons] at hf
      rcases hf with rfl | rfl | hf
      · exact ⟨k, r, i + 1, _,
          .next hg hr hs ht.head ht.passes htakes (ht.part.join hlicenses hw)⟩
      · exact trivial
      · exact permitted_joinFacts hr ht.part hlicenses hw hf
    | @call _ callee name arguments notes _ haction hcallee hname =>
      obtain ⟨⟨key, env⟩, hcalling, hf⟩ := (leadsTo_call_iff haction).mp h
      obtain ⟨hpre, rfl, rfl, hposition, hvalues⟩ := calling_eq_some_iff.mp hcalling
      rw [argumentsFor_iff_passing hg hcallee, hname] at hvalues
      unfold callFacts at hf
      split at hf
      · exact absurd hf List.not_mem_nil
      simp only [List.mem_cons, List.not_mem_nil, or_false] at hf
      rcases hf with rfl | rfl
      · exact trivial
      · exact ⟨k, r, i, s, t.env, arguments, notes,
          ht.attends hs (hbranches _ (List.mem_singleton_self _)) haction hcallee hname hposition
            hpre hvalues⟩
    | @ifThen _ ifTrue condition body notes _ haction htrue =>
      obtain ⟨b, htruth, rfl⟩ := (leadsTo_branch_iff haction).mp h
      rw [Symbol.size] at hsize
      cases b with
      | true =>
        have htaken : p.graph.Before g k r i ifTrue (body :: r.body.drop (i + 1)) :=
          .symbol hs hbranches (by omega) htrue
        exact ⟨k, r, i, _, ht.stay hs htaken
          fun x env' j hbody => hdecided x env' j (.taken htruth hbody)⟩
      | false =>
        -- nothing is taken, so the symbol stands for nothing
        have htakes := hdecided _ _ _ (.skipped htruth)
        exact ⟨k, r, i + 1, _, .next hg hr hs ht.head ht.passes htakes
          (ht.part.idle ⟨s, _, _, hs, ht.passes, htakes⟩)⟩
    | @ifThenElse _ ifTrue ifFalse condition body otherwise notes _ haction htrue hfalse =>
      obtain ⟨b, htruth, rfl⟩ := (leadsTo_branch_iff haction).mp h
      rw [Symbol.size] at hsize
      cases b with
      | true =>
        have htaken : p.graph.Before g k r i ifTrue (body :: r.body.drop (i + 1)) :=
          .symbol hs (fun b hb => hbranches b (List.mem_append_left _ hb)) (by omega) htrue
        exact ⟨k, r, i, _, ht.stay hs htaken
          fun x env' j hbody => hdecided x env' j (.thenTaken htruth hbody)⟩
      | false =>
        have htaken : p.graph.Before g k r i ifFalse (otherwise :: r.body.drop (i + 1)) :=
          .symbol hs (fun b hb => hbranches b (List.mem_append_right _ hb)) (by omega) hfalse
        exact ⟨k, r, i, _, ht.stay hs htaken
          fun x env' j hbody => hdecided x env' j (.elseTaken htruth hbody)⟩

/-- **A result lets a caller go on as its symbol does.** -/
theorem permitted_of_resumesTo {k i right : Nat} {r : Rule μ} {s : Symbol μ} {env : Environment}
    {arguments : List Expr} {notes : Annotations μ} {key : Stack.Key} {c : Caller}
    {value : Option Value} {f : Fact} (hc : p.Attends g k r i s env arguments notes key c)
    (hresult : p.Results g key right value) (h : p.ResumesTo key c right value f) :
    p.Permitted g f := by
  obtain ⟨env', hresumed, hf⟩ := (resumesTo_iff hc.action).mp h
  obtain ⟨rfl, hpost, -⟩ := resumed_eq_some_iff.mp hresumed
  have htakes := hc.takes value right hresult hpost
  have hlicenses : p.Licenses g r c.call.arguments c.call.position i key.position _ right :=
    ⟨s, _, _, hc.symbol, hc.passes, htakes⟩
  have hw : p.PieceOf (.call (p.graph.nonterminalName key.nonterminal) key.arguments) key.position
      right (resultPiece key right) := .call hc.callee rfl
  simp only [resumeFacts, List.mem_cons] at hf
  rcases hf with rfl | hf
  · exact ⟨k, r, i + 1, _,
      .next hg hc.rule hc.symbol hc.head hc.passes htakes (hc.part.join hlicenses hw)⟩
  · exact permitted_joinFacts hc.rule hc.part hlicenses hw hf

/-- **Everything that a parse finds out is permitted.** -/
theorem permitted_of_entails {f : Fact} (h : p.Entails f) : p.Permitted g f := by
  induction h with
  | start _ => exact trivial
  | @opening key slot hcalled hslot _ =>
    have hkey : key.nonterminal < p.graph.nonterminals.size := meant_of_entails hg hcalled
    obtain ⟨k, r, hr, hhead, rfl, -⟩ := (mem_openings_iff hg hkey).mp hslot
    refine ⟨k, r, 0, _, hr, before_base_graph hg hr (Nat.zero_le _),
      head_eq_of_name hg hr hkey hhead, ?_, .front, fun s s' rest hs hrest x env' j htakes => ?_⟩
    · rw [opening, calleeEnvironment_eq hg hkey, ← hhead]
      exact .nil
    · rw [List.drop_zero] at hrest
      rw [hrest, List.getElem?_cons_zero] at hs
      exact Option.some.inj hs ▸ htakes
  | delivered _ ht => exact ht
  | move _ hmove hf ht =>
    obtain ⟨k, r, i, symbols, ht⟩ := ht
    exact permitted_of_leadsTo hg ht ⟨_, hmove, hf⟩
  | resume _ hresult hresume hf hc _ =>
    obtain ⟨k, r, i, s, env, arguments, notes, hc⟩ := hc
    exact permitted_of_resumesTo hg hc (meant_of_entails hg hresult) ⟨_, hresume, hf⟩

end

end Parser

end GeneralLL
