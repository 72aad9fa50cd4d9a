import GeneralLL.Proofs.Environments
import Mathlib.Data.List.Induction
import Mathlib.Data.List.Nodup

/-!
# What declarations make of an environment

Environments are made one after the other (`Environment.Declares`): the first one is empty, and
each declaration extends any of those that there are, so that environments may share what they
come from. All that was declared on the way to an environment is its **chain**.

In both representations **the chain says all about an environment** (`shadowing_exact`): a name
has the value that it was bound to last, whether by an earlier declaration, by the last one, or
twice by the same; the visible bindings are these values, each name once; and the environment is
empty if the chain is. What is declared later changes none of it.
-/

namespace GeneralLL

namespace Environment

/-! ## Chains of declarations -/

/-- Bindings that are declared in the environment with a number. -/
structure Declaration where
  /-- The number of the environment in which they are declared. -/
  base : Nat
  /-- The bindings, in the order of declaration. -/
  bindings : List Binding

/-- Declarations make one environment after the other, each out of one that is there by then. -/
inductive Declares (start : List Environment) : List Declaration → List Environment → Prop where
  | nothing : Declares start [] start
  | declare {ds : List Declaration} {envs : List Environment} {d : Declaration}
      {env : Environment} : Declares start ds envs → envs[d.base]? = some env →
      Declares start (ds ++ [d]) (envs ++ [env.declare d.bindings])

/-- All bindings that were declared on the way from the empty environment, which is number 0, to
another one, the oldest first. -/
inductive Chain (ds : List Declaration) : Nat → List Binding → Prop where
  | start : Chain ds 0 []
  | declare {i : Nat} {d : Declaration} {bindings : List Binding} : ds[i]? = some d →
      Chain ds d.base bindings → Chain ds (i + 1) (bindings ++ d.bindings)

/-- The last binding of a name gives it this value. -/
def LastBinding (bindings : List Binding) (name : String) (v : Value) : Prop :=
  ∃ front back, bindings = front ++ (name, v) :: back ∧ name ∉ back.map Prod.fst

/-- A name is bound by none of the bindings. -/
theorem forall_ne_iff {name : String} {bindings : List Binding} :
    (∀ b ∈ bindings, ¬decide (b.1 = name) = true) ↔ name ∉ bindings.map Prod.fst := by
  simp only [List.mem_map, not_exists, not_and, decide_eq_true_eq]

theorem lookupFrame_eq_none_iff {name : String} {bindings : List Binding} :
    lookupFrame name bindings = none ↔ name ∉ bindings.map Prod.fst := by
  unfold lookupFrame
  rw [Option.map_eq_none_iff, List.find?_eq_none, forall_ne_iff, List.map_reverse,
    List.mem_reverse]

theorem lookupFrame_eq_some_iff {name : String} {bindings : List Binding} {v : Value} :
    lookupFrame name bindings = some v ↔ LastBinding bindings name v := by
  unfold lookupFrame LastBinding
  rw [Option.map_eq_some_iff]
  constructor
  · intro h
    obtain ⟨⟨x, w⟩, hfind, rfl⟩ := h
    obtain ⟨hx, later, earlier, hreverse, hlater⟩ := List.find?_eq_some_iff_append.mp hfind
    obtain rfl : x = name := of_decide_eq_true hx
    rw [List.reverse_eq_iff] at hreverse
    refine ⟨earlier.reverse, later.reverse, ?_, ?_⟩
    · rw [hreverse, List.reverse_append, List.reverse_cons, List.append_assoc,
        List.singleton_append]
    · rw [List.map_reverse, List.mem_reverse, ← forall_ne_iff]
      exact fun b hb => by simpa using hlater b hb
  · intro h
    obtain ⟨front, back, rfl, hback⟩ := h
    rw [← forall_ne_iff] at hback
    refine ⟨(name, v), List.find?_eq_some_iff_append.mpr ⟨by simp, back.reverse, front.reverse,
      by simp, fun b hb => ?_⟩, rfl⟩
    simpa using hback b (List.mem_reverse.mp hb)

theorem lookupFrame_append (name : String) (front back : List Binding) :
    lookupFrame name (front ++ back)
      = (lookupFrame name back).or (lookupFrame name front) := by
  unfold lookupFrame
  rw [List.reverse_append, List.find?_append, Option.map_or]

/-! ## Environments and their chains -/

/-- A flat environment has one frame, in which no name is bound twice. -/
def Tidy (env : Environment) : Prop := env.representation = .flat → env.OneFrame

theorem tidy_empty (r : Representation) : (empty r).Tidy := by
  intro h
  obtain rfl : r = .flat := h
  exact oneFrame_empty

theorem Tidy.declare {env : Environment} (h : env.Tidy) (bindings : List Binding) :
    (env.declare bindings).Tidy := by
  intro hflat
  rw [representation_declare] at hflat
  exact (h hflat).declare bindings

/-- **A declaration shadows what there is,** in both representations. -/
theorem Tidy.lookup_declare {env : Environment} (h : env.Tidy) (bindings : List Binding)
    (name : String) :
    (env.declare bindings).lookup name = (lookupFrame name bindings).or (env.lookup name) := by
  cases hr : env.representation with
  | flat => exact (h hr).lookup_declare bindings name
  | frames =>
    cases bindings with
    | nil => rfl
    | cons b rest =>
      rw [Environment.declare, if_neg (by simp), hr]
      unfold lookup
      dsimp only
      rw [List.findSome?_cons]
      cases lookupFrame name (b :: rest) <;> rfl

theorem isEmpty_declare (env : Environment) (bindings : List Binding) :
    (env.declare bindings).isEmpty = (env.isEmpty && bindings.isEmpty) := by
  cases bindings with
  | nil => simp [declare_nil]
  | cons b rest =>
    unfold Environment.declare isEmpty
    cases env.representation <;> simp

/-- The environment answers as the bindings say. -/
structure Binds (env : Environment) (bindings : List Binding) : Prop where
  /-- If the environment is flat, it has one frame at most, in which no name is bound twice. -/
  tidy : env.Tidy
  /-- Every name has the value of its last binding. -/
  lookup : ∀ name, env.lookup name = lookupFrame name bindings
  /-- The environment is empty exactly if there are no bindings. -/
  isEmpty : env.isEmpty = bindings.isEmpty

theorem binds_empty (r : Representation) : (empty r).Binds [] :=
  ⟨tidy_empty r, fun _ => rfl, rfl⟩

theorem Binds.declare {env : Environment} {bindings : List Binding} (h : env.Binds bindings)
    (more : List Binding) : (env.declare more).Binds (bindings ++ more) := by
  refine ⟨h.tidy.declare more, fun name => ?_, ?_⟩
  · rw [h.tidy.lookup_declare, h.lookup, lookupFrame_append]
  · rw [isEmpty_declare, h.isEmpty]
    cases bindings <;> simp

/-! ## Visible bindings -/

/-- One more binding is visible if its name is not. -/
theorem visible_append_singleton (l : List Binding) (b : Binding) :
    visible (l ++ [b])
      = if b.1 ∈ (visible l).map Prod.fst then visible l else visible l ++ [b] := by
  unfold visible
  rw [List.foldl_append, List.foldl_cons, List.foldl_nil]
  congr 1
  simp

theorem nodup_visible (l : List Binding) : ((visible l).map Prod.fst).Nodup := by
  induction l using List.reverseRecOn with
  | nil => exact List.nodup_nil
  | append_singleton l b ih =>
    rw [visible_append_singleton]
    split
    · exact ih
    · rename_i hb
      rw [List.map_append]
      exact (List.perm_append_singleton b.1 _).nodup_iff.mpr (List.nodup_cons.mpr ⟨hb, ih⟩)

/-- The first binding of a name stays the first one. -/
theorem find?_visible (l : List Binding) (name : String) :
    (visible l).find? (·.1 = name) = l.find? (·.1 = name) := by
  induction l using List.reverseRecOn with
  | nil => rfl
  | append_singleton l b ih =>
    rw [visible_append_singleton, List.find?_append, ← ih]
    split
    · rename_i hb
      by_cases hname : b.1 = name
      · -- the name has a binding already
        have hfound : ((visible l).find? (·.1 = name)).isSome := by
          rw [← hname]
          simpa using hb
        rw [Option.or_of_isSome hfound]
      · rw [List.find?_singleton, if_neg (by simpa using hname), Option.or_none]
    · rw [List.find?_append]

theorem mem_iff_find?_of_nodup {l : List Binding} (h : (l.map Prod.fst).Nodup) {b : Binding} :
    b ∈ l ↔ l.find? (·.1 = b.1) = some b := by
  constructor
  · intro hb
    cases hfind : l.find? (·.1 = b.1) with
    | none =>
      rw [List.find?_eq_none] at hfind
      simpa using hfind b hb
    | some c =>
      have hname : c.1 = b.1 := by simpa using List.find?_some hfind
      rw [List.inj_on_of_nodup_map h (List.mem_of_find?_eq_some hfind) hb hname]
  · exact List.mem_of_find?_eq_some

theorem lookup_eq (env : Environment) (name : String) :
    env.lookup name
      = ((env.frames.flatMap List.reverse).find? (·.1 = name)).map Prod.snd := by
  unfold lookup
  induction env.frames with
  | nil => rfl
  | cons frame rest ih =>
    rw [List.flatMap_cons, List.find?_append, Option.map_or, ← ih, List.findSome?_cons]
    unfold lookupFrame
    cases (frame.reverse.find? (·.1 = name)) <;> rfl

/-- **The visible bindings are the lookups,** in any environment. -/
theorem mem_bindings_iff {env : Environment} {name : String} {v : Value} :
    (name, v) ∈ env.bindings ↔ env.lookup name = some v := by
  rw [bindings, mem_iff_find?_of_nodup (nodup_visible _), find?_visible, lookup_eq,
    Option.map_eq_some_iff]
  constructor
  · exact fun h => ⟨(name, v), h, rfl⟩
  · intro h
    obtain ⟨b, hfind, rfl⟩ := h
    have hname : b.1 = name := by simpa using List.find?_some hfind
    rw [hfind, ← hname]

/-! ## Making environments -/

section

variable {start envs : List Environment} {ds : List Declaration}

theorem Declares.length_eq (h : Declares start ds envs) :
    envs.length = start.length + ds.length := by
  induction h with
  | nothing => rfl
  | declare _ _ ih =>
    rw [List.length_append, List.length_append, ih, Nat.add_assoc]
    rfl

/-- **Environments stay as they are** while others are declared. -/
theorem Declares.getElem?_of_start (h : Declares start ds envs) {i : Nat} {env : Environment}
    (henv : start[i]? = some env) : envs[i]? = some env := by
  induction h with
  | nothing => exact henv
  | declare _ _ ih =>
    have hi := (List.getElem?_eq_some_iff.mp ih).1
    rw [List.getElem?_append_left hi, ih]

/-- Each declaration has made the environment that it makes of its base. -/
theorem Declares.exists_base (h : Declares start ds envs) {i : Nat} {d : Declaration}
    (hd : ds[i]? = some d) :
    ∃ env, envs[d.base]? = some env ∧
      envs[start.length + i]? = some (env.declare d.bindings) := by
  induction h with
  | nothing => exact absurd hd (by simp)
  | @declare ds envs d' env' hbefore hbase ih =>
    have hlength := hbefore.length_eq
    have hold {j : Nat} {env : Environment} (hj : envs[j]? = some env) :
        (envs ++ [env'.declare d'.bindings])[j]? = some env := by
      rw [List.getElem?_append_left (List.getElem?_eq_some_iff.mp hj).1, hj]
    rcases Nat.lt_or_ge i ds.length with hi | hi
    · rw [List.getElem?_append_left hi] at hd
      obtain ⟨env, henv, hmade⟩ := ih hd
      exact ⟨env, hold henv, hold hmade⟩
    · rw [List.getElem?_append_right hi, List.getElem?_singleton] at hd
      split at hd
      · obtain rfl := Option.some.inj hd
        refine ⟨env', hold hbase, ?_⟩
        have hlast : start.length + i = envs.length := by omega
        rw [hlast, List.getElem?_concat_length]
      · exact absurd hd (by simp)

theorem Chain.append {i : Nat} {bindings : List Binding} (h : Chain ds i bindings)
    (more : List Declaration) : Chain (ds ++ more) i bindings := by
  induction h with
  | start => exact .start
  | declare hd _ ih =>
    have hi := (List.getElem?_eq_some_iff.mp hd).1
    exact .declare (by rw [List.getElem?_append_left hi, hd]) ih

end

section

variable {r : Representation} {ds : List Declaration} {envs : List Environment}

theorem Declares.exists_chain (h : Declares [.empty r] ds envs) {i : Nat} (hi : i < envs.length) :
    ∃ bindings, Chain ds i bindings := by
  induction h generalizing i with
  | nothing =>
    obtain rfl : i = 0 := Nat.lt_one_iff.mp hi
    exact ⟨[], .start⟩
  | @declare ds envs d env hbefore hbase ih =>
    rcases Nat.lt_or_ge i envs.length with hold | hnew
    · obtain ⟨bindings, hchain⟩ := ih hold
      exact ⟨bindings, hchain.append [d]⟩
    · obtain ⟨bindings, hchain⟩ := ih (List.getElem?_eq_some_iff.mp hbase).1
      have hlength := hbefore.length_eq
      rw [List.length_append, List.length_singleton] at hi
      obtain rfl : i = ds.length + 1 := by
        rw [List.length_singleton] at hlength
        omega
      exact ⟨_, .declare List.getElem?_concat_length (hchain.append [d])⟩

/-- **An environment binds what its chain says.** -/
theorem Declares.binds (h : Declares [.empty r] ds envs) {i : Nat} {bindings : List Binding}
    (hchain : Chain ds i bindings) : ∃ env, envs[i]? = some env ∧ env.Binds bindings := by
  induction hchain with
  | start => exact ⟨_, h.getElem?_of_start rfl, binds_empty r⟩
  | @declare i d bindings hd _ ih =>
    obtain ⟨env, henv, hbinds⟩ := ih
    obtain ⟨env', henv', hmade⟩ := h.exists_base hd
    obtain rfl := Option.some.inj (henv.symm.trans henv')
    rw [List.length_singleton, Nat.add_comm] at hmade
    exact ⟨_, hmade, hbinds.declare d.bindings⟩

/-- **In both representations an environment answers as the declarations on the way to it say:**
a name has the value of its last binding there, and none if there is no such binding. The visible
bindings are these values, each name once; the environment is empty if nothing was bound; and all
this stays so whatever is declared later. -/
theorem shadowing_exact (h : Declares [.empty r] ds envs) {i : Nat} {env : Environment}
    (henv : envs[i]? = some env) :
    (∃ bindings, Chain ds i bindings) ∧
    (∀ bindings, Chain ds i bindings →
      (∀ name v, env.lookup name = some v ↔ LastBinding bindings name v) ∧
      (∀ name, env.lookup name = none ↔ name ∉ bindings.map Prod.fst) ∧
      (env.isEmpty = true ↔ bindings = [])) ∧
    (env.bindings.map Prod.fst).Nodup ∧
    (∀ name v, (name, v) ∈ env.bindings ↔ env.lookup name = some v) ∧
    ∀ more envs', Declares envs more envs' → envs'[i]? = some env := by
  refine ⟨h.exists_chain (List.getElem?_eq_some_iff.mp henv).1, fun bindings hchain => ?_,
    nodup_visible _, fun _ _ => mem_bindings_iff, fun more envs' hmore => ?_⟩
  · obtain ⟨env', henv', hbinds⟩ := h.binds hchain
    obtain rfl := Option.some.inj (henv.symm.trans henv')
    refine ⟨fun name v => ?_, fun name => ?_, ?_⟩
    · rw [hbinds.lookup, lookupFrame_eq_some_iff]
    · rw [hbinds.lookup, lookupFrame_eq_none_iff]
    · rw [hbinds.isEmpty, List.isEmpty_iff]
  · exact hmore.getElem?_of_start henv

end

/-- A name is bound twice by the first declaration and again by the second; the third goes on
from the first, and binds nothing. -/
def branches : List Declaration :=
  [⟨0, [("x", .int 1), ("y", .int 2), ("x", .int 3)]⟩, ⟨1, [("x", .int 4)]⟩, ⟨1, []⟩]

/-- On the other branch, the name has the value that it was bound to last before. -/
theorem shadowing_exact_branches :
    ∃ (envs : List Environment) (env : Environment), Declares [empty .flat] branches envs ∧
      envs[3]? = some env ∧ env.lookup "x" = some (.int 3) ∧ ("x", .int 3) ∈ env.bindings ∧
      env.lookup "z" = none ∧ env.isEmpty = false := by
  have hdeclares : Declares [empty .flat] branches _ :=
    .declare (d := ⟨1, []⟩) (.declare (d := ⟨1, [("x", .int 4)]⟩) (.declare
      (d := ⟨0, [("x", .int 1), ("y", .int 2), ("x", .int 3)]⟩) .nothing rfl) rfl) rfl
  have hfirst : Chain branches 1 [("x", .int 1), ("y", .int 2), ("x", .int 3)] :=
    .declare (d := ⟨0, [("x", .int 1), ("y", .int 2), ("x", .int 3)]⟩) rfl .start
  have hchain : Chain branches 3 [("x", .int 1), ("y", .int 2), ("x", .int 3)] :=
    .declare (d := ⟨1, []⟩) rfl hfirst
  obtain ⟨-, hanswers, -, hbindings, -⟩ := shadowing_exact hdeclares (i := 3) rfl
  obtain ⟨hlookup, hnone, hempty⟩ := hanswers _ hchain
  have hx := (hlookup "x" (.int 3)).mpr ⟨[("x", .int 1), ("y", .int 2)], [], rfl, by simp⟩
  refine ⟨_, _, hdeclares, rfl, hx, (hbindings _ _).mpr hx, (hnone "z").mpr (by simp), ?_⟩
  exact Bool.eq_false_iff.mpr fun h => absurd (hempty.mp h) (by simp)

end Environment

end GeneralLL
