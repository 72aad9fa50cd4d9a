import GeneralLL.Proofs.Declarations
import GeneralLL.Proofs.Shadowing

/-!
# The order of visible bindings

Declarations that each extend the one before make one environment
(`Environment.declaring`). Which bindings are visible in it, and with which values, is the same in
both representations. The order in which they are listed is not:

* **frames** list the name that was declared **last** first (`LastAfter`);
* a **flat** environment lists the name that was declared **first** last (`FirstBefore`), since a
  name that is declared again keeps its place.

So the two lists are the same exactly if declaring names again has not changed their order
(`Steady`): this is `bindings_ordered`, and `order_differs` is where it has.

In both cases a list goes through bindings and keeps the first one of every name. Frames are gone
through from the last binding to the first. Overwriting comes to the same as going through the
bindings in the order of declaration, as far as the names are concerned (`map_fst_written`).
-/

namespace GeneralLL

namespace Environment

/-! ## Orders of names -/

/-- The name `x` is declared before `y` is declared for the first time. -/
def FirstBefore (declared : List Binding) (x y : String) : Prop :=
  ∃ front, front <+: declared ∧ x ∈ front.map Prod.fst ∧ y ∉ front.map Prod.fst

/-- The name `x` is declared after `y` is declared for the last time. -/
def LastAfter (declared : List Binding) (x y : String) : Prop :=
  ∃ back, back <:+ declared ∧ x ∈ back.map Prod.fst ∧ y ∉ back.map Prod.fst

/-- The names are in the same order whether by their first declaration or by their last. -/
def Steady (declared : List Binding) : Prop :=
  ∀ x ∈ declared.map Prod.fst, ∀ y ∈ declared.map Prod.fst,
    LastAfter declared x y ↔ FirstBefore declared y x

section

variable {l : List Binding} {x y : String}

theorem FirstBefore.append (h : FirstBefore l x y) (m : List Binding) :
    FirstBefore (l ++ m) x y := by
  obtain ⟨front, hfront, hx, hy⟩ := h
  exact ⟨front, hfront.trans (List.prefix_append l m), hx, hy⟩

theorem FirstBefore.asymm (h : FirstBefore l x y) : ¬FirstBefore l y x := by
  intro h'
  obtain ⟨front, hfront, hx, hy⟩ := h
  obtain ⟨front', hfront', hy', hx'⟩ := h'
  -- of two beginnings of one list the shorter one is a beginning of the longer one
  rcases List.prefix_or_prefix_of_prefix hfront hfront' with hle | hle
  · exact hx' ((hle.map Prod.fst).subset hx)
  · exact hy ((hle.map Prod.fst).subset hy')

theorem FirstBefore.irrefl : ¬FirstBefore l x x := fun h => h.asymm h

/-- To be declared last is to be declared first from the other end. -/
theorem firstBefore_reverse : FirstBefore l.reverse x y ↔ LastAfter l x y := by
  have hnames {k : List Binding} {z : String} :
      z ∈ k.reverse.map Prod.fst ↔ z ∈ k.map Prod.fst := by
    rw [List.map_reverse, List.mem_reverse]
  constructor
  · intro h
    obtain ⟨front, hfront, hx, hy⟩ := h
    refine ⟨front.reverse, ?_, hnames.mpr hx, mt hnames.mp hy⟩
    rwa [← List.reverse_prefix, List.reverse_reverse]
  · intro h
    obtain ⟨back, hback, hx, hy⟩ := h
    exact ⟨back.reverse, List.reverse_prefix.mpr hback, hnames.mpr hx, mt hnames.mp hy⟩

theorem LastAfter.asymm (h : LastAfter l x y) : ¬LastAfter l y x := by
  rw [← firstBefore_reverse] at h ⊢
  exact h.asymm

theorem LastAfter.irrefl : ¬LastAfter l x x := fun h => h.asymm h

end

/-- Names that are in order both ways are in the same order. -/
theorem agree_of_pairwise {declared : List Binding} {names : List String}
    (hlast : names.Pairwise (LastAfter declared))
    (hfirst : names.Pairwise fun x y => FirstBefore declared y x) :
    ∀ x ∈ names, ∀ y ∈ names, LastAfter declared x y ↔ FirstBefore declared y x := by
  induction names with
  | nil => exact fun x hx => absurd hx List.not_mem_nil
  | cons z rest ih =>
    obtain ⟨hlastz, hlastrest⟩ := List.pairwise_cons.mp hlast
    obtain ⟨hfirstz, hfirstrest⟩ := List.pairwise_cons.mp hfirst
    intro x hx y hy
    rw [List.mem_cons] at hx hy
    rcases hx with rfl | hx
    · rcases hy with rfl | hy
      · exact iff_of_false LastAfter.irrefl FirstBefore.irrefl
      · exact iff_of_true (hlastz y hy) (hfirstz y hy)
    · rcases hy with rfl | hy
      · exact iff_of_false (hlastz x hx).asymm (hfirstz x hx).asymm
      · exact ih hlastrest hfirstrest x hx y hy

/-! ## The first binding of every name -/

theorem mem_names_visible {l : List Binding} {name : String} :
    name ∈ (visible l).map Prod.fst ↔ name ∈ l.map Prod.fst := by
  rw [← not_iff_not, ← forall_ne_iff, ← forall_ne_iff, ← List.find?_eq_none, ← List.find?_eq_none,
    find?_visible]

/-- **The names come in the order in which they are met.** -/
theorem pairwise_visible (l : List Binding) :
    ((visible l).map Prod.fst).Pairwise (FirstBefore l) := by
  induction l using List.reverseRecOn with
  | nil => exact List.Pairwise.nil
  | append_singleton l b ih =>
    have hold := ih.imp fun h => h.append [b]
    rw [visible_append_singleton]
    split
    · exact hold
    · rename_i hb
      rw [List.map_append, List.pairwise_append]
      refine ⟨hold, List.pairwise_singleton _ _, fun x hx y hy => ?_⟩
      obtain rfl : y = b.1 := by simpa using hy
      exact ⟨l, List.prefix_append l [b], mem_names_visible.mp hx,
        mt mem_names_visible.mpr hb⟩

theorem visible_eq_self {l : List Binding} (h : (l.map Prod.fst).Nodup) : visible l = l := by
  induction l using List.reverseRecOn with
  | nil => rfl
  | append_singleton l b ih =>
    rw [List.map_append, List.nodup_append] at h
    obtain ⟨hl, -, hb⟩ := h
    rw [visible_append_singleton, ih hl, if_neg fun hmem => hb _ hmem b.1 (by simp) rfl]

/-! ## Bindings of the two representations -/

/-- The frame that declarations write, one over the other. -/
def written (declared : List Binding) : List Binding :=
  declared.foldl (fun frame b => overwrite b frame) []

/-- A name that is overwritten keeps its place. -/
theorem map_fst_written (declared : List Binding) :
    (written declared).map Prod.fst = (visible declared).map Prod.fst := by
  induction declared using List.reverseRecOn with
  | nil => rfl
  | append_singleton l b ih =>
    have hwritten : written (l ++ [b]) = overwrite b (written l) := List.foldl_concat ..
    rw [hwritten, map_fst_overwrite, visible_append_singleton, ih]
    split
    · rfl
    · rw [List.map_append, List.map_singleton]

/-- The environment after declarations that each extend the one before. -/
def declaring (r : Representation) (steps : List (List Binding)) : Environment :=
  steps.foldl declare (empty r)

theorem declaring_concat (r : Representation) (steps : List (List Binding))
    (bindings : List Binding) :
    declaring r (steps ++ [bindings]) = (declaring r steps).declare bindings := List.foldl_concat ..

theorem binds_declaring (r : Representation) (steps : List (List Binding)) :
    (declaring r steps).Binds steps.flatten := by
  induction steps using List.reverseRecOn with
  | nil => exact binds_empty r
  | append_singleton steps bindings ih =>
    rw [declaring_concat, List.flatten_concat]
    exact ih.declare bindings

theorem representation_declaring (r : Representation) (steps : List (List Binding)) :
    (declaring r steps).representation = r := by
  induction steps using List.reverseRecOn with
  | nil => rfl
  | append_singleton steps bindings ih => rw [declaring_concat, representation_declare, ih]

/-- **Frames are listed from the last binding to the first.** -/
theorem bindings_frames (steps : List (List Binding)) :
    (declaring .frames steps).bindings = visible steps.flatten.reverse := by
  have hlisting : (declaring .frames steps).listing = steps.flatten := by
    induction steps using List.reverseRecOn with
    | nil => rfl
    | append_singleton steps bindings ih =>
      rw [declaring_concat, listing_declare (representation_declaring ..), ih, List.flatten_concat]
  rw [bindings, ← hlisting, listing, List.reverse_flatten, List.map_reverse, List.reverse_reverse,
    List.flatMap]

theorem OneFrame.bindings_eq {env : Environment} (h : env.OneFrame) :
    env.bindings = env.frames.flatten.reverse := by
  have hreverse : env.frames.flatMap List.reverse = env.frames.flatten.reverse := by
    rcases h.frames with hframes | ⟨frame, hframes⟩
    · rw [hframes]
      rfl
    · rw [hframes, List.flatMap_singleton, List.flatten_singleton]
  rw [bindings, hreverse, visible_eq_self]
  rw [List.map_reverse]
  exact List.nodup_reverse.mpr h.nodup

/-- **A flat environment is listed from the end of what was written.** -/
theorem bindings_flat (steps : List (List Binding)) :
    (declaring .flat steps).bindings = (written steps.flatten).reverse := by
  have hframe : (declaring .flat steps).OneFrame ∧
      (declaring .flat steps).frames.flatten = written steps.flatten := by
    induction steps using List.reverseRecOn with
    | nil => exact ⟨oneFrame_empty, rfl⟩
    | append_singleton steps bindings ih =>
      obtain ⟨hone, hflatten⟩ := ih
      rw [declaring_concat, List.flatten_concat]
      refine ⟨hone.declare bindings, ?_⟩
      rw [hone.frames_declare, hflatten, written, written, List.foldl_append]
  rw [hframe.1.bindings_eq, hframe.2]

/-- In both representations the same bindings are visible. -/
theorem mem_bindings_declaring {r : Representation} {steps : List (List Binding)} {name : String}
    {v : Value} :
    (name, v) ∈ (declaring r steps).bindings ↔ LastBinding steps.flatten name v := by
  rw [mem_bindings_iff, (binds_declaring r steps).lookup, lookupFrame_eq_some_iff]

theorem nodup_bindings (env : Environment) : env.bindings.Nodup :=
  List.Nodup.of_map Prod.fst (nodup_visible _)

/-- The names that are listed are those that were declared. -/
theorem mem_names_bindings {r : Representation} {steps : List (List Binding)} {name : String} :
    name ∈ (declaring r steps).bindings.map Prod.fst
      ↔ name ∈ steps.flatten.map Prod.fst := by
  cases r with
  | frames => rw [bindings_frames, mem_names_visible, List.map_reverse, List.mem_reverse]
  | flat =>
    rw [bindings_flat, List.map_reverse, List.mem_reverse, map_fst_written, mem_names_visible]

/-- **Frames list the names from the one that was declared last.** -/
theorem pairwise_frames (steps : List (List Binding)) :
    ((declaring .frames steps).bindings.map Prod.fst).Pairwise (LastAfter steps.flatten) := by
  rw [bindings_frames]
  exact (pairwise_visible _).imp firstBefore_reverse.mp

/-- **A flat environment lists the names up to the one that was declared first.** -/
theorem pairwise_flat (steps : List (List Binding)) :
    ((declaring .flat steps).bindings.map Prod.fst).Pairwise
      fun x y => FirstBefore steps.flatten y x := by
  rw [bindings_flat, List.map_reverse, List.pairwise_reverse, map_fst_written]
  exact pairwise_visible _

theorem perm_bindings (steps : List (List Binding)) :
    ((declaring .frames steps).bindings).Perm (declaring .flat steps).bindings := by
  refine (List.perm_ext_iff_of_nodup (nodup_bindings _) (nodup_bindings _)).mpr fun b => ?_
  rw [mem_bindings_declaring, mem_bindings_declaring]

/-- **The lists are the same exactly if the names have kept their order.** -/
theorem bindings_eq_iff (steps : List (List Binding)) :
    (declaring .frames steps).bindings = (declaring .flat steps).bindings
      ↔ Steady steps.flatten := by
  constructor
  · intro h x hx y hy
    have hfirst := pairwise_flat steps
    rw [← h] at hfirst
    exact agree_of_pairwise (pairwise_frames steps) hfirst x (mem_names_bindings.mpr hx) y
      (mem_names_bindings.mpr hy)
  · intro h
    have hname {b : Binding} (hb : b ∈ (declaring .flat steps).bindings) :
        b.1 ∈ steps.flatten.map Prod.fst := mem_names_bindings.mp (List.mem_map_of_mem hb)
    have hflat := (List.pairwise_map.mp (pairwise_flat steps)).imp_of_mem fun hb hc hbc =>
      (h _ (hname hb) _ (hname hc)).mpr hbc
    exact (perm_bindings steps).eq_of_pairwise (fun _ _ _ _ hbc hcb => absurd hcb hbc.asymm)
      (List.pairwise_map.mp (pairwise_frames steps)) hflat

/-- **What the two representations list, and in which order.** -/
theorem bindings_ordered (steps : List (List Binding)) :
    -- The visible bindings are the last ones of their names.
    (∀ r name v, (name, v) ∈ (declaring r steps).bindings
      ↔ LastBinding steps.flatten name v) ∧
      ((declaring .frames steps).bindings).Perm (declaring .flat steps).bindings ∧
      -- In frames the last declaration of a name counts, in a flat environment the first one.
      ((declaring .frames steps).bindings.map Prod.fst).Pairwise (LastAfter steps.flatten) ∧
      ((declaring .flat steps).bindings.map Prod.fst).Pairwise
        (fun x y => FirstBefore steps.flatten y x) ∧
      -- So they are listed alike exactly if that makes no difference, and then written alike.
      ((declaring .frames steps).bindings = (declaring .flat steps).bindings
        ↔ Steady steps.flatten) ∧
      (Steady steps.flatten
        → (declaring .frames steps).toText = (declaring .flat steps).toText) := by
  refine ⟨fun _ _ _ => mem_bindings_declaring, perm_bindings steps, pairwise_frames steps,
    pairwise_flat steps, bindings_eq_iff steps, fun h => ?_⟩
  rw [toText, toText, (bindings_eq_iff steps).mpr h]

/-- Two names are declared, and then both of them again. -/
def renewed : List (List Binding) :=
  [[("x", .int 1), ("y", .int 2)], [("x", .int 3), ("y", .int 4)]]

/-- Names that are all declared again in the same order keep their order. -/
theorem bindings_ordered_renewed :
    Steady renewed.flatten ∧ (declaring .frames renewed).toText = (declaring .flat renewed).toText ∧
      ("y", .int 4) ∈ (declaring .flat renewed).bindings := by
  obtain ⟨hmem, -, -, -, hsteady, htext⟩ := bindings_ordered renewed
  have h : Steady renewed.flatten := hsteady.mp (by decide +kernel)
  exact ⟨h, htext h, (hmem .flat "y" (.int 4)).mpr
    ⟨[("x", .int 1), ("y", .int 2), ("x", .int 3)], [], rfl, by simp⟩⟩

/-- One name is declared, then another, then the first one again. -/
def redeclared : List (List Binding) := [[("x", .int 1)], [("y", .int 2)], [("x", .int 3)]]

/-- **The name that is declared again comes first in frames and last in a flat environment.** -/
theorem order_differs :
    (declaring .frames redeclared).bindings = [("x", .int 3), ("y", .int 2)] ∧
      (declaring .flat redeclared).bindings = [("y", .int 2), ("x", .int 3)] ∧
      (declaring .frames redeclared).toText = "\x7by=2, x=3\x7d" ∧
      (declaring .flat redeclared).toText = "\x7bx=3, y=2\x7d" ∧
      ¬((declaring .flat redeclared).bindings.map Prod.fst).Pairwise
        (LastAfter redeclared.flatten) := by
  refine ⟨by decide +kernel, by decide +kernel, by decide +kernel, by decide +kernel, ?_⟩
  have hlast : LastAfter redeclared.flatten "x" "y" :=
    ⟨[("x", .int 3)], ⟨[("x", .int 1), ("y", .int 2)], rfl⟩, by simp, by simp⟩
  have hnames : (declaring .flat redeclared).bindings.map Prod.fst = ["y", "x"] := by
    decide +kernel
  rw [hnames, List.pairwise_pair]
  exact hlast.asymm

end Environment

end GeneralLL
