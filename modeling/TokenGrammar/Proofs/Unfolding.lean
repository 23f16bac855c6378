import TokenGrammar.Proofs.Reach
import TokenGrammar.Tree.Forest

/-!
# Unfolding shared trees

Stored trees refer to each other by handles. If none of them contains itself, each stands for one
tree without handles, in which a tree that hangs on several branches is written out on every one of
them. Printing follows the handles and finds the text of that tree. It ends because the trees on a
path are all different, so that a path has no more of them than are stored; where a tree does contain
itself, printing has no end.

## Main definitions

* `Forest.Hangs`, `Forest.Reaches`: the branches of stored trees, and the paths along them.
* `Forest.Sound`: the forests in which no tree contains itself.
* `Forest.Unfolding`: what it means to write the stored trees out.

## Main results

* `Forest.unfolding_tree`, `Forest.Unfolding.unique`: the stored trees can be written out in one way.
* `Forest.print_eq`: printing ends with the text of the unfolding.
* `Forest.print_eq_none_of_cycle`: printing does not end in a tree that contains itself.
-/
namespace TokenGrammar.Forest

variable {f : Forest} {h k depth : Nat} {e : Entry} {T T' : Nat → Tree}

/-! ## Branches and paths -/

/-- One tree hangs on a branch of the other one. -/
def Hangs (f : Forest) (parent child : Nat) : Prop :=
  ∃ e, f.entries[parent]? = some e ∧ child ∈ e.items

/-- A path of branches leads from one tree to the other one, or they are the same. -/
def Reaches (f : Forest) (h k : Nat) : Prop := Relation.ReflTransGen f.Hangs h k

/-- Every branch leads to a stored tree, and no tree contains itself. -/
structure Sound (f : Forest) : Prop where
  stored : ∀ {h k}, f.Hangs h k → k < f.entries.length
  acyclic : ∀ h, ¬ Relation.TransGen f.Hangs h h

theorem Hangs.parent_lt (hhangs : f.Hangs h k) : h < f.entries.length := by
  obtain ⟨e, he, -⟩ := hhangs
  exact (List.getElem?_eq_some_iff.mp he).1

theorem hangs_of_mem (he : f.entries[h]? = some e) (hk : k ∈ e.items) : f.Hangs h k := ⟨e, he, hk⟩

/-- The number of stored trees that a tree contains, itself included. -/
noncomputable def extent (f : Forest) (h : Nat) : Nat :=
  (reach f.Hangs (Finset.range f.entries.length) h).card

theorem extent_pos (hh : h < f.entries.length) : 0 < f.extent h :=
  card_reach_pos (Finset.mem_range.mpr hh)

theorem extent_le (f : Forest) (h : Nat) : f.extent h ≤ f.entries.length :=
  (card_reach_le _ _ h).trans (Finset.card_range _).le

namespace Sound

variable (hf : f.Sound)
include hf

theorem extent_lt (hhangs : f.Hangs h k) : f.extent k < f.extent h :=
  card_reach_lt hf.acyclic (Finset.mem_range.mpr hhangs.parent_lt) hhangs

theorem lt_of_mem (he : f.entries[h]? = some e) (hk : k ∈ e.items) : k < f.entries.length :=
  hf.stored (hangs_of_mem he hk)

theorem extent_le_of_mem (he : f.entries[h]? = some e) (hdepth : f.extent h ≤ depth + 1)
    (hk : k ∈ e.items) : f.extent k ≤ depth := by
  have hlt := hf.extent_lt (hangs_of_mem he hk)
  omega

/-- What holds of a stored tree as soon as it holds of the trees on its branches holds of all. -/
theorem induction {motive : Nat → Prop}
    (step : ∀ h, (∀ k, f.Hangs h k → motive k) → motive h) (h : Nat) : motive h := by
  induction hn : f.extent h using Nat.strongRecOn generalizing h with
  | ind n ih =>
    subst hn
    exact step h fun k hhangs => ih _ (hf.extent_lt hhangs) k rfl

end Sound

/-! ## Writing out -/

/-- Every stored tree is written out as its label with what is written for the trees on its
branches. -/
def Unfolding (f : Forest) (T : Nat → Tree) : Prop :=
  ∀ h e, f.entries[h]? = some e → T h = .node e.text (e.items.map T)

/-- Stored trees are written out in one way. -/
theorem Unfolding.unique (hT : f.Unfolding T) (hT' : f.Unfolding T') (hf : f.Sound)
    (hh : h < f.entries.length) : T h = T' h := by
  induction h using hf.induction with
  | step h ih =>
    have he := List.getElem?_eq_getElem hh
    have hitems : f.entries[h].items.map T = f.entries[h].items.map T' :=
      List.map_congr_left fun k hk => ih k (hangs_of_mem he hk) (hf.lt_of_mem he hk)
    rw [hT h _ he, hT' h _ he, hitems]

/-- From a depth on, unfolding gives the same tree. -/
theorem unfold_congr (hf : f.Sound) {depth depth' : Nat} (hh : h < f.entries.length)
    (hdepth : f.extent h ≤ depth) (hdepth' : f.extent h ≤ depth') :
    f.unfold depth h = f.unfold depth' h := by
  have hpos := extent_pos hh
  induction depth generalizing h depth' with
  | zero => omega
  | succ depth ih =>
    cases depth' with
    | zero => omega
    | succ depth' =>
      have he := List.getElem?_eq_getElem hh
      simp only [unfold, he]
      refine congrArg (Tree.node _) (List.map_congr_left fun k hk => ?_)
      have hstored := hf.lt_of_mem he hk
      exact ih hstored (hf.extent_le_of_mem he hdepth hk) (hf.extent_le_of_mem he hdepth' hk)
        (extent_pos hstored)

/-- The trees of the handles are the stored trees, written out. -/
theorem unfolding_tree (hf : f.Sound) : f.Unfolding f.tree := by
  intro h e he
  obtain ⟨hh, -⟩ := List.getElem?_eq_some_iff.mp he
  have hlt : f.extent h ≤ f.entries.length + 1 := (f.extent_le h).trans (Nat.le_succ _)
  rw [tree, unfold_congr hf hh (f.extent_le h) hlt]
  simp only [unfold, he]
  rfl

/-! ## Printing -/

/-- Stored trees are printed as what is written for them, if each of them is. -/
theorem printItems_eq {print : List Char → Bool → Nat → Option (List Char)} {handles : List Nat}
    (hprint : ∀ k ∈ handles, ∀ margin last,
      print margin last k = some (Tree.printItem margin last (T k))) (margin : List Char) :
    printItems print margin handles = some (Tree.printItems margin (handles.map T)) := by
  induction handles with
  | nil => rfl
  | cons k rest ih =>
    obtain ⟨hk, hrest⟩ := List.forall_mem_cons.mp hprint
    simp only [printItems, hk, ih hrest, List.map_cons, Tree.printItems, List.isEmpty_map]

theorem printItem_eq (hf : f.Sound) (hT : f.Unfolding T) (hh : h < f.entries.length)
    (hdepth : f.extent h ≤ depth) (margin : List Char) (last : Bool) :
    f.printItem depth margin last h = some (Tree.printItem margin last (T h)) := by
  have hpos := extent_pos hh
  induction depth generalizing h margin last with
  | zero => omega
  | succ depth ih =>
    have he := List.getElem?_eq_getElem hh
    have hitems : ∀ k ∈ f.entries[h].items, ∀ margin last,
        f.printItem depth margin last k = some (Tree.printItem margin last (T k)) := by
      intro k hk margin last
      have hstored := hf.lt_of_mem he hk
      exact ih hstored (hf.extent_le_of_mem he hdepth hk) margin last (extent_pos hstored)
    rw [printItem, he, hT h _ he]
    simp only [printItems_eq hitems, Option.map_some, Tree.printItem]

/-- **Printing ends** with the text of the unfolding. -/
theorem print_eq (hf : f.Sound) (hT : f.Unfolding T) (hh : h < f.entries.length) :
    f.print h = some (T h).print := by
  have he := List.getElem?_eq_getElem hh
  have hitems : ∀ k ∈ f.entries[h].items, ∀ margin last,
      f.printItem f.entries.length margin last k = some (Tree.printItem margin last (T k)) :=
    fun k hk => printItem_eq hf hT (hf.lt_of_mem he hk) (f.extent_le k)
  rw [print, he, hT h _ he]
  simp only [printItems_eq hitems, Option.map_some, Tree.print]

theorem printItems_eq_none {print : List Char → Bool → Nat → Option (List Char)}
    {handles : List Nat} (hk : k ∈ handles) (hprint : ∀ margin last, print margin last k = none)
    (margin : List Char) : printItems print margin handles = none := by
  induction handles with
  | nil => cases hk
  | cons first rest ih =>
    rw [printItems]
    rcases List.mem_cons.mp hk with rfl | hk
    · rw [hprint]
    · rw [ih hk]
      cases print margin rest.isEmpty first <;> rfl

/-- A path into a tree that contains itself goes on for ever: at its end it goes round once more. -/
theorem exists_next_of_cycle (hreaches : f.Reaches h k) (hcycle : Relation.TransGen f.Hangs k k) :
    ∃ e next, f.entries[h]? = some e ∧ next ∈ e.items ∧ f.Reaches next k := by
  have hround : Relation.TransGen f.Hangs h k := hcycle.trans_right hreaches
  obtain ⟨next, ⟨e, he, hnext⟩, hrest⟩ := Relation.TransGen.head'_iff.mp hround
  exact ⟨e, next, he, hnext, hrest⟩

/-- A tree from which a path goes on for ever is deeper than any bound. -/
theorem printItem_eq_none_of_cycle (hreaches : f.Reaches h k)
    (hcycle : Relation.TransGen f.Hangs k k) (depth : Nat) (margin : List Char) (last : Bool) :
    f.printItem depth margin last h = none := by
  induction depth generalizing h margin last with
  | zero => rfl
  | succ depth ih =>
    obtain ⟨e, next, he, hnext, hrest⟩ := exists_next_of_cycle hreaches hcycle
    rw [printItem, he]
    simp only [printItems_eq_none hnext (ih hrest), Option.map_none]

/-- Where a tree contains itself, printing does not end. -/
theorem print_eq_none_of_cycle (hreaches : f.Reaches h k)
    (hcycle : Relation.TransGen f.Hangs k k) : f.print h = none := by
  obtain ⟨e, next, he, hnext, hrest⟩ := exists_next_of_cycle hreaches hcycle
  have hprint := printItem_eq_none_of_cycle hrest hcycle f.entries.length
  rw [print, he]
  simp only [printItems_eq_none hnext hprint, Option.map_none]

end TokenGrammar.Forest
