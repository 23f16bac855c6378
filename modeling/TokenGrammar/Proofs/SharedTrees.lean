import Mathlib.Algebra.Order.BigOperators.Group.List
import Mathlib.Algebra.Order.Group.Nat
import TokenGrammar.Proofs.TreeLines
import TokenGrammar.Proofs.Unfolding

/-!
# Shared trees change together

A forest grows by three operations. As long as none of them attaches a tree to itself or to one of
its own descendants, no tree contains itself: a new cycle would have to go over the new branch, and
then the parent of this branch would hang below its child already.

A tree that gets one more subtree is written out in another way, and so is every tree that contains
it, at every place where it stands in that tree, and nothing else is. The text changes wherever the
tree does, since it gains lines and loses none.

## Main definitions

* `Tree.graft`: a tree with a subtree added at given places.
* `Forest.follow`: the tree at the end of a path.
* `Forest.Attachable`: the branches that may be added.
* `Forest.Operation`, `Forest.Grown`: the operations, and the forests that they lead to.

## Main results

* `Forest.Attachable.print_ne_iff`, `Forest.Attachable.tree_eq_graft`: what an added branch changes.
* `Forest.Operation.Allowed.sound`, `Forest.Grown.sound`: what the operations keep.
-/
namespace TokenGrammar

/-! ## Grafting -/

namespace Tree

mutual

/-- A tree with one more subtree, after the others, at every place that `spot` picks. A place is a
path from the root, which says at every step which of the subtrees to take. -/
def graft : Tree → Tree → (List Nat → Bool) → Tree
  | .node text items, scion, spot =>
    .node text (graftAll items scion spot 0 ++ if spot [] then [scion] else [])

/-- Subtrees, the first of which has the number `i`, with one more subtree at the places that `spot`
picks in the tree to which they belong. -/
def graftAll : List Tree → Tree → (List Nat → Bool) → Nat → List Tree
  | [], _, _, _ => []
  | t :: rest, scion, spot, i =>
    graft t scion (fun path => spot (i :: path)) :: graftAll rest scion spot (i + 1)

end

variable {scion : Tree} {spot : List Nat → Bool}

theorem graftAll_eq_mapIdx (items : List Tree) (i : Nat) :
    graftAll items scion spot i =
      items.mapIdx fun j t => t.graft scion fun path => spot ((i + j) :: path) := by
  induction items generalizing i with
  | nil => rfl
  | cons t rest ih =>
    rw [graftAll, ih, List.mapIdx_cons]
    simp only [Nat.add_zero, Nat.add_assoc, Nat.add_comm 1]

theorem graft_node (text : String) (items : List Tree) :
    (node text items).graft scion spot =
      .node text ((items.mapIdx fun i t => t.graft scion fun path => spot (i :: path)) ++
        if spot [] then [scion] else []) := by
  rw [graft, graftAll_eq_mapIdx]
  simp only [Nat.zero_add]

/-- Where no place is picked, nothing changes. -/
theorem graft_of_never (t : Tree) (h : ∀ path, spot path = false) : t.graft scion spot = t := by
  induction t generalizing spot with
  | node text items ih =>
    have hitems : (items.mapIdx fun i t => t.graft scion fun path => spot (i :: path)) = items := by
      refine List.ext_getElem List.length_mapIdx fun i hi hi' => ?_
      rw [List.getElem_mapIdx]
      exact ih _ (List.getElem_mem hi') fun path => h (i :: path)
    rw [graft_node, hitems, h, if_neg Bool.false_ne_true, List.append_nil]

end Tree

namespace Forest

open Text (splitOn)

variable {f : Forest} {text : String} {h k p c : Nat} {e : Entry} {T T' : Nat → Tree}

/-! ## Paths -/

/-- The tree at the end of a path, which says at every step which of the branches to take. -/
def follow (f : Forest) : Nat → List Nat → Option Nat
  | h, [] => some h
  | h, i :: path => f.entries[h]?.bind fun e => e.items[i]?.bind fun k => f.follow k path

theorem follow_cons (he : f.entries[h]? = some e) (i : Nat) (path : List Nat) :
    f.follow h (i :: path) = e.items[i]?.bind fun k => f.follow k path := by
  rw [follow, he, Option.bind_some]

/-- A tree contains what stands at the ends of its paths. -/
theorem reaches_iff_follow : f.Reaches h k ↔ ∃ path, f.follow h path = some k := by
  constructor
  · intro hreaches
    induction hreaches using Relation.ReflTransGen.head_induction_on with
    | refl => exact ⟨[], rfl⟩
    | head hhangs _ ih =>
      obtain ⟨e, he, hmem⟩ := hhangs
      obtain ⟨path, hpath⟩ := ih
      obtain ⟨i, hi⟩ := List.mem_iff_getElem?.mp hmem
      exact ⟨i :: path, by rw [follow_cons he, hi, Option.bind_some, hpath]⟩
  · rintro ⟨path, hpath⟩
    induction path generalizing h with
    | nil =>
      cases hpath
      exact .refl
    | cons i path ih =>
      obtain ⟨e, he, hrest⟩ := Option.bind_eq_some_iff.mp hpath
      obtain ⟨next, hnext, hrest⟩ := Option.bind_eq_some_iff.mp hrest
      exact .head (hangs_of_mem he (List.mem_of_getElem? hnext)) (ih hrest)

theorem follow_beq_of_not_reaches (hreaches : ¬ f.Reaches h k) (path : List Nat) :
    (f.follow h path == some k) = false :=
  beq_eq_false_iff_ne.mpr fun hpath => hreaches (reaches_iff_follow.mpr ⟨path, hpath⟩)

/-! ## A fresh tree -/

theorem getElem?_new (f : Forest) (text : String) (h : Nat) :
    (f.new text).1.entries[h]? =
      if h = f.entries.length then some ⟨text, []⟩ else f.entries[h]? := by
  rw [new]
  split
  · next hh => rw [hh, List.getElem?_concat_length]
  · next hh =>
    rcases Nat.lt_or_gt_of_ne hh with hlt | hgt
    · exact List.getElem?_append_left hlt
    · rw [List.getElem?_eq_none (by simp; omega), List.getElem?_eq_none (by omega)]

theorem getElem?_new_of_some (he : f.entries[h]? = some e) (text : String) :
    (f.new text).1.entries[h]? = some e := by
  have hlt := (List.getElem?_eq_some_iff.mp he).1
  rw [getElem?_new, if_neg (by omega), he]

/-- A fresh tree has no branches. -/
theorem hangs_new (f : Forest) (text : String) : (f.new text).1.Hangs = f.Hangs := by
  funext h k
  refine propext ⟨?_, ?_⟩
  · rintro ⟨e, he, hk⟩
    rw [getElem?_new] at he
    split at he
    · cases he
      cases hk
    · exact ⟨e, he, hk⟩
  · rintro ⟨e, he, hk⟩
    exact ⟨e, getElem?_new_of_some he text, hk⟩

theorem reaches_new : (f.new text).1.Reaches h k ↔ f.Reaches h k := by
  rw [Reaches, Reaches, hangs_new]

theorem follow_new (f : Forest) (text : String) (h : Nat) (path : List Nat) :
    (f.new text).1.follow h path = f.follow h path := by
  induction path generalizing h with
  | nil => rfl
  | cons i path ih =>
    rw [follow, follow, getElem?_new]
    simp only [ih]
    split
    · next hh => rw [hh, List.getElem?_eq_none le_rfl]; rfl
    · rfl

theorem length_new (f : Forest) (text : String) :
    (f.new text).1.entries.length = f.entries.length + 1 := by
  rw [new, List.length_append, List.length_singleton]

theorem sound_new (hf : f.Sound) (text : String) : (f.new text).1.Sound where
  stored hhangs := by
    rw [hangs_new] at hhangs
    rw [length_new]
    exact (hf.stored hhangs).trans (Nat.lt_succ_self _)
  acyclic := by
    rw [hangs_new]
    exact hf.acyclic

theorem Unfolding.of_new (hT : (f.new text).1.Unfolding T) : f.Unfolding T :=
  fun h e he => hT h e (getElem?_new_of_some he text)

theorem tree_new (hf : f.Sound) (text : String) (hh : h < f.entries.length) :
    (f.new text).1.tree h = f.tree h :=
  (unfolding_tree (sound_new hf text)).of_new.unique (unfolding_tree hf) hf hh

theorem tree_new_length (hf : f.Sound) (text : String) :
    (f.new text).1.tree f.entries.length = .leaf text :=
  unfolding_tree (sound_new hf text) _ ⟨text, []⟩ (by rw [getElem?_new, if_pos rfl])

theorem print_new (hf : f.Sound) (text : String) (hh : h < f.entries.length) :
    (f.new text).1.print h = f.print h := by
  have hnew := unfolding_tree (sound_new hf text)
  rw [print_eq (sound_new hf text) hnew (by rw [length_new]; omega),
    print_eq hf hnew.of_new hh]

/-! ## A new branch -/

theorem getElem?_attach (f : Forest) (p c h : Nat) :
    (f.attach p c).entries[h]? =
      f.entries[h]?.map fun e => if h = p then { e with items := e.items ++ [c] } else e := by
  rw [attach, List.getElem?_modify]
  simp only [eq_comm (a := p)]
  rfl

theorem length_attach (f : Forest) (p c : Nat) :
    (f.attach p c).entries.length = f.entries.length := List.length_modify ..

theorem hangs_attach (hp : p < f.entries.length) :
    (f.attach p c).Hangs h k ↔ f.Hangs h k ∨ h = p ∧ k = c := by
  rw [Hangs, getElem?_attach]
  constructor
  · rintro ⟨e', he', hk⟩
    obtain ⟨e, he, rfl⟩ := Option.map_eq_some_iff.mp he'
    split at hk
    · next hh =>
      rcases List.mem_append.mp hk with hk | hk
      · exact .inl ⟨e, he, hk⟩
      · exact .inr ⟨hh, List.mem_singleton.mp hk⟩
    · exact .inl ⟨e, he, hk⟩
  · rintro (⟨e, he, hk⟩ | ⟨rfl, rfl⟩)
    · refine ⟨_, Option.map_eq_some_iff.mpr ⟨e, he, rfl⟩, ?_⟩
      split
      · exact List.mem_append_left _ hk
      · exact hk
    · refine ⟨_, Option.map_eq_some_iff.mpr ⟨_, List.getElem?_eq_getElem hp, rfl⟩, ?_⟩
      rw [if_pos rfl]
      exact List.mem_append_right _ (List.mem_singleton_self _)

/-- A branch may be added between two stored trees if the child does not contain the parent. -/
structure Attachable (f : Forest) (parent child : Nat) : Prop where
  parent_lt : parent < f.entries.length
  child_lt : child < f.entries.length
  not_reaches : ¬ f.Reaches child parent

/-- A path over the new branch leads to its parent first and away from its child afterwards. -/
theorem Attachable.transGen (ha : f.Attachable p c)
    (hpath : Relation.TransGen (f.attach p c).Hangs h k) :
    Relation.TransGen f.Hangs h k ∨ f.Reaches h p ∧ f.Reaches c k := by
  induction hpath with
  | single hhangs =>
    rcases (hangs_attach ha.parent_lt).mp hhangs with hold | ⟨rfl, rfl⟩
    · exact .inl (.single hold)
    · exact .inr ⟨.refl, .refl⟩
  | tail _ hhangs ih =>
    rcases (hangs_attach ha.parent_lt).mp hhangs with hold | ⟨rfl, rfl⟩
    · rcases ih with hpath | ⟨hto, hfrom⟩
      · exact .inl (hpath.tail hold)
      · exact .inr ⟨hto, hfrom.tail hold⟩
    · rcases ih with hpath | ⟨-, hfrom⟩
      · exact .inr ⟨hpath.to_reflTransGen, .refl⟩
      · exact absurd hfrom ha.not_reaches

theorem Attachable.sound (ha : f.Attachable p c) (hf : f.Sound) : (f.attach p c).Sound where
  stored hhangs := by
    rw [length_attach]
    rcases (hangs_attach ha.parent_lt).mp hhangs with hold | ⟨-, rfl⟩
    · exact hf.stored hold
    · exact ha.child_lt
  acyclic h hcycle := by
    rcases ha.transGen hcycle with hold | ⟨hto, hfrom⟩
    · exact hf.acyclic h hold
    · exact ha.not_reaches (hfrom.trans hto)

/-- A tree is written out with the new branch where it is the parent, and as before elsewhere. -/
theorem Unfolding.attach_eq (hT : (f.attach p c).Unfolding T) (he : f.entries[h]? = some e) :
    T h = .node e.text (e.items.map T ++ if h = p then [T c] else []) := by
  rw [hT h _ (by rw [getElem?_attach, he, Option.map_some])]
  split
  · rw [List.map_append, List.map_singleton]
  · rw [List.append_nil]

/-! ## What changes -/

theorem Unfolding.length_lines (hT : f.Unfolding T) (he : f.entries[h]? = some e) :
    (T h).lines.length =
      (splitOn '\n' e.text.toList).length + (e.items.map fun k => (T k).lines.length).sum := by
  rw [hT h e he, Tree.length_lines_node, List.map_map]
  rfl

theorem Unfolding.length_lines_attach (hT : (f.attach p c).Unfolding T)
    (he : f.entries[h]? = some e) :
    (T h).lines.length =
      (splitOn '\n' e.text.toList).length + (e.items.map fun k => (T k).lines.length).sum +
        if h = p then (T c).lines.length else 0 := by
  rw [hT.attach_eq he, Tree.length_lines_node, List.map_append, List.sum_append, List.map_map,
    Nat.add_assoc]
  split
  · rw [List.map_singleton, List.sum_singleton]
    rfl
  · rfl

section

variable (hf : f.Sound) (hT : f.Unfolding T) (hT' : (f.attach p c).Unfolding T')
  (hh : h < f.entries.length)
include hf hT hT' hh

theorem tree_attach_of_not_reaches (hreaches : ¬ f.Reaches h p) : T' h = T h := by
  induction h using hf.induction with
  | step h ih =>
    have he := List.getElem?_eq_getElem hh
    have hne : h ≠ p := fun hp => hreaches (hp ▸ .refl)
    have hitems : f.entries[h].items.map T' = f.entries[h].items.map T := by
      refine List.map_congr_left fun k hk => ?_
      have hhangs := hangs_of_mem he hk
      exact ih k hhangs (hf.stored hhangs) fun hreach => hreaches (.head hhangs hreach)
    rw [hT'.attach_eq he, hT h _ he, if_neg hne, List.append_nil, hitems]

/-- No lines are lost. -/
theorem lines_le_attach : (T h).lines.length ≤ (T' h).lines.length := by
  induction h using hf.induction with
  | step h ih =>
    have he := List.getElem?_eq_getElem hh
    have hsum := List.sum_le_sum fun k hk => ih k (hangs_of_mem he hk) (hf.lt_of_mem he hk)
    rw [hT'.length_lines_attach he, hT.length_lines he]
    omega

/-- Wherever the parent stands, lines are gained. -/
theorem lines_lt_attach (hreaches : f.Reaches h p) : (T h).lines.length < (T' h).lines.length := by
  induction hreaches using Relation.ReflTransGen.head_induction_on with
  | refl =>
    have he := List.getElem?_eq_getElem hh
    have hsum := List.sum_le_sum fun k hk => lines_le_attach hf hT hT' (hf.lt_of_mem he hk)
    have hchild := List.length_pos_of_ne_nil (T' c).lines_ne_nil
    rw [hT'.length_lines_attach he, hT.length_lines he, if_pos rfl]
    omega
  | @head h k hhangs _ ih =>
    obtain ⟨e, he, hk⟩ := hhangs
    have hsum := List.sum_lt_sum (fun k => (T k).lines.length) (fun k => (T' k).lines.length)
      (fun k hk => lines_le_attach hf hT hT' (hf.lt_of_mem he hk))
      ⟨k, hk, ih (hf.lt_of_mem he hk)⟩
    rw [hT'.length_lines_attach he, hT.length_lines he]
    omega

end

/-- **What an added branch changes in print**: the trees that contain its parent, and no others. -/
theorem Attachable.print_ne_iff (ha : f.Attachable p c) (hf : f.Sound)
    (hh : h < f.entries.length) :
    (f.attach p c).print h ≠ f.print h ↔ f.Reaches h p := by
  have hT := unfolding_tree hf
  have hT' := unfolding_tree (ha.sound hf)
  rw [print_eq hf hT hh, print_eq (ha.sound hf) hT' (by rwa [length_attach])]
  constructor
  · intro hne
    by_contra hreaches
    rw [tree_attach_of_not_reaches hf hT hT' hh hreaches] at hne
    exact hne rfl
  · intro hreaches heq
    have hlt := lines_lt_attach hf hT hT' hh hreaches
    rw [Tree.lines, Tree.lines, Option.some.inj heq] at hlt
    exact Nat.lt_irrefl _ hlt

/-- **What an added branch changes in the unfolding**: the child stands below the parent, wherever
the parent stands. -/
theorem Attachable.tree_eq_graft (ha : f.Attachable p c) (hf : f.Sound)
    (hh : h < f.entries.length) :
    (f.attach p c).tree h =
      (f.tree h).graft (f.tree c) fun path => f.follow h path == some p := by
  have hT := unfolding_tree hf
  -- the grafted trees are an unfolding too, and there is one only
  suffices hgraft : (f.attach p c).Unfolding fun h =>
      (f.tree h).graft (f.tree c) fun path => f.follow h path == some p from
    (unfolding_tree (ha.sound hf)).unique hgraft (ha.sound hf) (by rwa [length_attach])
  intro h e' he'
  rw [getElem?_attach] at he'
  obtain ⟨e, he, rfl⟩ := Option.map_eq_some_iff.mp he'
  have hitems : ((e.items.map f.tree).mapIdx fun i t =>
      t.graft (f.tree c) fun path => f.follow h (i :: path) == some p) =
      e.items.map fun k => (f.tree k).graft (f.tree c) fun path => f.follow k path == some p := by
    refine List.ext_getElem (by simp) fun i hi hi' => ?_
    have hget : e.items[i]? = some _ := List.getElem?_eq_getElem (by simpa using hi')
    simp only [List.getElem_mapIdx, List.getElem_map, follow_cons he, hget, Option.bind_some]
  have hchild : ((f.tree c).graft (f.tree c) fun path => f.follow c path == some p) = f.tree c :=
    Tree.graft_of_never _ (follow_beq_of_not_reaches ha.not_reaches)
  beta_reduce
  rw [hT h e he, Tree.graft_node, hitems]
  by_cases hp : h = p
  · simp only [hp, follow, BEq.rfl, if_true, List.map_append, List.map_singleton, hchild]
  · have hroot : (f.follow h [] == some p) = false := by simpa [follow] using hp
    rw [hroot, if_neg Bool.false_ne_true, if_neg hp, List.append_nil]

/-! ## Operations -/

/-- An operation that changes a forest. -/
inductive Operation where
  | new (text : String)
  | add (parent : Nat) (text : String)
  | attach (parent child : Nat)

namespace Operation

/-- The forest after an operation. -/
def apply (f : Forest) : Operation → Forest
  | .new text => (f.new text).1
  | .add parent text => (f.add parent text).1
  | .attach parent child => f.attach parent child

@[simp] theorem apply_new (f : Forest) (text : String) :
    (Operation.new text).apply f = (f.new text).1 := rfl

@[simp] theorem apply_add (f : Forest) (parent : Nat) (text : String) :
    (Operation.add parent text).apply f = (f.new text).1.attach parent f.entries.length := rfl

@[simp] theorem apply_attach (f : Forest) (parent child : Nat) :
    (Operation.attach parent child).apply f = f.attach parent child := rfl

/-- An operation on stored trees is allowed, unless it attaches a tree to itself or to one of its
own descendants. -/
def Allowed (f : Forest) : Operation → Prop
  | .new _ => True
  | .add parent _ => parent < f.entries.length
  | .attach parent child => f.Attachable parent child

/-- The tree to which an operation adds a subtree, and the subtree. -/
def added? (f : Forest) : Operation → Option (Nat × Tree)
  | .new _ => none
  | .add parent text => some (parent, .leaf text)
  | .attach parent child => some (parent, f.tree child)

end Operation

theorem not_reaches_of_bare (he : f.entries[h]? = some e) (hbare : e.items = []) (hne : h ≠ k) :
    ¬ f.Reaches h k := by
  intro hreaches
  rcases Relation.ReflTransGen.cases_head hreaches with heq | ⟨next, ⟨e', he', hnext⟩, -⟩
  · exact hne heq
  · cases he.symm.trans he'
    rw [hbare] at hnext
    cases hnext

theorem attachable_new (hp : p < f.entries.length) (text : String) :
    (f.new text).1.Attachable p f.entries.length where
  parent_lt := by rw [length_new]; omega
  child_lt := by rw [length_new]; omega
  not_reaches :=
    not_reaches_of_bare (e := ⟨text, []⟩) (by rw [getElem?_new, if_pos rfl]) rfl (by omega)

namespace Operation

variable {op : Operation} {scion : Tree}

theorem Allowed.sound (hallowed : op.Allowed f) (hf : f.Sound) : (op.apply f).Sound := by
  cases op with
  | new text => exact sound_new hf text
  | add parent text => exact (attachable_new hallowed text).sound (sound_new hf text)
  | attach parent child => exact Attachable.sound hallowed hf

/-- An operation changes the text of the trees that contain the one to which it adds a subtree. -/
theorem Allowed.print_ne_iff (hallowed : op.Allowed f) (hf : f.Sound)
    (hh : h < f.entries.length) :
    (op.apply f).print h ≠ f.print h ↔ ∃ p scion, op.added? f = some (p, scion) ∧ f.Reaches h p := by
  cases op with
  | new text => simp [added?, print_new hf text hh]
  | add parent text =>
    have hnew : h < (f.new text).1.entries.length := by rw [length_new]; omega
    have hchanges := (attachable_new hallowed text).print_ne_iff (sound_new hf text) hnew
    rw [print_new hf text hh, reaches_new] at hchanges
    simpa [added?] using hchanges
  | attach parent child => simpa [added?] using Attachable.print_ne_iff hallowed hf hh

/-- An operation adds its subtree at all places of the tree to which it adds it. -/
theorem Allowed.tree_eq_graft (hallowed : op.Allowed f) (hf : f.Sound)
    (hh : h < f.entries.length) (hadded : op.added? f = some (p, scion)) :
    (op.apply f).tree h = (f.tree h).graft scion fun path => f.follow h path == some p := by
  cases op with
  | new text => cases hadded
  | add parent text =>
    cases hadded
    have hnew : h < (f.new text).1.entries.length := by rw [length_new]; omega
    have hgraft := (attachable_new hallowed text).tree_eq_graft (sound_new hf text) hnew
    rw [tree_new hf text hh, tree_new_length hf text] at hgraft
    simpa only [follow_new, apply_add] using hgraft
  | attach parent child =>
    cases hadded
    exact Attachable.tree_eq_graft hallowed hf hh

end Operation

/-- The forests that allowed operations lead to. -/
inductive Grown : Forest → Prop
  | empty : Grown .empty
  | step {f : Forest} (op : Operation) (grown : Grown f) (allowed : op.Allowed f) :
      Grown (op.apply f)

theorem Grown.sound (hf : f.Grown) : f.Sound := by
  induction hf with
  | empty =>
    have hbare : ∀ h k, ¬ Forest.empty.Hangs h k := fun h k ⟨e, he, _⟩ => by cases he
    exact ⟨fun hhangs => absurd hhangs (hbare _ _), fun h hcycle => by
      obtain ⟨k, hhangs, -⟩ := Relation.TransGen.head'_iff.mp hcycle
      exact hbare h k hhangs⟩
  | step op _ hallowed ih => exact hallowed.sound ih

/-- **Shared trees change together and nothing else changes**: as long as no tree was attached to
itself or to one of its own descendants, the stored trees can be written out, and printing ends with
the text of what is written out. Another such operation changes the text of the trees that contain
the one to which it adds a subtree, itself included, and of no others; in each of them the subtree is
added at all places of that tree and nowhere else. -/
theorem grown_print (hf : f.Grown) :
    (f.Unfolding f.tree ∧
      ∀ T, f.Unfolding T → ∀ h < f.entries.length, f.print h = some (T h).print) ∧
    ∀ op : Operation, op.Allowed f → ∀ h < f.entries.length,
      ((op.apply f).print h ≠ f.print h ↔
        ∃ p scion, op.added? f = some (p, scion) ∧ f.Reaches h p) ∧
      ∀ p scion, op.added? f = some (p, scion) →
        (op.apply f).tree h = (f.tree h).graft scion fun path => f.follow h path == some p := by
  have hsound := hf.sound
  refine ⟨⟨unfolding_tree hsound, fun T hT h hh => print_eq hsound hT hh⟩, ?_⟩
  intro op hallowed h hh
  exact ⟨hallowed.print_ne_iff hsound hh, fun p scion => hallowed.tree_eq_graft hsound hh⟩

/-- Five trees, of which the fourth hangs on three branches of two others, and the fifth on none. -/
def diamond : Forest :=
  ⟨[⟨"root", [1, 2]⟩, ⟨"left", [3]⟩, ⟨"right", [3, 3]⟩, ⟨"shared", []⟩, ⟨"apart", []⟩]⟩

theorem grown_diamond : diamond.Grown := by
  have hbuilt : Grown ⟨[⟨"root", [1, 2]⟩, ⟨"left", []⟩, ⟨"right", []⟩, ⟨"shared", []⟩,
      ⟨"apart", []⟩]⟩ :=
    .step (.new "apart") (.step (.new "shared") (.step (.add 0 "right") (.step (.add 0 "left")
      (.step (.new "root") .empty trivial) Nat.one_pos) Nat.two_pos) trivial) trivial
  have hfits : ∀ {f : Forest} {p : Nat}, f.entries.length = 5 →
      f.entries[3]? = some ⟨"shared", []⟩ → p < 3 → f.Attachable p 3 := fun hlength hshared hp =>
    ⟨by omega, by omega, not_reaches_of_bare hshared rfl (by omega)⟩
  have hleft := Grown.step (.attach 1 3) hbuilt (hfits rfl rfl (by decide))
  have hright := Grown.step (.attach 2 3) hleft (hfits rfl rfl (by decide))
  exact Grown.step (.attach 2 3) hright (hfits rfl rfl (by decide))

/-- A leaf that is added to the shared tree shows on all its branches. -/
theorem grown_print_diamond :
    diamond.Grown ∧ diamond.print 2 = some "right\n├── shared\n└── shared\n" ∧
      ((Operation.add 3 "leaf").apply diamond).print 0 ≠ diamond.print 0 ∧
      ((Operation.add 3 "leaf").apply diamond).print 4 = diamond.print 4 ∧
      ((Operation.add 3 "leaf").apply diamond).tree 2 =
        .node "right" [.node "shared" [.leaf "leaf"], .node "shared" [.leaf "leaf"]] := by
  obtain ⟨⟨hunfolding, hprint⟩, hchanges⟩ := grown_print grown_diamond
  have hallowed : 3 < diamond.entries.length := by decide
  have hadd := hchanges (.add 3 "leaf") hallowed
  have hto : diamond.Reaches 0 3 := reaches_iff_follow.mpr ⟨[0, 0], rfl⟩
  have hapart : ¬ diamond.Reaches 4 3 :=
    not_reaches_of_bare (e := ⟨"apart", []⟩) rfl rfl (by decide)
  refine ⟨grown_diamond, ?_, (hadd 0 (by decide)).1.mpr ⟨3, _, rfl, hto⟩, ?_, ?_⟩
  · rw [hprint _ hunfolding 2 (by decide)]
    rfl
  · by_contra hne
    obtain ⟨p, scion, hadded, hreaches⟩ := (hadd 4 (by decide)).1.mp hne
    cases hadded
    exact hapart hreaches
  · rw [(hadd 2 (by decide)).2 3 _ rfl]
    rfl

end Forest
end TokenGrammar
