import Mathlib.Algebra.GroupWithZero.Nat
import TokenGrammar.Tree.Basic

/-!
# The lines of a printed tree

A tree is printed with a margin that grows on the way down, and the later lines of a label are
written apart from the lines of the subtrees. Seen from the outside there is no margin: a tree is
printed as the lines of its label and below them the lines of its subtrees, each hung on a branch,
with the branch before the first line and the continuation before all others, wherever they come
from.

A branch is never taken for a continuation. So the lines that belong to one subtree end where the
next line starts with a branch, whatever its label looks like, and the lines of a tree whose labels
have one line each tell the tree.

## Main definitions

* `Tree.lines`: the lines of a printed tree.
* `Tree.hang`, `Tree.hangAll`: the lines of a subtree, and of several, on their branches.
* `Tree.SingleLine`: the trees whose labels have one line each.

## Main results

* `Tree.lines_node`: the lines of a tree from those of its subtrees.
* `Tree.lines_injective`: the lines tell the tree.
-/
namespace TokenGrammar

/-! ## Pieces of a text -/

namespace Text

theorem splitOn_eq (sep : Char) (cs : List Char) : splitOn sep cs = cs.splitOn sep := by
  induction cs with
  | nil => rfl
  | cons c cs ih =>
    rw [splitOn, ih, List.splitOn_cons_eq_if_modifyHead]
    simp only [beq_iff_eq]
    cases h : cs.splitOn sep with
    | nil => exact absurd h (List.splitOn_ne_nil sep cs)
    | cons piece rest => rfl

theorem notMem_of_mem_splitOn {sep : Char} {cs piece : List Char} (h : piece ∈ splitOn sep cs) :
    sep ∉ piece := by
  induction cs generalizing piece with
  | nil =>
    rw [splitOn, List.mem_singleton] at h
    exact h ▸ List.not_mem_nil
  | cons c cs ih =>
    rw [splitOn] at h
    split at h
    · rcases List.mem_cons.mp h with rfl | h
      · exact List.not_mem_nil
      · exact ih h
    · next hc =>
      split at h
      · rw [List.mem_singleton] at h
        exact h ▸ fun hsep => hc (List.mem_singleton.mp hsep).symm
      · next first rest hcs =>
        rcases List.mem_cons.mp h with rfl | h
        · exact List.not_mem_cons_of_ne_of_not_mem (Ne.symm hc) (ih (hcs ▸ List.mem_cons_self))
        · exact ih (hcs ▸ List.mem_cons_of_mem _ h)

end Text

namespace Tree

open Text (splitOn)

variable {cs margin first other : List Char} {ls ls' : List (List Char)} {items : List Tree}
  {last : Bool}

/-! ## Lines -/

/-- The lines of a text in which every line is ended. -/
def linesOf (cs : List Char) : List (List Char) := (splitOn '\n' cs).dropLast

theorem linesOf_flatMap_line (h : ∀ l ∈ ls, '\n' ∉ l) : linesOf (ls.flatMap line) = ls := by
  have hpieces : (ls.flatMap line).splitOn '\n' = ls ++ [[]] := by
    induction ls with
    | nil => rfl
    | cons l ls ih =>
      obtain ⟨hl, hrest⟩ := List.forall_mem_cons.mp h
      rw [List.flatMap_cons, line, List.append_assoc, List.singleton_append,
        List.splitOn_append_cons_self_of_not_mem hl, ih hrest, List.cons_append]
  rw [linesOf, Text.splitOn_eq, hpieces, List.dropLast_concat]

/-- A text that is ended consists of its pieces, each of them ended. -/
theorem flatMap_line_splitOn (cs : List Char) : (splitOn '\n' cs).flatMap line = line cs := by
  induction cs with
  | nil => rfl
  | cons c cs ih =>
    rw [splitOn]
    split
    · next hc =>
      rw [List.flatMap_cons, ih, hc]
      rfl
    · cases hcs : splitOn '\n' cs with
      | nil => exact absurd (Text.splitOn_eq '\n' cs ▸ hcs) (List.splitOn_ne_nil _ _)
      | cons piece rest =>
        rw [hcs] at ih
        exact congrArg (c :: ·) ih

/-- The lines of a printed tree. -/
def lines (t : Tree) : List (List Char) := linesOf t.print.toList

theorem notMem_of_mem_lines {t : Tree} {l : List Char} (h : l ∈ t.lines) : '\n' ∉ l :=
  Text.notMem_of_mem_splitOn (List.dropLast_subset _ h)

/-! ## Lines on branches -/

/-- The lines of a subtree on a branch: `first` before the first of them, and `other` before all
others. -/
def hang (first other : List Char) : List (List Char) → List (List Char)
  | [] => []
  | l :: ls => (first ++ l) :: ls.map (other ++ ·)

/-- The lines of several subtrees, each on its own branch. -/
def hangAll : List (List (List Char)) → List (List Char)
  | [] => []
  | ls :: rest => hang (branch rest.isEmpty) (continuation rest.isEmpty) ls ++ hangAll rest

theorem hang_append (h : ls ≠ []) (ls' : List (List Char)) :
    hang first other (ls ++ ls') = hang first other ls ++ ls'.map (other ++ ·) := by
  cases ls with
  | nil => exact absurd rfl h
  | cons l ls => simp [hang]

@[simp] theorem length_hang : (hang first other ls).length = ls.length := by
  cases ls <;> simp [hang]

@[simp] theorem length_hangAll (blocks : List (List (List Char))) :
    (hangAll blocks).length = (blocks.map List.length).sum := by
  induction blocks with
  | nil => rfl
  | cons ls rest ih => rw [hangAll, List.length_append, length_hang, ih, List.map_cons,
      List.sum_cons]

theorem mem_hang {l : List Char} (h : l ∈ hang first other ls) :
    ∃ l' ∈ ls, l = first ++ l' ∨ l = other ++ l' := by
  cases ls with
  | nil => cases h
  | cons k ls =>
    rcases List.mem_cons.mp h with rfl | h
    · exact ⟨k, List.mem_cons_self, .inl rfl⟩
    · obtain ⟨l', hl', rfl⟩ := List.mem_map.mp h
      exact ⟨l', List.mem_cons_of_mem _ hl', .inr rfl⟩

theorem newline_notMem_connectors (last : Bool) :
    '\n' ∉ branch last ∧ '\n' ∉ continuation last := by
  cases last <;> decide

/-- No line is broken by its branch. -/
theorem newline_notMem_hangAll {blocks : List (List (List Char))}
    (h : ∀ ls ∈ blocks, ∀ l ∈ ls, '\n' ∉ l) : ∀ l ∈ hangAll blocks, '\n' ∉ l := by
  induction blocks with
  | nil => exact List.forall_mem_nil _
  | cons ls rest ih =>
    obtain ⟨hls, hrest⟩ := List.forall_mem_cons.mp h
    obtain ⟨hbranch, hcontinuation⟩ := newline_notMem_connectors rest.isEmpty
    refine List.forall_mem_append.mpr ⟨fun l hl => ?_, ih hrest⟩
    obtain ⟨l', hl', rfl | rfl⟩ := mem_hang hl
    · exact List.not_mem_append hbranch (hls l' hl')
    · exact List.not_mem_append hcontinuation (hls l' hl')

/-! ## Printing -/

theorem printLabel_eq (margin : List Char) (last : Bool) (text : String) :
    printLabel margin last text =
      ((hang (branch last) (continuation last) (splitOn '\n' text.toList)).map
        (margin ++ ·)).flatMap line := by
  rw [printLabel]
  cases splitOn '\n' text.toList with
  | nil => rfl
  | cons l ls => simp [hang, List.flatMap_map]

/-- Subtrees are printed as their lines on branches, if each of them is. -/
theorem printItems_eq_of_forall
    (h : ∀ t ∈ items, ∀ margin last, printItem margin last t =
      ((hang (branch last) (continuation last) t.lines).map (margin ++ ·)).flatMap line)
    (margin : List Char) :
    printItems margin items = ((hangAll (items.map lines)).map (margin ++ ·)).flatMap line := by
  induction items with
  | nil => rfl
  | cons t rest ih =>
    obtain ⟨ht, hrest⟩ := List.forall_mem_cons.mp h
    rw [printItems, ht, ih hrest, List.map_cons, hangAll, List.map_append, List.flatMap_append,
      List.isEmpty_map]

/-- The lines of a tree, if its subtrees are printed as their lines on branches. -/
theorem lines_of_printItems {text : String}
    (h : printItems [] items = (hangAll (items.map lines)).flatMap line) :
    (node text items).lines = splitOn '\n' text.toList ++ hangAll (items.map lines) := by
  have hlines : ∀ l ∈ splitOn '\n' text.toList ++ hangAll (items.map lines), '\n' ∉ l :=
    List.forall_mem_append.mpr ⟨fun l => Text.notMem_of_mem_splitOn,
      newline_notMem_hangAll (List.forall_mem_map.mpr fun t _ l => notMem_of_mem_lines)⟩
  rw [lines, print, String.toList_ofList, h, ← flatMap_line_splitOn, ← List.flatMap_append,
    linesOf_flatMap_line hlines]

/-- A subtree behind a margin is printed as its lines on a branch, each behind the margin. -/
theorem printItem_eq (t : Tree) (margin : List Char) (last : Bool) :
    printItem margin last t =
      ((hang (branch last) (continuation last) t.lines).map (margin ++ ·)).flatMap line := by
  induction t generalizing margin last with
  | node text items ih =>
    have hitems := printItems_eq_of_forall ih
    have hne : splitOn '\n' text.toList ≠ [] :=
      Text.splitOn_eq '\n' text.toList ▸ List.splitOn_ne_nil _ _
    rw [printItem, printLabel_eq, hitems, lines_of_printItems (by simpa using hitems []),
      hang_append hne, List.map_append, List.flatMap_append, List.map_map]
    simp only [Function.comp_def, List.append_assoc]

theorem printItems_eq (items : List Tree) :
    printItems [] items = (hangAll (items.map lines)).flatMap line := by
  simpa using printItems_eq_of_forall (fun t _ => printItem_eq t) []

/-- **The lines of a tree** are those of its label and below them those of its subtrees, each on its
own branch. -/
theorem lines_node (text : String) (items : List Tree) :
    (node text items).lines = splitOn '\n' text.toList ++ hangAll (items.map lines) :=
  lines_of_printItems (printItems_eq items)

theorem length_lines_node (text : String) (items : List Tree) :
    (node text items).lines.length =
      (splitOn '\n' text.toList).length + (items.map fun t => t.lines.length).sum := by
  rw [lines_node, List.length_append, length_hangAll, List.map_map]
  rfl

/-- Every printed line is ended. -/
theorem toList_print (t : Tree) : t.print.toList = t.lines.flatMap line := by
  obtain ⟨text, items⟩ := t
  rw [lines_node, List.flatMap_append, flatMap_line_splitOn, ← printItems_eq, print,
    String.toList_ofList]

/-- All subtrees but the last hang on one kind of branch, and the last on the other. -/
theorem hangAll_concat (blocks : List (List (List Char))) (ls : List (List Char)) :
    hangAll (blocks ++ [ls]) =
      blocks.flatMap (hang (branch false) (continuation false)) ++
        hang (branch true) (continuation true) ls := by
  induction blocks with
  | nil => exact List.append_nil _
  | cons block rest ih =>
    have hempty : (rest ++ [ls]).isEmpty = false := by simp
    rw [List.cons_append, hangAll, ih, hempty, List.flatMap_cons, List.append_assoc]

/-- **Printing is compositional**: a printed tree consists of its lines, each of them ended. The
lines of a tree are those of its label and, below them, those of its subtrees in order. Of the lines
of a subtree the first stands behind a branch and every other one, be it a later line of the label or
a line further down, behind the continuation of that branch; the last subtree has its own kind. -/
theorem print_compositional :
    (∀ t : Tree, t.print.toList = t.lines.flatMap (· ++ ['\n']) ∧ ∀ l ∈ t.lines, '\n' ∉ l) ∧
    (∀ text, (node text []).lines = splitOn '\n' text.toList) ∧
    (∀ text front final, (node text (front ++ [final])).lines =
      splitOn '\n' text.toList ++
        front.flatMap (fun t => hang "├── ".toList "│   ".toList t.lines) ++
        hang "└── ".toList "    ".toList final.lines) := by
  refine ⟨fun t => ⟨toList_print t, fun _ => notMem_of_mem_lines⟩, fun text => ?_,
    fun text front final => ?_⟩
  · rw [lines_node]
    exact List.append_nil _
  · rw [lines_node, List.map_append, List.map_singleton, hangAll_concat, List.flatMap_map,
      List.append_assoc]
    simp only [branch, continuation, Bool.false_eq_true, if_false, if_true]

/-! ## Reading the lines -/

/-- The lines that stand behind a continuation. -/
def continues : List Char → Bool
  | '│' :: _ => true
  | ' ' :: _ => true
  | _ => false

theorem continues_continuation (last : Bool) (l : List Char) :
    continues (continuation last ++ l) = true := by
  cases last <;> rfl

theorem continues_branch (last : Bool) (l : List Char) : continues (branch last ++ l) = false := by
  cases last <;> rfl

theorem length_branch (last : Bool) : (branch last).length = 4 := by
  cases last <;> decide

theorem branch_injective : ∀ {last last' : Bool}, branch last = branch last' → last = last' := by
  decide

/-- A branch tells of which kind it is, and what stands behind it. -/
theorem branch_append_injective {last last' : Bool} {l l' : List Char}
    (h : branch last ++ l = branch last' ++ l') : last = last' ∧ l = l' := by
  obtain ⟨hbranch, hl⟩ := List.append_inj h (by rw [length_branch, length_branch])
  exact ⟨branch_injective hbranch, hl⟩

/-- The lines of subtrees start with a branch, if there are any. -/
theorem takeWhile_continues_hangAll {blocks : List (List (List Char))}
    (h : ∀ ls ∈ blocks, ls ≠ []) : (hangAll blocks).takeWhile continues = [] := by
  cases blocks with
  | nil => rfl
  | cons ls rest =>
    obtain ⟨l, ls, rfl⟩ := List.exists_cons_of_ne_nil (h ls List.mem_cons_self)
    rw [hangAll, hang, List.cons_append]
    exact List.takeWhile_cons_of_neg (by rw [continues_branch]; exact Bool.false_ne_true)

/-- What follows the first line of a subtree are its own other lines up to the next branch. -/
theorem takeWhile_continues {blocks : List (List (List Char))} (h : ∀ ls ∈ blocks, ls ≠ [])
    (last : Bool) (ls : List (List Char)) :
    (ls.map (continuation last ++ ·) ++ hangAll blocks).takeWhile continues =
      ls.map (continuation last ++ ·) := by
  rw [List.takeWhile_append_of_pos, takeWhile_continues_hangAll h, List.append_nil]
  intro l hl
  obtain ⟨k, -, rfl⟩ := List.mem_map.mp hl
  exact continues_continuation last k

/-- The lines on branches tell the lines of each subtree. -/
theorem hangAll_injective {xs ys : List (List (List Char))} (hxs : ∀ ls ∈ xs, ls ≠ [])
    (hys : ∀ ls ∈ ys, ls ≠ []) (h : hangAll xs = hangAll ys) : xs = ys := by
  induction xs generalizing ys with
  | nil =>
    cases ys with
    | nil => rfl
    | cons y ys =>
      obtain ⟨l, ls, rfl⟩ := List.exists_cons_of_ne_nil (hys y List.mem_cons_self)
      cases h
  | cons x xs ih =>
    obtain ⟨hx, hxs'⟩ := List.forall_mem_cons.mp hxs
    obtain ⟨l, ls, rfl⟩ := List.exists_cons_of_ne_nil hx
    cases ys with
    | nil => cases h
    | cons y ys =>
      obtain ⟨hy, hys'⟩ := List.forall_mem_cons.mp hys
      obtain ⟨k, ks, rfl⟩ := List.exists_cons_of_ne_nil hy
      obtain ⟨hfirst, hbelow⟩ := List.cons.inj h
      obtain ⟨hlast, rfl⟩ := branch_append_injective hfirst
      change ls.map (continuation xs.isEmpty ++ ·) ++ hangAll xs =
        ks.map (continuation ys.isEmpty ++ ·) ++ hangAll ys at hbelow
      rw [hlast] at hbelow
      have hmap := congrArg (List.takeWhile continues) hbelow
      rw [takeWhile_continues hxs', takeWhile_continues hys'] at hmap
      rw [hmap] at hbelow
      have hls : ls = ks := (List.map_inj_right fun _ _ => List.append_cancel_left).mp hmap
      rw [hls, ih hxs' hys' (List.append_cancel_left hbelow)]

/-- The trees whose labels have one line each. -/
inductive SingleLine : Tree → Prop
  | node {text : String} {items : List Tree} (label : '\n' ∉ text.toList)
      (subtrees : ∀ t ∈ items, SingleLine t) : SingleLine (.node text items)

theorem lines_ne_nil (t : Tree) : t.lines ≠ [] := by
  obtain ⟨text, items⟩ := t
  rw [lines_node, Text.splitOn_eq]
  exact List.append_ne_nil_of_left_ne_nil (List.splitOn_ne_nil _ _) _

/-- The lines of trees with labels of one line tell the trees. -/
theorem lines_injective {t t' : Tree} (ht : t.SingleLine) (ht' : t'.SingleLine)
    (h : t.lines = t'.lines) : t = t' := by
  induction t generalizing t' with
  | node text items ih =>
    obtain ⟨hlabel, hitems⟩ := ht
    obtain ⟨hlabel', hitems'⟩ := ht'
    rw [lines_node, lines_node, Text.splitOn_eq, Text.splitOn_eq, List.splitOn_eq_singleton hlabel,
      List.splitOn_eq_singleton hlabel'] at h
    obtain ⟨htext, hbelow⟩ := List.cons.inj h
    have hblocks : ∀ items : List Tree, ∀ ls ∈ items.map lines, ls ≠ [] := fun items =>
      List.forall_mem_map.mpr fun t _ => t.lines_ne_nil
    have hmap := hangAll_injective (hblocks _) (hblocks _) hbelow
    rw [String.toList_inj.mp htext]
    refine congrArg (node _) (List.ext_getElem (by simpa using congrArg List.length hmap) ?_)
    intro i hi hi'
    have hget := congrArg (·[i]?) hmap
    simp only [List.getElem?_map, List.getElem?_eq_getElem hi, List.getElem?_eq_getElem hi',
      Option.map_some, Option.some.injEq] at hget
    have hmem := List.getElem_mem hi
    exact ih _ hmem (hitems _ hmem) (hitems' _ (List.getElem_mem hi')) hget

/-- **The printed tree determines the tree**: two trees whose labels have one line each are printed
alike only if they are the same, also where a label looks like a branch. -/
theorem print_eq_print_iff {t t' : Tree} (ht : t.SingleLine) (ht' : t'.SingleLine) :
    t.print = t'.print ↔ t = t' :=
  ⟨fun h => lines_injective ht ht' (congrArg (fun text : String => linesOf text.toList) h), congrArg print⟩

/-- A label that imitates a branch is not taken for one. -/
theorem print_eq_print_iff_imitation :
    (node "" [leaf "└── a"]).SingleLine ∧ (node "" [node "" [leaf "a"]]).SingleLine ∧
      (node "" [leaf "└── a"]).print ≠ (node "" [node "" [leaf "a"]]).print := by
  have hleaf : ∀ {text : String}, '\n' ∉ text.toList → (leaf text).SingleLine := fun h =>
    .node h (List.forall_mem_nil _)
  have himitation : (node "" [leaf "└── a"]).SingleLine :=
    .node (by decide) (List.forall_mem_singleton.mpr (hleaf (by decide)))
  have hnested : (node "" [node "" [leaf "a"]]).SingleLine :=
    .node (by decide) (List.forall_mem_singleton.mpr
      (.node (by decide) (List.forall_mem_singleton.mpr (hleaf (by decide)))))
  refine ⟨himitation, hnested, not_congr (print_eq_print_iff himitation hnested) |>.mpr ?_⟩
  simp [leaf]

end Tree
end TokenGrammar
