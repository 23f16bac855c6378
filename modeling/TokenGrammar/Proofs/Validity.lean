import TokenGrammar.Proofs.WellFormed

/-!
# What validation decides

Validation goes through the content of every variation, also through loops that stand where none may
stand. Here its verdict is compared with conditions that speak of occurrences: an item occurs in
content at the top or inside a loop, to any depth. A grammar has no problem exactly if its start
rule is defined, every name that occurs as a reference is defined, every choice that occurs has a
candidate, and every loop is in its place.

The references to undefined rules are reported by rule, variation and name. Names are collected as
sorted lists without repetition, so the reports are in strict order, and there is one for each.

## Main definitions

* `Item.Occurs`: the occurrences of items in content.
* `Content.Mentions`: the names of rules that occur.
* `Content.LoopsInPlace`: at most one loop, which comes last, has a body, and holds no loop.
* `Grammar.undefinedRefs`: the undefined references that validation reports.
-/
namespace TokenGrammar

/-! ## Occurrences -/

/-- An item occurs in content: it is one of its items, or occurs inside one of its loops. -/
inductive Item.Occurs (i : Item) : Content → Prop
  | here {content : Content} (mem : i ∈ content) : Occurs i content
  | inside {kind : LoopKind} {body content : Content} (mem : .loop kind body ∈ content)
      (occurs : Occurs i body) : Occurs i content

/-- A name of a rule occurs in content, in an atom or in a candidate of a choice. -/
def Content.Mentions (content : Content) (name : String) : Prop :=
  ∃ i, Item.Occurs i content ∧ ∃ a ∈ i.alternatives, a.isRule = true ∧ a.name = name

mutual

/-- The number of loops that an item is made of, itself included. -/
def Item.loops : Item → Nat
  | .atom _ | .either _ | .foreign _ _ => 0
  | .loop _ body => 1 + Item.loopsAll body

/-- The number of loops at every level. -/
def Item.loopsAll : List Item → Nat
  | [] => 0
  | i :: is => i.loops + Item.loopsAll is

end

/-- The loops of content are where they may be: at most one occurs, it is the last item, it has a
body, and there is no loop inside of it. -/
structure Content.LoopsInPlace (content : Content) : Prop where
  single : Item.loopsAll content ≤ 1
  last : ∀ front kind body back, content = front ++ .loop kind body :: back → back = []
  nonempty : ∀ kind body, .loop kind body ∈ content → body ≠ []
  flat : ∀ kind body, .loop kind body ∈ content →
    ∀ inner body', ¬ Item.Occurs (.loop inner body') body

theorem Item.not_occurs_nil {i : Item} : ¬ Item.Occurs i [] := by
  rintro (⟨⟨⟩⟩ | ⟨⟨⟩, _⟩)

theorem Item.occurs_cons_iff {i j : Item} {rest : Content} :
    Item.Occurs i (j :: rest) ↔
      i = j ∨ (∃ kind body, j = .loop kind body ∧ Item.Occurs i body) ∨ Item.Occurs i rest := by
  constructor
  · rintro (hmem | @⟨kind, body, _, hmem, hbody⟩)
    · rcases List.mem_cons.mp hmem with rfl | hmem
      · exact .inl rfl
      · exact .inr (.inr (.here hmem))
    · rcases List.mem_cons.mp hmem with rfl | hmem
      · exact .inr (.inl ⟨kind, body, rfl, hbody⟩)
      · exact .inr (.inr (.inside hmem hbody))
  · rintro (rfl | ⟨kind, body, rfl, hbody⟩ | hrest)
    · exact .here List.mem_cons_self
    · exact .inside List.mem_cons_self hbody
    · cases hrest with
      | here hmem => exact .here (List.mem_cons_of_mem _ hmem)
      | inside hmem hbody => exact .inside (List.mem_cons_of_mem _ hmem) hbody

/-- Among plain items, what occurs is one of them. -/
theorem Item.Occurs.mem {i : Item} {content : Content} (h : Item.Occurs i content)
    (hp : ∀ j ∈ content, j.Plain) : i ∈ content := by
  cases h with
  | here hmem => exact hmem
  | inside hmem _ => exact (hp _ hmem).elim

theorem Item.loopsAll_eq_zero {content : Content} (hp : ∀ i ∈ content, i.Plain) :
    Item.loopsAll content = 0 := by
  induction content with
  | nil => rfl
  | cons i rest ih =>
    obtain ⟨hi, hrest⟩ := List.forall_mem_cons.mp hp
    rw [Item.loopsAll, ih hrest]
    cases i with
    | atom _ | either _ | foreign _ _ => rfl
    | loop kind body => exact hi.elim

/-! ## The shape of content -/

namespace Content

theorem WellShaped.candidates_ne_nil {content : Content} (h : content.WellShaped) {e : Either}
    (he : Item.Occurs (.either e) content) : e.candidates ≠ [] := by
  induction h with
  | nil => exact absurd he Item.not_occurs_nil
  | @loop kind body _ plain =>
    rcases Item.occurs_cons_iff.mp he with heq | ⟨_, _, heq, hbody⟩ | hrest
    · cases heq
    · cases heq
      exact plain _ (hbody.mem plain)
    · exact absurd hrest Item.not_occurs_nil
  | @cons i rest plain _ ih =>
    rcases Item.occurs_cons_iff.mp he with rfl | ⟨_, _, rfl, _⟩ | hrest
    · exact plain
    · exact plain.elim
    · exact ih hrest

theorem WellShaped.loopsInPlace {content : Content} (h : content.WellShaped) :
    content.LoopsInPlace := by
  induction h with
  | nil => exact ⟨Nat.zero_le _, by simp, by simp, by simp⟩
  | @loop kind body nonempty plain =>
    refine ⟨?_, ?_, ?_, ?_⟩
    · simp [Item.loopsAll, Item.loops, Item.loopsAll_eq_zero plain]
    · intro front kind' body' back heq
      cases front with
      | nil => exact (List.cons.inj heq).2.symm
      | cons _ _ => simp at heq
    · intro kind' body' hmem
      cases List.mem_singleton.mp hmem
      exact nonempty
    · intro kind' body' hmem inner body'' hoccurs
      cases List.mem_singleton.mp hmem
      exact plain _ (hoccurs.mem plain)
  | @cons i rest plain _ ih =>
    have hmem : ∀ {kind body}, .loop kind body ∈ i :: rest → .loop kind body ∈ rest := by
      intro kind body hmem
      rcases List.mem_cons.mp hmem with heq | hmem
      · exact absurd heq.symm (plain.ne_loop kind body)
      · exact hmem
    refine ⟨?_, ?_, fun _ _ h => ih.nonempty _ _ (hmem h), fun _ _ h => ih.flat _ _ (hmem h)⟩
    · have hzero := Item.loopsAll_eq_zero (List.forall_mem_singleton.mpr plain)
      have hle := ih.single
      simp only [Item.loopsAll] at hzero ⊢
      omega
    · intro front kind body back heq
      cases front with
      | nil => exact absurd (List.cons.inj heq).1 (plain.ne_loop kind body)
      | cons _ front => exact ih.last front kind body back (List.cons.inj heq).2

/-- Content has the right shape exactly if its choices and its loops are as they should be. -/
theorem wellShaped_iff {content : Content} :
    content.WellShaped ↔
      (∀ e, Item.Occurs (.either e) content → e.candidates ≠ []) ∧ content.LoopsInPlace := by
  refine ⟨fun h => ⟨fun _ => h.candidates_ne_nil, h.loopsInPlace⟩, ?_⟩
  rintro ⟨hchoices, hloops⟩
  induction content with
  | nil => exact .nil
  | cons i rest ih =>
    have htail : WellShaped rest := by
      refine ih (fun e he => hchoices e (Item.occurs_cons_iff.mpr (.inr (.inr he)))) ⟨?_, ?_, ?_, ?_⟩
      · have hle := hloops.single
        rw [Item.loopsAll] at hle
        omega
      · intro front kind body back heq
        exact hloops.last (i :: front) kind body back (congrArg (i :: ·) heq)
      · exact fun kind body hmem => hloops.nonempty kind body (List.mem_cons_of_mem _ hmem)
      · exact fun kind body hmem => hloops.flat kind body (List.mem_cons_of_mem _ hmem)
    cases i with
    | atom a => exact .cons trivial htail
    | either e => exact .cons (hchoices e (.here List.mem_cons_self)) htail
    | foreign type text => exact .cons trivial htail
    | loop kind body =>
      cases hloops.last [] kind body rest rfl
      refine .loop (hloops.nonempty kind body List.mem_cons_self) fun j hj => ?_
      cases j with
      | atom a => exact trivial
      | either e => exact hchoices e (.inside List.mem_cons_self (.here hj))
      | foreign type text => exact trivial
      | loop inner body' => exact hloops.flat kind body List.mem_cons_self inner body' (.here hj)

/-! ## References -/

theorem mentions_cons_iff {i : Item} {rest : Content} {name : String} :
    Mentions (i :: rest) name ↔ Mentions [i] name ∨ Mentions rest name := by
  simp only [Mentions, Item.occurs_cons_iff, Item.not_occurs_nil, or_false]
  constructor
  · rintro ⟨j, hj | hj | hj, ha⟩
    · exact .inl ⟨j, .inl hj, ha⟩
    · exact .inl ⟨j, .inr hj, ha⟩
    · exact .inr ⟨j, hj, ha⟩
  · rintro (⟨j, hj | hj, ha⟩ | ⟨j, hj, ha⟩)
    · exact ⟨j, .inl hj, ha⟩
    · exact ⟨j, .inr (.inl hj), ha⟩
    · exact ⟨j, .inr (.inr hj), ha⟩

/-- A single item that is no loop mentions the rules among its alternatives. -/
theorem mentions_singleton_iff {i : Item} {name : String} (h : ∀ kind body, i ≠ .loop kind body) :
    Mentions [i] name ↔ ∃ a ∈ i.alternatives, a.isRule = true ∧ a.name = name := by
  simp [Mentions, Item.occurs_cons_iff, Item.not_occurs_nil, h]

/-- A loop mentions what its body mentions. -/
theorem mentions_loop_iff {kind : LoopKind} {body : Content} {name : String} :
    Mentions [.loop kind body] name ↔ Mentions body name := by
  constructor
  · rintro ⟨i, hi, a, ha, hname⟩
    rcases Item.occurs_cons_iff.mp hi with rfl | ⟨_, _, heq, hbody⟩ | hrest
    · cases ha
    · cases heq
      exact ⟨i, hbody, a, ha, hname⟩
    · exact absurd hrest Item.not_occurs_nil
  · rintro ⟨i, hi, ha⟩
    exact ⟨i, .inside List.mem_cons_self hi, ha⟩

end Content

mutual

theorem Item.mem_refs_iff {name : String} : (i : Item) → (name ∈ i.refs ↔ Content.Mentions [i] name)
  | .atom a => by
    rw [Content.mentions_singleton_iff (by simp), Item.refs, Item.alternatives]
    cases hrule : a.isRule <;> simp [hrule, eq_comm (a := name)]
  | .either e => by
    rw [Content.mentions_singleton_iff (by simp), Item.refs, Item.alternatives]
    simp [and_assoc]
  | .loop kind body => by
    rw [Content.mentions_loop_iff, Item.refs]
    exact Item.mem_refsAll_iff body
  | .foreign type text => by
    rw [Content.mentions_singleton_iff (by simp), Item.refs, Item.alternatives]
    simp

theorem Item.mem_refsAll_iff {name : String} :
    (content : Content) → (name ∈ Item.refsAll content ↔ content.Mentions name)
  | [] => by simp [Item.refsAll, Content.Mentions, Item.not_occurs_nil]
  | i :: rest => by
    rw [Item.refsAll, List.mem_append, Item.mem_refs_iff i, Item.mem_refsAll_iff rest,
      ← Content.mentions_cons_iff]

end

/-- The references of content are the names that occur in it. -/
theorem Content.mem_refs_iff {content : Content} {name : String} :
    name ∈ content.refs ↔ content.Mentions name :=
  Item.mem_refsAll_iff content

/-! ## Undefined references -/

theorem insertName_pairwise {name : String} {names : List String} (h : names.Pairwise (· < ·)) :
    (insertName name names).Pairwise (· < ·) := by
  induction names with
  | nil => exact List.pairwise_singleton _ _
  | cons n ns ih =>
    obtain ⟨hn, hns⟩ := List.pairwise_cons.mp h
    rw [insertName]
    split
    · exact h
    · next hne =>
      split
      · next hlt =>
        refine List.pairwise_cons.mpr ⟨fun a ha => ?_, h⟩
        rcases List.mem_cons.mp ha with rfl | ha
        · exact hlt
        · exact String.lt_trans hlt (hn a ha)
      · next hge =>
        have hgt : n < name := Decidable.byContradiction fun hle =>
          hne (String.le_antisymm (String.not_lt.mp hle) (String.not_lt.mp hge))
        refine List.pairwise_cons.mpr ⟨fun a ha => ?_, ih hns⟩
        rcases mem_insertName.mp ha with rfl | ha
        · exact hgt
        · exact hn a ha

/-- Sorted names are in strict order, and so each of them is there once. -/
theorem sortedNames_pairwise (names : List String) : (sortedNames names).Pairwise (· < ·) := by
  induction names with
  | nil => exact .nil
  | cons n ns ih => exact insertName_pairwise ih

/-- The rule, the number of the variation and the undefined name, if an error reports one. -/
def ConfigError.undefinedRef? (e : ConfigError) : Option (String × Nat × String) :=
  match e.fault with
  | .undefinedRef variation name => some (e.rule, variation, name)
  | _ => none

/-- The order of reports: by rule, then by variation, then by name. -/
def ReportedBefore (a b : String × Nat × String) : Prop :=
  a.1 < b.1 ∨ a.1 = b.1 ∧ (a.2.1 < b.2.1 ∨ a.2.1 = b.2.1 ∧ a.2.2 < b.2.2)

mutual

/-- The shape of an item has nothing to do with undefined names. -/
theorem Item.undefinedRef?_shapeErrors {rule : String} {n : Nat} {inLoop last : Bool} :
    (i : Item) → (i.shapeErrors rule n inLoop last).filterMap ConfigError.undefinedRef? = []
  | .atom a => rfl
  | .foreign type text => rfl
  | .either e => by
    rw [Item.shapeErrors]
    split <;> rfl
  | .loop kind body => by
    rw [Item.shapeErrors, List.filterMap_append, Item.undefinedRef?_allShapeErrors body,
      loopErrors]
    split
    · rfl
    · split
      · rfl
      · split <;> rfl

theorem Item.undefinedRef?_allShapeErrors {rule : String} {n : Nat} {inLoop : Bool} :
    (content : Content) →
      (Item.allShapeErrors rule n inLoop content).filterMap ConfigError.undefinedRef? = []
  | [] => rfl
  | i :: rest => by
    rw [Item.allShapeErrors, List.filterMap_append, Item.undefinedRef?_shapeErrors i,
      Item.undefinedRef?_allShapeErrors rest, List.append_nil]

end

/-- The undefined names that a variation refers to, in order. -/
def Variation.undefinedNames (g : Grammar) (v : Variation) : List String :=
  (sortedNames v.content.refs).filter (!g.has ·)

theorem Variation.undefinedRef?_problems (g : Grammar) (rule : String) (n : Nat) (v : Variation) :
    (v.problems g rule n).filterMap ConfigError.undefinedRef? =
      (v.undefinedNames g).map fun name => (rule, n, name) := by
  rw [problems, List.filterMap_append, Item.undefinedRef?_allShapeErrors, List.nil_append,
    List.filterMap_map, undefinedNames]
  exact congrFun (List.filterMap_eq_map (f := fun name => (rule, n, name))) _

namespace Grammar

variable {g : Grammar}

/-- The references to undefined rules that validation reports, in the order of the reports. -/
def undefinedRefs (g : Grammar) : List (String × Nat × String) :=
  g.problems.filterMap ConfigError.undefinedRef?

theorem undefinedRef?_variationProblems (rule : String) (n : Nat) (vs : List Variation) :
    (g.variationProblems rule n vs).filterMap ConfigError.undefinedRef? =
      (vs.zipIdx n).flatMap fun p => (p.1.undefinedNames g).map fun name => (rule, p.2, name) := by
  induction vs generalizing n with
  | nil => rfl
  | cons v vs ih =>
    rw [variationProblems, List.filterMap_append, Variation.undefinedRef?_problems, ih,
      List.zipIdx_cons, List.flatMap_cons]

theorem undefinedRefs_eq (g : Grammar) :
    g.undefinedRefs = g.ruleNames.flatMap fun rule =>
      (g.variationsOf rule).zipIdx.flatMap fun p =>
        (p.1.undefinedNames g).map fun name => (rule, p.2, name) := by
  have hstart : g.startProblems.filterMap ConfigError.undefinedRef? = [] := by
    rw [startProblems]
    split
    · rfl
    · split <;> rfl
  rw [undefinedRefs, problems, List.filterMap_append, hstart, List.nil_append,
    List.filterMap_flatMap]
  simp only [ruleProblems, undefinedRef?_variationProblems]

/-- A variation counts as referring to an undefined name if the name occurs in its content. -/
theorem mem_undefinedNames_iff {v : Variation} {name : String} :
    name ∈ v.undefinedNames g ↔ v.content.Mentions name ∧ g.has name = false := by
  rw [Variation.undefinedNames, List.mem_filter, mem_sortedNames, Content.mem_refs_iff,
    Bool.not_eq_true']

theorem mem_undefinedRefs_iff {rule name : String} {index : Nat} :
    (rule, index, name) ∈ g.undefinedRefs ↔
      ∃ v, (g.variationsOf rule)[index]? = some v ∧ v.content.Mentions name ∧
        g.has name = false := by
  simp only [undefinedRefs_eq, List.mem_flatMap, List.mem_map, Prod.mk.injEq]
  constructor
  · rintro ⟨_, _, ⟨v, _⟩, hv, _, hname, rfl, rfl, rfl⟩
    exact ⟨v, List.mk_mem_zipIdx_iff_getElem?.mp hv, mem_undefinedNames_iff.mp hname⟩
  · rintro ⟨v, hv, hname⟩
    have hdefined : g.has rule = true := has_iff.mpr (List.ne_nil_of_mem (List.mem_of_getElem? hv))
    exact ⟨rule, mem_ruleNames.mpr hdefined, (v, index), List.mk_mem_zipIdx_iff_getElem?.mpr hv,
      name, mem_undefinedNames_iff.mpr hname, rfl, rfl, rfl⟩

/-- The reports are in strict order: rules, variations and names each come in ascending order. -/
theorem undefinedRefs_pairwise (g : Grammar) : g.undefinedRefs.Pairwise ReportedBefore := by
  rw [undefinedRefs_eq, List.pairwise_flatMap]
  constructor
  · intro rule _
    rw [List.pairwise_flatMap]
    constructor
    · rintro ⟨v, index⟩ _
      have hnames : (v.undefinedNames g).Pairwise (· < ·) := (sortedNames_pairwise _).filter _
      exact List.pairwise_map.mpr (hnames.imp fun h => .inr ⟨rfl, .inr ⟨rfl, h⟩⟩)
    · have hindices : ((g.variationsOf rule).zipIdx.map Prod.snd).Pairwise (· < ·) := by
        rw [List.zipIdx_map_snd]
        exact List.pairwise_lt_range' 1
      refine (List.pairwise_map.mp hindices).imp fun {p q} hlt x hx y hy => ?_
      obtain ⟨_, _, rfl⟩ := List.mem_map.mp hx
      obtain ⟨_, _, rfl⟩ := List.mem_map.mp hy
      exact .inr ⟨rfl, .inl hlt⟩
  · refine (sortedNames_pairwise _).imp fun {a b} hlt x hx y hy => ?_
    obtain ⟨_, _, hx⟩ := List.mem_flatMap.mp hx
    obtain ⟨_, _, rfl⟩ := List.mem_map.mp hx
    obtain ⟨_, _, hy⟩ := List.mem_flatMap.mp hy
    obtain ⟨_, _, rfl⟩ := List.mem_map.mp hy
    exact .inl hlt

/-- **Validation decides well-formedness**: there is no problem exactly if the start rule is named
and defined, every name of a rule that occurs in a variation has a variation, every choice that
occurs has a candidate, and the loops of every variation are in their place. The undefined references
that are reported are those that occur, also in loops that are out of place, each once for its rule,
variation and name, and in this order. -/
theorem problems_decide (g : Grammar) :
    (g.problems = [] ↔
      g.start ≠ "" ∧ g.has g.start = true ∧
      (∀ v ∈ g.variations, ∀ name, v.content.Mentions name → g.variationsOf name ≠ []) ∧
      (∀ v ∈ g.variations, ∀ e, Item.Occurs (.either e) v.content → e.candidates ≠ []) ∧
      ∀ v ∈ g.variations, v.content.LoopsInPlace) ∧
    g.undefinedRefs.Pairwise ReportedBefore ∧
    ∀ rule index name, (rule, index, name) ∈ g.undefinedRefs ↔
      ∃ v, (g.variationsOf rule)[index]? = some v ∧ v.content.Mentions name ∧
        g.has name = false := by
  refine ⟨?_, g.undefinedRefs_pairwise, fun _ _ _ => mem_undefinedRefs_iff⟩
  rw [problems_eq_nil_iff]
  constructor
  · intro hg
    refine ⟨hg.start_nonempty, hg.start_defined, ?_, ?_, ?_⟩
    · intro v hv name hname
      exact has_iff.mp (hg.refs_defined v hv name (Content.mem_refs_iff.mpr hname))
    · exact fun v hv e he => (hg.shaped v hv).candidates_ne_nil he
    · exact fun v hv => (hg.shaped v hv).loopsInPlace
  · rintro ⟨hstart, hdefined, hrefs, hchoices, hloops⟩
    refine ⟨hstart, hdefined, ?_, ?_⟩
    · exact fun v hv => Content.wellShaped_iff.mpr ⟨hchoices v hv, hloops v hv⟩
    · intro v hv name hname
      exact has_iff.mpr (hrefs v hv name (Content.mem_refs_iff.mp hname))

-- The names are found in a loop that is not last and in the loop inside of it, each of them once.
example : (⟨"a", [], [⟨"a", [.loop .block [.loop .binary [.atom (.rule "z")], .atom (.rule "b")],
      .atom (.rule "z")], .pass, none, false⟩]⟩ : Grammar).undefinedRefs =
    [("a", 0, "b"), ("a", 0, "z")] := by
  decide

end Grammar
end TokenGrammar
