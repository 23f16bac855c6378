import TokenGrammar.Builder

/-!
# Well-formed grammars

A grammar is well formed if its start rule exists, every rule that it refers to exists, and every
variation has a shape that can be evaluated: plain items, with at most one loop, which comes last
and goes over plain items. Validation finds no problem exactly in the well-formed grammars, so every
grammar that a builder gives is well formed. A builder also refuses unusable strategies, which is a
property of its calls and not of the grammar that they leave behind.

## Main definitions

* `Item.Plain`, `Content.WellShaped`: the shape of content.
* `Content.items`: the items of content at both levels.
* `Item.alternatives`: the atoms by which an item may be matched.
* `Grammar.WellFormed`: what validation asks for.
* `Grammar.Built`: the grammars that some sequence of calls gives.
-/
namespace TokenGrammar

/-! ## The shape of content -/

/-- An item that is evaluated by itself: no loop, and no choice without a candidate. -/
def Item.Plain : Item → Prop
  | .atom _ | .foreign _ _ => True
  | .either e => e.candidates ≠ []
  | .loop _ _ => False

theorem Item.Plain.ne_loop {i : Item} (h : i.Plain) (kind : LoopKind) (body : Content) :
    i ≠ .loop kind body := by
  rintro rfl
  exact h

/-- Plain items one after the other, and at the end possibly a loop over plain items. -/
inductive Content.WellShaped : Content → Prop
  | nil : WellShaped []
  | loop {kind : LoopKind} {body : Content} (nonempty : body ≠ [])
      (plain : ∀ i ∈ body, i.Plain) : WellShaped [.loop kind body]
  | cons {i : Item} {rest : Content} (plain : i.Plain) (shaped : WellShaped rest) :
      WellShaped (i :: rest)

/-- In front of a plain item or of nothing, the shape is decided by what follows. -/
theorem Content.wellShaped_cons_iff {i : Item} {rest : Content}
    (h : ∀ kind body, i ≠ .loop kind body) :
    WellShaped (i :: rest) ↔ i.Plain ∧ WellShaped rest := by
  constructor
  · intro hs
    cases hs with
    | loop _ _ => exact absurd rfl (h _ _)
    | cons hp hr => exact ⟨hp, hr⟩
  · rintro ⟨hp, hr⟩
    exact .cons hp hr

theorem Content.wellShaped_loop_iff {kind : LoopKind} {body rest : Content} :
    WellShaped (.loop kind body :: rest) ↔ rest = [] ∧ body ≠ [] ∧ ∀ i ∈ body, i.Plain := by
  constructor
  · intro hs
    cases hs with
    | loop hne hp => exact ⟨rfl, hne, hp⟩
    | cons hp _ => exact hp.elim
  · rintro ⟨rfl, hne, hp⟩
    exact .loop hne hp

/-- Inside a loop, the items without errors are the plain ones. -/
theorem Item.allShapeErrors_inLoop_eq_nil_iff {rule : String} {n : Nat} {body : Content} :
    Item.allShapeErrors rule n true body = [] ↔ ∀ i ∈ body, i.Plain := by
  induction body with
  | nil => simp [allShapeErrors]
  | cons i rest ih =>
    rw [allShapeErrors, List.append_eq_nil_iff, ih, List.forall_mem_cons]
    refine and_congr_left fun _ => ?_
    cases i <;> simp [shapeErrors, Plain, loopErrors]

theorem Item.allShapeErrors_eq_nil_iff {rule : String} {n : Nat} {content : Content} :
    Item.allShapeErrors rule n false content = [] ↔ content.WellShaped := by
  induction content with
  | nil => simp [allShapeErrors, Content.WellShaped.nil]
  | cons i rest ih =>
    rw [allShapeErrors, List.append_eq_nil_iff, ih]
    cases i with
    | atom a => simp [shapeErrors, Content.wellShaped_cons_iff, Plain]
    | either e => simp [shapeErrors, Content.wellShaped_cons_iff, Plain]
    | foreign type text => simp [shapeErrors, Content.wellShaped_cons_iff, Plain]
    | loop kind body =>
      rw [shapeErrors, List.append_eq_nil_iff, allShapeErrors_inLoop_eq_nil_iff,
        Content.wellShaped_loop_iff]
      cases rest <;> simp [loopErrors, Content.WellShaped.nil]

/-- The atoms by which an item may be matched: itself, or one of its candidates. -/
def Item.alternatives : Item → List Atom
  | .atom a => [a]
  | .either e => e.candidates
  | .loop _ _ | .foreign _ _ => []

/-- The items of content, those inside its loops in place of the loops. -/
def Content.items : Content → List Item
  | [] => []
  | .loop _ body :: rest => body ++ items rest
  | i :: rest => i :: items rest

theorem Content.items_cons {i : Item} {rest : Content} (h : ∀ kind body, i ≠ .loop kind body) :
    Content.items (i :: rest) = i :: Content.items rest := by
  rw [Content.items]
  exact h

theorem Content.items_append (xs ys : Content) :
    Content.items (xs ++ ys) = Content.items xs ++ Content.items ys := by
  fun_induction Content.items xs with
  | case1 => rfl
  | case2 kind body rest ih =>
    rw [List.cons_append, Content.items, ih, List.append_assoc]
  | case3 i rest hloop ih =>
    rw [List.cons_append, Content.items_cons hloop, ih, List.cons_append]

/-- The references of the items of content are references of the content. -/
theorem Content.refs_of_mem_items {content : Content} {item : Item} (h : item ∈ content.items) :
    item.refs ⊆ content.refs := by
  have hbody : ∀ {body : List Item}, item ∈ body → item.refs ⊆ Item.refsAll body := by
    intro body hmem
    induction body with
    | nil => cases hmem
    | cons i is ih =>
      rw [Item.refsAll]
      rcases List.mem_cons.mp hmem with rfl | hmem
      · exact List.subset_append_left _ _
      · exact List.subset_append_of_subset_right _ (ih hmem)
  fun_induction Content.items content with
  | case1 => cases h
  | case2 kind body rest ih =>
    rw [Content.refs, Item.refsAll, Item.refs]
    rcases List.mem_append.mp h with hmem | hmem
    · exact List.subset_append_of_subset_left _ (hbody hmem)
    · exact List.subset_append_of_subset_right _ (ih hmem)
  | case3 i rest hloop ih =>
    rw [Content.refs, Item.refsAll]
    rcases List.mem_cons.mp h with rfl | hmem
    · exact List.subset_append_left _ _
    · exact List.subset_append_of_subset_right _ (ih hmem)

theorem Content.WellShaped.plain_of_mem_items {content : Content} (h : content.WellShaped) :
    ∀ i ∈ content.items, i.Plain := by
  induction h with
  | nil => exact fun i hi => absurd hi List.not_mem_nil
  | loop _ plain =>
    intro i hi
    rw [items, items, List.append_nil] at hi
    exact plain i hi
  | @cons i rest plain _ ih =>
    rw [Content.items_cons plain.ne_loop]
    exact List.forall_mem_cons.mpr ⟨plain, ih⟩

/-- All items but the last are plain, since a loop comes last. -/
theorem Content.WellShaped.plain_of_append {front back : Content} {i : Item}
    (h : Content.WellShaped (front ++ i :: back)) : ∀ j ∈ front, j.Plain := by
  induction front with
  | nil => exact nofun
  | cons j rest ih =>
    rw [List.cons_append] at h
    cases j with
    | loop kind body => exact absurd (wellShaped_loop_iff.mp h).1 (by simp)
    | _ =>
      obtain ⟨plain, shaped⟩ := (wellShaped_cons_iff (by simp)).mp h
      exact List.forall_mem_cons.mpr ⟨plain, ih shaped⟩

/-! ## Grammars without problems -/

/-- What a grammar has to satisfy before it can be used. -/
structure Grammar.WellFormed (g : Grammar) : Prop where
  start_nonempty : g.start ≠ ""
  start_defined : g.has g.start = true
  shaped : ∀ v ∈ g.variations, v.content.WellShaped
  refs_defined : ∀ v ∈ g.variations, ∀ name ∈ v.content.refs, g.has name = true

theorem Variation.problems_eq_nil_iff {g : Grammar} {rule : String} {n : Nat} {v : Variation} :
    v.problems g rule n = [] ↔
      v.content.WellShaped ∧ ∀ name ∈ v.content.refs, g.has name = true := by
  rw [problems, List.append_eq_nil_iff, Item.allShapeErrors_eq_nil_iff, List.map_eq_nil_iff,
    List.filter_eq_nil_iff]
  simp

namespace Grammar

variable {g : Grammar}

theorem variationProblems_eq_nil_iff {rule : String} {n : Nat} {vs : List Variation} :
    g.variationProblems rule n vs = [] ↔
      ∀ v ∈ vs, v.content.WellShaped ∧ ∀ name ∈ v.content.refs, g.has name = true := by
  induction vs generalizing n with
  | nil => simp [variationProblems]
  | cons v vs ih =>
    rw [variationProblems, List.append_eq_nil_iff, Variation.problems_eq_nil_iff, ih,
      List.forall_mem_cons]

/-- Items that can be evaluated: they are plain, and the rules that they refer to are defined. -/
def Resolves (g : Grammar) (items : List Item) : Prop :=
  ∀ i ∈ items, i.Plain ∧ ∀ name ∈ i.refs, g.has name = true

theorem WellFormed.resolves (hg : g.WellFormed) {v : Variation} (hv : v ∈ g.variations) :
    g.Resolves v.content.items :=
  fun i hi => ⟨(hg.shaped v hv).plain_of_mem_items i hi,
    fun name hname => hg.refs_defined v hv name (Content.refs_of_mem_items hi hname)⟩

theorem mem_variationsOf {rule : String} {v : Variation} :
    v ∈ g.variationsOf rule ↔ v ∈ g.variations ∧ v.rule = rule := by
  simp [variationsOf]

/-- A variation defines its rule. -/
theorem has_rule {v : Variation} (hv : v ∈ g.variations) : g.has v.rule = true := by
  rw [has, List.any_eq_true]
  exact ⟨v, hv, by simp⟩

theorem startProblems_eq_nil_iff :
    g.startProblems = [] ↔ g.start ≠ "" ∧ g.has g.start = true := by
  rw [startProblems]
  by_cases hs : g.start = "" <;> simp [hs]

/-- Validation accepts exactly the well-formed grammars. -/
theorem problems_eq_nil_iff : g.problems = [] ↔ g.WellFormed := by
  rw [problems, List.append_eq_nil_iff, startProblems_eq_nil_iff, List.flatMap_eq_nil_iff]
  simp only [ruleProblems, variationProblems_eq_nil_iff]
  constructor
  · rintro ⟨⟨hne, hdef⟩, hall⟩
    have hv : ∀ v ∈ g.variations, v.content.WellShaped ∧
        ∀ name ∈ v.content.refs, g.has name = true := by
      intro v hv
      exact hall v.rule (mem_ruleNames.mpr (has_rule hv)) v (mem_variationsOf.mpr ⟨hv, rfl⟩)
    exact ⟨hne, hdef, fun v h => (hv v h).1, fun v h => (hv v h).2⟩
  · intro hw
    refine ⟨⟨hw.start_nonempty, hw.start_defined⟩, ?_⟩
    intro rule _ v hv
    have hmem : v ∈ g.variations := (mem_variationsOf.mp hv).1
    exact ⟨hw.shaped v hmem, hw.refs_defined v hmem⟩

end Grammar

/-! ## Built grammars -/

/-- A grammar that a builder gives after some sequence of calls. -/
def Grammar.Built (g : Grammar) : Prop :=
  ∃ steps : List Step, (Builder.empty.run steps).build = .ok g

namespace Builder

theorem build_eq_ok_iff {b : Builder} {g : Grammar} :
    b.build = .ok g ↔ b.problems = [] ∧ b.grammar = g := by
  rw [build]
  by_cases h : b.problems = [] <;> simp [h]

/-- Every committed variation has a strategy that may be used. -/
def Usable (b : Builder) : Prop := ∀ v ∈ b.variations, v.strategy.fault? = none

theorem Usable.of_variations {b b' : Builder} (h : b.Usable) (heq : b'.variations = b.variations) :
    b'.Usable := by
  rw [Usable, heq]
  exact h

/-- A call on an open chain commits nothing. -/
theorem variations_onOpen {b : Builder} {n : Nat} {operation : Operation} {change : Chain → Builder}
    (h : ∀ c, (change c).variations = b.variations) :
    (b.onOpen n operation change).variations = b.variations := by
  rw [onOpen]
  split
  · rfl
  · split
    · rfl
    · exact h _

theorem Usable.commit {b : Builder} {c : Chain} {s : Strategy} (h : b.Usable)
    (hs : s.fault? = none) :
    (b.commit (c.toVariation s)).Usable := by
  intro v hv
  simp only [Builder.commit, List.mem_append, List.mem_singleton] at hv
  rcases hv with hv | rfl
  · exact h v hv
  · exact hs

/-- The finalizer is the only call that commits, and it looks at the strategy first. -/
theorem Usable.finish {b : Builder} {n : Nat} {strategy : Option Strategy} (h : b.Usable) :
    (b.finish n strategy).Usable := by
  rw [Builder.finish]
  split
  · exact h
  · split
    · exact h.of_variations rfl
    · split
      · exact h.of_variations rfl
      · split
        · exact h.of_variations rfl
        · next hs => exact Usable.commit (h.of_variations rfl) hs

theorem Usable.apply {b : Builder} (h : b.Usable) (step : Step) : (b.apply step).Usable := by
  cases step with
  | rule name =>
    refine h.of_variations ?_
    simp only [Builder.apply, openChain]
    split <;> rfl
  | extend n extension parts =>
    refine h.of_variations (variations_onOpen fun c => ?_)
    split <;> rfl
  | ignoring n parts =>
    refine h.of_variations (variations_onOpen fun c => ?_)
    split <;> rfl
  | preventRollback n => exact h.of_variations (variations_onOpen fun _ => rfl)
  | finish n strategy => exact h.finish
  | ignoreGlobally parts =>
    refine h.of_variations ?_
    simp only [Builder.apply, ignoreGlobally]
    split <;> rfl
  | startFrom rule => exact h.of_variations rfl

theorem Usable.run {b : Builder} (h : b.Usable) (steps : List Step) : (b.run steps).Usable := by
  induction steps generalizing b with
  | nil => exact h
  | cons step steps ih => exact ih (h.apply step)

end Builder

namespace Grammar.Built

variable {g : Grammar}

theorem wellFormed (h : g.Built) : g.WellFormed := by
  obtain ⟨steps, hb⟩ := h
  obtain ⟨hp, rfl⟩ := Builder.build_eq_ok_iff.mp hb
  exact problems_eq_nil_iff.mp (List.append_eq_nil_iff.mp hp).2

/-- The strategies of a built grammar are those that passed the finalizers. -/
theorem strategy_usable (h : g.Built) {v : Variation} (hv : v ∈ g.variations) :
    v.strategy.fault? = none := by
  obtain ⟨steps, hb⟩ := h
  obtain ⟨_, rfl⟩ := Builder.build_eq_ok_iff.mp hb
  have hempty : Builder.empty.Usable := fun v hv => absurd hv List.not_mem_nil
  exact hempty.run steps v hv

end Grammar.Built

/-! ## Lists of sums

A small grammar with both kinds of loops, a choice, trivia and a variation that keeps its trivia. -/

/-- Sums separated by semicolons, at least two of them. -/
def listVariation : Variation :=
  ⟨"list", [.atom (.rule "sum"),
      .loop .block [.atom (Atom.token "SEMI").skipped, .atom (.rule "sum")]],
    .pass, none, true⟩

/-- An integer followed by operators with their operands. -/
def sumVariation : Variation :=
  ⟨"sum", [.atom (.token "INT"),
      .loop .binary [.either ⟨[.token "ADD", .token "SUB"], none⟩, .atom (.token "INT")]],
    .select 0, none, false⟩

/-- A single integer. -/
def integerVariation : Variation := ⟨"sum", [.atom (.token "INT")], .pass, none, false⟩

/-- Lists of sums in which line ends are trivia. -/
def sums : Grammar :=
  ⟨"list", [.token "NL"], [listVariation, sumVariation, integerVariation]⟩

/-- The steps of a chain that is made of ready-made items. -/
def variationSteps (number : Nat) (v : Variation) : List Step :=
  Builder.chainSteps number v.rule (some (v.content.map .item)) none none none v.preventRollback
    (some v.strategy)

/-- The calls that make this grammar. -/
def sumsSteps : List Step :=
  [.ignoreGlobally [.item (.atom (.token "NL"))], .startFrom "list"] ++
    variationSteps 0 listVariation ++ variationSteps 1 sumVariation ++
    variationSteps 2 integerVariation

theorem sums_built : sums.Built := ⟨sumsSteps, rfl⟩

/-- A list of two integers with trivia in front, in between and at the end. -/
def shortList : List Token :=
  [.bare "NL", .bare "INT", .bare "NL", .bare "SEMI", .bare "INT", .bare "NL"]

/-- A sum whose second operator has no operand. -/
def unfinishedSum : List Token := [.bare "INT", .bare "ADD", .bare "INT", .bare "NL", .bare "ADD"]

end TokenGrammar
