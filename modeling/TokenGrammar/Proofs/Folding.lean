import TokenGrammar.Proofs.Simulation
import TokenGrammar.Strategy.Node

/-!
# Left-nested trees

A variation that folds and ends in a binary loop builds its tree from the left: the operands before
the loop are the start of the tree, and every pass puts one node on top of it. The strategy is
applied more often than there are passes: at the entry of the loop, before every later pass, also
before the one that then fails, and once more at the end. What carries the proof is that folding a
value alone gives this value, so an application to data that was folded already changes nothing.

What was captured is told without the strategy: items that are walked over from empty data, and the
passes of a loop one by one, up to the pass that consumed nothing or the first item that failed.

## Main definitions

* `Value.leftTree`: the tree of the operands before a loop and of what its passes captured.
* `Setting.PassesCapture`: what the completed passes of a binary loop captured.
* `Setting.Takes`: the variation that a rule takes at a cursor.
-/
namespace TokenGrammar

/-! ## Trees -/

namespace Value

/-- The start of a tree: an operand alone, or a node of any other number of operands. -/
def treeStart (tag : String) : List Value → Value
  | [x] => x
  | operands => .node tag operands

/-- The tree after a pass: a node on top of it, unless the pass captured nothing. -/
def treeGrow (tag : String) (tree : Value) : List Value → Value
  | [] => tree
  | x :: xs => .node tag (tree :: x :: xs)

/-- The left-nested tree of the operands before a loop and of the passes of the loop. -/
def leftTree (tag : String) (operands : List Value) (passes : List (List Value)) : Value :=
  passes.foldl (treeGrow tag) (treeStart tag operands)

end Value

theorem foldNode_eq_treeStart (tag : String) (data : List Value) :
    foldNode tag data = Value.treeStart tag data := rfl

/-- Data that is folded again after a pass grows by the pass. -/
theorem foldNode_cons (tag : String) (tree : Value) (pass : List Value) :
    foldNode tag (tree :: pass) = Value.treeGrow tag tree pass := by
  cases pass with
  | nil => rfl
  | cons x xs => rfl

namespace Setting

/-! ## What was captured -/

/-- The completed passes of a binary loop from a cursor on, with what each of them captured. A pass
that leaves the index where it was is the last one; otherwise the passes end where the first item of
the body is not matched. -/
inductive PassesCapture (s : Setting) (call : Caller) (v : Variation) (body : Content) :
    Cursor → List (List Value) → Cursor → Prop
  | idle {captured : List Value} {c c' : Cursor} (pass : s.Walk call v body [] c captured c')
      (stays : c'.index = c.index) : PassesCapture s call v body c [captured] c'
  | again {captured : List Value} {passes : List (List Value)} {c mid c' : Cursor}
      (pass : s.Walk call v body [] c captured mid) (moves : mid.index ≠ c.index)
      (rest : PassesCapture s call v body mid passes c') :
      PassesCapture s call v body c (captured :: passes) c'
  | ended {item : Item} {back : Content} {i : Nat} {c c' : Cursor} (split : body = item :: back)
      (failure : s.Fails call v item c i c') : PassesCapture s call v body c [] c'

/-- What the items before a binary loop captured, and what the completed passes of the loop did. -/
def ReadsLoop (s : Setting) (call : Caller) (v : Variation) (front body : Content) (c : Cursor)
    (operands : List Value) (passes : List (List Value)) : Prop :=
  ∃ mid stop, s.Walk call v front [] c operands mid ∧ s.PassesCapture call v body mid passes stop

/-- The variation that a rule takes at a cursor: the first whose attempt succeeds. -/
def Takes (s : Setting) (call : Caller) (rule : String) (c : Cursor) (v : Variation) : Prop :=
  ∃ before after, s.grammar.variationsOf rule = before ++ v :: after ∧
    (∀ u ∈ before, ∃ i, (s.attempt call u c).outcome = .mismatch i) ∧
    ∃ data, (s.attempt call v c).outcome = .value data

variable {s : Setting} {call : Caller} {v : Variation} {c c₁ c₂ : Cursor}

/-- A walk adds the same to all data. -/
theorem Walk.captured {items : Content} {data data' : List Value}
    (h : s.Walk call v items data c data' c₁) :
    ∃ more, data' = data ++ more ∧
      ∀ earlier, s.Walk call v items earlier c (earlier ++ more) c₁ := by
  induction h with
  | nil => exact ⟨[], by simp, fun earlier => by simpa using Walk.nil⟩
  | @cons item rest data first data' c mid c₁ head _ ih =>
    obtain ⟨more, rfl, hmore⟩ := ih
    refine ⟨first ++ more, by rw [List.append_assoc], fun earlier => .cons head ?_⟩
    rw [← List.append_assoc]
    exact hmore (earlier ++ first)

theorem Matches.unique {item : Item} {more₁ more₂ : List Value}
    (h₁ : s.Matches call v item c more₁ c₁) (h₂ : s.Matches call v item c more₂ c₂) :
    more₁ = more₂ ∧ c₁ = c₂ :=
  ⟨Outcome.value.inj (h₁.1.symm.trans h₂.1), h₁.2.symm.trans h₂.2⟩

theorem Walk.unique {items : Content} {data data₁ data₂ : List Value}
    (h₁ : s.Walk call v items data c data₁ c₁) (h₂ : s.Walk call v items data c data₂ c₂) :
    data₁ = data₂ ∧ c₁ = c₂ := by
  induction h₁ with
  | nil =>
    cases h₂
    exact ⟨rfl, rfl⟩
  | cons head _ ih =>
    cases h₂ with
    | cons head' tail' =>
      obtain ⟨rfl, rfl⟩ := head.unique head'
      exact ih tail'

/-- A body whose first item fails is not walked over. -/
theorem Walk.not_fails {item : Item} {back : Content} {data data' : List Value} {i : Nat}
    (h : s.Walk call v (item :: back) data c data' c₁) : ¬ s.Fails call v item c i c₂ := by
  intro failure
  cases h with
  | cons head _ => cases head.1.symm.trans failure.1

/-- A loop has one list of completed passes. -/
theorem PassesCapture.unique {body : Content} {passes₁ passes₂ : List (List Value)}
    (h₁ : s.PassesCapture call v body c passes₁ c₁)
    (h₂ : s.PassesCapture call v body c passes₂ c₂) : passes₁ = passes₂ := by
  induction h₁ generalizing passes₂ with
  | idle pass stays =>
    cases h₂ with
    | idle pass' _ => rw [(pass.unique pass').1]
    | again pass' moves _ =>
      obtain ⟨-, rfl⟩ := pass.unique pass'
      exact absurd stays moves
    | ended split failure =>
      subst split
      exact absurd failure pass.not_fails
  | again pass moves _ ih =>
    cases h₂ with
    | idle pass' stays =>
      obtain ⟨-, rfl⟩ := pass.unique pass'
      exact absurd stays moves
    | again pass' _ rest' =>
      obtain ⟨rfl, rfl⟩ := pass.unique pass'
      rw [ih rest']
    | ended split failure =>
      subst split
      exact absurd failure pass.not_fails
  | ended split failure =>
    subst split
    cases h₂ with
    | idle pass' _ => exact absurd failure pass'.not_fails
    | again pass' _ _ => exact absurd failure pass'.not_fails
    | ended _ _ => rfl

theorem ReadsLoop.unique {front body : Content} {operands₁ operands₂ : List Value}
    {passes₁ passes₂ : List (List Value)}
    (h₁ : s.ReadsLoop call v front body c operands₁ passes₁)
    (h₂ : s.ReadsLoop call v front body c operands₂ passes₂) :
    operands₁ = operands₂ ∧ passes₁ = passes₂ := by
  obtain ⟨mid₁, stop₁, hwalk₁, hpasses₁⟩ := h₁
  obtain ⟨mid₂, stop₂, hwalk₂, hpasses₂⟩ := h₂
  obtain ⟨rfl, rfl⟩ := hwalk₁.unique hwalk₂
  exact ⟨rfl, hpasses₁.unique hpasses₂⟩

/-! ## Folding -/

/-- The data at the start of a pass is the folded data alone. -/
theorem eq_of_enterPass_fold {tag : String} (hv : v.strategy = .fold tag) {data folded : List Value}
    (h : enterPass v .binary data = .ok folded) : folded = [foldNode tag data] := by
  rw [enterPass, hv, Strategy.adapt_fold] at h
  exact (Except.ok.inj h).symm

/-- The data that a loop leaves folds to the tree on which its passes were put. The first pass of a
loop is always completed. -/
theorem Rounds.passesCapture (hs : s.Steady call) {tag : String} (hv : v.strategy = .fold tag)
    {body : Content} {first : Bool} {data data' : List Value}
    (h : s.Rounds call v .binary body first data c data' c₁) :
    ∃ passes, s.PassesCapture call v body c passes c₁ ∧ (first = true → passes ≠ []) ∧
      foldNode tag data' = passes.foldl (Value.treeGrow tag) (foldNode tag data) := by
  induction h with
  | idle fold pass stop =>
    obtain rfl := eq_of_enterPass_fold hv fold
    have hstays := mt (pass.advances hs).left_lt_iff.mpr stop
    obtain ⟨captured, rfl, hwalk⟩ := pass.captured
    refine ⟨[captured], .idle (hwalk []) (not_not.mp hstays), fun _ => List.cons_ne_nil _ _, ?_⟩
    exact foldNode_cons tag _ captured
  | again fold pass progress _ ih =>
    obtain rfl := eq_of_enterPass_fold hv fold
    have hmoves := (pass.advances hs).left_lt_iff.mp progress
    obtain ⟨captured, rfl, hwalk⟩ := pass.captured
    obtain ⟨passes, hpasses, -, htree⟩ := ih
    refine ⟨captured :: passes, .again (hwalk []) hmoves hpasses, fun _ => List.cons_ne_nil _ _, ?_⟩
    rw [htree, List.singleton_append, foldNode_cons, List.foldl_cons]
  | stuck fold split ends pass failure =>
    obtain rfl := eq_of_enterPass_fold hv fold
    -- a binary loop is left before the first item of a pass, with the folded value alone
    obtain rfl := ends.resolve_left nofun
    cases pass with
    | nil => exact ⟨[], .ended split failure, nofun, rfl⟩

/-- Plain items are walked over, and then the loop makes its rounds. -/
theorem Completes.rounds {front body : Content} {kind : LoopKind} {data data' : List Value}
    (hfront : ∀ i ∈ front, i.Plain)
    (h : s.Completes call v (front ++ [.loop kind body]) data c data' c₁) :
    ∃ operands mid, s.Walk call v front data c operands mid ∧
      s.Rounds call v kind body true operands mid data' c₁ := by
  induction front generalizing data c with
  | nil =>
    cases h with
    | loop rounds => exact ⟨data, c, .nil, rounds⟩
    | item single _ _ => exact absurd rfl (single kind body)
  | cons i rest ih =>
    obtain ⟨hplain, hrest⟩ := List.forall_mem_cons.mp hfront
    cases h with
    | loop _ => exact hplain.elim
    | item _ head tail =>
      obtain ⟨operands, mid, hwalk, hrounds⟩ := ih hrest tail
      exact ⟨operands, mid, .cons head hwalk, hrounds⟩

/-- What a variation captured that folds and ends in a binary loop, and the tree of it. -/
theorem Completes.leftTree (hs : s.Steady call) {tag : String} (hv : v.strategy = .fold tag)
    {front body : Content} (hfront : ∀ i ∈ front, i.Plain) {data : List Value}
    (h : s.Completes call v (front ++ [.loop .binary body]) [] c data c₁) :
    ∃ operands passes, s.ReadsLoop call v front body c operands passes ∧ passes ≠ [] ∧
      foldNode tag data = Value.leftTree tag operands passes := by
  obtain ⟨operands, mid, hwalk, hrounds⟩ := h.rounds hfront
  obtain ⟨passes, hpasses, hne, htree⟩ := hrounds.passesCapture hs hv
  rw [foldNode_eq_treeStart tag operands] at htree
  exact ⟨operands, passes, ⟨mid, c₁, hwalk, hpasses⟩, hne rfl, htree⟩

/-! ## Rules -/

theorem outcome_choose {before after : List Variation} {furthest : Nat} {data : List Value}
    (hbefore : ∀ u ∈ before, ∃ i, (s.attempt call u c).outcome = .mismatch i)
    (hv : (s.attempt call v c).outcome = .value data) :
    (s.choose call c furthest (before ++ v :: after)).outcome = v.strategy.outcome data := by
  induction before generalizing furthest with
  | nil => simp only [List.nil_append, choose, hv, conclude_eq]
  | cons u rest ih =>
    obtain ⟨⟨i, hi⟩, hrest⟩ := List.forall_mem_cons.mp hbefore
    simp only [List.cons_append, choose, hi, Run.outcome_after]
    exact ih hrest

/-- A rule ends with what the strategy makes of the data of the variation that it takes. -/
theorem Takes.outcome {depth : Nat} {rule : String} (h : s.Takes (s.evaluate depth) rule c v) :
    ∃ data, (s.attempt (s.evaluate depth) v c).outcome = .value data ∧
      (s.evaluate (depth + 1) rule c).outcome = v.strategy.outcome data := by
  obtain ⟨before, after, hsplit, hbefore, data, hdata⟩ := h
  refine ⟨data, hdata, ?_⟩
  -- the rule is defined, so the first case of `enter` is not taken
  have hne : s.grammar.variationsOf rule ≠ [] := by simp [hsplit]
  simp only [evaluate, enter, Run.outcome_record]
  rw [hsplit]
  exact outcome_choose hbefore hdata

theorem steady_evaluate (hg : s.grammar.WellFormed) (depth : Nat) : s.Steady (s.evaluate depth) :=
  evaluate_eq_readRule hg depth ▸ s.steady_readRule depth

/-- The rule's value is the tree of what the variation captured. -/
theorem Takes.leftTree (hg : s.grammar.WellFormed) {tag : String} (hv : v.strategy = .fold tag)
    {front body : Content} (hcontent : v.content = front ++ [.loop .binary body]) {depth : Nat}
    {rule : String} (h : s.Takes (s.evaluate depth) rule c v) :
    ∃ operands passes, s.ReadsLoop (s.evaluate depth) v front body c operands passes ∧
      passes ≠ [] ∧
      (s.evaluate (depth + 1) rule c).outcome = .value (Value.leftTree tag operands passes) := by
  obtain ⟨data, hdata, houtcome⟩ := h.outcome
  have hmem : v ∈ s.grammar.variations := by
    obtain ⟨before, after, hsplit, -⟩ := h
    exact (Grammar.mem_variationsOf.mp (hsplit ▸ List.mem_append_right _ List.mem_cons_self)).1
  have hshaped := hg.shaped v hmem
  have hfront : ∀ i ∈ front, i.Plain := (hcontent ▸ hshaped).plain_of_append
  have hsteady := steady_evaluate hg depth
  rw [attempt_eq_read hsteady hshaped] at hdata
  have hcompletes := (s.ends_readContent _ v [] c v.content).of_value hdata
  rw [hcontent] at hcompletes
  obtain ⟨operands, passes, hreads, hne, htree⟩ := hcompletes.leftTree hsteady hv hfront
  refine ⟨operands, passes, hreads, hne, ?_⟩
  rw [houtcome, hv, Strategy.outcome, Strategy.adapt_fold, htree]

end Setting

/-! ## Built grammars -/

namespace Grammar

/-- **A binary loop with a fold builds the left-nested tree.** Where a rule of a built grammar takes
a variation that folds and whose items are followed by a binary loop, the items captured some
operands and the loop completed one pass or more, of which the last may have consumed nothing. For
everything that was captured in this way, the value of the rule is the tree that starts with the
operands and grows by one pass after the other. -/
theorem evaluate_leftTree {g : Grammar} (hg : g.Built) {v : Variation} {tag : String}
    (hv : v.strategy = .fold tag) {front body : Content}
    (hcontent : v.content = front ++ [.loop .binary body]) (tokens : List Token) (depth : Nat)
    {rule : String} {c : Cursor}
    (htakes : Setting.Takes ⟨g, tokens⟩ (Setting.evaluate ⟨g, tokens⟩ depth) rule c v) :
    (∃ operands passes, Setting.ReadsLoop ⟨g, tokens⟩ (Setting.evaluate ⟨g, tokens⟩ depth) v front
      body c operands passes) ∧
    ∀ operands passes, Setting.ReadsLoop ⟨g, tokens⟩ (Setting.evaluate ⟨g, tokens⟩ depth) v front
        body c operands passes →
      passes ≠ [] ∧ (Setting.evaluate ⟨g, tokens⟩ (depth + 1) rule c).outcome =
        .value (Value.leftTree tag operands passes) := by
  obtain ⟨operands, passes, hreads, hne, hvalue⟩ := htakes.leftTree hg.wellFormed hv hcontent
  refine ⟨⟨operands, passes, hreads⟩, fun operands' passes' hreads' => ?_⟩
  obtain ⟨rfl, rfl⟩ := hreads.unique hreads'
  exact ⟨hne, hvalue⟩

/-- An integer and marks after it. -/
def markedVariation : Variation :=
  ⟨"marked", [.atom (.token "INT"), .loop .binary [.atom (.rule "mark")]], .fold "Marked", none,
    false⟩

/-- Integers with marks, where a mark may be missing. -/
def marks : Grammar :=
  ⟨"marked", [.token "NL"], [markedVariation, ⟨"mark", [.atom (.token "DOT")], .pass, none, false⟩,
    ⟨"mark", [], .pass, none, false⟩]⟩

theorem marks_built : marks.Built := by
  refine ⟨[.ignoreGlobally [.item (.atom (.token "NL"))], .startFrom "marked"] ++
    variationSteps 0 markedVariation ++
    variationSteps 1 ⟨"mark", [.atom (.token "DOT")], .pass, none, false⟩ ++
    variationSteps 2 ⟨"mark", [], .pass, none, false⟩, ?_⟩
  rfl

/-- Two marks after an integer, and trivia. -/
def markedInput : List Token := [.bare "INT", .bare "DOT", .bare "NL", .bare "DOT", .bare "NL"]

/-- The third pass finds no mark and consumes nothing, but it captures a null and counts. -/
theorem evaluate_leftTree_marks :
    marks.Built ∧
      Setting.Takes ⟨marks, markedInput⟩ (Setting.evaluate ⟨marks, markedInput⟩ 1) "marked" .origin
        markedVariation ∧
      Setting.ReadsLoop ⟨marks, markedInput⟩ (Setting.evaluate ⟨marks, markedInput⟩ 1)
        markedVariation [.atom (.token "INT")] [.atom (.rule "mark")] .origin [.token "INT" .null]
        [[.token "DOT" .null], [.token "DOT" .null], [.null]] ∧
      (Setting.evaluate ⟨marks, markedInput⟩ 2 "marked" .origin).outcome =
        .value (.node "Marked" [.node "Marked" [.node "Marked" [.token "INT" .null,
          .token "DOT" .null], .token "DOT" .null], .null]) := by
  have htakes : Setting.Takes ⟨marks, markedInput⟩ (Setting.evaluate ⟨marks, markedInput⟩ 1)
      "marked" .origin markedVariation := ⟨[], [], rfl, nofun, _, rfl⟩
  have hreads : Setting.ReadsLoop ⟨marks, markedInput⟩ (Setting.evaluate ⟨marks, markedInput⟩ 1)
      markedVariation [.atom (.token "INT")] [.atom (.rule "mark")] .origin [.token "INT" .null]
      [[.token "DOT" .null], [.token "DOT" .null], [.null]] := by
    refine ⟨⟨1, 1⟩, ⟨4, 4⟩, .cons ⟨rfl, rfl⟩ .nil, ?_⟩
    refine .again (.cons ⟨rfl, rfl⟩ .nil) (by decide) ?_
    refine .again (.cons ⟨rfl, rfl⟩ .nil) (by decide) ?_
    exact .idle (.cons ⟨rfl, rfl⟩ .nil) rfl
  have htree := (evaluate_leftTree marks_built rfl rfl markedInput 1 htakes).2 _ _ hreads
  exact ⟨marks_built, htakes, hreads, htree.2⟩

end Grammar
end TokenGrammar
