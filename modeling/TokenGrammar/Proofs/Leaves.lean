import TokenGrammar.Proofs.Compilation
import TokenGrammar.Proofs.Derivation
import TokenGrammar.Proofs.Trivia

/-!
# The leaves of a tree

Where every variation gathers what it captured in nodes, captures all that it matches and leaves
trivia to the grammar, the leaves of a tree are the input: the tokens that are not trivia, in order
and each once.

At every moment of a reading the leaves of the captured data are the tokens between the start and
the cursor that are not trivia. An item that is matched extends both by the same tokens. Folding at
the start of a pass gathers the data in one value with the same leaves. A pass that gets stuck keeps
the data of its matched items and a cursor that skipped trivia at most, and so does the way back at
the end of a variation.

## Main definitions

* `Value.leaves`: the tokens at the leaves of a value.
* `Strategy.Gathers`, `Variation.Gathers`: the strategies and variations that lose nothing.
* `Setting.kept`: the tokens between two indices that are not trivia.
* `Setting.Gathers`: the callers whose values have the tokens that were consumed as their leaves.
-/
namespace TokenGrammar

/-! ## Leaves -/

mutual

/-- The tokens at the leaves of a value, from left to right. Nodes are the inner places. -/
def Value.leaves : Value → List Token
  | .token kind payload => [⟨kind, payload⟩]
  | .node _ children => Value.leavesAll children
  | _ => []

/-- The tokens at the leaves of several values. -/
def Value.leavesAll : List Value → List Token
  | [] => []
  | v :: vs => v.leaves ++ Value.leavesAll vs

end

theorem Value.leavesAll_eq_flatMap (vs : List Value) :
    Value.leavesAll vs = vs.flatMap Value.leaves := by
  induction vs with
  | nil => rfl
  | cons v vs ih => rw [Value.leavesAll, ih, List.flatMap_cons]

@[simp] theorem Value.leaves_node (tag : String) (children : List Value) :
    (Value.node tag children).leaves = children.flatMap Value.leaves := by
  rw [Value.leaves, Value.leavesAll_eq_flatMap]

/-- What a strategy makes of captured data has the leaves of the data. -/
def Strategy.Gathers (s : Strategy) : Prop :=
  ∀ data x, s.adapt data = .ok x → x.leaves = data.flatMap Value.leaves

theorem Strategy.gathers_node (tag : String) : (Strategy.node tag).Gathers := by
  intro data x h
  rw [Strategy.adapt_node] at h
  cases h
  exact Value.leaves_node tag data

/-- A value that is passed on alone has the leaves of the list in which it is alone. -/
theorem Strategy.gathers_fold (tag : String) : (Strategy.fold tag).Gathers := by
  intro data x h
  rw [Strategy.adapt_fold] at h
  cases h
  rw [foldNode.eq_def]
  split
  · rw [List.flatMap_singleton]
  · exact Value.leaves_node tag _

/-- An item that captures what it matches. -/
def Item.Captures (i : Item) : Prop := i.Plain ∧ ∀ a ∈ i.alternatives, a.skip = false

/-- A variation of which every match becomes a leaf. -/
structure Variation.Gathers (v : Variation) : Prop where
  strategy : v.strategy.Gathers
  captures : ∀ i ∈ v.content.items, ∀ a ∈ i.alternatives, a.skip = false
  ignore : v.ignore = none

namespace Setting

variable {s : Setting} {call : Caller} {v : Variation} {c c' : Cursor}

/-! ## Tokens that are kept -/

/-- The tokens from one index up to another that are not trivia. -/
def kept (s : Setting) (i j : Nat) : List Token := s.grammar.sift (s.span i j)

@[simp] theorem kept_self (s : Setting) (i : Nat) : s.kept i i = [] := by
  rw [kept, span_self]
  rfl

theorem kept_append {i j k : Nat} (hij : i ≤ j) (hjk : j ≤ k) :
    s.kept i j ++ s.kept j k = s.kept i k := by
  rw [kept, kept, kept, ← span_append hij hjk, Grammar.sift, Grammar.sift, Grammar.sift,
    List.filter_append]

theorem kept_succ {i : Nat} {t : Token} (h : s.tokens[i]? = some t)
    (hkept : s.grammar.ignores none t = false) : s.kept i (i + 1) = [t] := by
  rw [kept, span_succ h]
  simp [Grammar.sift, hkept]

theorem kept_of_trivia (hv : v.ignore = none) {i j : Nat}
    (h : ∀ k, i ≤ k → k < j → s.ignoredAt v k = true) : s.kept i j = [] := by
  rw [kept, Grammar.sift_eq_nil_iff]
  intro t ht
  rw [← ignored_eq hv]
  exact ignores_of_mem_span h t ht

/-- An item that failed after a match, and the trivia that it skipped. -/
theorem Slides.kept_eq (hv : v.ignore = none) {i : Nat} (hi : i ≤ c.index) (h : s.Slides v c c') :
    s.kept i c'.index = s.kept i c.index := by
  rw [← kept_append hi h.index_le, kept_of_trivia hv h.trivia, List.append_nil]

/-- Only trivia is given back at the end of a variation. -/
theorem Advances.kept_settled (hv : v.ignore = none) (h : s.Advances c c') :
    s.kept c.index (s.settled v c c').index = s.kept c.index c'.index := by
  rw [settled]
  split
  · rfl
  · have hback := (h.rollback v).index_le
    have hle : (s.rollback v c.index c').index ≤ c'.index := s.giveBack_le v _ _
    have htrivia : s.kept (s.rollback v c.index c').index c'.index = [] :=
      kept_of_trivia hv fun k hk hlt => ignoredAt_of_giveBack_le hk hlt
    rw [← kept_append hback hle, htrivia, List.append_nil]

/-! ## Items -/

/-- A caller whose values have the tokens that it consumed as their leaves. -/
def Gathers (s : Setting) (call : Caller) : Prop :=
  ∀ rule c x, (call rule c).outcome = .value x →
    x.leaves = s.kept c.index (call rule c).cursor.index

theorem leaves_matchToken (hv : v.ignore = none) {a : Atom} {x : Value}
    (h : (s.matchToken v a c).outcome = .value x) :
    x.leaves = s.kept c.index (s.matchToken v a c).cursor.index := by
  simp only [matchToken] at h ⊢
  split at h
  · next t ht =>
    split at h
    · next haccepts =>
      cases h
      have hskip := s.le_skipTrivia v c.index
      have hskipped : s.kept c.index (s.skipTrivia v c.index) = [] :=
        kept_of_trivia hv fun k hk hlt => ignoredAt_of_lt_skipTrivia hk hlt
      have hmatched := kept_succ ht (ignores_eq_false_of_skipTrivia hv ht)
      rw [if_pos haccepts, ← kept_append hskip (Nat.le_succ _), hskipped, hmatched]
      rfl
    · cases h
  · cases h

theorem leaves_matchAtom (h : s.Gathers call) (hv : v.ignore = none) {a : Atom} {x : Value}
    (hr : (s.matchAtom call v a c).outcome = .value x) :
    x.leaves = s.kept c.index (s.matchAtom call v a c).cursor.index := by
  rw [matchAtom] at hr ⊢
  split at hr
  · next hrule =>
    rw [if_pos hrule]
    exact h a.name c x hr
  · next htoken =>
    rw [if_neg htoken]
    exact leaves_matchToken hv hr

theorem Matches.leaves (h : s.Gathers call) (hv : v.ignore = none) {item : Item}
    {more : List Value} (hi : item.Captures) (hm : s.Matches call v item c more c') :
    more.flatMap Value.leaves = s.kept c.index c'.index := by
  obtain ⟨hplain, hskip⟩ := hi
  obtain ⟨a, ha, x, hx, rfl, rfl⟩ := hm.alternative hplain
  rw [captured, hskip a ha]
  simpa using leaves_matchAtom h hv hx

/-! ## Readings -/

theorem Walk.leaves (hs : s.Steady call) (h : s.Gathers call) (hv : v.ignore = none)
    {items : Content} {data data' : List Value} (hi : ∀ i ∈ items, i.Captures)
    (hw : s.Walk call v items data c data' c') :
    data'.flatMap Value.leaves = data.flatMap Value.leaves ++ s.kept c.index c'.index := by
  induction hw with
  | nil => simp
  | cons head tail ih =>
    obtain ⟨hitem, hrest⟩ := List.forall_mem_cons.mp hi
    rw [ih hrest, List.flatMap_append, head.leaves h hv hitem, List.append_assoc,
      kept_append (head.advances hs).index_le (tail.advances hs).index_le]

/-- The data at the start of a pass is folded or not, and has the same leaves. -/
theorem leaves_enterPass (hv : v.strategy.Gathers) {kind : LoopKind} {data folded : List Value}
    (h : enterPass v kind data = .ok folded) :
    folded.flatMap Value.leaves = data.flatMap Value.leaves := by
  cases kind with
  | block =>
    cases h
    rfl
  | binary =>
    obtain ⟨x, hx, rfl⟩ := exists_of_map_eq_ok h
    rw [List.flatMap_singleton]
    exact hv data x hx

theorem Rounds.leaves (hs : s.Steady call) (h : s.Gathers call) (hv : v.ignore = none)
    (hstrategy : v.strategy.Gathers) {kind : LoopKind} {body : Content} {first : Bool}
    {data data' : List Value} (hi : ∀ i ∈ body, i.Captures)
    (hr : s.Rounds call v kind body first data c data' c') :
    data'.flatMap Value.leaves = data.flatMap Value.leaves ++ s.kept c.index c'.index := by
  induction hr with
  | idle fold pass _ =>
    rw [pass.leaves hs h hv hi, leaves_enterPass hstrategy fold]
  | again fold pass _ rest ih =>
    have hle := (pass.advances hs).index_le
    have hle' := rest.index_le hs
    rw [ih, pass.leaves hs h hv hi, leaves_enterPass hstrategy fold, List.append_assoc,
      kept_append hle hle']
  | stuck fold split _ pass failure =>
    have hfront := fun i hmem => hi i (split ▸ List.mem_append_left _ hmem)
    rw [pass.leaves hs h hv hfront, leaves_enterPass hstrategy fold,
      (failure.slides hs).1.kept_eq hv (pass.advances hs).index_le]

theorem Completes.leaves (hs : s.Steady call) (h : s.Gathers call) (hv : v.ignore = none)
    (hstrategy : v.strategy.Gathers) {content : Content} {data data' : List Value}
    (hi : ∀ i ∈ content.items, i.Captures)
    (hc : s.Completes call v content data c data' c') :
    data'.flatMap Value.leaves = data.flatMap Value.leaves ++ s.kept c.index c'.index := by
  induction hc with
  | nil => simp
  | loop rounds =>
    exact rounds.leaves hs h hv hstrategy fun i hmem => hi i (List.mem_append_left _ hmem)
  | item single head tail ih =>
    rw [Content.items_cons single] at hi
    obtain ⟨hitem, hrest⟩ := List.forall_mem_cons.mp hi
    rw [ih hrest, List.flatMap_append, head.leaves h hv hitem, List.append_assoc,
      kept_append (head.advances hs).index_le (tail.advances hs).index_le]

/-- Rules gather, at every depth. The induction is on the levels left. -/
theorem gathers_readRule (hg : s.grammar.WellFormed)
    (h : ∀ v ∈ s.grammar.variations, v.Gathers) (depth : Nat) : s.Gathers (s.readRule depth) := by
  induction depth with
  | zero =>
    intro rule c x hx
    exact absurd hx (readRule_zero_ne_value rule c x)
  | succ depth ih =>
    intro rule c x hx
    have hsteady := s.steady_readRule depth
    obtain ⟨v, hv, data, stop, hcompletes, hadapt, hcursor⟩ := value_readRule hx
    have hmem := (Grammar.mem_variationsOf.mp hv).1
    obtain ⟨hstrategy, hskip, hignore⟩ := h v hmem
    have hitems : ∀ i ∈ v.content.items, i.Captures :=
      fun i hi => ⟨(hg.resolves hmem i hi).1, hskip i hi⟩
    have hdata := hcompletes.leaves hsteady ih hignore hstrategy hitems
    rw [hcursor, (hcompletes.advances hsteady).kept_settled hignore, hstrategy data x hadapt, hdata,
      List.flatMap_nil, List.nil_append]

end Setting

/-! ## Parses -/

namespace Grammar

/-- The leaves of the value of a parse, or of the value for the front that was accepted. -/
theorem leaves_of_gathers {g : Grammar} (hg : g.Built) (h : ∀ v ∈ g.variations, v.Gathers)
    {rule : String} (hr : g.has rule = true) (limit : Int) (tokens : List Token) :
    (∀ x, (g.parseRule limit rule tokens).result = .ok x → x.leaves = g.sift tokens) ∧
      ∀ e, (g.parseRule limit rule tokens).result = .error (.parse e) → e.kind = .trailingInput →
        e.result.leaves = g.sift (tokens.take e.index) := by
  have hends := endsIn_parseRule hg hr limit tokens
  have hleaves := Setting.gathers_readRule (s := ⟨g, tokens⟩) hg.wellFormed h (effectiveDepth limit)
    rule .origin
  rw [← Setting.evaluate_eq_readRule (s := ⟨g, tokens⟩) hg.wellFormed] at hleaves
  generalize Setting.evaluate ⟨g, tokens⟩ (effectiveDepth limit) rule .origin = r at hends hleaves
  simp only [Setting.kept, Cursor.origin, Setting.span_zero] at hleaves
  generalize (g.parseRule limit rule tokens).result = result at hends ⊢
  constructor
  · rintro x rfl
    cases hends with
    | value outcome cursor => rw [hleaves x outcome, cursor, List.take_length]
  · rintro e rfl hkind
    cases hends with
    | trailing outcome cursor _ => rw [hleaves _ outcome, cursor]
    | unexpected => cases hkind
    | depth => cases hkind

end Grammar

/-! ## Documents -/

/-- A shorthand without the final mark writes an atom that captures. -/
theorem Atom.skip_of_read {text : String} {a : Atom} (h : Atom.read text = .ok a)
    (hlast : text.toList.getLast? ≠ some '&') : a.skip = false := by
  have hbody : ∀ {kind body}, Atom.readBody text kind body = .ok a →
      body.getLast? ≠ some '&' → a.skip = false := by
    intro kind body hread hmark
    simp only [Atom.readBody, Atom.takeSkip, if_neg hmark] at hread
    split at hread
    · cases hread
    · cases hread
    · cases hread
      rfl
  have htail : ∀ {sigil : Char} {body : List Char}, text.toList = sigil :: body →
      body.getLast? ≠ some '&' := by
    intro sigil body htext hmark
    rw [htext, List.getLast?_cons, hmark] at hlast
    exact hlast rfl
  rw [Atom.read] at h
  split at h
  · next htext => exact hbody h (htail htext)
  · next htext => exact hbody h (htail htext)
  · cases h

/-- A spec that builds nodes or folds has a strategy that gathers. -/
theorem VariationSpec.gathers_of_strategy {s : VariationSpec} {strategy : Strategy}
    (h : s.strategy = .ok strategy) (hs : s.node ≠ "" ∨ s.fold ≠ "") : strategy.Gathers := by
  have hall : ∀ x ∈ s.strategies, x = strategy := by
    rw [strategies_of_strategy h]
    exact fun x hx => List.mem_singleton.mp hx
  rcases hs with hnode | hfold
  · have hmem : Strategy.node (Tag.normalize s.node) ∈ s.strategies := by
      simp [VariationSpec.strategies, hnode]
    exact hall _ hmem ▸ Strategy.gathers_node _
  · have hmem : Strategy.fold (Tag.normalize s.fold) ∈ s.strategies := by
      simp [VariationSpec.strategies, hfold]
    exact hall _ hmem ▸ Strategy.gathers_fold _

namespace Document

/-- **The leaves of a tree are the input**: if a document compiles, every spec builds nodes or
folds, no shorthand marks its match to be left out and no spec has an ignore set of its own, then
the value of a parse has as its leaves the tokens of the input that are not trivia, in order and
each once. If only a front of the input is accepted, the same holds of the value of this front. -/
theorem parseRule_leaves {d : Document} {g : Grammar} (hd : d.grammar = .ok g)
    (hstrategy : ∀ rule, ∀ s ∈ d.specsOf rule, s.node ≠ "" ∨ s.fold ≠ "")
    (hcapture : ∀ rule, ∀ s ∈ d.specsOf rule, ∀ text ∈ s.shorthands,
      text.toList.getLast? ≠ some '&')
    (hignore : ∀ rule, ∀ s ∈ d.specsOf rule, s.ignore = none) {rule : String}
    (hr : g.has rule = true) (limit : Int) (tokens : List Token) :
    (∀ x, (g.parseRule limit rule tokens).result = .ok x → x.leaves = g.sift tokens) ∧
      ∀ e, (g.parseRule limit rule tokens).result = .error (.parse e) → e.kind = .trailingInput →
        e.result.leaves = g.sift (tokens.take e.index) := by
  have hdescribes := describes_of_grammar hd
  refine Grammar.leaves_of_gathers hdescribes.built ?_ hr limit tokens
  intro v hv
  obtain ⟨s, hs, hdeclares⟩ := hdescribes.exists_spec hv
  refine ⟨VariationSpec.gathers_of_strategy hdeclares.strategy (hstrategy _ s hs), ?_, ?_⟩
  · intro i hi a ha
    obtain ⟨text, htext, hread⟩ := hdeclares.read hi ha
    exact Atom.skip_of_read hread (hcapture _ s hs text htext)
  · have hset := hdeclares.ignore
    rw [hignore _ s hs] at hset
    generalize v.ignore = set at hset ⊢
    cases hset
    rfl

/-- Sums are folded from the left, and an integer alone is a sum. -/
def sumSpecs : List VariationSpec :=
  [{ VariationSpec.empty with
      items := some [.text "@INT"]
      binaryLoop := some [.list [.text "@ADD", .text "@SUB"], .text "@INT"]
      fold := "sum" },
    { VariationSpec.empty with items := some [.text "@INT"], node := "single" }]

/-- Sums separated by semicolons, with the trivia at the end. -/
def listSpecs : List VariationSpec :=
  [{ VariationSpec.empty with
      items := some [.text "$sum"]
      blockLoop := some [.text "@SEMI", .text "$sum"]
      preventRollback := true
      node := "list" }]

/-- Trees of lists of sums, in which line ends are trivia. -/
def treeDocument : Document := ⟨"list", ["@NL"], 0, [("sum", sumSpecs), ("list", listSpecs)]⟩

/-- The grammar of trees of lists of sums. -/
def trees : Grammar :=
  ⟨"list", [.token "NL"],
    [⟨"list", [.atom (.rule "sum"), .loop .block [.atom (.token "SEMI"), .atom (.rule "sum")]],
        .node "List", none, true⟩,
      ⟨"sum", [.atom (.token "INT"),
          .loop .binary [.either ⟨[.token "ADD", .token "SUB"], none⟩, .atom (.token "INT")]],
        .fold "Sum", none, false⟩,
      ⟨"sum", [.atom (.token "INT")], .node "Single", none, false⟩]⟩

/-- The document compiles, and its tags are normalized. -/
theorem grammar_treeDocument : treeDocument.grammar = .ok trees := by
  have hsteps : treeDocument.steps = .ok (treeDocument.steps.toOption.getD []) := rfl
  exact grammar_of_run hsteps rfl rfl rfl rfl

/-- Two sums, and line ends around and between them. -/
def treeInput : List Token :=
  [.bare "NL", ⟨"INT", .ofInt 1⟩, .bare "ADD", ⟨"INT", .ofInt 2⟩, .bare "NL", .bare "SUB",
    ⟨"INT", .ofInt 3⟩, .bare "SEMI", .bare "NL", ⟨"INT", .ofInt 4⟩, .bare "NL"]

/-- A list that breaks off after its second semicolon. -/
def brokenInput : List Token :=
  [⟨"INT", .ofInt 1⟩, .bare "SEMI", .bare "NL", ⟨"INT", .ofInt 2⟩, .bare "SEMI", .bare "ADD"]

/-- The first input is parsed to its end. In the second one the block loop ends in the middle of a
pass, and the semicolon of this pass is a leaf of the result. -/
theorem parseRule_leaves_trees :
    treeDocument.grammar = .ok trees ∧
      (∀ rule, ∀ s ∈ treeDocument.specsOf rule, s.node ≠ "" ∨ s.fold ≠ "") ∧
      (∀ rule, ∀ s ∈ treeDocument.specsOf rule, ∀ text ∈ s.shorthands,
        text.toList.getLast? ≠ some '&') ∧
      (∀ rule, ∀ s ∈ treeDocument.specsOf rule, s.ignore = none) ∧ trees.has "list" = true ∧
      (∃ x, (trees.parseRule 9 "list" treeInput).result = .ok x ∧
        x.leaves = trees.sift treeInput) ∧
      ∃ x, (trees.parseRule 9 "list" brokenInput).result =
          .error (.parse ⟨.trailingInput, "list", 5, some (.bare "ADD"), x⟩) ∧
        x.leaves = trees.sift (brokenInput.take 5) := by
  have hd := grammar_treeDocument
  have hr : trees.has "list" = true := rfl
  have hspecs : ∀ rule, ∀ s ∈ treeDocument.specsOf rule, s ∈ sumSpecs ++ listSpecs := by
    intro rule s hs
    rw [List.mem_append]
    simp only [specsOf, treeDocument, List.lookup_cons] at hs
    split at hs
    · exact .inl hs
    · split at hs
      · exact .inr hs
      · cases hs
  have hstrategy : ∀ rule, ∀ s ∈ treeDocument.specsOf rule, s.node ≠ "" ∨ s.fold ≠ "" := by
    have hall : ∀ s ∈ sumSpecs ++ listSpecs, s.node ≠ "" ∨ s.fold ≠ "" := by decide
    exact fun rule s hs => hall s (hspecs rule s hs)
  have hcapture : ∀ rule, ∀ s ∈ treeDocument.specsOf rule, ∀ text ∈ s.shorthands,
      text.toList.getLast? ≠ some '&' := by
    have hall : ∀ s ∈ sumSpecs ++ listSpecs, ∀ text ∈ s.shorthands,
        text.toList.getLast? ≠ some '&' := by decide
    exact fun rule s hs => hall s (hspecs rule s hs)
  have hignore : ∀ rule, ∀ s ∈ treeDocument.specsOf rule, s.ignore = none := by
    have hall : ∀ s ∈ sumSpecs ++ listSpecs, s.ignore = none := by decide
    exact fun rule s hs => hall s (hspecs rule s hs)
  have hleaves := parseRule_leaves hd hstrategy hcapture hignore hr 9
  exact ⟨hd, hstrategy, hcapture, hignore, hr, ⟨_, rfl, (hleaves treeInput).1 _ rfl⟩, _, rfl,
    (hleaves brokenInput).2 _ rfl rfl⟩

end Document
end TokenGrammar
