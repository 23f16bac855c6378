import TokenGrammar.Proofs.Compilation
import TokenGrammar.Proofs.Expressions
import TokenGrammar.Proofs.LeftRecursion
import TokenGrammar.Proofs.TriviaFree

/-!
# Arithmetic expressions

The grammar of sums over products over integers and parentheses. Each level of precedence is a rule
with two variations: a chain of operands with the operators of the level between them, and an operand
alone. The parse of the tokens that an expression is written with is its tree.

Nothing tells a rule where its part of the input ends but the token behind it. A rule therefore reads
an expression wherever no operator of its own level or of a tighter one follows, and this is what the
induction on trees shows for all three rules at once. The chain of a level is read from the left, so
the induction also has to know the loop from inside: after the tree of a left operand has been read,
the loop stands before its next pass, with data that folds to this tree.

## Main definitions

* `Arithmetic.document`, `Arithmetic.grammar`: the grammar, as it is declared and as it is compiled.
* `Arithmetic.Stops`: what may follow the tokens of a level.
* `Arithmetic.Reads`, `Arithmetic.Mounts`: what the rule and the loop of a level do with a tree.
-/
namespace TokenGrammar.Arithmetic

/-! ## The grammar -/

/-- The specs of a level: a chain of operands with operators between them, and an operand alone. -/
def levelSpecs (operand : String) (operators : List String) : List VariationSpec :=
  [{ VariationSpec.empty with
      items := some [.text operand]
      binaryLoop := some [.list (operators.map .text), .text operand]
      fold := "binary_op" },
    { VariationSpec.empty with items := some [.text operand], pass := true }]

/-- The specs of what binds tighter than every operator. -/
def atomSpecs : List VariationSpec :=
  [{ VariationSpec.empty with items := some [.text "@INT"], node := "literal" },
    { VariationSpec.empty with
      items := some [.text "@OPAREN&", .text "$expr", .text "@CPAREN&"]
      select := some 0 }]

/-- Expressions that end with a semicolon each, where nothing is trivia. -/
def listSpecs : List VariationSpec :=
  [{ VariationSpec.empty with
      blockLoop := some [.text "$expr", .text "@SEMI&"]
      ignore := some []
      node := "list" }]

/-- The declaration of arithmetic expressions, in which line ends are trivia. -/
def document : Document :=
  ⟨"expr", ["@NL"], 256,
    [("expr", levelSpecs "$term" ["@ADD", "@SUB"]), ("term", levelSpecs "$atom" ["@MUL", "@DIV"]),
      ("atom", atomSpecs), ("list", listSpecs)]⟩

/-- The rule of a level. -/
def ruleOf : Nat → String
  | 0 => "expr"
  | 1 => "term"
  | _ => "atom"

/-- A reference to the rule of a level. -/
def operand (level : Nat) : Item := .atom (.rule (ruleOf level))

/-- The kinds of the operators of a level. -/
def operatorKinds (level : Nat) : List String :=
  (Operator.all.filter (·.level == level)).map Operator.kind

/-- The choice between the operators of a level. -/
def operators (level : Nat) : Item := .either ⟨(operatorKinds level).map .token, none⟩

/-- The pass of the loop of a level. -/
def pass (level : Nat) : Content := [operators level, operand (level + 1)]

/-- The chain of operands and operators of a level. -/
def chain (level : Nat) : Variation :=
  ⟨ruleOf level, [operand (level + 1), .loop .binary (pass level)], .fold "BinaryOp", none, false⟩

/-- The operand alone of a level. -/
def alone (level : Nat) : Variation := ⟨ruleOf level, [operand (level + 1)], .pass, none, false⟩

/-- An integer. -/
def integer : Variation := ⟨"atom", [.atom (.token "INT")], .node "Literal", none, false⟩

/-- An expression in parentheses, which leave no trace. -/
def enclosed : Variation :=
  ⟨"atom", [.atom (.skipped (.token "OPAREN")), operand 0, .atom (.skipped (.token "CPAREN"))],
    .select 0, none, false⟩

/-- Expressions that end with a semicolon each. -/
def listing : Variation :=
  ⟨"list", [.loop .block [operand 0, .atom (.skipped (.token "SEMI"))]], .node "List", some [],
    false⟩

/-- The grammar of arithmetic expressions. -/
def grammar : Grammar :=
  ⟨"expr", [.token "NL"], [integer, enclosed, chain 0, alone 0, listing, chain 1, alone 1]⟩

/-- The document compiles to the grammar. -/
theorem grammar_document : document.grammar = .ok grammar := by
  have hsteps : document.steps = .ok (document.steps.toOption.getD []) := rfl
  exact Document.grammar_of_run hsteps rfl rfl rfl rfl

theorem built : grammar.Built := (Document.describes_of_grammar grammar_document).built

theorem has_ruleOf (level : Nat) : grammar.has (ruleOf level) = true := by
  match level with
  | 0 | 1 | _ + 2 => rfl

/-- A level of operators has two variations. -/
theorem variationsOf_ruleOf {level : Nat} (h : level < 2) :
    grammar.variationsOf (ruleOf level) = [chain level, alone level] := by
  match level with
  | 0 | 1 => rfl
  | _ + 2 => omega

/-! ## What may follow -/

/-- No operator of the level, or of a tighter one, stands at the front. -/
def Stops (level : Nat) (rest : List Token) : Prop :=
  ∀ t ∈ rest.head?, ∀ op : Operator, level ≤ op.level → t.kind ≠ op.kind

theorem Stops.mono {level level' : Nat} {rest : List Token} (h : Stops level rest)
    (hle : level ≤ level') : Stops level' rest :=
  fun t ht op hop => h t ht op (Nat.le_trans hle hop)

/-- An operator stops what binds tighter. -/
theorem stops_operator (op : Operator) (payload : Value) (rest : List Token) :
    Stops (op.level + 1) (⟨op.kind, payload⟩ :: rest) := by
  intro t ht op' hle heq
  obtain rfl : ⟨op.kind, payload⟩ = t := Option.some.inj ht
  have hsame : op = op' := Operator.kind_injective heq
  subst hsame
  omega

/-- So does a closing parenthesis, for every level. -/
theorem stops_close (level : Nat) (rest : List Token) : Stops level (.bare "CPAREN" :: rest) := by
  intro t ht op _ heq
  obtain rfl : Token.bare "CPAREN" = t := Option.some.inj ht
  exact op.kind_ne.2.2 heq.symm

theorem Stops.not_mem {level : Nat} {rest : List Token} (h : Stops level rest) :
    ∀ t ∈ rest.head?, t.kind ∉ operatorKinds level := by
  intro t ht hmem
  obtain ⟨op, hop, hkind⟩ := List.mem_map.mp hmem
  have hlevel : op.level = level := by simpa using (List.mem_filter.mp hop).2
  exact h t ht op (Nat.le_of_eq hlevel.symm) hkind.symm

theorem Operator.kind_mem (op : Operator) : op.kind ∈ operatorKinds op.level := by
  cases op <;> decide

/-! ## Levels -/

/-- The grammar with its input. -/
abbrev setting (tokens : List Token) : Setting := ⟨grammar, tokens⟩

/-- The rule of a level reads a tree wherever its tokens stand and what follows does not belong to
the level. The depth that it takes is three for every pair of parentheses, and one for every level
from its own on. -/
def Reads (tokens : List Token) (level : Nat) (e : Expression) : Prop :=
  ∀ depth (c : Cursor) rest, tokens.drop c.index = e.tokensAt level ++ rest → Stops level rest →
    3 * nesting (e.tokensAt level) + (3 - level) ≤ depth →
    ((setting tokens).readRule depth (ruleOf level) c).outcome = .value e.tree ∧
      ((setting tokens).readRule depth (ruleOf level) c).cursor =
        c.past (e.tokensAt level).length

/-- The chain of a level stands before a pass of its loop, with data that folds to a tree, as soon as
the tokens of the tree are read: whatever rounds the loop makes from there on complete the chain. A
tree of the level itself has been through a pass. -/
def Mounts (tokens : List Token) (level : Nat) (e : Expression) : Prop :=
  ∀ depth (c : Cursor) rest, tokens.drop c.index = e.tokensAt level ++ rest →
    Stops (level + 1) rest → 3 * nesting (e.tokensAt level) + (2 - level) ≤ depth →
    ∃ first data, foldNode "BinaryOp" data = e.tree ∧ (e.level = level → first = false) ∧
      ∀ data' c', (setting tokens).Rounds ((setting tokens).readRule depth) (chain level) .binary
          (pass level) first data (c.past (e.tokensAt level).length) data' c' →
        (setting tokens).Completes ((setting tokens).readRule depth) (chain level)
          (chain level).content [] c data' c'

section Levels

variable {tokens : List Token} {e : Expression} {level : Nat}

theorem enterPass_chain (level : Nat) (data : List Value) :
    Setting.enterPass (chain level) .binary data = .ok [foldNode "BinaryOp" data] := rfl

/-- A tree that does not belong to the level is an operand of it. -/
theorem Reads.matches_operand (h : Reads tokens (level + 1) e) (hne : e.level ≠ level) {depth : Nat}
    {c : Cursor} {rest : List Token} (hdrop : tokens.drop c.index = e.tokensAt level ++ rest)
    (hstops : Stops (level + 1) rest)
    (hdepth : 3 * nesting (e.tokensAt level) + (2 - level) ≤ depth) (v : Variation) :
    (setting tokens).Matches ((setting tokens).readRule depth) v (operand (level + 1)) c [e.tree]
      (c.past (e.tokensAt level).length) := by
  rw [← Expression.tokensAt_succ hne] at hdrop hdepth ⊢
  obtain ⟨houtcome, hcursor⟩ := h depth c rest hdrop hstops (by omega)
  exact Setting.matches_rule houtcome hcursor

theorem mounts_of_tighter (h : Reads tokens (level + 1) e) (hne : e.level ≠ level) :
    Mounts tokens level e := by
  intro depth c rest hdrop hstops hdepth
  refine ⟨true, [e.tree], rfl, fun heq => absurd heq hne, ?_⟩
  intro data' c' hrounds
  exact .atom (h.matches_operand hne hdrop hstops hdepth _) (.loop hrounds)

-- from here on the input holds no line ends, which are the only trivia
variable (hclear : ∀ t ∈ tokens, t.kind ≠ "NL")

include hclear

theorem clear_of_ne {v : Variation} (hv : v.ignore = none) :
    (setting tokens).Clear v := by
  intro t ht
  simp [Setting.ignored, Grammar.ignores, Grammar.ignoreSetFor, hv, grammar, IgnoreSet.has,
    hclear t ht]

theorem fails_operators {c : Cursor}
    {front rest : List Token} (hdrop : tokens.drop c.index = front ++ rest)
    (hstops : Stops level rest) (call : Setting.Caller) :
    (setting tokens).Fails call (chain level) (operators level) (c.past front.length)
      (c.past front.length).index (c.past front.length) := by
  have hnot := hstops.not_mem
  rw [← Setting.drop_past hdrop] at hnot
  exact Setting.fails_kinds (clear_of_ne hclear rfl) hnot

/-- A pass of the loop reads an operator of the level and the operand behind it. -/
theorem Reads.walk_pass {op : Operator}
    (h : Reads tokens (op.level + 1) e) {payload : Value} {depth : Nat} {c : Cursor}
    {rest : List Token}
    (hdrop : tokens.drop c.index = ⟨op.kind, payload⟩ :: (e.tokensAt (op.level + 1) ++ rest))
    (hstops : Stops (op.level + 1) rest)
    (hdepth : 3 * nesting (e.tokensAt (op.level + 1)) + (2 - op.level) ≤ depth) (x : Value) :
    (setting tokens).Walk ((setting tokens).readRule depth) (chain op.level) (pass op.level) [x] c
      [x, .token op.kind payload, e.tree] (c.past (1 + (e.tokensAt (op.level + 1)).length)) := by
  have hop : (setting tokens).Matches ((setting tokens).readRule depth) (chain op.level)
      (operators op.level) c [.token op.kind payload] (c.past 1) :=
    Setting.matches_kinds (clear_of_ne hclear rfl) hdrop op.kind_mem
  have hbehind : tokens.drop (c.past 1).index = e.tokensAt (op.level + 1) ++ rest :=
    Setting.drop_past_one hdrop
  obtain ⟨houtcome, hcursor⟩ := h depth (c.past 1) rest hbehind hstops (by omega)
  rw [Cursor.past_past] at hcursor
  exact .cons hop (.cons (Setting.matches_rule houtcome hcursor) .nil)

/-- The left operand is mounted, and one more pass reads the operator and the right operand. -/
theorem mounts_binary {left right : Expression}
    {op : Operator} {payload : Value} (hleft : Mounts tokens op.level left)
    (hright : Reads tokens (op.level + 1) right) :
    Mounts tokens op.level (.binary left op payload right) := by
  intro depth c rest hdrop hstops hdepth
  rw [Expression.tokensAt_of_le (Nat.le_refl op.level)] at hdrop hdepth ⊢
  rw [Expression.nesting_binary] at hdepth
  rw [Expression.tokens_binary] at hdrop ⊢
  rw [List.append_assoc, List.cons_append] at hdrop
  obtain ⟨first, data, hdata, -, hmount⟩ :=
    hleft depth c _ hdrop (stops_operator op payload _) (by omega)
  refine ⟨false, [left.tree, .token op.kind payload, right.tree], rfl, fun _ => rfl, ?_⟩
  intro data' c' hrounds
  have hat := Setting.drop_past hdrop
  have hfold : Setting.enterPass (chain op.level) .binary data = .ok [left.tree] := by
    rw [enterPass_chain, hdata]
  have hright_depth : 3 * nesting (right.tokensAt (op.level + 1)) + (2 - op.level) ≤ depth := by
    omega
  have hpass := hright.walk_pass hclear hat hstops hright_depth left.tree
  refine hmount data' c' (.again hfold hpass (Setting.left_past_lt hat (by omega)) ?_)
  rw [Cursor.past_past, Nat.add_comm 1]
  rw [List.length_append, List.length_cons] at hrounds
  exact hrounds

/-- Before a token that is no operator of the level, the loop ends with the tree it stands on. -/
theorem reads_of_mounts (hlt : level < 2)
    (h : Mounts tokens level e) (hlevel : e.level = level) : Reads tokens level e := by
  intro depth c rest hdrop hstops hdepth
  obtain ⟨depth, rfl⟩ : ∃ n, depth = n + 1 := ⟨depth - 1, by omega⟩
  obtain ⟨first, data, hdata, hfirst, hmount⟩ :=
    h depth c rest hdrop (hstops.mono (Nat.le_succ level)) (by omega)
  obtain rfl := hfirst hlevel
  have hsplit : pass level = [] ++ operators level :: [operand (level + 1)] := rfl
  have hrounds := Setting.Rounds.stuck (enterPass_chain level data) hsplit (.inr rfl) .nil
    (fails_operators hclear hdrop hstops ((setting tokens).readRule depth))
  rw [Setting.readRule_succ (has_ruleOf level), variationsOf_ruleOf hlt]
  exact Setting.readChoice_of_completes (clear_of_ne hclear rfl) (hmount _ _ hrounds)
    (congrArg Except.ok hdata) 0 [alone level]

/-- A tree that does not belong to the level is read by the next rule. The chain is tried first; it
reads the tree and fails at its first operator, and so the tree is read twice. -/
theorem reads_of_tighter (hlt : level < 2)
    (h : Reads tokens (level + 1) e) (hne : e.level ≠ level) : Reads tokens level e := by
  intro depth c rest hdrop hstops hdepth
  obtain ⟨depth, rfl⟩ : ∃ n, depth = n + 1 := ⟨depth - 1, by omega⟩
  have hmatches := h.matches_operand hne hdrop (hstops.mono (Nat.le_succ level))
    (show _ ≤ depth by omega)
  have hmismatch := (fails_operators hclear hdrop hstops _).read_eq_of_loop rfl
    (hmatches (chain level)) (enterPass_chain level _)
  rw [Setting.readRule_succ (has_ruleOf level), variationsOf_ruleOf hlt]
  rw [Setting.readChoice_cons_of_mismatch hmismatch]
  exact Setting.readChoice_of_completes (clear_of_ne hclear rfl)
    (.atom (hmatches (alone level)) .nil) rfl _ []

theorem reads_literal (value : Value) :
    Reads tokens 2 (.literal value) := by
  intro depth c rest hdrop _ hdepth
  obtain ⟨depth, rfl⟩ : ∃ n, depth = n + 1 := ⟨depth - 1, by omega⟩
  have hinteger : (setting tokens).Matches ((setting tokens).readRule depth) integer
      (.atom (.token "INT")) c [.token "INT" value] (c.past 1) :=
    Setting.matches_token (clear_of_ne hclear rfl) hdrop (by simp)
  rw [Setting.readRule_succ (has_ruleOf 2)]
  exact Setting.readChoice_of_completes (clear_of_ne hclear rfl) (.atom hinteger .nil)
    (Strategy.adapt_node _ _) 0 [enclosed]

/-- Parentheses around what the first rule reads are matched, and leave no trace in the data. -/
theorem Reads.completes_enclosed (h : Reads tokens 0 e) {depth : Nat} {c : Cursor}
    {rest : List Token} (hdrop : tokens.drop c.index = parenthesized e.tokens ++ rest)
    (hdepth : 3 * (nesting e.tokens + 1) ≤ depth) :
    (setting tokens).Completes ((setting tokens).readRule depth) enclosed enclosed.content [] c
      [e.tree] (c.past (parenthesized e.tokens).length) := by
  rw [parenthesized, List.cons_append, List.append_assoc] at hdrop
  have hinside : tokens.drop (c.past 1).index = e.tokens ++ .bare "CPAREN" :: rest :=
    Setting.drop_past_one hdrop
  have hread := h depth (c.past 1) (.bare "CPAREN" :: rest)
  rw [Expression.tokensAt_of_le (Nat.zero_le e.level)] at hread
  obtain ⟨houtcome, hcursor⟩ := hread hinside (stops_close 0 rest) (by omega)
  have hopens : (setting tokens).Matches ((setting tokens).readRule depth) enclosed
      (.atom (.skipped (.token "OPAREN"))) c [] (c.past 1) :=
    Setting.matches_token (clear_of_ne hclear rfl) hdrop rfl
  have hcloses : (setting tokens).Matches ((setting tokens).readRule depth) enclosed
      (.atom (.skipped (.token "CPAREN"))) ((c.past 1).past e.tokens.length) []
      (((c.past 1).past e.tokens.length).past 1) :=
    Setting.matches_token (clear_of_ne hclear rfl) (Setting.drop_past hinside) rfl
  have hlength : (parenthesized e.tokens).length = 1 + (e.tokens.length + 1) := by
    rw [length_parenthesized]
    omega
  rw [hlength, ← Cursor.past_past, ← Cursor.past_past]
  exact .atom hopens (.atom (Setting.matches_rule houtcome hcursor) (.atom hcloses .nil))

/-- What binds too loosely for the last rule stands in parentheses. -/
theorem reads_enclosed (h : Reads tokens 0 e) (hlevel : e.level < 2) : Reads tokens 2 e := by
  intro depth c rest hdrop _ hdepth
  rw [Expression.tokensAt_of_lt hlevel] at hdrop hdepth ⊢
  rw [e.balanced_tokens.nesting_parenthesized] at hdepth
  obtain ⟨depth, rfl⟩ : ∃ n, depth = n + 1 := ⟨depth - 1, by omega⟩
  have hfails : (setting tokens).Fails ((setting tokens).readRule depth) integer
      (.atom (.token "INT")) c c.index c :=
    Setting.fails_token (clear_of_ne hclear rfl) hdrop rfl rfl
  have hvariations : grammar.variationsOf (ruleOf 2) = [integer, enclosed] := rfl
  rw [Setting.readRule_succ (has_ruleOf 2), hvariations,
    Setting.readChoice_cons_of_mismatch (hfails.read_eq rfl)]
  exact Setting.readChoice_of_completes (clear_of_ne hclear rfl)
    (h.completes_enclosed hclear hdrop (by omega)) rfl _ []

/-- A tree that is read by the rule of a level is read by the looser ones, down to its own level. -/
theorem reads_down {top : Nat} (htop : top ≤ 2)
    (h : Reads tokens top e) (hle : level ≤ top) (hne : ∀ l, level ≤ l → l < top → e.level ≠ l) :
    Reads tokens level e := by
  induction top, hle using Nat.le_induction with
  | base => exact h
  | succ top hle ih =>
    have hnext := reads_of_tighter hclear (by omega) h (hne top hle (Nat.lt_succ_self top))
    exact ih (by omega) hnext fun l hl hlt => hne l hl (by omega)

/-- From its own level a tree goes down to the first rule, and in parentheses up to the last. -/
theorem reads_of_own (hown : e.level ≤ 2)
    (h : Reads tokens e.level e) (hlevel : level ≤ 2) : Reads tokens level e := by
  by_cases hle : level ≤ e.level
  · exact reads_down hclear hown h hle fun l _ hlt => Nat.ne_of_gt hlt
  · have hfirst : Reads tokens 0 e :=
      reads_down hclear hown h (Nat.zero_le _) fun l _ hlt => Nat.ne_of_gt hlt
    have hlast : Reads tokens 2 e := reads_enclosed hclear hfirst (by omega)
    exact reads_down hclear (Nat.le_refl 2) hlast hlevel fun l hl _ => by omega

/-- Every rule reads every tree, and every chain mounts it. -/
theorem reads_and_mounts (e : Expression) :
    (∀ level ≤ 2, Reads tokens level e) ∧ ∀ level < 2, Mounts tokens level e := by
  induction e with
  | literal value =>
    have hreads : ∀ level ≤ 2, Reads tokens level (.literal value) := fun level hlevel =>
      reads_of_own hclear (Nat.le_refl 2) (reads_literal hclear value) hlevel
    refine ⟨hreads, ?_⟩
    intro level hlevel
    exact mounts_of_tighter (hreads (level + 1) hlevel) (Nat.ne_of_gt hlevel)
  | binary left op payload right ihl ihr =>
    have hop := op.level_lt_two
    have hmount : Mounts tokens op.level (.binary left op payload right) :=
      mounts_binary hclear (ihl.2 op.level hop) (ihr.1 (op.level + 1) hop)
    have hreads : ∀ level ≤ 2, Reads tokens level (.binary left op payload right) :=
      fun level hlevel => reads_of_own hclear (Nat.le_of_lt hop)
        (reads_of_mounts hclear hop hmount rfl) hlevel
    refine ⟨hreads, ?_⟩
    intro level hlevel
    by_cases hown : op.level = level
    · exact hown ▸ hmount
    · exact mounts_of_tighter (hreads (level + 1) hlevel) hown

end Levels

/-! ## Parses -/

namespace Expression

/-- **Parsing undoes writing**: the parse of the tokens of a tree is the tree, for every tree and
every limit that leaves three rules for each pair of parentheses around a token and three more. -/
theorem parse_tokens (e : Expression) {limit : Int}
    (hlimit : ((3 * (nesting e.tokens + 1) : Nat) : Int) ≤ limit) :
    document.grammar = .ok grammar ∧ (grammar.parse limit e.tokens).result = .ok e.tree := by
  refine ⟨grammar_document, ?_⟩
  have hdepth := le_effectiveDepth (by omega) hlimit
  have hreads := (reads_and_mounts e.kind_ne_of_mem_tokens e).1 0 (Nat.zero_le 2)
    (effectiveDepth limit) .origin []
  rw [tokensAt_of_le (Nat.zero_le e.level), List.append_nil] at hreads
  obtain ⟨houtcome, hcursor⟩ := hreads rfl nofun (by omega)
  have hstart : grammar.start = ruleOf 0 := rfl
  rw [Grammar.parse_eq_parseRule built.wellFormed, hstart, Grammar.parseRule_result (has_ruleOf 0),
    Setting.evaluate_eq_readRule (s := setting e.tokens) built.wellFormed]
  have hend : (Cursor.origin.past e.tokens.length).index = e.tokens.length := Nat.zero_add _
  simp only [Grammar.conclusion, houtcome, hcursor, hend, Nat.lt_irrefl, if_false]

/-- An integer with its number as payload. -/
def integer (n : Int) : Expression := literal (.ofInt n)

/-- The difference of one and a difference, times a quotient: `(1 - (2 - 3)) * ((4 + 5) / 6)`. -/
def mixed : Expression :=
  .binary (.binary (integer 1) .sub .null (.binary (integer 2) .sub .null (integer 3))) .mul .null
    (.binary (.binary (integer 4) .add .null (integer 5)) .div .null (integer 6))

/-- Both operands of the product stand in parentheses, and so do the right operand of the difference
and the sum. The limit is the bound itself. -/
theorem parse_tokens_mixed :
    mixed.tokens.map (·.kind) =
        ["OPAREN", "INT", "SUB", "OPAREN", "INT", "SUB", "INT", "CPAREN", "CPAREN", "MUL", "OPAREN",
          "OPAREN", "INT", "ADD", "INT", "CPAREN", "DIV", "INT", "CPAREN"] ∧
      nesting mixed.tokens = 2 ∧ ((3 * (nesting mixed.tokens + 1) : Nat) : Int) ≤ 9 ∧
      document.grammar = .ok grammar ∧ (grammar.parse 9 mixed.tokens).result = .ok mixed.tree := by
  have hkinds : mixed.tokens.map (·.kind) =
      ["OPAREN", "INT", "SUB", "OPAREN", "INT", "SUB", "INT", "CPAREN", "CPAREN", "MUL", "OPAREN",
        "OPAREN", "INT", "ADD", "INT", "CPAREN", "DIV", "INT", "CPAREN"] := rfl
  have hnesting : nesting mixed.tokens = 2 := rfl
  have hlimit : ((3 * (nesting mixed.tokens + 1) : Nat) : Int) ≤ 9 := by rw [hnesting]; decide
  exact ⟨hkinds, hnesting, hlimit, parse_tokens mixed hlimit⟩

end Expression

end TokenGrammar.Arithmetic
