import TokenGrammar.Content.Basic
import TokenGrammar.Strategy.Basic

/-!
# Grammars

A grammar is a list of variations in the order in which they were committed, a start rule and the
ignore set that holds where a variation has none of its own. The variations of a rule are the
alternatives for its name, in order of priority; a rule exists if it has a variation.

## Main definitions

* `Variation`: one alternative of a rule.
* `Grammar`: the grammars.
* `Grammar.variationsOf`, `Grammar.has`, `Grammar.ruleNames`: the rules of a grammar.
* `Grammar.ignores`: what is trivia for a variation.
* `Grammar.render`: the text of a grammar.
-/
namespace TokenGrammar

/-- One alternative of a rule. -/
structure Variation where
  rule : String
  content : Content
  strategy : Strategy
  /-- The ignore set that replaces the one of the grammar, if there is one; it may be empty. -/
  ignore : Option IgnoreSet
  /-- Whether trivia skipped at the end of the variation stays consumed. -/
  preventRollback : Bool
deriving Inhabited

/-- The text of a variation: rule, content, strategy and what differs from the usual. -/
def Variation.render (v : Variation) : String :=
  v.rule ++ " -> " ++ v.content.render ++ " => " ++ v.strategy.render ++
    (match v.ignore with
     | none => ""
     | some set => " ignoring" ++ set.render) ++
    (if v.preventRollback then " !rollback" else "")

/-! ## Sorted names -/

/-- Inserts a name into sorted names, once. -/
def insertName (name : String) : List String → List String
  | [] => [name]
  | n :: ns =>
    if name = n then n :: ns
    else if name < n then name :: n :: ns
    else n :: insertName name ns

/-- The distinct names of a list, in ascending order. -/
def sortedNames (names : List String) : List String := names.foldr insertName []

theorem mem_insertName {a name : String} {names : List String} :
    a ∈ insertName name names ↔ a = name ∨ a ∈ names := by
  induction names with
  | nil => simp [insertName]
  | cons n ns ih =>
    rw [insertName]
    split
    · next h => subst h; simp
    · split
      · simp
      · rw [List.mem_cons, ih, List.mem_cons]
        exact or_left_comm

@[simp] theorem mem_sortedNames {a : String} {names : List String} :
    a ∈ sortedNames names ↔ a ∈ names := by
  induction names with
  | nil => simp [sortedNames]
  | cons n ns ih =>
    rw [sortedNames, List.foldr_cons, mem_insertName, List.mem_cons]
    exact or_congr_right ih

/-! ## Grammars -/

/-- Variations in the order of their commitment, a start rule and an ignore set. -/
structure Grammar where
  start : String
  ignore : IgnoreSet
  variations : List Variation
deriving Inhabited

namespace Grammar

/-- The grammar without rules. -/
def empty : Grammar := ⟨"", [], []⟩

/-- The variations of a rule, in order of priority. -/
def variationsOf (g : Grammar) (rule : String) : List Variation :=
  g.variations.filter (·.rule == rule)

/-- Whether a rule is defined. -/
def has (g : Grammar) (rule : String) : Bool := g.variations.any (·.rule == rule)

/-- The defined rules in ascending order. -/
def ruleNames (g : Grammar) : List String := sortedNames (g.variations.map (·.rule))

/-- The ignore set in force: that of the variation if it has one, and otherwise the global one. -/
def ignoreSetFor (g : Grammar) : Option Variation → IgnoreSet
  | some v => v.ignore.getD g.ignore
  | none => g.ignore

/-- Whether a token is trivia for a variation. -/
def ignores (g : Grammar) (v : Option Variation) (t : Token) : Bool := (g.ignoreSetFor v).has t

/-- The text of a grammar: start, ignore set and the variations sorted by rule, a line for each. -/
def render (g : Grammar) : String :=
  (if g.start = "" then "" else "start: " ++ g.start ++ "\n") ++
    (if g.ignore.isEmpty then ""
     else "ignore:" ++ String.join (g.ignore.map fun a => " " ++ a.render) ++ "\n") ++
    String.join ((g.ruleNames.flatMap g.variationsOf).map fun v => v.render ++ "\n")

theorem has_iff {g : Grammar} {rule : String} : g.has rule = true ↔ g.variationsOf rule ≠ [] := by
  simp [has, variationsOf, List.any_eq_true, List.filter_eq_nil_iff]

theorem mem_ruleNames {g : Grammar} {rule : String} : rule ∈ g.ruleNames ↔ g.has rule = true := by
  simp [ruleNames, has, List.any_eq_true]

end Grammar
end TokenGrammar
