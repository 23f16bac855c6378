import TokenGrammar.Token.Basic
import Mathlib.Logic.Function.Basic

/-!
# Written expressions

Trees of integers and operators, and the tokens that they are written with. There are two levels of
operators, and parentheses stand only where the levels ask for them: around a left operand that binds
looser than the operator, and around a right operand that does not bind tighter, since chains are
read from the left.

The nesting of parentheses is a property of tokens, not of trees. In what a tree is written with all
parentheses are balanced, and so the nesting of the parts gives that of the whole.

## Main definitions

* `Arithmetic.Expression`: the trees, with `Expression.tree` as their values.
* `Arithmetic.Expression.tokens`: how a tree is written.
* `Arithmetic.nesting`: the depth of nested parentheses in tokens.
-/
namespace TokenGrammar.Arithmetic

/-! ## Expressions -/

/-- The operators. -/
inductive Operator where
  | add
  | sub
  | mul
  | div
deriving Repr, DecidableEq, Inhabited

namespace Operator

/-- All operators. -/
def all : List Operator := [add, sub, mul, div]

/-- The kind of the token of an operator. -/
def kind : Operator → String
  | add => "ADD"
  | sub => "SUB"
  | mul => "MUL"
  | div => "DIV"

/-- How tightly an operator binds. -/
def level : Operator → Nat
  | add | sub => 0
  | mul | div => 1

theorem level_lt_two (op : Operator) : op.level < 2 := by
  cases op <;> decide

theorem kind_injective : Function.Injective kind := by
  intro op op' h
  cases op <;> cases op' <;> first | rfl | exact absurd h (by decide)

/-- Operators are neither trivia nor parentheses. -/
theorem kind_ne (op : Operator) : op.kind ≠ "NL" ∧ op.kind ≠ "OPAREN" ∧ op.kind ≠ "CPAREN" := by
  cases op <;> decide

end Operator

/-- Trees of integers and operators. The tokens of both may carry any payload. -/
inductive Expression where
  | literal (value : Value)
  | binary (left : Expression) (op : Operator) (payload : Value) (right : Expression)
deriving Inhabited

/-- Tokens in parentheses. -/
def parenthesized (tokens : List Token) : List Token :=
  .bare "OPAREN" :: (tokens ++ [.bare "CPAREN"])

@[simp] theorem length_parenthesized (tokens : List Token) :
    (parenthesized tokens).length = tokens.length + 2 := by
  simp [parenthesized]

theorem mem_parenthesized {t : Token} {tokens : List Token} :
    t ∈ parenthesized tokens ↔ t = .bare "OPAREN" ∨ t ∈ tokens ∨ t = .bare "CPAREN" := by
  simp [parenthesized]

namespace Expression

/-- The value of a tree: a node for every operator and every integer. -/
def tree : Expression → Value
  | literal value => .node "Literal" [.token "INT" value]
  | binary left op payload right =>
    .node "BinaryOp" [left.tree, .token op.kind payload, right.tree]

/-- How tightly a tree binds: as its operator does, and an integer tighter than every operator. -/
def level : Expression → Nat
  | literal _ => 2
  | binary _ op _ _ => op.level

/-- The tokens of a tree with the fewest parentheses: around a left operand that binds looser than
the operator, and around a right operand that does not bind tighter. -/
def tokens : Expression → List Token
  | literal value => [⟨"INT", value⟩]
  | binary left op payload right =>
    (if left.level < op.level then parenthesized left.tokens else left.tokens) ++
      ⟨op.kind, payload⟩ ::
        (if right.level ≤ op.level then parenthesized right.tokens else right.tokens)

/-- The tokens of a tree where nothing looser than a level may stand. -/
def tokensAt (level : Nat) (e : Expression) : List Token :=
  if e.level < level then parenthesized e.tokens else e.tokens

variable {e : Expression} {level : Nat}

theorem tokens_binary (left : Expression) (op : Operator) (payload : Value) (right : Expression) :
    (binary left op payload right).tokens =
      left.tokensAt op.level ++ ⟨op.kind, payload⟩ :: right.tokensAt (op.level + 1) := by
  simp only [tokens, tokensAt, Nat.lt_succ_iff]

theorem tokensAt_of_le (h : level ≤ e.level) : e.tokensAt level = e.tokens :=
  if_neg (Nat.not_lt.mpr h)

theorem tokensAt_of_lt (h : e.level < level) : e.tokensAt level = parenthesized e.tokens :=
  if_pos h

/-- Only a tree of the level itself is written in another way one level further up. -/
theorem tokensAt_succ (h : e.level ≠ level) : e.tokensAt (level + 1) = e.tokensAt level := by
  have hiff : e.level < level + 1 ↔ e.level < level := by omega
  simp only [tokensAt, hiff]

theorem kind_ne_of_mem_tokensAt (h : ∀ t ∈ e.tokens, t.kind ≠ "NL") :
    ∀ t ∈ e.tokensAt level, t.kind ≠ "NL" := by
  intro t ht
  rw [tokensAt] at ht
  split at ht
  · rcases mem_parenthesized.mp ht with rfl | hin | rfl
    · decide
    · exact h t hin
    · decide
  · exact h t ht

/-- No tree is written with line ends. -/
theorem kind_ne_of_mem_tokens (e : Expression) : ∀ t ∈ e.tokens, t.kind ≠ "NL" := by
  induction e with
  | literal value => simp [tokens]
  | binary left op payload right ihl ihr =>
    intro t ht
    rw [tokens_binary, List.mem_append, List.mem_cons] at ht
    rcases ht with hleft | rfl | hright
    · exact kind_ne_of_mem_tokensAt ihl t hleft
    · exact op.kind_ne.1
    · exact kind_ne_of_mem_tokensAt ihr t hright

end Expression

/-! ## Nested parentheses -/

/-- The largest number of parentheses that are open at a time, of which some are open already. -/
def nestingFrom (opened : Nat) : List Token → Nat
  | [] => opened
  | t :: ts =>
    if t.kind = "OPAREN" then nestingFrom (opened + 1) ts
    else if t.kind = "CPAREN" then max opened (nestingFrom (opened - 1) ts)
    else nestingFrom opened ts

/-- The depth of nested parentheses. -/
def nesting (tokens : List Token) : Nat := nestingFrom 0 tokens

theorem le_nestingFrom (opened : Nat) (ts : List Token) : opened ≤ nestingFrom opened ts := by
  induction ts generalizing opened with
  | nil => exact Nat.le_refl opened
  | cons t ts ih =>
    have hopen := ih (opened + 1)
    have hsame := ih opened
    rw [nestingFrom]
    split
    · omega
    · split <;> omega

/-- Every parenthesis of the tokens is closed among them, so what follows is as deep as before. -/
def Balanced (ts : List Token) : Prop :=
  ∀ opened rest, nestingFrom opened (ts ++ rest) =
    max (opened + nesting ts) (nestingFrom opened rest)

theorem balanced_singleton {t : Token} (hopen : t.kind ≠ "OPAREN") (hclose : t.kind ≠ "CPAREN") :
    Balanced [t] := by
  intro opened rest
  have hle := le_nestingFrom opened rest
  simp only [nesting, List.singleton_append, nestingFrom, if_neg hopen, if_neg hclose]
  omega

namespace Balanced

variable {ts us : List Token}

theorem nesting_append (h : Balanced ts) (us : List Token) :
    nesting (ts ++ us) = max (nesting ts) (nesting us) := by
  have hrest := h 0 us
  rw [Nat.zero_add] at hrest
  exact hrest

theorem append (ht : Balanced ts) (hu : Balanced us) : Balanced (ts ++ us) := by
  intro opened rest
  rw [List.append_assoc, ht, hu, ht.nesting_append]
  omega

theorem nestingFrom_parenthesized (h : Balanced ts) (opened : Nat) (rest : List Token) :
    nestingFrom opened (parenthesized ts ++ rest) =
      max (opened + (nesting ts + 1)) (nestingFrom opened rest) := by
  have hle := le_nestingFrom opened rest
  have hclose : nestingFrom (opened + 1) (.bare "CPAREN" :: rest) =
      max (opened + 1) (nestingFrom opened rest) := rfl
  calc nestingFrom opened (parenthesized ts ++ rest)
    _ = nestingFrom (opened + 1) (ts ++ .bare "CPAREN" :: rest) := by
      rw [parenthesized, List.cons_append, List.append_assoc]
      rfl
    _ = max (opened + 1 + nesting ts) (max (opened + 1) (nestingFrom opened rest)) := by
      rw [h, hclose]
    _ = max (opened + (nesting ts + 1)) (nestingFrom opened rest) := by omega

theorem nesting_parenthesized (h : Balanced ts) : nesting (parenthesized ts) = nesting ts + 1 := by
  have hnil := h.nestingFrom_parenthesized 0 []
  rw [List.append_nil, nestingFrom] at hnil
  rw [nesting, hnil]
  omega

protected theorem parenthesized (h : Balanced ts) : Balanced (parenthesized ts) := by
  intro opened rest
  rw [h.nestingFrom_parenthesized, h.nesting_parenthesized]

end Balanced

theorem Operator.balanced (op : Operator) (payload : Value) : Balanced [⟨op.kind, payload⟩] := by
  obtain ⟨-, hopen, hclose⟩ := op.kind_ne
  exact balanced_singleton hopen hclose

namespace Expression

theorem balanced_tokensAt {e : Expression} (h : Balanced e.tokens) (level : Nat) :
    Balanced (e.tokensAt level) := by
  rw [tokensAt]
  split
  · exact h.parenthesized
  · exact h

theorem balanced_tokens (e : Expression) : Balanced e.tokens := by
  induction e with
  | literal value => exact balanced_singleton (by simp) (by simp)
  | binary left op payload right ihl ihr =>
    rw [tokens_binary, ← List.singleton_append]
    exact (balanced_tokensAt ihl _).append
      ((op.balanced payload).append (balanced_tokensAt ihr _))

theorem nesting_binary (left : Expression) (op : Operator) (payload : Value) (right : Expression) :
    nesting (binary left op payload right).tokens =
      max (nesting (left.tokensAt op.level)) (nesting (right.tokensAt (op.level + 1))) := by
  have hop : nesting [⟨op.kind, payload⟩] = 0 := by cases op <;> rfl
  rw [tokens_binary, ← List.singleton_append,
    (balanced_tokensAt left.balanced_tokens _).nesting_append, (op.balanced payload).nesting_append,
    hop, Nat.zero_max]

end Expression

end TokenGrammar.Arithmetic
