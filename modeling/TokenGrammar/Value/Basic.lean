import TokenGrammar.Calendar
import TokenGrammar.Number.Shortest

/-!
# Dynamic values

Tokens carry values, strategies produce them, and grammar documents list them. A value is null, a
scalar, a list, a map, or one of the result shapes: a token, a tagged node, a pair of tokens or an
operator applied to two operands. The keys of a map are texts; a map of the other kind has scalars
of any type as its keys.

## Main definitions

* `Value`: the values.
* `ValueType`, `Value.type?`: the type of a value; null has none.
* `Value.render`: the text of a value in messages, traces and trees.
* `Value.sameAs`: structural equality, in which the types matter.
* `Value.agreesWith`: the looser equality of payloads, in which a text also stands for everything
  that is written that way.
* `Value.keyLe`: the order of the keys of a map.
-/
namespace TokenGrammar

open Number (Binary64)

/-- The width of an integer: a machine word, or a width that a document format prescribes. -/
inductive IntKind where
  | word
  | signed64
  | unsigned64
deriving Repr, DecidableEq, Inhabited

/-- A dynamic value. The entries of both kinds of maps are sorted by key. -/
inductive Value where
  | null
  | text (s : String)
  | bool (b : Bool)
  | int (kind : IntKind) (n : Int)
  | float (x : Binary64)
  | time (t : Moment)
  | list (items : List Value)
  | map (entries : List (String × Value))
  | keyed (entries : List (Value × Value))
  | token (kind : String) (payload : Value)
  | node (tag : String) (children : List Value)
  | pair (left right : Value)
  | binary (left : Value) (op : String) (right : Value)
deriving Inhabited

/-- The type of a value that is not null. -/
inductive ValueType where
  | text
  | bool
  | int (kind : IntKind)
  | float
  | time
  | list
  | map
  | keyed
  | token
  | node
  | pair
  | binary
deriving Repr, DecidableEq, Inhabited

/-- The name of a type in messages. -/
def ValueType.name : ValueType → String
  | .text => "string"
  | .bool => "bool"
  | .int .word => "int"
  | .int .signed64 => "int64"
  | .int .unsigned64 => "uint64"
  | .float => "float64"
  | .time => "time.Time"
  | .list => "[]interface \x7b\x7d"
  | .map => "map[string]interface \x7b\x7d"
  | .keyed => "map[interface \x7b\x7d]interface \x7b\x7d"
  | .token => "token.Token"
  | .node => "grammarfile.Node"
  | .pair => "main.Pair"
  | .binary => "main.Binary"

namespace Value

/-- An integer of the machine's width. -/
abbrev ofInt (n : Int) : Value := .int .word n

/-- The type of a value; null has none. -/
def type? : Value → Option ValueType
  | .null => none
  | .text _ => some .text
  | .bool _ => some .bool
  | .int kind _ => some (.int kind)
  | .float _ => some .float
  | .time _ => some .time
  | .list _ => some .list
  | .map _ => some .map
  | .keyed _ => some .keyed
  | .token .. => some .token
  | .node .. => some .node
  | .pair .. => some .pair
  | .binary .. => some .binary

/-- The name of the type of a value in messages. -/
def typeName (v : Value) : String :=
  match v.type? with
  | none => "<nil>"
  | some t => t.name

/-- Whether a value is null. -/
def isNull : Value → Bool
  | .null => true
  | _ => false

@[simp] theorem isNull_eq_true {v : Value} : v.isNull = true ↔ v = .null := by
  cases v <;> simp [isNull]

/-! ## Text -/

mutual

/-- The text of a value.

A token shows its payload only where there is something to show: null and the empty text are left
out. -/
def render : Value → String
  | .null => "<nil>"
  | .text s => s
  | .bool b => if b then "true" else "false"
  | .int _ n => Number.integerText n
  | .float x => x.text
  | .time t => t.render
  | .list items => "[" ++ " ".intercalate (renderAll items) ++ "]"
  | .map entries => "map[" ++ " ".intercalate (renderEntries entries) ++ "]"
  | .keyed entries => "map[" ++ " ".intercalate (renderKeyed entries) ++ "]"
  | .token kind .null => "[" ++ kind ++ "]"
  | .token kind (.text s) => if s = "" then "[" ++ kind ++ "]" else "[" ++ kind ++ ":" ++ s ++ "]"
  | .token kind payload => "[" ++ kind ++ ":" ++ render payload ++ "]"
  | .node tag children => tag ++ "(" ++ ", ".intercalate (renderAll children) ++ ")"
  | .pair left right => "<" ++ render left ++ "," ++ render right ++ ">"
  | .binary left op right => "(" ++ render left ++ " " ++ op ++ " " ++ render right ++ ")"

/-- The texts of several values. -/
def renderAll : List Value → List String
  | [] => []
  | v :: vs => render v :: renderAll vs

/-- The texts of map entries: key, colon, value. -/
def renderEntries : List (String × Value) → List String
  | [] => []
  | (key, v) :: rest => (key ++ ":" ++ render v) :: renderEntries rest

/-- The texts of map entries whose keys are values. -/
def renderKeyed : List (Value × Value) → List String
  | [] => []
  | (key, v) :: rest => (render key ++ ":" ++ render v) :: renderKeyed rest

end

@[simp] theorem renderAll_eq_map (vs : List Value) : renderAll vs = vs.map render := by
  induction vs with
  | nil => rfl
  | cons v vs ih => simp [renderAll, ih]

/-! ## Equality -/

mutual

/-- Structural equality. Integers of different widths differ, an integer is never a floating-point
number, and not-a-number differs from itself. -/
def sameAs : Value → Value → Bool
  | .null, .null => true
  | .text a, .text b => a == b
  | .bool a, .bool b => a == b
  | .int k a, .int l b => k == l && a == b
  | .float a, .float b => a.eq b
  | .time a, .time b => a == b
  | .list as, .list bs => allSameAs as bs
  | .map as, .map bs => entriesSameAs as bs
  | .keyed as, .keyed bs => keyedSameAs as bs
  | .token k a, .token l b => k == l && sameAs a b
  | .node s as, .node t bs => s == t && allSameAs as bs
  | .pair a b, .pair c d => sameAs a c && sameAs b d
  | .binary a o b, .binary c p d => sameAs a c && o == p && sameAs b d
  | _, _ => false

/-- Equality of lists, element by element. -/
def allSameAs : List Value → List Value → Bool
  | [], [] => true
  | a :: as, b :: bs => sameAs a b && allSameAs as bs
  | _, _ => false

/-- Equality of sorted map entries, key by key. -/
def entriesSameAs : List (String × Value) → List (String × Value) → Bool
  | [], [] => true
  | (k, a) :: as, (l, b) :: bs => k == l && sameAs a b && entriesSameAs as bs
  | _, _ => false

/-- Equality of sorted map entries whose keys are values. -/
def keyedSameAs : List (Value × Value) → List (Value × Value) → Bool
  | [], [] => true
  | (k, a) :: as, (l, b) :: bs => sameAs k l && sameAs a b && keyedSameAs as bs
  | _, _ => false

end

/-- Whether a value is a text. -/
def isText : Value → Bool
  | .text _ => true
  | _ => false

/-- Equality of payloads: structural equality, or equal texts where one side is a text and neither
is null. So the text `5` agrees with the integer 5, and null agrees with null alone. -/
def agreesWith (a b : Value) : Bool :=
  a.sameAs b || (!a.isNull && !b.isNull && (a.isText || b.isText) && a.render == b.render)

/-! ## Keys -/

/-- The place of the type of a key among the types. -/
def keyRank : Value → Nat
  | .null => 0
  | .text _ => 1
  | .int .unsigned64 _ => 2
  | .int .signed64 _ => 3
  | .int .word _ => 4
  | .float _ => 5
  | .bool _ => 6
  | _ => 7

/-- The order of keys of one type. -/
def scalarLe : Value → Value → Bool
  | .text a, .text b => a ≤ b
  | .int _ a, .int _ b => a ≤ b
  | .float a, .float b => a.le b
  | .bool a, .bool b => !a || b
  | .time a, .time b => a.le b
  | _, _ => true

/-- The order of the keys of a map: by their types, then by their values. -/
def keyLe (a b : Value) : Bool :=
  a.keyRank < b.keyRank || (a.keyRank == b.keyRank && a.scalarLe b)

end Value
end TokenGrammar
