import TokenGrammar.Token.Basic

/-!
# Atoms

An atom asks for one thing: a token of a kind, possibly with a payload, or whatever a named rule
derives. A skipped atom has to match but leaves nothing in the captured data.

## Main definitions

* `Atom`: the atoms, with `Atom.token` and `Atom.rule` to make them.
* `Atom.render`: the shorthand of an atom.
* `Atom.accepts`: the tokens that a token atom accepts.
* `IgnoreSet.has`: the tokens that a list of atoms marks as trivia.
-/
namespace TokenGrammar

/-- What an atom refers to. -/
inductive AtomKind where
  | token
  | rule
deriving Repr, DecidableEq, Inhabited

/-- A reference to a token kind or to a rule. -/
structure Atom where
  kind : AtomKind
  name : String
  /-- The payload that a token has to carry, if any payload is asked for. -/
  value : Option Value
  /-- Whether the match is left out of the captured data. -/
  skip : Bool
deriving Inhabited

namespace Atom

/-- The atom that accepts every token of a kind. -/
def token (kind : String) : Atom := ⟨.token, kind, none, false⟩

/-- The atom that refers to a rule. -/
def rule (name : String) : Atom := ⟨.rule, name, none, false⟩

/-- The atom with a payload asked for. -/
def withValue (a : Atom) (v : Value) : Atom := { a with value := some v }

/-- The atom whose match is not captured. -/
def skipped (a : Atom) : Atom := { a with skip := true }

/-- Whether the atom refers to a rule. -/
def isRule (a : Atom) : Bool := a.kind == .rule

/-- The character in front of a name that tells tokens and rules apart. -/
def sigil (kind : AtomKind) : Char :=
  match kind with
  | .token => '@'
  | .rule => '$'

/-- The shorthand of an atom: sigil, name, colon and payload if one is asked for, and `&` if it is
skipped. -/
def render (a : Atom) : String :=
  String.ofList (sigil a.kind :: a.name.toList) ++
    (match a.value with
     | none => ""
     | some v => ":" ++ v.render) ++
    (if a.skip then "&" else "")

/-- Whether a token satisfies the atom; a rule atom accepts none. -/
def accepts (a : Atom) (t : Token) : Bool :=
  !a.isRule && t.kind == a.name &&
    match a.value with
    | none => true
    | some v => t.value.agreesWith v

/-- Whether what stands at a position satisfies the atom; the end of the input never does. -/
def acceptsAt (a : Atom) : Option Token → Bool
  | none => false
  | some t => a.accepts t

end Atom

/-- The atoms whose tokens may be skipped between the tokens that count. -/
abbrev IgnoreSet := List Atom

namespace IgnoreSet

/-- Whether a token is trivia. -/
def has (s : IgnoreSet) (t : Token) : Bool := s.any (·.accepts t)

/-- Whether there is a token at a position and it is trivia. -/
def hasAt (s : IgnoreSet) : Option Token → Bool
  | none => false
  | some t => s.has t

/-- The shorthands of the atoms, in brackets. -/
def render (s : IgnoreSet) : String := "[" ++ " ".intercalate (s.map Atom.render) ++ "]"

end IgnoreSet
end TokenGrammar
