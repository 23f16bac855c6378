import TokenGrammar.Value.Basic

/-!
# Tokens

A token is a kind with a payload. A null payload means that the token carries only its kind.
-/
namespace TokenGrammar

/-- A lexeme of the input: its kind, and a payload that is null if there is none. -/
structure Token where
  kind : String
  value : Value
deriving Inhabited

namespace Token

/-- A token that carries only its kind. -/
def bare (kind : String) : Token := ⟨kind, .null⟩

/-- Whether a token carries a payload; the empty text is one. -/
def hasValue (t : Token) : Bool := !t.value.isNull

/-- A token as a value. -/
def toValue (t : Token) : Value := .token t.kind t.value

/-- A value as a token, if it is one. -/
def ofValue? : Value → Option Token
  | .token kind value => some ⟨kind, value⟩
  | _ => none

@[simp] theorem ofValue?_toValue (t : Token) : ofValue? t.toValue = some t := rfl

/-- The text of a token: its kind, and its payload if there is something to show, in brackets. -/
def render (t : Token) : String := t.toValue.render

end Token
end TokenGrammar
