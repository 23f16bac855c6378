import TokenGrammar.Text.Blank
import TokenGrammar.Text.Quoted
import TokenGrammar.Token.Basic

/-!
# Token streams as text

A token stream is written as words between blanks, each a kind alone or a kind, a colon and a
value. Only the first colon of a word divides, so a value may contain colons.

## Main definitions

* `Token.ofWord?`: the token of one word.
* `Token.scan`: the tokens of a text.
* `ScanError`: a word without a kind.
-/
namespace TokenGrammar

/-- A word of a token stream that starts with the colon. -/
structure ScanError where
  index : Nat
  word : String
deriving Repr, DecidableEq

/-- The wording of a scan error. -/
def ScanError.message (e : ScanError) : String :=
  "token " ++ Number.integerText e.index ++ " (" ++ Text.quoted e.word ++ "): missing kind"

namespace Token

/-- The token that a word writes, unless the kind is missing. -/
def ofWord? (word : List Char) : Option Token :=
  match Text.cut ':' word with
  | ([], _) => none
  | (kind, none) => some (bare (String.ofList kind))
  | (kind, some value) => some ⟨String.ofList kind, .text (String.ofList value)⟩

/-- The tokens of words, the first of which has the number `index`; the first word without a kind
ends the reading. -/
def ofWords (index : Nat) : List (List Char) → Except ScanError (List Token)
  | [] => .ok []
  | word :: rest =>
    match ofWord? word with
    | none => .error ⟨index, String.ofList word⟩
    | some t => (ofWords (index + 1) rest).map (t :: ·)

/-- The tokens of a text. -/
def scan (text : String) : Except ScanError (List Token) := ofWords 0 (Text.words text.toList)

end Token
end TokenGrammar
