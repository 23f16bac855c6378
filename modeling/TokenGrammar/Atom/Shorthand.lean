import TokenGrammar.Atom.Basic
import TokenGrammar.Text.Blank
import TokenGrammar.Text.Quoted

/-!
# Atom shorthand

The written form of an atom: `@KIND`, `@KIND:value` or `$rule`, each with an optional `&` at the
end for a skipped atom. The final `&` is taken off before the colon is looked for, so a value may
contain either.

## Main definitions

* `ShorthandError`: the three ways in which a text fails to be a shorthand.
* `Atom.read`: the atom that a text writes.
-/
namespace TokenGrammar

/-- What is wrong with a text that should be a shorthand. -/
inductive ShorthandError where
  /-- The text starts with neither sigil. -/
  | noSigil (text : String)
  /-- A rule is followed by a colon. -/
  | ruleWithValue (text : String)
  /-- Nothing stands where the name should. -/
  | noName (text : String)
deriving Repr, DecidableEq

/-- The wording of a shorthand error, which always quotes the whole text. -/
def ShorthandError.message : ShorthandError → String
  | .noSigil text => Text.quoted text ++ ": expecting '@' or '$' sigil"
  | .ruleWithValue text => Text.quoted text ++ ": rule references cannot carry a value"
  | .noName text => Text.quoted text ++ ": missing name"

namespace Atom

/-- A text without a final `&`, and whether there was one. -/
def takeSkip (body : List Char) : List Char × Bool :=
  if body.getLast? = some '&' then (body.dropLast, true) else (body, false)

/-- The atom after the sigil; `text` is the whole shorthand, for messages. -/
def readBody (text : String) (kind : AtomKind) (body : List Char) : Except ShorthandError Atom :=
  let (unmarked, skip) := takeSkip body
  match kind, Text.cut ':' unmarked with
  | .rule, (_, some _) => .error (.ruleWithValue text)
  | _, ([], _) => .error (.noName text)
  | _, (name, value) =>
    .ok ⟨kind, String.ofList name, value.map fun v => .text (String.ofList v), skip⟩

/-- The atom that a text writes. -/
def read (text : String) : Except ShorthandError Atom :=
  match text.toList with
  | '@' :: body => readBody text .token body
  | '$' :: body => readBody text .rule body
  | _ => .error (.noSigil text)

end Atom
end TokenGrammar
