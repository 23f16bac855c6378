import TokenGrammar.Content.Basic

/-!
# Parts

Content is put together from parts: a text is read as shorthand, a ready-made item is taken as it
is, and any other value or item is refused. The first part that is refused decides; nothing is added then.

## Main definitions

* `Part`: what can be offered.
* `Either.oneOf`: a choice from parts.
* `Content.ofParts`: content from parts.
* `IgnoreSet.ofParts`: an ignore set from parts, which have to be token atoms.
-/
namespace TokenGrammar

/-- Something offered as content. -/
inductive Part where
  /-- A value; a text is shorthand. -/
  | value (v : Value)
  /-- A ready-made item. -/
  | item (i : Item)
deriving Inhabited

namespace Part

/-- A part that is written as shorthand. -/
abbrev shorthand (text : String) : Part := .value (.text text)

/-- The name of the type of a part in messages. -/
def typeName : Part → String
  | .value v => v.typeName
  | .item (.atom _) => "grammar.Atom"
  | .item (.either _) => "grammar.Either"
  | .item (.loop .binary _) => "grammar.BinaryLoop"
  | .item (.loop .block _) => "grammar.BlockLoop"
  | .item (.foreign type _) => type

/-- The atom of a part that is offered as a candidate. -/
def candidate : Part → Except CandidateError Atom
  | .value (.text s) => (Atom.read s).mapError .shorthand
  | .item (.atom a) => .ok a
  | p => .error (.type p.typeName)

end Part

/-- A choice between parts. Malformed candidates are left out; the first fault is kept. -/
def Either.oneOf : List Part → Either
  | [] => ⟨[], none⟩
  | p :: ps =>
    let rest := oneOf ps
    match p.candidate with
    | .ok a => ⟨a :: rest.candidates, rest.fault⟩
    | .error e => ⟨rest.candidates, some e⟩

/-- What is wrong with a part that is offered as content. -/
inductive PartError where
  | shorthand (error : ShorthandError)
  | candidate (error : CandidateError)
  | unsupported (typeName text : String)
deriving Inhabited

/-- The wording of a part error. -/
def PartError.message : PartError → String
  | .shorthand error => error.message
  | .candidate error => error.message
  | .unsupported typeName text => "unsupported content " ++ typeName ++ "(" ++ text ++ ")"

/-- The item of a part. -/
def Part.toItem : Part → Except PartError Item
  | .value (.text s) => ((Atom.read s).map .atom).mapError .shorthand
  | .value v => .error (.unsupported v.typeName v.render)
  | .item (.either e) =>
    match e.fault with
    | none => .ok (.either e)
    | some fault => .error (.candidate fault)
  | .item (.foreign type text) => .error (.unsupported type text)
  | .item i => .ok i

/-- The items of parts, or the fault of the first part that is refused. -/
def Content.ofParts : List Part → Except PartError Content
  | [] => .ok []
  | p :: ps =>
    match p.toItem with
    | .error e => .error e
    | .ok i => (Content.ofParts ps).map (i :: ·)

/-- What is wrong with a part of an ignore set. -/
inductive IgnoreError where
  | part (error : PartError)
  | notTokenAtom (i : Item)
deriving Inhabited

/-- The wording of an ignore error. -/
def IgnoreError.message : IgnoreError → String
  | .part error => error.message
  | .notTokenAtom i => "ignore entries must be token atoms, not " ++ i.render

namespace IgnoreSet

/-- The atoms of items, all of which have to be token atoms. -/
def ofItems : Content → Except IgnoreError IgnoreSet
  | [] => .ok []
  | .atom a :: rest =>
    if a.isRule then .error (.notTokenAtom (.atom a)) else (ofItems rest).map (a :: ·)
  | i :: _ => .error (.notTokenAtom i)

/-- The ignore set of parts: first every part has to be content, then every item a token atom. -/
def ofParts (ps : List Part) : Except IgnoreError IgnoreSet :=
  match Content.ofParts ps with
  | .error e => .error (.part e)
  | .ok content => ofItems content

end IgnoreSet
end TokenGrammar
