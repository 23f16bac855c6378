import TokenGrammar.Number.Decimal
import TokenGrammar.Yaml.Source

/-!
# YAML scalars

Reading of plain and quoted scalars from the source. Line breaks inside a scalar are folded: one
break becomes a blank, and more become one break less.

## Main definitions

* `Fold`: the blanks and breaks that wait to be joined to a scalar.
* `readPlain`: a plain scalar, which ends at an indicator, a comment or too little indentation.
* `readQuoted`: a scalar in single or double quotes.
-/
namespace TokenGrammar.Yaml

/-! ## Folding -/

/-- A scalar that is being read, newest character first, and what stands after its last visible
character: blanks of one line, or a first break and further breaks. -/
structure Fold where
  seen : List Char
  blanks : List Char
  broken : Bool
  firstBreak : Option Char
  moreBreaks : List Char
deriving Inhabited

namespace Fold

/-- Nothing read yet. -/
def empty : Fold := ⟨[], [], false, none, []⟩

/-- The text that the waiting blanks and breaks stand for, newest character first. -/
def joint (f : Fold) : List Char :=
  if f.broken then
    match f.firstBreak with
    | some '\n' => if f.moreBreaks.isEmpty then [' '] else f.moreBreaks
    | some c => f.moreBreaks ++ [c]
    | none => f.moreBreaks
  else f.blanks

/-- Joins what waits to the scalar. -/
def settle (f : Fold) : Fold := { empty with seen := f.joint ++ f.seen }

/-- A visible character. -/
def push (f : Fold) (c : Char) : Fold := { f.settle with seen := c :: f.settle.seen }

/-- A blank, which counts only if no break stands before it. -/
def blank (f : Fold) (c : Char) : Fold := if f.broken then f else { f with blanks := c :: f.blanks }

/-- A break. -/
def lineBreak (f : Fold) (c : Char) : Fold :=
  if f.broken then { f with moreBreaks := c :: f.moreBreaks }
  else { f with blanks := [], broken := true, firstBreak := some c }

/-- The text of the scalar. -/
def text (f : Fold) : String := String.ofList f.seen.reverse

end Fold

/-! ## Plain scalars -/

/-- Whether a plain scalar ends before a character: at a colon before a blank, and in flow context
at the flow indicators. -/
def endsPlain (inFlow : Bool) : List Char → Bool
  | [] => true
  | c :: rest =>
    (c = ':' && startsBlank rest) ||
      (inFlow && (c = ',' || c = '?' || c = '[' || c = ']' || c = '\x7b' || c = '\x7d'))

/-- Whether a plain scalar may go on after blanks. -/
def resumesPlain (inFlow : Bool) (indent : Int) (s : Source) : Bool :=
  (inFlow || indent ≤ s.column) && !s.atDocumentMarker && s.rest.head? != some '#'

/-- Reads on in a plain scalar whose lines are indented by `indent`; gives what was read and the
source after it, or nothing if a tab stands in the indentation. -/
def plainFrom (inFlow : Bool) (indent : Int) (f : Fold) (s : Source) : Nat → Option (Fold × Source)
  | 0 => some (f, s)
  | fuel + 1 =>
    match s.rest with
    | [] => some (f, s)
    | c :: rest =>
      if isSpace c then
        if f.broken && c = '\t' && s.column < indent then none
        else next fuel (f.blank c) (s.advance 1)
      else if isBreak c then
        let (after, written) := s.newline
        next fuel (f.lineBreak written) after
      else if endsPlain inFlow (c :: rest) then some (f, s)
      else plainFrom inFlow indent (f.push c) (s.advance 1) fuel
where
  /-- After a blank or a break: further ones are passed over, then the scalar goes on or ends. -/
  next (fuel : Nat) (f : Fold) (s : Source) : Option (Fold × Source) :=
    if !startsBlank s.rest && !resumesPlain inFlow indent s then some (f, s)
    else plainFrom inFlow indent f s fuel

/-- Reads a plain scalar: its text, the source after it, and whether a break was passed. -/
def readPlain (inFlow : Bool) (indent : Int) (s : Source) : Option (String × Source × Bool) :=
  (plainFrom inFlow (indent + 1) .empty s (s.rest.length + 1)).map fun (f, after) =>
    (f.text, after, f.broken)

/-! ## Quoted scalars -/

/-- The characters that stand for others after a backslash. -/
def escape? (c : Char) : Option Char :=
  match c with
  | '0' => some (Char.ofNat 0x00)
  | 'a' => some (Char.ofNat 0x07)
  | 'b' => some (Char.ofNat 0x08)
  | 't' | '\t' => some '\t'
  | 'n' => some '\n'
  | 'v' => some (Char.ofNat 0x0b)
  | 'f' => some (Char.ofNat 0x0c)
  | 'r' => some '\r'
  | 'e' => some (Char.ofNat 0x1b)
  | ' ' => some ' '
  | '"' => some '"'
  | '\'' => some '\''
  | '\\' => some '\\'
  | 'N' => some (Char.ofNat 0x85)
  | '_' => some (Char.ofNat 0xa0)
  | 'L' => some (Char.ofNat 0x2028)
  | 'P' => some (Char.ofNat 0x2029)
  | _ => none

/-- The number of hexadecimal digits after a backslash and a letter. -/
def escapeWidth? (c : Char) : Option Nat :=
  match c with
  | 'x' => some 2
  | 'u' => some 4
  | 'U' => some 8
  | _ => none

/-- The character with a code that is written in hexadecimal digits. -/
def codeChar? (digits : List Char) (width : Nat) : Option Char :=
  if digits.length < width then none
  else
    match Number.digitsValue? 16 (digits.take width) with
    | some n =>
      if (0xd800 ≤ n && n ≤ 0xdfff) || 0x10ffff < n then none else some (Char.ofNat n)
    | none => none

/-- Reads on in a quoted scalar; gives the scalar and the source after the closing quote. -/
def quotedFrom (double : Bool) (f : Fold) (s : Source) : Nat → Option (Fold × Source)
  | 0 => none
  | fuel + 1 =>
    if s.atDocumentMarker then none
    else
      match s.rest with
      | [] => none
      | c :: rest =>
        if isSpace c then quotedFrom double (f.blank c) (s.advance 1) fuel
        else if isBreak c then
          let (after, written) := s.newline
          quotedFrom double (f.lineBreak written) after fuel
        else if double then
          if c = '"' then some (f.settle, s.advance 1)
          else if c = '\\' then
            match rest with
            | [] => none
            | e :: digits =>
              if isBreak e then
                quotedFrom double { f.settle with broken := true } (s.advance 1).newline.1 fuel
              else
                match escape? e, escapeWidth? e with
                | some c, _ => quotedFrom double (f.push c) (s.advance 2) fuel
                | none, some width =>
                  match codeChar? digits width with
                  | some c => quotedFrom double (f.push c) (s.advance (2 + width)) fuel
                  | none => none
                | none, none => none
          else quotedFrom double (f.push c) (s.advance 1) fuel
        else if c = '\'' then
          if rest.head? = some '\'' then quotedFrom double (f.push '\'') (s.advance 2) fuel
          else some (f.settle, s.advance 1)
        else quotedFrom double (f.push c) (s.advance 1) fuel

/-- Reads a scalar after its opening quote. -/
def readQuoted (double : Bool) (s : Source) : Option (String × Source) :=
  (quotedFrom double .empty s (s.rest.length + 1)).map fun (f, after) => (f.text, after)

end TokenGrammar.Yaml
