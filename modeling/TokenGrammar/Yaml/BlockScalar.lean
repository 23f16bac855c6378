import TokenGrammar.Number.Decimal
import TokenGrammar.Yaml.Source

/-!
# YAML block scalars

A block scalar starts after a bar or an angle bracket and goes on as long as its lines are indented.
After a bar the breaks between the lines are kept; after an angle bracket they are folded, but not
around lines that start with a blank. What happens to the breaks at the end and how far the lines are
indented may be told in front of the first line.

## Main definitions

* `Chomp`, `Header`: what is told in front of the first line.
* `readBlock`: a block scalar.
-/
namespace TokenGrammar.Yaml

/-- What happens to the breaks at the end of a block scalar: all go, one stays, or all stay. -/
inductive Chomp where
  | strip
  | clip
  | keep
deriving Repr, DecidableEq, Inhabited

/-- What is told in front of the first line. Without an increment the first line that is not empty
sets the indentation. -/
structure Header where
  chomp : Chomp
  increment : Option Nat
deriving Repr, DecidableEq, Inhabited

/-- The mark for the breaks at the end. -/
def chompOf? : List Char → Option (Chomp × List Char)
  | '+' :: rest => some (.keep, rest)
  | '-' :: rest => some (.strip, rest)
  | _ => none

/-- The digit for the indentation; a zero is refused. -/
def incrementOf? : List Char → Option (Option Nat × List Char)
  | [] => some (none, [])
  | c :: rest =>
    match Number.digitsValue? 10 [c] with
    | none => some (none, c :: rest)
    | some n => if n = 0 then none else some (some n, rest)

/-- Reads the two marks in either order; each may be missing. -/
def readHeader? (cs : List Char) : Option (Header × List Char) :=
  match chompOf? cs with
  | some (chomp, rest) =>
    (incrementOf? rest).map fun (increment, rest) => (⟨chomp, increment⟩, rest)
  | none =>
    match incrementOf? cs with
    | none => none
    | some (none, rest) => some (⟨.clip, none⟩, rest)
    | some (some n, rest) =>
      match chompOf? rest with
      | some (chomp, rest) => some (⟨chomp, some n⟩, rest)
      | none => some (⟨.clip, some n⟩, rest)

/-- The source after the first line, on which only a comment may follow. -/
def afterHeader? (s : Source) : Option Source :=
  let blank := s.skipWhile isSpace
  let bare :=
    match blank.rest with
    | '#' :: _ => blank.skipWhile (!isBreak ·)
    | _ => blank
  match bare.rest with
  | [] => some bare
  | c :: _ => if isBreak c then some bare.newline.1 else none

/-- Passes over empty lines and the indentation of the next line. While the indentation is not known
all blanks belong to it. Gives the breaks, newest first, the widest line, and the source; a tab in
the indentation is refused. -/
def skipIndentation (indent : Option Nat) (breaks : List Char) (widest : Nat) (s : Source) :
    Nat → Option (List Char × Nat × Source)
  | 0 => none
  | fuel + 1 =>
    let blanks := (s.rest.takeWhile (· = ' ')).length
    let start := s.advance ((indent.map fun n => min blanks (n - s.column)).getD blanks)
    let widest := max widest start.column
    match start.rest with
    | [] => some (breaks, widest, start)
    | c :: _ =>
      if c = '\t' && (indent.map fun n => decide (start.column < n)).getD true then none
      else if isBreak c then
        let (next, written) := start.newline
        skipIndentation indent (written :: breaks) widest next fuel
      else some (breaks, widest, start)

/-- A block scalar that is being read: its text, the break after its last line and the further breaks,
all newest first, and whether its last line starts with a blank. -/
structure Block where
  seen : List Char
  lastBreak : List Char
  breaks : List Char
  blank : Bool

/-- Joins the waiting breaks to the text in front of a line. -/
def Block.settle (b : Block) (literal blank : Bool) : List Char :=
  let folded := !literal && !b.blank && !blank && b.lastBreak = ['\n']
  if folded then if b.breaks.isEmpty then ' ' :: b.seen else b.breaks ++ b.seen
  else b.breaks ++ b.lastBreak ++ b.seen

/-- Reads the lines that start at the indentation. -/
def readLines (literal : Bool) (indent : Nat) (b : Block) (s : Source) :
    Nat → Option (Block × Source)
  | 0 => none
  | fuel + 1 =>
    if s.column ≠ indent || s.rest.isEmpty then some (b, s)
    else
      let blank := (s.rest.head?.map isSpace).getD false
      let line := s.rest.takeWhile (!isBreak ·)
      let ended := s.advance line.length
      let seen := line.reverse ++ b.settle literal blank
      let (next, lastBreak) :=
        match ended.rest with
        | [] => (ended, [])
        | _ :: _ => (ended.newline.1, [ended.newline.2])
      match skipIndentation (some indent) [] 0 next (next.rest.length + 1) with
      | none => none
      | some (breaks, _, next) => readLines literal indent ⟨seen, lastBreak, breaks, blank⟩ next fuel

/-- Reads a block scalar after its mark; `outer` is the indentation of the collection around it. -/
def readBlock (literal : Bool) (outer : Int) (s : Source) : Option (String × Source) :=
  match readHeader? s.rest with
  | none => none
  | some (header, rest) =>
    match afterHeader? (s.advance (s.rest.length - rest.length)) with
    | none => none
    | some first =>
      let fixed := header.increment.map fun n => (max outer 0).toNat + n
      match skipIndentation fixed [] 0 first (first.rest.length + 1) with
      | none => none
      | some (breaks, widest, start) =>
        let indent := fixed.getD (max widest (max (outer + 1) 1).toNat)
        (readLines literal indent ⟨[], [], breaks, false⟩ start (start.rest.length + 1)).map
          fun (b, after) =>
            let ending :=
              match header.chomp with
              | .strip => []
              | .clip => b.lastBreak
              | .keep => b.breaks ++ b.lastBreak
            (String.ofList (ending ++ b.seen).reverse, after)

end TokenGrammar.Yaml
