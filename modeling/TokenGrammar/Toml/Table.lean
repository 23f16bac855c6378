import TokenGrammar.Text.Quoted
import TokenGrammar.Toml.Statement

/-!
# TOML tables

The statements of a text are carried out one after the other on a table that is empty at first. A
header opens a table or a new element of an array of tables; an assignment stores a value in the table
that was opened last. A table on the way to a key comes into being by itself, and as long as it was
only passed through it may still be opened once. A key that is in use is refused, but a key whose
value is an array may be set again.

## Main definitions

* `Value`, `Table`: the data.
* `Filling`: the table that is being filled, with the marks of its keys and their order.
* `Filling.ofStatements?`: the result of a list of statements.
* `Path.render`: the text of a key in messages.
-/
namespace TokenGrammar.Toml

/-- A value. An array of tables is told apart from an array that was written as a value. -/
inductive Value where
  | text (s : String)
  | scalar (s : Scalar)
  | array (items : List Value)
  | tables (elements : List (List (String × Value)))
  | table (entries : List (String × Value))
deriving Repr, Inhabited

/-- The entries of a table; each name stands once. -/
abbrev Table := List (String × Value)

/-- The names on the way to a key, outermost first. -/
abbrev Path := List String

namespace Path

/-- The text of a character between quotes. -/
def quotedChar (c : Char) : List Char :=
  if c = '"' then ['\\', '"']
  else if c = '\\' then ['\\', '\\']
  else if c = Char.ofNat 0x08 then ['\\', 'b']
  else if c = '\t' then ['\\', 't']
  else if c = '\n' then ['\\', 'n']
  else if c = Char.ofNat 0x0c then ['\\', 'f']
  else if c = '\r' then ['\\', 'r']
  else if c.toNat < 0x20 || c.toNat = 0x7f then ['\\', 'u'] ++ Text.hexDigits 4 c.toNat
  else [c]

/-- The text of a name: bare where that is possible, and otherwise between quotes. -/
def renderName (name : String) : String :=
  if name ≠ "" && name.toList.all isBare then name
  else String.ofList ('"' :: name.toList.flatMap quotedChar ++ ['"'])

/-- The text of a path: its names with points between them. -/
def render (p : Path) : String := ".".intercalate (p.map renderName)

end Path

namespace Table

/-- Stores a value under a name, in place of the one before. -/
def put (t : Table) (name : String) (v : Value) : Table :=
  match t with
  | [] => [(name, v)]
  | (n, w) :: rest => if n = name then (name, v) :: rest else (n, w) :: put rest name v

/-- Whether a name is in use. -/
def has (t : Table) (name : String) : Bool := (t.lookup name).isSome

/-- The table at a path. In an array of tables the last element is meant. -/
def find? (t : Table) : Path → Option Table
  | [] => some t
  | name :: rest =>
    match t.lookup name with
    | some (.table inner) => find? inner rest
    | some (.tables elements) => elements.getLast?.bind fun inner => find? inner rest
    | _ => none

/-- Stores a value under a name in the table at a path. -/
def putAt (t : Table) (path : Path) (name : String) (v : Value) : Table :=
  match path with
  | [] => t.put name v
  | outer :: rest =>
    match t.lookup outer with
    | some (.table inner) => t.put outer (.table (putAt inner rest name v))
    | some (.tables elements) =>
      match elements.getLast? with
      | some inner => t.put outer (.tables (elements.dropLast ++ [putAt inner rest name v]))
      | none => t
    | _ => t

/-- Stores a value under a dotted key of an inline table. -/
def nest? (t : Table) (parents : Path) (name : String) (v : Value) : Option Table :=
  match parents with
  | [] => some (t.put name v)
  | outer :: rest =>
    match t.lookup outer with
    | none => (nest? [] rest name v).map fun inner => t.put outer (.table inner)
    | some (.table inner) => (nest? inner rest name v).map fun inner => t.put outer (.table inner)
    | some _ => none

end Table

/-- The table that is being filled. `passed` holds the tables that were only passed through,
`arrays` the keys whose value is an array, and `order` all written keys, the newest first. -/
structure Filling where
  root : Table
  passed : List Path
  arrays : List Path
  order : List Path
deriving Inhabited

namespace Filling

/-- Nothing is filled in yet. -/
def empty : Filling := ⟨[], [], [], []⟩

/-- Marks a table as only passed through. -/
def markPassed (s : Filling) (path : Path) : Filling := { s with passed := path :: s.passed }

/-- Takes the mark of a table away. -/
def unmarkPassed (s : Filling) (path : Path) : Filling :=
  { s with passed := s.passed.filter (· ≠ path) }

/-- The key to which a note on the value of a name belongs: under an empty name it belongs to the
table around it. -/
def notedPath (context : Path) (name : String) : Path :=
  if name ≠ "" then context ++ [name] else if context.isEmpty then [""] else context

/-- Notes whether the value of a key is an array. -/
def noteKind (s : Filling) (path : Path) (isArray : Bool) : Filling :=
  let others := s.arrays.filter (· ≠ path)
  { s with arrays := if isArray then path :: others else others }

/-- Notes a written key. -/
def noteKey (s : Filling) (path : Path) : Filling := { s with order := path :: s.order }

/-! ## Opening tables -/

/-- Gives a name in the table at a path its value. A name in use is refused unless its value is an
array or a table that was only passed through; the latter stays as it is. -/
def define? (s : Filling) (context : Path) (name : String) (v : Value) : Option Filling :=
  let path := context ++ [name]
  match s.root.find? context with
  | none => none
  | some t =>
    let stored := { s with root := s.root.putAt context name v }
    if !t.has name then some stored
    else if s.arrays.contains path then some (stored.unmarkPassed path)
    else if s.passed.contains path then some (s.unmarkPassed path)
    else none

/-- Makes sure that there is a table for each name after `context`. -/
def pass? (s : Filling) (context : Path) : Path → Option Filling
  | [] => some s
  | name :: rest =>
    let path := context ++ [name]
    match s.root.find? context with
    | none => none
    | some t =>
      let s :=
        if t.has name then s
        else { s.markPassed path with root := s.root.putAt context name (.table []) }
      match s.root.find? path with
      | some _ => pass? s path rest
      | none => none

/-- Opens a table. -/
def openTable? (s : Filling) (key : Key) : Option Filling :=
  (s.pass? [] key.parents).bind fun s => s.define? key.parents key.last (.table [])

/-- Opens a new element of an array of tables. -/
def openElement? (s : Filling) (key : Key) : Option Filling :=
  match s.pass? [] key.parents with
  | none => none
  | some s =>
    match s.root.find? key.parents with
    | none => none
    | some t =>
      match t.lookup key.last with
      | none => some { s with root := s.root.putAt key.parents key.last (.tables [[]]) }
      | some (.tables elements) =>
        some { s with root := s.root.putAt key.parents key.last (.tables (elements ++ [[]])) }
      | some _ => none

/-- Opens the tables on the way to a dotted key one by one, and gives the innermost. -/
def enter? (s : Filling) (context : Path) : Path → Option (Filling × Path)
  | [] => some (s, context)
  | name :: rest =>
    match (s.markPassed (context ++ [name])).openTable? ⟨context, name⟩ with
    | none => none
    | some s => enter? s (context ++ [name]) rest

/-! ## Values -/

mutual

/-- The value of an expression that is assigned to a name. The keys of an inline table are filled in
as if it had been opened by a header; one in an array is a new element. -/
def evaluate? (s : Filling) (context : Path) (name : String) (inArray : Bool) :
    Expr → Option (Value × Filling)
  | .text t => some (.text t, s)
  | .scalar t => some (.scalar t, s)
  | .array items =>
    (evaluateItems? (s.noteKind (notedPath context name) true) context name items).map
      fun (items, s) => (.array items, s)
  | .table members =>
    let marked := s.markPassed (context ++ [name])
    let key : Key := ⟨context, name⟩
    match if inArray then marked.openElement? key else marked.openTable? key with
    | none => none
    | some s =>
      (evaluateMembers? s (context ++ [name]) [] members).map fun (t, s) => (.table t, s)

/-- The values of the items of an array. -/
def evaluateItems? (s : Filling) (context : Path) (name : String) :
    List Expr → Option (List Value × Filling)
  | [] => some ([], s)
  | item :: rest =>
    match evaluate? s context name true item with
    | none => none
    | some (v, s) => (evaluateItems? s context name rest).map fun (vs, s) => (v :: vs, s)

/-- Assigns members to the table at `context` and collects them as a table of their own. -/
def evaluateMembers? (s : Filling) (context : Path) (collected : Table) :
    List (Key × Expr) → Option (Table × Filling)
  | [] => some (collected, s)
  | (key, e) :: rest =>
    match s.enter? context key.parents with
    | none => none
    | some (s, inner) =>
      let path := inner ++ [key.last]
      match evaluate? (s.noteKey path) inner key.last false e with
      | none => none
      | some (v, s) =>
        match s.define? inner key.last v, collected.nest? key.parents key.last v with
        | some s, some collected =>
          let isArray :=
            match v with
            | .array _ => true
            | _ => false
          evaluateMembers? (s.noteKind (notedPath inner key.last) isArray) context collected rest
        | _, _ => none

end

/-! ## Statements -/

/-- Carries out statements; `context` is the table that was opened last. -/
def run? (s : Filling) (context : Path) : List Statement → Option Filling
  | [] => some s
  | .table key :: rest =>
    (s.openTable? key).bind fun s => ((s.noteKind key.path false).noteKey key.path).run? key.path rest
  | .element key :: rest =>
    (s.openElement? key).bind fun s =>
      ((s.noteKind key.path false).noteKey key.path).run? key.path rest
  | .assign key e :: rest =>
    (s.evaluateMembers? context [] [(key, e)]).bind fun (_, s) => s.run? context rest

/-- The result of a list of statements. -/
def ofStatements? (statements : List Statement) : Option Filling := Filling.empty.run? [] statements

/-- The result of a text. -/
def ofText? (text : List Char) : Option Filling := (statements? text).bind ofStatements?

/-- All written keys in the order of the text. -/
def keys (s : Filling) : List Path := s.order.reverse

end Filling
end TokenGrammar.Toml
