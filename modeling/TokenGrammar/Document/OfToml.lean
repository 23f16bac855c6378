import TokenGrammar.Document.Basic
import TokenGrammar.Toml.Table

/-!
# Grammar documents in TOML

The table of a TOML text is read as a grammar document. The letters of a known key may be of either
case. A value of the wrong kind is refused. Keys that were not read are no fault of a value; they are
listed afterwards, in the order of the text.

## Main definitions

* `Document.ofToml?`: the reader.
* `Toml.readKeys`: the keys that the reader looks at.
* `Toml.unknownKeys`: the written keys that it does not look at.
-/
namespace TokenGrammar

namespace Toml

/-! ## Known keys -/

/-- The small letter that a letter of a known key stands for. The long s and the sign of the kelvin
are further forms of a small letter. -/
def foldLetter (c : Char) : Char :=
  if c.toNat = 0x17f then 's' else if c.toNat = 0x212a then 'k' else c.toLower

/-- A name with all letters folded. -/
def foldName (name : String) : String := String.ofList (name.toList.map foldLetter)

/-- The fields of a document. -/
inductive Field where
  | start
  | ignore
  | options
  | rules
deriving Repr, DecidableEq, Inhabited

/-- The field with a name. -/
def Field.ofName? (name : String) : Option Field :=
  match foldName name with
  | "start" => some .start
  | "ignore" => some .ignore
  | "options" => some .options
  | "rules" => some .rules
  | _ => none

/-- Whether a name is that of an option. -/
def isOption (name : String) : Bool := foldName name = "max_depth"

/-- Whether a name is that of a field of a spec. -/
def isSpecField (name : String) : Bool :=
  ["from", "binary_loop", "block_loop", "ignore", "prevent_rollback", "pass", "select", "node",
    "fold"].contains (foldName name)

/-! ## Values -/

namespace Value

mutual

/-- A value as a dynamic value; integers have the width that the format prescribes. -/
def toValue : Value → TokenGrammar.Value
  | .text s => .text s
  | .scalar (.bool b) => .bool b
  | .scalar (.int n) => .int .signed64 n
  | .scalar (.float x) => .float x
  | .scalar (.time t) => .time t
  | .array items => .list (toValues items)
  | .tables elements => .list (toMaps elements)
  | .table entries => .map ((toEntries entries).mergeSort fun a b => a.1 ≤ b.1)

/-- Values as dynamic values. -/
def toValues : List Value → List TokenGrammar.Value
  | [] => []
  | v :: vs => toValue v :: toValues vs

/-- Tables as dynamic values. -/
def toMaps : List (List (String × Value)) → List TokenGrammar.Value
  | [] => []
  | t :: ts => .map ((toEntries t).mergeSort fun a b => a.1 ≤ b.1) :: toMaps ts

/-- Entries of a table as dynamic values. -/
def toEntries : List (String × Value) → List (String × TokenGrammar.Value)
  | [] => []
  | (name, v) :: rest => (name, toValue v) :: toEntries rest

end

/-- The text of a value that is one. -/
def text? : Value → Option String
  | .text s => some s
  | _ => none

/-- The boolean of a value that is one. -/
def bool? : Value → Option Bool
  | .scalar (.bool b) => some b
  | _ => none

/-- The integer of a value that is one. -/
def int? : Value → Option Int
  | .scalar (.int n) => some n
  | _ => none

/-- The table of a value that is one. -/
def table? : Value → Option Table
  | .table t => some t
  | _ => none

/-- The elements of an array in either form. -/
def elements? : Value → Option (List Value)
  | .array items => some items
  | .tables elements => some (elements.map .table)
  | _ => none

/-- The texts of an array of texts. -/
def texts? (v : Value) : Option (List String) := v.elements?.bind (·.mapM text?)

/-- The elements of an array as dynamic values. -/
def values? (v : Value) : Option (List TokenGrammar.Value) := v.elements?.map (·.map toValue)

end Value

/-! ## Keys that are read -/

/-- The keys of the specs of a rule at a path. -/
def specKeys (path : Path) (specs : Value) : List Path :=
  let tables := (specs.elements?.getD []).filterMap Value.table?
  (tables.flatMap fun t => t.filter fun entry => isSpecField entry.1).map fun entry =>
    path ++ [entry.1]

/-- The keys of a field with its name. A field of rules is looked into only where it is a table. -/
def fieldKeys (name : String) (v : Value) : Field → List Path
  | .start | .ignore => [[name]]
  | .options =>
    [name] :: ((v.table?.getD []).filter fun entry => isOption entry.1).map fun entry =>
      [name, entry.1]
  | .rules =>
    [name] :: (v.table?.getD []).flatMap fun entry =>
      [name, entry.1] :: specKeys [name, entry.1] entry.2

/-- The keys that are read from a table. -/
def readKeys (t : Table) : List Path :=
  t.flatMap fun (name, v) =>
    match Field.ofName? name with
    | some field => fieldKeys name v field
    | none => []

/-- The written keys that are not read, in the order of the text. -/
def unknownKeys (s : Filling) : List Path :=
  let known := readKeys s.root
  s.keys.filter (!known.contains ·)

end Toml

/-! ## Documents -/

/-- Sets one field of a spec; other names are passed over. -/
def VariationSpec.setToml (spec : VariationSpec) (name : String) (v : Toml.Value) :
    Option VariationSpec :=
  match Toml.foldName name with
  | "from" => v.values?.map fun vs => { spec with items := some vs }
  | "binary_loop" => v.values?.map fun vs => { spec with binaryLoop := some vs }
  | "block_loop" => v.values?.map fun vs => { spec with blockLoop := some vs }
  | "ignore" => v.texts?.map fun texts => { spec with ignore := some texts }
  | "prevent_rollback" => v.bool?.map fun b => { spec with preventRollback := b }
  | "pass" => v.bool?.map fun b => { spec with pass := b }
  | "select" => v.int?.map fun n => { spec with select := some n }
  | "node" => v.text?.map fun s => { spec with node := s }
  | "fold" => v.text?.map fun s => { spec with fold := s }
  | _ => some spec

/-- The spec of a table. -/
def VariationSpec.ofToml? (v : Toml.Value) : Option VariationSpec :=
  v.table?.bind fun t => t.foldlM (fun spec entry => setToml spec entry.1 entry.2) VariationSpec.empty

namespace Document

/-- Sets one option of a document; other names are passed over. -/
def setTomlOption (d : Document) (name : String) (v : Toml.Value) : Option Document :=
  if Toml.isOption name then v.int?.map fun n => { d with maxDepth := n } else some d

/-- The specs of a rule. -/
def specsOfToml? (rule : String) (v : Toml.Value) : Option (String × List VariationSpec) :=
  (v.elements?.bind (·.mapM VariationSpec.ofToml?)).map (rule, ·)

/-- Sets one field of a document; other names are passed over, and so are rules that are no table. -/
def setToml (d : Document) (name : String) (v : Toml.Value) : Option Document :=
  match Toml.Field.ofName? name with
  | some .start => v.text?.map fun s => { d with start := s }
  | some .ignore => v.texts?.map fun texts => { d with ignore := texts }
  | some .options =>
    v.table?.bind fun t => t.foldlM (fun d entry => setTomlOption d entry.1 entry.2) d
  | some .rules =>
    ((v.table?.getD []).mapM fun entry => specsOfToml? entry.1 entry.2).map fun rules =>
      { d with rules := rules }
  | none => some d

/-- The document of a TOML table. -/
def ofToml? (t : Toml.Table) : Option Document :=
  t.foldlM (fun d entry => setToml d entry.1 entry.2) Document.empty

end Document
end TokenGrammar
