import TokenGrammar.Document.Basic
import TokenGrammar.Yaml.Dynamic

/-!
# Grammar documents in YAML

The node of a YAML document is read as a grammar document. Keys are compared exactly, a key may
stand only once, and an unknown key is refused. A null leaves the default in place. Texts are taken
as they are written, and items keep the type of their scalars.

## Main definitions

* `VariationSpec.ofYaml`, `Document.ofYaml?`: the readers.
-/
namespace TokenGrammar

open Yaml (Fit)

/-- Sets one field of a spec. -/
def VariationSpec.setYaml (spec : VariationSpec) (name : String) (node : Yaml.Node) :
    Option VariationSpec :=
  match name with
  | "from" => node.valueList.set (fun vs => { spec with items := some vs }) spec
  | "binary_loop" => node.valueList.set (fun vs => { spec with binaryLoop := some vs }) spec
  | "block_loop" => node.valueList.set (fun vs => { spec with blockLoop := some vs }) spec
  | "ignore" =>
    (node.items Yaml.Node.text).set (fun texts => { spec with ignore := some texts }) spec
  | "prevent_rollback" => node.boolean.set (fun b => { spec with preventRollback := b }) spec
  | "pass" => node.boolean.set (fun b => { spec with pass := b }) spec
  | "select" => node.integer.set (fun n => { spec with select := some n }) spec
  | "node" => node.text.set (fun s => { spec with node := s }) spec
  | "fold" => node.text.set (fun s => { spec with fold := s }) spec
  | _ => none

/-- The spec of a mapping. -/
def VariationSpec.ofYaml (node : Yaml.Node) : Fit VariationSpec :=
  match node.fields with
  | .mismatch => .mismatch
  | .null => .null
  | .given fields =>
    .ofOption (fields.foldlM (fun spec field => setYaml spec field.1 field.2) VariationSpec.empty)

namespace Document

/-- Sets one option of a document. -/
def setOption (d : Document) (name : String) (node : Yaml.Node) : Option Document :=
  match name with
  | "max_depth" => node.integer.set (fun n => { d with maxDepth := n }) d
  | _ => none

/-- Adds a rule with its specs in place of the one before; a null is an empty list. -/
def addYamlRule (rules : List (String × List VariationSpec)) (rule : String) (node : Yaml.Node) :
    Option (List (String × List VariationSpec)) :=
  ((node.items VariationSpec.ofYaml).orDefault []).map fun specs =>
    (rules.filter (·.1 ≠ rule)) ++ [(rule, specs)]

/-- Sets one field of a document. -/
def setYaml (d : Document) (name : String) (node : Yaml.Node) : Option Document :=
  match name with
  | "start" => node.text.set (fun s => { d with start := s }) d
  | "ignore" => (node.items Yaml.Node.text).set (fun texts => { d with ignore := texts }) d
  | "options" =>
    match node.fields.orDefault [] with
    | none => none
    | some fields => fields.foldlM (fun d field => setOption d field.1 field.2) d
  | "rules" =>
    match node.named.orDefault [] with
    | none => none
    | some entries =>
      (entries.foldlM (fun rules entry => addYamlRule rules entry.1 entry.2) []).map fun rules =>
        { d with rules := rules }
  | _ => none

/-- The document of a YAML node; a null is an empty document. -/
def ofYaml? (node : Yaml.Node) : Option Document :=
  match node.fields.orDefault [] with
  | none => none
  | some fields => fields.foldlM (fun d field => setYaml d field.1 field.2) Document.empty

end Document
end TokenGrammar
