import TokenGrammar.Document.OfToml
import TokenGrammar.Document.OfYaml
import TokenGrammar.Text.LowerCase
import TokenGrammar.Text.Quoted

/-!
# Document formats

A grammar document is written in YAML or in TOML, and the extension of its path tells which.

## Main definitions

* `Format`, `Format.ofPath`: the formats, and the format of a path.
* `DecodeError`: why a text is no document.
* `Document.decode`: the document of a text.
-/
namespace TokenGrammar

/-- A format of documents. A code that belongs to no format is kept. -/
inductive Format where
  | yaml
  | toml
  | other (code : Int)
deriving Repr, DecidableEq, Inhabited

/-- A path whose extension belongs to no format. -/
structure ExtensionError where
  path : String
  extension : String
deriving Repr, DecidableEq, Inhabited

/-- The wording of an extension error. -/
def ExtensionError.message (e : ExtensionError) : String :=
  e.path ++ ": unsupported grammar file extension " ++ Text.quoted e.extension

namespace Format

/-- The format with a code. -/
def ofCode (n : Int) : Format := if n = 1 then .yaml else if n = 2 then .toml else .other n

/-- The text of a format. -/
def render : Format → String
  | .yaml => "yaml"
  | .toml => "toml"
  | .other code => "Format(" ++ Number.integerText code ++ ")"

/-- The extension of a path: what stands from the last point of its last name on. -/
def extension (path : String) : String :=
  let reversed := path.toList.reverse.takeWhile (· ≠ '/')
  if reversed.contains '.' then
    String.ofList ('.' :: (reversed.takeWhile (· ≠ '.')).reverse)
  else ""

/-- The format of a path, by its extension in small letters. -/
def ofPath (path : String) : Except ExtensionError Format :=
  let ext := String.ofList ((extension path).toList.map Text.toLower)
  if ext = ".yaml" || ext = ".yml" then .ok .yaml
  else if ext = ".toml" then .ok .toml
  else .error ⟨path, ext⟩

end Format

/-- Why a text is no document of a format: the format is unknown, the text does not follow the
format or its values do not fit, or keys were written that a document does not have. -/
inductive DecodeError where
  | unsupported (format : Format)
  | malformed (format : Format)
  | unknownKeys (keys : List Toml.Path)
deriving Repr, DecidableEq, Inhabited

/-- The wording of a decode error. -/
def DecodeError.message : DecodeError → String
  | .unsupported format => "unsupported format " ++ format.render
  | .malformed format => format.render ++ ": malformed grammar document"
  | .unknownKeys keys =>
    "toml: unknown keys [" ++ " ".intercalate (keys.map Toml.Path.render) ++ "]"

namespace Document

/-- The document of a text in YAML. -/
def decodeYaml (text : String) : Except DecodeError Document :=
  match (Yaml.Node.ofText? text.toList).bind ofYaml? with
  | some d => .ok d
  | none => .error (.malformed .yaml)

/-- The document of a text in TOML. What is wrong with a value is reported before unknown keys. -/
def decodeToml (text : String) : Except DecodeError Document :=
  match Toml.Filling.ofText? text.toList with
  | none => .error (.malformed .toml)
  | some filling =>
    match ofToml? filling.root, Toml.unknownKeys filling with
    | none, _ => .error (.malformed .toml)
    | some d, [] => .ok d
    | some _, keys => .error (.unknownKeys keys)

/-- The document of a text. -/
def decode (format : Format) (text : String) : Except DecodeError Document :=
  match format with
  | .yaml => decodeYaml text
  | .toml => decodeToml text
  | .other _ => .error (.unsupported format)

end Document
end TokenGrammar
