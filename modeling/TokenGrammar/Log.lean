import TokenGrammar.Text.Quoted

/-!
# Log lines

A log record has a level and a message. It is written on one line, either as fields of text or as an
object of JSON.

## Main definitions

* `LogFormat`, `LogFormat.ofName`: the two formats.
* `LogFormat.line`: the line of a record.
-/
namespace TokenGrammar

/-- How important a record is. -/
inductive LogLevel where
  | trace
  | fatal
deriving Repr, DecidableEq, Inhabited

/-- The name of a level. -/
def LogLevel.name : LogLevel → String
  | .trace => "trace"
  | .fatal => "fatal"

/-- How records are written. -/
inductive LogFormat where
  | text
  | json
deriving Repr, DecidableEq, Inhabited

/-- A name that belongs to no log format. -/
structure LogFormatError where
  name : String
deriving Repr, DecidableEq, Inhabited

/-- The wording of a log format error. -/
def LogFormatError.message (e : LogFormatError) : String :=
  "unknown log format " ++ Text.quoted e.name ++ " (want text or json)"

namespace LogFormat

/-- The format with a name; without a name it is text. -/
def ofName (name : String) : Except LogFormatError LogFormat :=
  if name = "" || name = "text" then .ok .text
  else if name = "json" then .ok .json
  else .error ⟨name⟩

/-! ## Text -/

/-- A character that needs no quotes. -/
def isPlain (c : Char) : Bool :=
  let n := c.toNat
  (0x41 ≤ n && n ≤ 0x5a) || (0x61 ≤ n && n ≤ 0x7a) || (0x30 ≤ n && n ≤ 0x39) ||
    ['-', '.', '_', '/', '@', '^', '+'].contains c

/-- A field, between quotes where one of its characters needs them. -/
def textField (s : String) : String := if s.toList.all isPlain then s else Text.quoted s

/-! ## JSON -/

/-- The spelling of a character in a JSON string. Signs that have a meaning in a web page, and the two
separators of lines, are written by their codes. -/
def jsonChar (c : Char) : List Char :=
  let n := c.toNat
  if c = '"' then ['\\', '"']
  else if c = '\\' then ['\\', '\\']
  else if c = '\n' then ['\\', 'n']
  else if c = '\r' then ['\\', 'r']
  else if c = '\t' then ['\\', 't']
  else if n = 0x08 then ['\\', 'b']
  else if n = 0x0c then ['\\', 'f']
  else if n < 0x20 || c = '<' || c = '>' || c = '&' || n = 0x2028 || n = 0x2029 then
    ['\\', 'u'] ++ Text.hexDigits 4 n
  else [c]

/-- A JSON string. -/
def jsonString (s : String) : String :=
  String.ofList ('"' :: s.toList.flatMap jsonChar ++ ['"'])

/-- The line of a record. -/
def line (format : LogFormat) (level : LogLevel) (message : String) : String :=
  match format with
  | .text => "level=" ++ level.name ++ " msg=" ++ textField message
  | .json =>
    "\x7b\"level\":" ++ jsonString level.name ++ ",\"msg\":" ++ jsonString message ++ "\x7d"

end LogFormat
end TokenGrammar
