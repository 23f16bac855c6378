import TokenGrammar.Command.Flag
import TokenGrammar.Command.Path
import TokenGrammar.Document.Format
import TokenGrammar.Log
import TokenGrammar.Parser
import TokenGrammar.Token.Scan
import TokenGrammar.Tree.OfValue

/-!
# Commands

The command line checks grammar documents and parses token streams with them. A command is a function
of the files and the standard input: it gives the text to print or the error, and the trace of the
parse. Where a document and the input are both at fault, the document is reported.

## Main definitions

* `Command`: the two commands and their options.
* `Surroundings`: the files and the standard input.
* `CommandError`: why a command fails.
* `Grammar.describe`: the list of the rules of a grammar as a tree.
* `Command.run`: what a command does.
-/
namespace TokenGrammar

/-- The options of a parse. -/
structure ParseOptions where
  /-- The path of the grammar document. -/
  grammar : String
  /-- The rule to start from; without a name it is the start rule of the grammar. -/
  start : String
  /-- The path of the token stream; without a name, or with a dash, it is the standard input. -/
  input : String
  /-- The limit on nested rules; it counts only where it is positive. -/
  maxDepth : Int
  /-- Whether the parse is traced. -/
  verbose : Bool
deriving Repr, DecidableEq, Inhabited

/-- A command. -/
inductive Command where
  /-- Validates a grammar document and lists its rules. -/
  | check (grammar : String)
  /-- Parses a token stream and prints the result tree. -/
  | parse (options : ParseOptions)
deriving Repr, DecidableEq, Inhabited

/-- The files by their paths, and the standard input. -/
structure Surroundings where
  files : List (String × String)
  input : String
deriving Inhabited

/-- Why a command fails. -/
inductive CommandError where
  | extension (error : ExtensionError)
  | file (path : String) (fault : PathFault)
  | decode (path : String) (error : DecodeError)
  | document (problem : Document.Problem)
  | scan (error : ScanError)
  | parse (fault : Fault)
deriving Inhabited

/-- The wording of a command error. -/
def CommandError.message : CommandError → String
  | .extension error => error.message
  | .file path fault => fault.message path
  | .decode path error => path ++ ": " ++ error.message
  | .document problem => problem.message
  | .scan error => error.message
  | .parse fault => fault.message

namespace Surroundings

/-- The content of a file. -/
def read (s : Surroundings) (path : String) : Except CommandError String :=
  (readFile s.files path).mapError (.file path)

/-- The document of a file, whose format is told by its extension. -/
def load (s : Surroundings) (path : String) : Except CommandError Document :=
  match Format.ofPath path with
  | .error e => .error (.extension e)
  | .ok format =>
    match s.read path with
    | .error e => .error e
    | .ok text =>
      match Document.decode format text with
      | .error e => .error (.decode path e)
      | .ok d => .ok d

/-- The document of a file and its grammar. -/
def loadGrammar (s : Surroundings) (path : String) : Except CommandError (Document × Grammar) :=
  match s.load path with
  | .error e => .error e
  | .ok d =>
    match d.grammar with
    | .error problem => .error (.document problem)
    | .ok g => .ok (d, g)

/-- Whether a path stands for the standard input: it is empty, or a dash. -/
def isStandardInput (path : String) : Bool := path = "" || path = "-"

/-- The token stream at a path. -/
def readInput (s : Surroundings) (path : String) : Except CommandError String :=
  if isStandardInput path then .ok s.input else s.read path

end Surroundings

/-! ## Checking -/

namespace Grammar

/-- The rule with a name and its variations as a tree. -/
def describeRule (g : Grammar) (rule : String) : Tree :=
  let variations := g.variationsOf rule
  .node (rule ++ " [" ++ Number.integerText variations.length ++ "]")
    (variations.map fun v => .leaf v.render)

/-- The ignore set, if it is not empty, and the rules of a grammar as a tree. -/
def describe (g : Grammar) (name : String) : Tree :=
  let ignore := if g.ignore.isEmpty then [] else [Tree.leaf ("ignore " ++ g.ignore.render)]
  .node (name ++ " (start: " ++ g.start ++ ")") (ignore ++ g.ruleNames.map g.describeRule)

end Grammar

/-! ## Running -/

/-- What a command gives: the text to print or the error, and the lines of the trace. -/
structure CommandResult where
  printed : Except CommandError String
  trace : List String
deriving Inhabited

namespace Command

/-- A command that failed before a parse. -/
def failed (e : CommandError) : CommandResult := ⟨.error e, []⟩

/-- The limit on nested rules: that of the options where it is positive, or else of the document. -/
def depthLimit (options : ParseOptions) (d : Document) : Int :=
  if 0 < options.maxDepth then options.maxDepth else d.maxDepth

/-- Parses a text with a grammar. -/
def parseText (options : ParseOptions) (d : Document) (g : Grammar) (text : String) : CommandResult :=
  match Token.scan text with
  | .error e => failed (.scan e)
  | .ok tokens =>
    let rule := if options.start = "" then none else some options.start
    let report := g.parseFrom (depthLimit options d) rule tokens
    let printed :=
      match report.result with
      | .ok v => .ok (Tree.ofValue "" v).print
      | .error fault => .error (.parse fault)
    ⟨printed, if options.verbose then report.trace else []⟩

/-- What a command does. -/
def run (s : Surroundings) : Command → CommandResult
  | .check path =>
    match s.loadGrammar path with
    | .error e => failed e
    | .ok (_, g) => ⟨.ok (g.describe path).print, []⟩
  | .parse options =>
    match s.loadGrammar options.grammar with
    | .error e => failed e
    | .ok (d, g) =>
      match s.readInput options.input with
      | .error e => failed e
      | .ok text => parseText options d g text

/-- The files that a command reads. -/
def paths : Command → List String
  | .check path => [path]
  | .parse options =>
    options.grammar :: if Surroundings.isStandardInput options.input then [] else [options.input]

/-- Whether a command reads the standard input. -/
def readsInput : Command → Bool
  | .check _ => false
  | .parse options => Surroundings.isStandardInput options.input

end Command
end TokenGrammar
