import TokenGrammar.Command.Basic

/-!
# The command line

The arguments are flags for the whole program, the name of a command, and the flags of the command.
The version and the log format come before the command: asking for the version ends the program, and
an unknown log format ends it with an error that is logged as text.

## Main definitions

* `Release`: what the version shows.
* `Invocation`, `Invocation.ofArguments`: what the arguments ask for.
* `Exit`: exit code, printed text and log lines.
* `Invocation.exit`: how the program ends.
-/
namespace TokenGrammar

/-- What the version shows about a build. -/
structure Release where
  version : String
  commit : String
  date : String
  system : String
deriving Repr, DecidableEq, Inhabited

/-- The text of a release. -/
def Release.render (r : Release) : String :=
  r.version ++ " (commit " ++ r.commit ++ ", built " ++ r.date ++ " on " ++ r.system ++ ")"

/-- The name of the program. -/
def programName : String := "tokparse"

/-- What the arguments ask for. -/
inductive Invocation where
  | version
  | help
  /-- A command that does not exist. -/
  | unknown (name : String)
  | run (format : LogFormat) (command : Command)
  /-- Arguments with an error. -/
  | refused (format : LogFormat) (message : String)
deriving Repr, DecidableEq, Inhabited

/-- How the program ends. -/
structure Exit where
  code : Nat
  printed : String
  log : List String
deriving Repr, DecidableEq, Inhabited

namespace Invocation

/-- The flags that ask for help. -/
def helpFlags : List Flag := [⟨"help", .switch⟩, ⟨"h", .switch⟩]

/-- The flags of the whole program. -/
def programFlags : List Flag :=
  [⟨"log-format", .text⟩, ⟨"version", .switch⟩, ⟨"v", .switch⟩] ++ helpFlags

/-- The flags of the command that checks. -/
def checkFlags : List Flag := ⟨"grammar", .text⟩ :: helpFlags

/-- The flags of the command that parses. -/
def parseFlags : List Flag :=
  [⟨"grammar", .text⟩, ⟨"start", .text⟩, ⟨"input", .text⟩, ⟨"max-depth", .number⟩,
    ⟨"v", .switch⟩] ++ helpFlags

/-- Whether help is asked for. -/
def asksForHelp (settings : Settings) : Bool := settings.isOn "help" || settings.isOn "h"

/-- A command from its flags. -/
def command (format : LogFormat) (flags : List Flag) (build : Settings → Command)
    (arguments : List String) : Invocation :=
  match Flag.read flags (Flag.gather flags arguments) with
  | .error e => .refused format e.message
  | .ok (settings, _) =>
    if asksForHelp settings then .help else .run format (build settings)

/-- The command that checks. -/
def check (settings : Settings) : Command := .check (settings.text "grammar")

/-- The command that parses. -/
def parse (settings : Settings) : Command :=
  .parse
    { grammar := settings.text "grammar"
      start := settings.text "start"
      input := settings.text "input"
      maxDepth := settings.number "max-depth"
      verbose := settings.isOn "v" }

/-- The invocation of a command with its arguments. -/
def ofCommand (format : LogFormat) : List String → Invocation
  | [] => .help
  | name :: arguments =>
    if name = "check" || name = "c" then command format checkFlags check arguments
    else if name = "parse" || name = "p" then command format parseFlags parse arguments
    else if name = "help" || name = "h" then .help
    else .unknown name

/-- What the arguments ask for. -/
def ofArguments (arguments : List String) : Invocation :=
  match Flag.read programFlags arguments with
  | .error e => .refused .text e.message
  | .ok (settings, rest) =>
    if asksForHelp settings then .help
    else if settings.isOn "version" || settings.isOn "v" then .version
    else
      match LogFormat.ofName (settings.text "log-format") with
      | .error e => .refused .text e.message
      | .ok format => ofCommand format rest

/-- The summary of the commands. -/
def summary : String :=
  programName ++ " - parse token streams with declarative grammars\n\n" ++
    "   check, c  Validate a grammar file and list its rules\n" ++
    "   parse, p  Parse a token stream and print the result tree\n"

/-- An error, logged as the last line. -/
def failure (format : LogFormat) (trace : List String) (message : String) : Exit :=
  ⟨1, "", trace.map (format.line .trace) ++ [format.line .fatal message]⟩

/-- How an invocation ends. -/
def exit (release : Release) (s : Surroundings) : Invocation → Exit
  | .version => ⟨0, programName ++ " version " ++ release.render ++ "\n", []⟩
  | .help => ⟨0, summary, []⟩
  | .unknown name => ⟨3, "", ["No help topic for '" ++ name ++ "'"]⟩
  | .refused format message => failure format [] message
  | .run format command =>
    let result := command.run s
    match result.printed with
    | .ok text => ⟨0, text, result.trace.map (format.line .trace)⟩
    | .error e => failure format result.trace e.message

/-- The files that an invocation reads. -/
def paths : Invocation → List String
  | .run _ command => command.paths
  | _ => []

/-- Whether an invocation reads the standard input. -/
def readsInput : Invocation → Bool
  | .run _ command => command.readsInput
  | _ => false

end Invocation
end TokenGrammar
