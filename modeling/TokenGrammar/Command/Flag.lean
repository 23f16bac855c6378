import TokenGrammar.Number.Decimal
import TokenGrammar.Text.Quoted

/-!
# Command-line flags

A flag starts with one dash or two. Its value stands after an equals sign or is the next argument; a
switch needs none. Reading stops at the first argument that is no flag, or after two dashes alone.

## Main definitions

* `Flag`: a flag and the kind of its value.
* `UsageError`: what can be wrong with the arguments.
* `Flag.read`: the flags at the start of a list of arguments.
* `Flag.gather`: flags that stand behind other arguments are moved in front of them.
-/
namespace TokenGrammar

/-- The kind of the value of a flag. -/
inductive FlagKind where
  | switch
  | text
  | number
deriving Repr, DecidableEq, Inhabited

/-- A flag. -/
structure Flag where
  name : String
  kind : FlagKind
deriving Repr, DecidableEq, Inhabited

/-- The value of a flag that is set. -/
inductive FlagValue where
  | switch (on : Bool)
  | text (s : String)
  | number (n : Int)
deriving Repr, DecidableEq, Inhabited

/-- What is wrong with arguments. -/
inductive UsageError where
  | badFlag (argument : String)
  | undefined (name : String)
  | missingValue (name : String)
  | badSwitch (name value : String)
  | badNumber (name value : String)
  | numberRange (name value : String)
deriving Repr, DecidableEq, Inhabited

/-- The wording of a usage error. -/
def UsageError.message : UsageError → String
  | .badFlag argument => "bad flag syntax: " ++ argument
  | .undefined name => "flag provided but not defined: -" ++ name
  | .missingValue name => "flag needs an argument: -" ++ name
  | .badSwitch name value =>
    "invalid boolean value " ++ Text.quoted value ++ " for -" ++ name ++ ": parse error"
  | .badNumber name value =>
    "invalid value " ++ Text.quoted value ++ " for flag -" ++ name ++ ": parse error"
  | .numberRange name value =>
    "invalid value " ++ Text.quoted value ++ " for flag -" ++ name ++ ": value out of range"

/-- The flags that are set, in the order of the arguments. -/
abbrev Settings := List (String × FlagValue)

namespace Settings

/-- The value of a flag; the last one counts. -/
def find? (s : Settings) (name : String) : Option FlagValue := s.reverse.lookup name

/-- The value of a flag with a text, which is empty where the flag is not set. -/
def text (s : Settings) (name : String) : String :=
  match s.find? name with
  | some (.text t) => t
  | _ => ""

/-- The value of a flag with a number, which is zero where the flag is not set. -/
def number (s : Settings) (name : String) : Int :=
  match s.find? name with
  | some (.number n) => n
  | _ => 0

/-- Whether a switch is on. -/
def isOn (s : Settings) (name : String) : Bool :=
  match s.find? name with
  | some (.switch on) => on
  | _ => false

end Settings

namespace Flag

/-- Splits an argument that is a flag into its name and the value after an equals sign. An argument
that is no flag gives nothing. -/
def split? (argument : String) : Option (String × Option String) :=
  let body :=
    match argument.toList with
    | '-' :: '-' :: rest => some rest
    | '-' :: rest => if rest.isEmpty then none else some rest
    | _ => none
  body.map fun cs =>
    let name := cs.takeWhile (· ≠ '=')
    let value :=
      match cs.dropWhile (· ≠ '=') with
      | [] => none
      | _ :: rest => some (String.ofList rest)
    (String.ofList name, value)

/-- The value of a switch. -/
def switch? (value : String) : Option Bool :=
  if ["1", "t", "T", "true", "TRUE", "True"].contains value then some true
  else if ["0", "f", "F", "false", "FALSE", "False"].contains value then some false
  else none

/-- The number that a text stands for, in any base; underscores may divide its digits. -/
def number? (value : String) : Option Int :=
  let (negative, unsigned) := Number.takeSign value.toList
  (Number.groupedBased? unsigned).map fun n => if negative then -(n : Int) else n

/-- The value of a flag from its text. -/
def value (flag : Flag) (text : String) : Except UsageError FlagValue :=
  match flag.kind with
  | .text => .ok (.text text)
  | .switch =>
    match switch? text with
    | some on => .ok (.switch on)
    | none => .error (.badSwitch flag.name text)
  | .number =>
    match number? text with
    | some n =>
      if Number.fitsSigned n then .ok (.number n) else .error (.numberRange flag.name text)
    | none => .error (.badNumber flag.name text)

/-- Reads the flags at the start of the arguments; gives the settings and the other arguments. -/
def read (flags : List Flag) : List String → Except UsageError (Settings × List String)
  | [] => .ok ([], [])
  | argument :: rest =>
    match split? argument with
    | none => .ok ([], argument :: rest)
    | some (name, given) =>
      if argument = "--" then .ok ([], rest)
      else if name = "" || name.toList.head? = some '-' then .error (.badFlag argument)
      else
        match flags.find? (·.name == name), given with
        | none, _ => .error (.undefined name)
        | some flag, some text =>
          match flag.value text, read flags rest with
          | .ok v, .ok (settings, others) => .ok ((name, v) :: settings, others)
          | .error e, _ => .error e
          | _, .error e => .error e
        | some flag, none =>
          if flag.kind = .switch then
            (read flags rest).map fun (settings, others) =>
              ((name, .switch true) :: settings, others)
          else
            match rest with
            | [] => .error (.missingValue name)
            | text :: rest =>
              match flag.value text, read flags rest with
              | .ok v, .ok (settings, others) => .ok ((name, v) :: settings, others)
              | .error e, _ => .error e
              | _, .error e => .error e

/-- The name of the flag that an argument may be: up to three dashes in front of it are left out,
and so is what stands from an equals sign on. One dash or two alone are no flag. -/
def nameOf? (argument : String) : Option String :=
  if argument = "-" || argument = "--" then none
  else
    let bare :=
      match argument.toList with
      | '-' :: '-' :: '-' :: rest => some rest
      | '-' :: '-' :: rest => some rest
      | '-' :: rest => some rest
      | _ => none
    bare.map fun cs => String.ofList (cs.takeWhile (· ≠ '='))

/-- Whether an argument is one of the flags. -/
def isFlag (flags : List Flag) (argument : String) : Bool :=
  match nameOf? argument with
  | some name => flags.any (·.name == name)
  | none => false

/-- Moves flags with their values in front of the other arguments, both newest first. After a flag
without an equals sign an argument that is no flag is taken for its value. Two dashes end the flags:
they come in front of all other arguments. -/
def gatherFrom (flags : List Flag) (moved others : List String) (expecting : Bool) :
    List String → List String
  | [] => moved.reverse ++ others.reverse
  | argument :: rest =>
    if expecting && !isFlag flags argument then
      gatherFrom flags (argument :: moved) others false rest
    else if argument = "--" then moved.reverse ++ argument :: (others.reverse ++ rest)
    else if isFlag flags argument then
      gatherFrom flags (argument :: moved) others (!argument.toList.contains '=') rest
    else gatherFrom flags moved (argument :: others) expecting rest

/-- Moves flags in front of the other arguments. -/
def gather (flags : List Flag) (arguments : List String) : List String :=
  gatherFrom flags [] [] false arguments

end Flag
end TokenGrammar
