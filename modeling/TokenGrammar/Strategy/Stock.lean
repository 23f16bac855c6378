import TokenGrammar.Strategy.Basic

/-!
# Stock transforms and constructors

Ready-made functions for strategies: counting, listing, summing, folding an operator over two
operands, and small constructors that show each feature of a signature.
-/
namespace TokenGrammar.Stock

/-! ## Transforms -/

/-- The number of captured values. -/
def count : Transform := .unnamed fun data => .ok (.ofInt data.length)

/-- All captured values. -/
def listing : Transform := .unnamed fun data => .ok (.list data)

/-- Null, whatever was captured. -/
def nothing : Transform := .unnamed fun _ => .ok .null

/-- One text, whatever was captured. -/
def constant (text : String) : Transform := .unnamed fun _ => .ok (.text text)

/-- Adds machine integers, with the wrap-around of a 64-bit word. -/
def sumFrom (total : Int) : List Value → Except (Option String) Value
  | [] => .ok (.ofInt total)
  | .int .word n :: rest => sumFrom ((total + n).bmod Number.wordCount) rest
  | v :: _ => .error (some ("sum: not an int: " ++ v.render))

/-- The sum of captured integers; it breaks down at the first value of another type. -/
def sum : Transform := .unnamed (sumFrom 0)

/-- An operator between two operands; one value alone stands for itself. -/
def fold : Transform :=
  .unnamed fun
    | [v] => .ok v
    | [left, .token op _, right] => .ok (.binary left op right)
    | [_, _, _] => .error (some "fold: no operator")
    | data => .error (some ("fold: " ++ Number.integerText data.length ++ " values"))

/-- Breaks down with a text. -/
def crash (cause : String) : Transform := .unnamed fun _ => .error (some cause)

/-! ## Constructors -/

/-- A signature with one result and no rest parameter. -/
def signature (params : List ParamType) (result : ParamType) : Signature ParamType :=
  ⟨params, none, [.value result]⟩

/-- The payload of a token. -/
def payload : Constructor ParamType Value :=
  .function (signature [.exactly .token] .any) fun
    | [.token _ v] => .value v
    | _ => .value .null

/-- Two tokens side by side. -/
def pair : Constructor ParamType Value :=
  .function (signature [.exactly .token, .exactly .token] (.exactly .pair)) fun
    | [left, right] => .value (.pair left right)
    | _ => .value .null

/-- A text followed by the list of the integers after it. -/
def headRest : Constructor ParamType Value :=
  .function ⟨[.exactly .text], some (.exactly (.int .word)), [.value (.exactly .text)]⟩ fun
    | .text head :: rest => .value (.text (head ++ (Value.list rest).render))
    | _ => .value .null

/-- Whether a pointer is missing and a text is empty. -/
def bothAbsent : Constructor ParamType Value :=
  .function (signature [.pointer (.int .word), .exactly .text] (.exactly .bool)) fun
    | [.null, .text s] => .value (.bool (s == ""))
    | _ => .value (.bool false)

/-- The text of a value that has one of its own. -/
def label : Constructor ParamType Value :=
  .function (signature [.labelled] (.exactly .text)) fun
    | [.null] => .value (.text "none")
    | [v] => .value (.text v.render)
    | _ => .value .null

/-- An even integer; odd ones are refused. -/
def even : Constructor ParamType Value :=
  .function ⟨[.exactly (.int .word)], none, [.value (.exactly (.int .word)), .error]⟩ fun
    | [.int _ n] => if n % 2 = 0 then .value (.ofInt n) else .failed "odd"
    | _ => .value .null

/-- Breaks down with a message made from a text. -/
def scream : Constructor ParamType Value :=
  .function (signature [.exactly .text] (.exactly (.int .word))) fun
    | [.text s] => .crashed (some ("no " ++ s))
    | _ => .value .null

/-- A constructor without parameters. -/
def unit : Constructor ParamType Value := .function (signature [] (.exactly .text)) fun _ => .value (.text "unit")

/-- A function with results that no constructor may have. -/
def misfit (params : List ParamType) (results : List (ResultType ParamType)) :
    Constructor ParamType Value :=
  .function ⟨params, none, results⟩ fun _ => .value .null

end TokenGrammar.Stock
