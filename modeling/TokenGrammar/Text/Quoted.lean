import TokenGrammar.Text.Printable

/-!
# Quoted text

How a text is shown inside a message: between double quotes, with every character that would not
be visible spelled out. A printable character stands for itself, the usual control characters have
a letter, other ASCII controls take two hexadecimal digits, and the rest four or eight.

## Main definitions

* `hexDigits`: a number with a fixed number of lower-case hexadecimal digits.
* `quoted`: the text between quotes.
-/
namespace TokenGrammar.Text

/-- The last `width` hexadecimal digits of a number, in lower case. -/
def hexDigits (width n : Nat) : List Char :=
  (List.range width).reverse.map fun i => Nat.digitChar (n / Nat.pow 16 i % 16)

@[simp] theorem length_hexDigits (width n : Nat) : (hexDigits width n).length = width := by
  simp [hexDigits]

/-- The spelling of one character between double quotes. -/
def quotedChar (c : Char) : List Char :=
  let n := c.toNat
  if c = '"' then ['\\', '"']
  else if c = '\\' then ['\\', '\\']
  else if isPrintable c then [c]
  else if n = 0x07 then ['\\', 'a']
  else if n = 0x08 then ['\\', 'b']
  else if n = 0x0c then ['\\', 'f']
  else if n = 0x0a then ['\\', 'n']
  else if n = 0x0d then ['\\', 'r']
  else if n = 0x09 then ['\\', 't']
  else if n = 0x0b then ['\\', 'v']
  else if n < 0x20 || n = 0x7f then ['\\', 'x'] ++ hexDigits 2 n
  else if n < 0x10000 then ['\\', 'u'] ++ hexDigits 4 n
  else ['\\', 'U'] ++ hexDigits 8 n

/-- A text between double quotes with everything invisible spelled out. -/
def quoted (s : String) : String :=
  String.ofList ('"' :: s.toList.flatMap quotedChar ++ ['"'])

end TokenGrammar.Text
