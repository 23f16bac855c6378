/-!
# Base 64

Four letters stand for three bytes; at the end two or three letters with padding stand for one or two
bytes. Line breaks between the letters do not count.

## Main definitions

* `decodeBase64?`: the bytes that letters stand for.
-/
namespace TokenGrammar.Text

/-- The value of a letter. -/
def base64Value? (c : Char) : Option Nat :=
  let n := c.toNat
  if 0x41 ≤ n && n ≤ 0x5a then some (n - 0x41)
  else if 0x61 ≤ n && n ≤ 0x7a then some (n - 0x47)
  else if 0x30 ≤ n && n ≤ 0x39 then some (n + 4)
  else if c = '+' then some 62
  else if c = '/' then some 63
  else none

/-- The highest `count` bytes of a number of three bytes. -/
def leadingBytes (count n : Nat) : List UInt8 :=
  [(n / 0x10000).toUInt8, (n / 0x100).toUInt8, n.toUInt8].take count

/-- The bytes of letters without breaks. -/
def base64Bytes? : List Char → Option (List UInt8)
  | [] => some []
  | a :: b :: c :: d :: rest =>
    match base64Value? a, base64Value? b, base64Value? c, base64Value? d with
    | some a, some b, some c, some d =>
      (base64Bytes? rest).map (leadingBytes 3 (((a * 64 + b) * 64 + c) * 64 + d) ++ ·)
    | some a, some b, some c, none =>
      if d = '=' && rest.isEmpty then some (leadingBytes 2 (((a * 64 + b) * 64 + c) * 64)) else none
    | some a, some b, none, none =>
      if c = '=' && d = '=' && rest.isEmpty then some (leadingBytes 1 ((a * 64 + b) * 64 * 64))
      else none
    | _, _, _, _ => none
  | _ => none

/-- The bytes that letters stand for. -/
def decodeBase64? (cs : List Char) : Option (List UInt8) :=
  base64Bytes? (cs.filter fun c => c ≠ '\n' && c ≠ '\r')

end TokenGrammar.Text
