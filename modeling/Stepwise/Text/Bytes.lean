import Stepwise.Text.Code

/-! # Text in bytes

The characters that bytes encode as UTF-8. Bytes that encode none give replacement
characters, one for each longest piece that could have begun a character.
-/

namespace Stepwise.Text

/-- What a byte at the start of a character calls for. -/
structure Lead where
  /-- The bits of the code point that are in it. -/
  bits : Nat
  /-- The bytes that follow, and the range of the first of them. -/
  count : Nat
  low : UInt8
  high : UInt8

/-- The lead of a character outside ASCII. -/
def lead? (b : UInt8) : Option Lead :=
  if b < 0xc2 then none
  else if b < 0xe0 then some ⟨b.toNat - 0xc0, 1, 0x80, 0xbf⟩
  else if b < 0xf0 then
    some ⟨b.toNat - 0xe0, 2, if b = 0xe0 then 0xa0 else 0x80, if b = 0xed then 0x9f else 0xbf⟩
  else if b < 0xf5 then
    some ⟨b.toNat - 0xf0, 3, if b = 0xf0 then 0x90 else 0x80, if b = 0xf4 then 0x8f else 0xbf⟩
  else none

/-- The bytes that go on with a character, `count` at most. -/
def continuation (count : Nat) (low high : UInt8) : List UInt8 → List UInt8
  | [] => []
  | b :: rest =>
    match count with
    | 0 => []
    | n + 1 => if low ≤ b && b ≤ high then b :: continuation n 0x80 0xbf rest else []

/-- The code point of a lead with its continuation. -/
def codeOf (bits : Nat) (bytes : List UInt8) : Nat :=
  bytes.foldl (fun n b => 64 * n + (b.toNat - 0x80)) bits

/-- The characters of bytes. -/
def decode : List UInt8 → List Char
  | [] => []
  | b :: rest =>
    if b < 0x80 then Char.ofNat b.toNat :: decode rest
    else
      match lead? b with
      | none => replacement :: decode rest
      | some l =>
        let bytes := continuation l.count l.low l.high rest
        let c := if bytes.length = l.count then Char.ofNat (codeOf l.bits bytes) else replacement
        c :: decode (rest.drop bytes.length)
termination_by bytes => bytes.length
decreasing_by all_goals simp only [List.length_cons, List.length_drop]; omega

/-- Splits bytes into blocks of `size`; the last one may be shorter, and none is empty. -/
def blocks (size : Nat) : List UInt8 → List (List UInt8)
  | [] => []
  | b :: rest => (b :: rest.take (size - 1)) :: blocks size (rest.drop (size - 1))
termination_by bytes => bytes.length
decreasing_by simp only [List.length_cons, List.length_drop]; omega

end Stepwise.Text
