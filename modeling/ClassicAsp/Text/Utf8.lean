import ClassicAsp.Text

/-!
Decoding bytes that are meant to be UTF-8. Old pages often are not: each longest run of bytes
that could begin a character but does not complete one is read as U+FFFD.
-/
namespace ClassicAsp.Utf8

def replacement : Char := '\uFFFD'

/-- The bytes that may follow a lead byte are, one by one, within these bounds; `none` when the
byte begins no character. Narrower bounds on the second byte exclude overlong forms, surrogates
and values past the last code point. -/
def continuations (lead : Nat) : Option (List (Nat × Nat)) :=
  if lead < 0x80 then some []
  else if lead < 0xc2 then none
  else if lead < 0xe0 then some [(0x80, 0xbf)]
  else if lead = 0xe0 then some [(0xa0, 0xbf), (0x80, 0xbf)]
  else if lead = 0xed then some [(0x80, 0x9f), (0x80, 0xbf)]
  else if lead < 0xf0 then some [(0x80, 0xbf), (0x80, 0xbf)]
  else if lead = 0xf0 then some [(0x90, 0xbf), (0x80, 0xbf), (0x80, 0xbf)]
  else if lead < 0xf4 then some [(0x80, 0xbf), (0x80, 0xbf), (0x80, 0xbf)]
  else if lead = 0xf4 then some [(0x80, 0x8f), (0x80, 0xbf), (0x80, 0xbf)]
  else none

/-- The bits that a lead byte contributes to its character. -/
def leadBits (lead : Nat) : Nat :=
  if lead < 0x80 then lead else if lead < 0xe0 then lead % 32
  else if lead < 0xf0 then lead % 16 else lead % 8

/-- The number of bytes after `read` that stay within their bounds, and the character if all do. -/
def complete (read : Nat) : List (Nat × Nat) → List UInt8 → Nat × Char
  | [], _ => (0, Char.ofNat read)
  | _ :: _, [] => (0, replacement)
  | (low, high) :: bounds, b :: bytes =>
    if low ≤ b.toNat ∧ b.toNat ≤ high then
      let (n, c) := complete (read * 64 + b.toNat % 64) bounds bytes
      (n + 1, c)
    else (0, replacement)

/-- One character per complete form and one replacement per broken one, in front of what has been
read so far in reverse. The bytes still to be skipped belong to the character just read. -/
def decodeOnto (read : Text) : Nat → List UInt8 → Text
  | _, [] => read.reverse
  | skip + 1, _ :: bytes => decodeOnto read skip bytes
  | 0, b :: bytes =>
    match continuations b.toNat with
    | none => decodeOnto (replacement :: read) 0 bytes
    | some bounds =>
      let (n, c) := complete (leadBits b.toNat) bounds bytes
      decodeOnto (c :: read) n bytes

def decode (bytes : List UInt8) : Text := decodeOnto [] 0 bytes

end ClassicAsp.Utf8
