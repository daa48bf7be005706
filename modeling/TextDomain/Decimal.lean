import TextDomain.Bytes

/-!
# Numbers as text

`decimal` writes a number in base ten without leading zeros, `signed` puts a minus sign before a
negative one, and `padLeft` and `padRight` bring a text to a least width. `hex4` writes four
hexadecimal digits.
-/

namespace TextDomain

/-- The byte of one decimal digit. -/
def digit (n : Nat) : UInt8 :=
  Byte.zero + UInt8.ofNat n

/-- A number in base ten, most significant digit first. -/
def decimal (n : Nat) : Bytes :=
  if n < 10 then [digit n] else decimal (n / 10) ++ [digit (n % 10)]

/-- A number in base ten, with a minus sign if it is negative. -/
def signed : Int → Bytes
  | .ofNat n => decimal n
  | .negSucc n => Byte.minus :: decimal (n + 1)

/-- The lower-case byte of one hexadecimal digit. -/
def hexDigit (n : Nat) : UInt8 :=
  if n < 10 then digit n else 0x57 + UInt8.ofNat n

/-- A byte as four hexadecimal digits. -/
def hex4 (c : UInt8) : Bytes :=
  [Byte.zero, Byte.zero, hexDigit (c.toNat / 16), hexDigit (c.toNat % 16)]

/-- Puts copies of `fill` before a text until it is at least `width` bytes long. -/
def padLeft (fill : UInt8) (width : Nat) (s : Bytes) : Bytes :=
  List.replicate (width - s.length) fill ++ s

/-- Puts copies of `fill` after a text until it is at least `width` bytes long. -/
def padRight (fill : UInt8) (width : Nat) (s : Bytes) : Bytes :=
  s ++ List.replicate (width - s.length) fill

end TextDomain
