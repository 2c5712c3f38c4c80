import Mathlib.Data.List.Basic
import LightKV.Basic

/-!
# Numbers in texts

A conversion takes the number that a text begins with, and throws on a text without one and on a
number outside of its type. What follows the number is not looked at.
-/

namespace LightKV.Resp

/-- The byte of an ASCII character. -/
def byte (char : Char) : UInt8 := UInt8.ofNat char.toNat

/-- The bytes of an ASCII text. -/
def ascii (text : String) : Bytes := text.toList.map byte

/-- `isdigit`. -/
def isDigit (byte : UInt8) : Bool := (Char.ofNat byte.toNat).isDigit

/-- `isspace`. -/
def isSpace (byte : UInt8) : Bool := [9, 10, 11, 12, 13, 32].contains byte

/-- Whether there is a minus sign, and the text behind the sign. -/
def sign : Bytes → Bool × Bytes
  | 43 :: rest => (false, rest)
  | 45 :: rest => (true, rest)
  | rest => (false, rest)

/-- The number a text begins with: blanks, a sign, and as many digits as there are. -/
def integer (text : Bytes) : Option Int :=
  let signed := sign (text.dropWhile isSpace)
  let digits := signed.2.takeWhile isDigit
  let size : Int := Nat.ofDigitChars 10 (digits.map fun byte => Char.ofNat byte.toNat) 0
  if digits = [] then none else some (if signed.1 then -size else size)

/-- A number within the limits of a signed type; a conversion throws on anything else. -/
def signed (limit : Nat) (text : Bytes) : Option Int :=
  (integer text).filter fun number => -limit ≤ number && number < limit

/-- `std::stol` and `std::stoll`. -/
abbrev stoll := signed (2 ^ 63)

end LightKV.Resp
