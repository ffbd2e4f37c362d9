import Argon2id.Lib.Base64
import Argon2id.Lib.Numeral
import Argon2id.Libargon2.Types

/-!
# Ruby — the parts of Ruby the gem relies on

Strings are their bytes.  `Kernel#Integer` and `String#unpack1("m")` are given on the strings the
gem applies them to: digit strings, and strings over the Base64 alphabet.
-/

namespace Argon2id

/-- What a call can raise.  `heapOverflow` is no exception: it stands for undefined behaviour. -/
inductive RubyError
  | argumentError (msg : String)
  | rangeError (msg : String)
  | argon2idError (msg : String)
  | javaException (msg : String)
  | heapOverflow
  deriving DecidableEq, Repr

/-! ## Numbers -/

/-- `String#inspect` of a digit string, which has nothing to escape. -/
def inspectDigits (s : Bytes) : String :=
  "\"" ++ String.ofList (s.map fun c => Char.ofNat c.toNat) ++ "\""

/-- `Kernel#Integer` of a digit string: a leading `0` in front of other digits selects octal, and a
digit that the radix does not have makes the literal invalid. -/
def kernelInteger (s : Bytes) : Except RubyError Nat :=
  let invalid := RubyError.argumentError ("invalid value for Integer(): " ++ inspectDigits s)
  match s with
  | [] => .error invalid
  | [c] => if Numeral.isDigit c then .ok (Numeral.digit c) else .error invalid
  | c :: ds =>
      if (c :: ds).all Numeral.isDigit = false then .error invalid
      else if c ≠ 48 then .ok (Numeral.value 10 (c :: ds))
      else if (c :: ds).all (fun d => Numeral.digit d < 8) then .ok (Numeral.value 8 (c :: ds))
      else .error invalid

/-- `NUM2UINT`: negative values down to `-2^31` wrap. -/
def num2uint (n : Int) : Except RubyError UInt32 :=
  if -2 ^ 31 ≤ n ∧ n ≤ 2 ^ 32 - 1 then
    .ok (UInt32.ofInt n)
  else
    .error (.rangeError "integer out of range")

/-- `Integer#to_s` -/
def integerToS (n : Int) : Bytes :=
  if 0 ≤ n then Numeral.print n.toNat else ascii "-" ++ Numeral.print (-n).toNat

/-! ## Base64 -/

/-- The groups of `String#unpack1("m")`: four characters give three bytes, three give two, two give
one, and a lone last character is dropped. -/
def unpackGroups : List Nat → Bytes
  | a :: b :: c :: d :: rest =>
      UInt8.ofNat (a <<< 2 ||| b >>> 4) :: UInt8.ofNat (b <<< 4 ||| c >>> 2) ::
        UInt8.ofNat (c <<< 6 ||| d) :: unpackGroups rest
  | [a, b, c] => [UInt8.ofNat (a <<< 2 ||| b >>> 4), UInt8.ofNat (b <<< 4 ||| c >>> 2)]
  | [a, b] => [UInt8.ofNat (a <<< 2 ||| b >>> 4)]
  | _ => []

/-- `String#unpack1("m")` of a string without `=`; other characters are skipped. -/
def unpack1m (s : Bytes) : Bytes :=
  unpackGroups (s.filterMap Base64.value?)

end Argon2id
