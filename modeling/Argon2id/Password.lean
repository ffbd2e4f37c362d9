import Argon2id.Lib.Regexp
import Argon2id.Ext

/-!
# Password — `password.rb`: parsing, creating and comparing passwords

`pattern` is `Password::PATTERN` as a regular expression over bytes: every character it accepts is
ASCII, so on a validly encoded string with an ASCII-compatible encoding matching characters and
matching bytes are the same.
-/

namespace Argon2id

/-! ## The pattern -/

/-- `[a-zA-Z0-9+/]` -/
def base64Class (c : UInt8) : Bool :=
  (decide (97 ≤ c.toNat) && decide (c.toNat ≤ 122)) ||
    (decide (65 ≤ c.toNat) && decide (c.toNat ≤ 90)) ||
    (decide (48 ≤ c.toNat) && decide (c.toNat ≤ 57)) || decide (c = 43) || decide (c = 47)

/-- `(\d+)` -/
def digitsGroup : Regexp UInt8 :=
  .group (.plus Numeral.isDigit)

/-- `([a-zA-Z0-9+/]+)` -/
def base64Group : Regexp UInt8 :=
  .group (.plus base64Class)

/-- `Password::PATTERN` between its anchors. -/
def pattern : Regexp UInt8 :=
  .seq (.text (ascii "$argon2id")) <|
  .seq (.opt (.seq (.text (ascii "$v=")) digitsGroup)) <|
  .seq (.text (ascii "$m=")) <|
  .seq digitsGroup <|
  .seq (.text (ascii ",t=")) <|
  .seq digitsGroup <|
  .seq (.text (ascii ",p=")) <|
  .seq digitsGroup <|
  .seq (.text (ascii "$")) <|
  .seq base64Group <|
  .seq (.text (ascii "$")) base64Group

/-! ## Password objects -/

structure Password where
  encoded : Bytes
  version : Nat
  mCost : Nat
  tCost : Nat
  parallelism : Nat
  salt : Bytes
  output : Bytes
  deriving DecidableEq, Repr

/-- `Password.valid_hash?` -/
def validHash (encoded : Bytes) : Bool :=
  (pattern.fullMatch? encoded).isSome

/-- `Integer($1 || 0x10)` -/
def integerOrVersion10 (group : Option Bytes) : Except RubyError Nat :=
  match group with
  | some digits => kernelInteger digits
  | none => .ok 0x10

/-- `Password.new`.  A match always sets the last five of its six groups. -/
def Password.new (encoded : Bytes) : Except RubyError Password :=
  match pattern.fullMatch? encoded with
  | some [version, some mCost, some tCost, some parallelism, some salt, some output] => do
      let version ← integerOrVersion10 version
      let mCost ← kernelInteger mCost
      let tCost ← kernelInteger tCost
      let parallelism ← kernelInteger parallelism
      .ok
        { encoded := encoded
          version := version
          mCost := mCost
          tCost := tCost
          parallelism := parallelism
          salt := unpack1m salt
          output := unpack1m output }
  | _ => .error (.argumentError "invalid hash")

/-- `OpenSSL::Random.random_bytes`, drawing from `random`. -/
def randomBytes (random : Nat → Bytes) (len : Int) : Except RubyError Bytes :=
  if len < -2 ^ 31 ∨ 2 ^ 31 - 1 < len then .error (.rangeError "integer out of range of int")
  else if len < 0 then .error (.argumentError "negative string size (or size too big)")
  else .ok (random len.toNat)

/-- `Password.create` on integers and a string; `random` is the source of salts. -/
def Password.create (host : Host) (random : Nat → Bytes) (pwd : Bytes)
    (tCost mCost parallelism saltLen outputLen : Int) : Except RubyError Password := do
  let salt ← randomBytes random saltLen
  let encoded ← rbArgon2idHashEncoded host tCost mCost parallelism pwd salt outputLen
  Password.new encoded

/-- `Password#==` of the native gem. -/
def Password.eq (host : Host) (self : Password) (other : Bytes) : Except RubyError Bool :=
  rbArgon2idVerify host self.encoded other

end Argon2id
