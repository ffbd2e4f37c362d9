import Argon2id.Libargon2.Argon2
import Argon2id.Ruby

/-!
# Ext — `argon2id.c`: the two private methods of the native extension

`rbArgon2idHashEncoded` and `rbArgon2idVerify` take Ruby values (unbounded integers, strings as
bytes) and return a Ruby value or raise.
-/

namespace Argon2id

/-- `rb_str_new_cstr`: the bytes of a block up to its first `NUL`; a block without one is read past
its end. -/
def rbStrNewCstr (block : Bytes) : Except RubyError Bytes :=
  if (0 : UInt8) ∈ block then .ok (block.takeWhile fun c => c ≠ 0) else .error .heapOverflow

/-- `hash_encoded_body`: run the hash and turn its result into a Ruby value. -/
def hashEncodedBody (result : Except Stop Bytes) : Except RubyError Bytes :=
  match result with
  | .ok block => rbStrNewCstr block
  | .error (.ret code) => .error (.argon2idError (argon2ErrorMessage code))
  | .error .heapOverflow => .error .heapOverflow

/-- `rb_argon2id_hash_encoded` -/
def rbArgon2idHashEncoded (host : Host) (iterations memory threads : Int) (pwd salt : Bytes)
    (hashlen : Int) : Except RubyError Bytes := do
  let tCost ← num2uint iterations
  let mCost ← num2uint memory
  let parallelism ← num2uint threads
  let outlen ← num2uint hashlen
  if uint32Max < pwd.length then
    .error (.rangeError "password too long")
  else if uint32Max < salt.length then
    .error (.rangeError "salt too long")
  else
    let encodedlen := argon2Encodedlen host.platform tCost mCost parallelism
      (UInt32.ofNat salt.length) outlen .id
    hashEncodedBody
      (argon2idHashEncoded host tCost mCost parallelism pwd salt outlen (host.malloc encodedlen)
        encodedlen)

/-- `rb_argon2id_verify` on an object whose `@encoded` is `encoded`. -/
def rbArgon2idVerify (host : Host) (encoded pwd : Bytes) : Except RubyError Bool :=
  -- `StringValueCStr`
  if (0 : UInt8) ∈ encoded then
    .error (.argumentError "string contains null byte")
  else
    match argon2idVerify host encoded pwd with
    | .ok => .ok true
    | .verifyMismatch => .ok false
    | .decodingFail => .error (.argumentError (argon2ErrorMessage .decodingFail))
    | .decodingLengthFail => .error (.argumentError (argon2ErrorMessage .decodingLengthFail))
    | code => .error (.argon2idError (argon2ErrorMessage code))

end Argon2id
