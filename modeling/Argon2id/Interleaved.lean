import Argon2id.Ext
import Argon2id.Heap

/-!
# Interleaved — the two native methods among other Ruby code

`Ext` has the methods of `argon2id.c` on byte strings.  Here they are programs on the heap of Ruby
strings, step by step in the order of the source.  Other code acts on the heap at every coercion
(the code of `to_str` and `to_int`, and any thread that code lets run) and, once the GVL is released,
before every single byte the library reads.

Each program keeps a record of what it has seen of its strings (`Use`).
-/

namespace Argon2id

namespace Interleaved

open Interference

/-! ## Arguments and results -/

/-- The strings a method works on, by the name of the variable that holds them. -/
inductive Param
  | pwd
  | salt
  | encoded
  deriving DecidableEq, Repr

/-- What a program has seen of a string. -/
inductive Use
  /-- `rb_str_new_frozen` has returned this string. -/
  | frozen (param : Param) (s : RString)
  /-- `RSTRING_LEN` -/
  | length (param : Param) (len : Nat)
  /-- The length from which `argon2_encodedlen` computes. -/
  | sized (param : Param) (len : UInt32)
  /-- A byte read through `RSTRING_PTR`, maybe the terminator. -/
  | byte (param : Param) (offset : Nat) (c : UInt8)
  deriving DecidableEq, Repr

/-- How a call ends without a value. -/
inductive Raised
  /-- No implicit conversion. -/
  | typeError
  /-- An exception of the code that a coercion runs. -/
  | callback (exception : Nat)
  | ruby (e : RubyError)
  /-- No exception: a read behind the terminator of a string, which is undefined. -/
  | overread
  deriving DecidableEq, Repr

/-- An argument where a string is wanted: a string, or an object whose `to_str` does what the script
says and then returns or raises. -/
inductive StringArg
  | string (ref : Ref)
  | object (script : List Action) (result : Except Nat Ref)

/-- An argument where an integer is wanted; `none` is an object that is no `Integer`. -/
inductive IntArg
  | integer (n : Int)
  | object (script : List Action) (result : Except Nat (Option Int))

abbrev Call (α : Type) : Type :=
  Prog Action Heap Use Raised α

/-- A variable that holds a string. -/
structure Local where
  param : Param
  ref : Ref
  deriving DecidableEq, Repr

/-! ## The C API -/

/-- The string at `ref`; what is not a string of the heap has no implicit conversion into one. -/
def string (ref : Ref) : Call RString := do
  let heap ← shared
  match heap[ref]? with
  | some s => pure s
  | none => raise .typeError

/-- `StringValue` -/
def stringValue (arg : StringArg) : Call Ref := do
  interfere
  match arg with
  | .string ref => do
      let _ ← string ref
      pure ref
  | .object script result => do
      perform script
      match result with
      | .ok ref => do
          let _ ← string ref
          pure ref
      | .error exception => raise (.callback exception)

/-- `StringValueCStr`: where the characters of an encoding have several bytes, it looks for a `NUL`
character, not for a `NUL` byte. -/
def stringValueCStr (arg : StringArg) : Call Ref := do
  let ref ← stringValue arg
  let s ← string ref
  if s.strNullChar then
    match s.minlen with
    | .one => raise (.ruby (.argumentError "string contains null byte"))
    | _ => raise (.ruby (.argumentError "string contains null char"))
  else
    pure ref

/-- `rb_str_new_frozen`: the string itself when it is frozen, else a frozen string with its bytes. -/
def rbStrNewFrozen (param : Param) (ref : Ref) : Call Local := do
  let s ← string ref
  record (.frozen param { s with frozen := true })
  if s.frozen then
    pure { param := param, ref := ref }
  else do
    let heap ← shared
    update fun heap => heap ++ [{ s with frozen := true }]
    pure { param := param, ref := heap.length }

/-- `RSTRING_LEN` -/
def rstringLen (v : Local) : Call Nat := do
  let s ← string v.ref
  record (.length v.param s.bytes.length)
  pure s.bytes.length

/-- `NUM2UINT` -/
def num2uint (arg : IntArg) : Call UInt32 := do
  interfere
  match arg with
  | .integer n => lift ((Argon2id.num2uint n).mapError .ruby)
  | .object script result => do
      perform script
      match result with
      | .ok (some n) => lift ((Argon2id.num2uint n).mapError .ruby)
      | .ok none => raise .typeError
      | .error exception => raise (.callback exception)

/-! ## Memory, while the GVL is released -/

/-- `rb_thread_call_without_gvl` -/
def rbThreadCallWithoutGvl {α : Type} (call : Call α) : Call α := do
  interfere
  let result ← call
  interfere
  pure result

/-- One byte through the pointer of a string. -/
def readByte (v : Local) (offset : Nat) : Call UInt8 := do
  interfere
  let s ← string v.ref
  match (s.bytes ++ [0])[offset]? with
  | some c => do
      record (.byte v.param offset c)
      pure c
  | none => raise .overread

/-- `n` bytes from an offset on. -/
def readBytes (v : Local) : Nat → Nat → Call Bytes
  | _, 0 => pure []
  | offset, n + 1 => do
      let c ← readByte v offset
      let cs ← readBytes v (offset + 1) n
      pure (c :: cs)

/-- The bytes up to the first `NUL`, among the `n` bytes from an offset on. -/
def readUntilNul (v : Local) : Nat → Nat → Call Bytes
  | _, 0 => raise .overread
  | offset, n + 1 => do
      let c ← readByte v offset
      if c = 0 then
        pure []
      else do
        let cs ← readUntilNul v (offset + 1) n
        pure (c :: cs)

/-- The C string at the pointer of a string, whose memory ends with the terminator. -/
def readCString (v : Local) : Call Bytes := do
  let s ← string v.ref
  readUntilNul v 0 (s.bytes.length + 1)

/-! ## Hashing -/

/-- `struct hash_encoded_args` -/
structure HashEncodedArgs where
  tCost : UInt32
  mCost : UInt32
  parallelism : UInt32
  pwd : Local
  pwdlen : Nat
  salt : Local
  saltlen : Nat
  outlen : UInt32
  encoded : Bytes
  encodedlen : Nat

/-- `argon2id_hash_encoded`, with its reads of the password and the salt.  The validation, which is
part of `argon2_ctx` and comes before its reads, looks at nothing but the lengths. -/
def argon2idHashEncoded (host : Host) (args : HashEncodedArgs) : Call (Except Stop Bytes) :=
  if maxPwdLength.toNat < args.pwdlen then pure (.error (.ret .pwdTooLong))
  else if maxSaltLength.toNat < args.saltlen then pure (.error (.ret .saltTooLong))
  else if maxOutlen < args.outlen then pure (.error (.ret .outputTooLong))
  else if args.outlen < minOutlen then pure (.error (.ret .outputTooShort))
  else do
    -- `initial_hash`
    let pwd ← readBytes args.pwd 0 args.pwdlen
    let salt ← readBytes args.salt 0 args.saltlen
    let context : Context :=
      { out := some (host.malloc args.outlen.toNat), outlen := args.outlen,
        pwd := some pwd, pwdlen := UInt32.ofNat args.pwdlen,
        salt := some salt, saltlen := UInt32.ofNat args.saltlen,
        secret := none, secretlen := 0, ad := none, adlen := 0,
        tCost := args.tCost, mCost := args.mCost, lanes := args.parallelism,
        threads := args.parallelism, version := versionNumber, allocateCbk := false,
        freeCbk := false, flags := defaultFlags }
    match argon2Ctx host context .id with
    | .error code => pure (.error (.ret code))
    | .ok context =>
        if args.encodedlen = 0 then
          pure (.ok args.encoded)
        else do
          -- `encode_string` reads the salt again
          let salt ← readBytes args.salt 0 args.saltlen
          pure (encodingResult (encodeString host.platform args.encoded args.encodedlen
            { context with salt := some salt } .id))

/-- `rb_argon2id_hash_encoded` after its conversions. -/
def hashConverted (host : Host) (tCost mCost parallelism outlen : UInt32) (pwd salt : Local) :
    Call Bytes := do
  let pwdlen ← rstringLen pwd
  if uint32Max < pwdlen then
    raise (.ruby (.rangeError "password too long"))
  else do
    let saltlen ← rstringLen salt
    if uint32Max < saltlen then
      raise (.ruby (.rangeError "salt too long"))
    else do
      record (.sized salt.param (UInt32.ofNat saltlen))
      let encodedlen := argon2Encodedlen host.platform tCost mCost parallelism
        (UInt32.ofNat saltlen) outlen .id
      -- the lengths for the library are taken from the strings once more
      let pwdlen ← rstringLen pwd
      let saltlen ← rstringLen salt
      let args : HashEncodedArgs :=
        { tCost := tCost, mCost := mCost, parallelism := parallelism, pwd := pwd, pwdlen := pwdlen,
          salt := salt, saltlen := saltlen, outlen := outlen, encoded := host.malloc encodedlen,
          encodedlen := encodedlen }
      let result ← rbThreadCallWithoutGvl (argon2idHashEncoded host args)
      lift ((hashEncodedBody result).mapError .ruby)

/-- `rb_argon2id_hash_encoded` -/
def rbArgon2idHashEncoded (host : Host) (iterations memory threads : IntArg) (pwd salt : StringArg)
    (hashlen : IntArg) : Call Bytes := do
  let pwd ← stringValue pwd
  let pwd ← rbStrNewFrozen .pwd pwd
  let salt ← stringValue salt
  let salt ← rbStrNewFrozen .salt salt
  let tCost ← num2uint iterations
  let mCost ← num2uint memory
  let parallelism ← num2uint threads
  let outlen ← num2uint hashlen
  hashConverted host tCost mCost parallelism outlen pwd salt

/-! ## Verifying -/

/-- `struct verify_args` -/
structure VerifyArgs where
  encoded : Local
  pwd : Local
  pwdlen : Nat

/-- `argon2id_verify`, with its reads of the encoded hash and the password. -/
def argon2idVerify (host : Host) (args : VerifyArgs) : Call ErrorCode :=
  if maxPwdLength.toNat < args.pwdlen then pure .pwdTooLong
  else do
    -- `strlen`
    let encoded ← readCString args.encoded
    if uint32Max < encoded.length then pure .decodingFail
    else do
      -- the context points to the password, which `decode_string` does not read
      let ctx : Context :=
        { verifyContext host (UInt32.ofNat encoded.length) [] with
          pwdlen := UInt32.ofNat args.pwdlen }
      let encoded ← readCString args.encoded
      match decodeString host.platform ctx encoded .id with
      | .error code => pure code
      | .ok ctx => do
          let desiredResult := ctx.out.getD []
          -- `initial_hash`
          let pwd ← readBytes args.pwd 0 args.pwdlen
          pure (argon2VerifyCtx host
            { ctx with out := some (host.malloc ctx.outlen.toNat), pwd := some pwd }
            desiredResult .id)

/-- What `rb_argon2id_verify` makes of the result code. -/
def verifyResult (code : ErrorCode) : Except RubyError Bool :=
  match code with
  | .ok => .ok true
  | .verifyMismatch => .ok false
  | .decodingFail => .error (.argumentError (argon2ErrorMessage .decodingFail))
  | .decodingLengthFail => .error (.argumentError (argon2ErrorMessage .decodingLengthFail))
  | code => .error (.argon2idError (argon2ErrorMessage code))

/-- `rb_argon2id_verify` on an object whose `@encoded` is `encoded`. -/
def rbArgon2idVerify (host : Host) (encoded pwd : StringArg) : Call Bool := do
  let encoded ← stringValueCStr encoded
  let encoded ← rbStrNewFrozen .encoded encoded
  let pwd ← stringValue pwd
  let pwd ← rbStrNewFrozen .pwd pwd
  let pwdlen ← rstringLen pwd
  let result ← rbThreadCallWithoutGvl
    (argon2idVerify host { encoded := encoded, pwd := pwd, pwdlen := pwdlen })
  lift ((verifyResult result).mapError .ruby)

end Interleaved

end Argon2id
