import Argon2id.Libargon2.Encoding

/-!
# Libargon2.Argon2 — `argon2.c`: hashing to and verifying against a hash string

The memory-hard computation itself (`initialize`, `fill_memory_blocks`, `finalize`) is a parameter:
a `Host` supplies the tag as a function of everything `initial_hash` reads, always of the requested
length.  It also supplies the platform and the contents of freshly allocated blocks; allocation and
thread creation succeed.
-/

namespace Argon2id

/-! ## What the library runs on -/

structure Host where
  platform : Platform
  /-- The Argon2 tag of type, version, `m_cost`, `t_cost`, lanes, salt, password, length. -/
  tag : Argon2Type → Nat → Nat → Nat → Nat → Bytes → Bytes → Nat → Bytes
  tag_length : ∀ type version mCost tCost lanes salt pwd outlen,
    (tag type version mCost tCost lanes salt pwd outlen).length = outlen
  /-- The uninitialised contents of an allocated block. -/
  malloc : Nat → Bytes
  malloc_length : ∀ size, (malloc size).length = size

/-- A host whose tags and fresh blocks are all zero bytes. -/
def Host.zero (plat : Platform) : Host where
  platform := plat
  tag _ _ _ _ _ _ _ outlen := List.replicate outlen 0
  tag_length := by simp
  malloc size := List.replicate size 0
  malloc_length := by simp

/-! ## Hashing -/

/-- `argon2_ctx`: the context with the tag in its output buffer. -/
def argon2Ctx (host : Host) (ctx : Context) (type : Argon2Type) : Except ErrorCode Context :=
  match validateInputs host.platform ctx with
  | .ok =>
      .ok { ctx with
        out := some (host.tag type ctx.version.toNat ctx.mCost.toNat ctx.tCost.toNat
          ctx.lanes.toNat ((ctx.salt.getD []).take ctx.saltlen.toNat)
          ((ctx.pwd.getD []).take ctx.pwdlen.toNat) ctx.outlen.toNat) }
  | code => .error code

/-- `argon2_hash` reports every failure of the encoder as one code. -/
def encodingResult (result : Except Stop Bytes) : Except Stop Bytes :=
  match result with
  | .ok block => .ok block
  | .error (.ret _) => .error (.ret .encodingFail)
  | .error .heapOverflow => .error .heapOverflow

/-- `argon2_hash` without a raw output buffer; `encoded` is a block of `encodedlen` bytes. -/
def argon2Hash (host : Host) (tCost mCost parallelism : UInt32) (pwd salt : Bytes)
    (hashlen : UInt32) (encoded : Bytes) (encodedlen : Nat) (type : Argon2Type)
    (version : UInt32) : Except Stop Bytes :=
  if maxPwdLength.toNat < pwd.length then .error (.ret .pwdTooLong)
  else if maxSaltLength.toNat < salt.length then .error (.ret .saltTooLong)
  else if maxOutlen < hashlen then .error (.ret .outputTooLong)
  else if hashlen < minOutlen then .error (.ret .outputTooShort)
  else
    let context : Context :=
      { out := some (host.malloc hashlen.toNat), outlen := hashlen,
        pwd := some pwd, pwdlen := UInt32.ofNat pwd.length,
        salt := some salt, saltlen := UInt32.ofNat salt.length,
        secret := none, secretlen := 0, ad := none, adlen := 0,
        tCost := tCost, mCost := mCost, lanes := parallelism, threads := parallelism,
        version := version, allocateCbk := false, freeCbk := false, flags := defaultFlags }
    match argon2Ctx host context type with
    | .error code => .error (.ret code)
    | .ok context =>
        if encodedlen = 0 then .ok encoded
        else encodingResult (encodeString host.platform encoded encodedlen context type)

/-- `argon2id_hash_encoded` -/
def argon2idHashEncoded (host : Host) (tCost mCost parallelism : UInt32) (pwd salt : Bytes)
    (hashlen : UInt32) (encoded : Bytes) (encodedlen : Nat) : Except Stop Bytes :=
  argon2Hash host tCost mCost parallelism pwd salt hashlen encoded encodedlen .id versionNumber

/-- `argon2_encodedlen` -/
def argon2Encodedlen (plat : Platform) (tCost mCost parallelism saltlen hashlen : UInt32)
    (type : Argon2Type) : Nat :=
  ((ascii "$$v=$m=,t=,p=$$").length + (argon2Type2string type false).length + numlen tCost +
    numlen mCost + numlen parallelism + b64len plat saltlen + b64len plat hashlen +
    numlen versionNumber + 1) % 2 ^ plat.size.bits

/-! ## Verifying -/

/-- The difference accumulated by the loop of `argon2_compare`. -/
def compareLoop : Bytes → Bytes → UInt8 → UInt8
  | b1 :: bs1, b2 :: bs2, d => compareLoop bs1 bs2 (d ||| (b1 ^^^ b2))
  | _, _, d => d

/-- `argon2_compare`: `0` for equal, `-1` for different buffers.  `d - 1` is an `int`, shifted
arithmetically. -/
def argon2Compare (b1 b2 : Bytes) (len : Nat) : Int :=
  let d := compareLoop (b1.take len) (b2.take len) 0
  ((((d.toNat : Int) - 1) >>> (8 : Nat)) % 2) - 1

/-- `argon2_verify_ctx` -/
def argon2VerifyCtx (host : Host) (ctx : Context) (hash : Bytes) (type : Argon2Type) :
    ErrorCode :=
  match argon2Ctx host ctx type with
  | .error code => code
  | .ok ctx =>
      if argon2Compare hash (ctx.out.getD []) ctx.outlen.toNat ≠ 0 then .verifyMismatch else .ok

/-- The context `argon2_verify` hands to `decode_string`: buffers as long as the encoded string. -/
def verifyContext (host : Host) (maxFieldLen : UInt32) (pwd : Bytes) : Context :=
  { out := some (host.malloc maxFieldLen.toNat), outlen := maxFieldLen,
    pwd := some pwd, pwdlen := UInt32.ofNat pwd.length,
    salt := some (host.malloc maxFieldLen.toNat), saltlen := maxFieldLen,
    secret := none, secretlen := 0, ad := none, adlen := 0,
    tCost := 0, mCost := 0, lanes := 0, threads := 0, version := 0,
    allocateCbk := false, freeCbk := false, flags := 0 }

/-- `strlen` of the bytes at a pointer. -/
def strlen (s : Bytes) : Nat :=
  (s.takeWhile fun c => c ≠ 0).length

/-- `argon2_verify` -/
def argon2Verify (host : Host) (encoded pwd : Bytes) (type : Argon2Type) : ErrorCode :=
  if maxPwdLength.toNat < pwd.length then .pwdTooLong
  else
    let encodedLen := strlen encoded
    if uint32Max < encodedLen then .decodingFail
    else
      let ctx := verifyContext host (UInt32.ofNat encodedLen) pwd
      match decodeString host.platform ctx encoded type with
      | .error code => code
      | .ok ctx =>
          -- set the desired result aside and compute into a new buffer
          let desiredResult := ctx.out.getD []
          argon2VerifyCtx host { ctx with out := some (host.malloc ctx.outlen.toNat) }
            desiredResult type

/-- `argon2id_verify` -/
def argon2idVerify (host : Host) (encoded pwd : Bytes) : ErrorCode :=
  argon2Verify host encoded pwd .id

end Argon2id
