import Argon2id.Password

/-!
# JRuby — `extension.rb`: the backend on Bouncy Castle

`BouncyCastle` stands for `Argon2BytesGenerator`: a tag function, and which parameters it raises an
`IllegalStateException` for.  `java.util.Base64` without padding is the standard encoder of
`Lib.Base64`.
-/

namespace Argon2id

/-! ## The generator -/

structure BouncyCastle where
  /-- The tag of version, memory, iterations, parallelism, salt, password, length. -/
  tag : Nat → Nat → Nat → Nat → Bytes → Bytes → Nat → Bytes
  tag_length : ∀ version memory iterations parallelism salt pwd outlen,
    (tag version memory iterations parallelism salt pwd outlen).length = outlen
  /-- The message of the `IllegalStateException` for parallelism, memory, iterations, length. -/
  illegalState : Int → Int → Int → Nat → Option String
  illegalState_isSome : ∀ parallelism memory iterations outlen,
    parallelism < 1 ∨ memory < 2 * parallelism ∨ iterations < 1 ∨ outlen < 4 →
      (illegalState parallelism memory iterations outlen).isSome = true

/-- `init` and `generate_bytes` with an array of `outlen` bytes: the message of an
`IllegalStateException`, or the bytes the array is filled with. -/
def BouncyCastle.generateBytes (bc : BouncyCastle) (version iterations memory parallelism : Int)
    (salt pwd : Bytes) (outlen : Nat) : Except String Bytes :=
  match bc.illegalState parallelism memory iterations outlen with
  | some message => .error message
  | none =>
      .ok (bc.tag version.toNat memory.toNat iterations.toNat parallelism.toNat salt pwd outlen)

/-- The parameters that Bouncy Castle rejects. -/
def BouncyRejects (parallelism memory iterations : Int) (outlen : Nat) : Prop :=
  parallelism < 1 ∨ 2 ^ 24 < parallelism ∨ memory < 2 * parallelism ∨ iterations < 1 ∨ outlen < 4

instance (parallelism memory iterations : Int) (outlen : Nat) :
    Decidable (BouncyRejects parallelism memory iterations outlen) :=
  inferInstanceAs (Decidable (parallelism < 1 ∨ 2 ^ 24 < parallelism ∨ memory < 2 * parallelism ∨
    iterations < 1 ∨ outlen < 4))

/-- The generator rejects exactly `BouncyRejects`, and computes the same tags as the native core for
parameters that both accept. -/
structure BouncyCastle.Matches (bc : BouncyCastle) (host : Host) : Prop where
  illegalState : ∀ parallelism memory iterations outlen,
    (bc.illegalState parallelism memory iterations outlen).isSome = true ↔
      BouncyRejects parallelism memory iterations outlen
  tag : ∀ (version mCost tCost lanes : Nat) (salt pwd : Bytes) (outlen : Nat),
    WithinLimits host.platform mCost tCost lanes salt.length outlen →
      ¬ BouncyRejects lanes mCost tCost outlen →
        bc.tag version mCost tCost lanes salt pwd outlen =
          host.tag .id version mCost tCost lanes salt pwd outlen

/-- A generator whose tags are all zero bytes. -/
def BouncyCastle.zero : BouncyCastle where
  tag _ _ _ _ _ _ outlen := List.replicate outlen 0
  tag_length := by simp
  illegalState parallelism memory iterations outlen :=
    if BouncyRejects parallelism memory iterations outlen then some "invalid parameters" else none
  illegalState_isSome := by
    intro parallelism memory iterations outlen hinvalid
    rw [if_pos (by rw [BouncyRejects]; omega)]
    rfl

theorem BouncyCastle.zero_matches (plat : Platform) :
    BouncyCastle.zero.Matches (Host.zero plat) where
  illegalState := by
    intro parallelism memory iterations outlen
    by_cases hrejects : BouncyRejects parallelism memory iterations outlen
    · simp [BouncyCastle.zero, hrejects]
    · simp [BouncyCastle.zero, hrejects]
  tag := by
    intro version mCost tCost lanes salt pwd outlen _ _
    rfl

/-! ## The two methods -/

namespace JRuby

/-- The conversion of a Ruby Integer to a Java `int` argument. -/
def toJavaInt (n : Int) : Except RubyError Int :=
  if -2 ^ 31 ≤ n ∧ n ≤ 2 ^ 31 - 1 then .ok n else .error (.rangeError "too big for int")

/-- `Java::byte[n].new`: the length of the new array. -/
def newByteArray (n : Int) : Except RubyError Nat := do
  let n ← toJavaInt n
  if n < 0 then .error (.javaException "java.lang.NegativeArraySizeException") else .ok n.toNat

/-- `to_java_bytes`: the bytes of a string in a new array, whose length is a Java `int`. -/
def toJavaBytes (bytes : Bytes) : Except RubyError Bytes :=
  if bytes.length ≤ 2 ^ 31 - 1 then .ok bytes
  else .error (.javaException "java.lang.OutOfMemoryError")

/-- `Password.hash_encoded` on JRuby. -/
def hashEncoded (bc : BouncyCastle) (tCost mCost parallelism : Int) (pwd salt : Bytes)
    (hashlen : Int) : Except RubyError Bytes :=
  if salt.isEmpty then .error (.argon2idError "Salt is too short")
  else if mCost < 8 then .error (.argon2idError "Memory cost is too small")
  else do
    let saltBytes ← toJavaBytes salt
    let outlen ← newByteArray hashlen
    let iterations ← toJavaInt tCost
    let memory ← toJavaInt mCost
    let lanes ← toJavaInt parallelism
    let pwdBytes ← toJavaBytes pwd
    match bc.generateBytes 0x13 iterations memory lanes saltBytes pwdBytes outlen with
    -- `rescue Java::JavaLang::IllegalStateException`
    | .error message => .error (.argon2idError message)
    | .ok output =>
        .ok (ascii "$argon2id$v=19$m=" ++ integerToS mCost ++ ascii ",t=" ++ integerToS tCost ++
          ascii ",p=" ++ integerToS parallelism ++ ascii "$" ++ Base64.encode saltBytes ++
            ascii "$" ++ Base64.encode output)

/-- `Password#verify` on JRuby. -/
def verify (bc : BouncyCastle) (self : Password) (pwd : Bytes) : Except RubyError Bool := do
  let outlen ← newByteArray self.output.length
  let version ← toJavaInt self.version
  let iterations ← toJavaInt self.tCost
  let memory ← toJavaInt self.mCost
  let lanes ← toJavaInt self.parallelism
  let saltBytes ← toJavaBytes self.salt
  let pwdBytes ← toJavaBytes pwd
  match bc.generateBytes version iterations memory lanes saltBytes pwdBytes outlen with
  -- nothing is rescued here
  | .error message => .error (.javaException message)
  | .ok otherOutput => .ok (decide (self.output = otherOutput))

end JRuby

end Argon2id
