import Argon2id.Libargon2.Types

/-!
# Libargon2.Core — `core.c`: the validation of inputs

`validateInputs` makes the checks of the source in the order of the source, in 32-bit arithmetic.
For a context of the shape that hashing and verifying build (`Context.Plain`) they accept exactly
the parameters within `WithinLimits`, a predicate over exact integers: `8 * lanes` may wrap, but
only for lane counts that a later check rejects.
-/

namespace Argon2id

/-! ## The checks -/

/-- `validate_inputs`; callers never pass a `NULL` context. -/
def validateInputs (plat : Platform) (ctx : Context) : ErrorCode :=
  if ctx.out.isNone then .outputPtrNull
  else if minOutlen > ctx.outlen then .outputTooShort
  else if maxOutlen < ctx.outlen then .outputTooLong
  -- the password is a required parameter
  else if ctx.pwd.isNone ∧ 0 ≠ ctx.pwdlen then .pwdPtrMismatch
  else if minPwdLength > ctx.pwdlen then .pwdTooShort
  else if maxPwdLength < ctx.pwdlen then .pwdTooLong
  -- so is the salt
  else if ctx.salt.isNone ∧ 0 ≠ ctx.saltlen then .saltPtrMismatch
  else if minSaltLength > ctx.saltlen then .saltTooShort
  else if maxSaltLength < ctx.saltlen then .saltTooLong
  -- secret and associated data are optional
  else if ctx.secret.isNone ∧ 0 ≠ ctx.secretlen then .secretPtrMismatch
  else if ctx.secret.isSome ∧ minSecret > ctx.secretlen then .secretTooShort
  else if ctx.secret.isSome ∧ maxSecret < ctx.secretlen then .secretTooLong
  else if ctx.ad.isNone ∧ 0 ≠ ctx.adlen then .adPtrMismatch
  else if ctx.ad.isSome ∧ minAdLength > ctx.adlen then .adTooShort
  else if ctx.ad.isSome ∧ maxAdLength < ctx.adlen then .adTooLong
  else if minMemory > ctx.mCost then .memoryTooLittle
  -- `ARGON2_MAX_MEMORY` is a 64-bit constant
  else if maxMemory plat < ctx.mCost.toNat then .memoryTooMuch
  -- `8 * lanes` is computed in 32 bits
  else if ctx.mCost < 8 * ctx.lanes then .memoryTooLittle
  else if minTime > ctx.tCost then .timeTooSmall
  else if maxTime < ctx.tCost then .timeTooLarge
  else if minLanes > ctx.lanes then .lanesTooFew
  else if maxLanes < ctx.lanes then .lanesTooMany
  else if minThreads > ctx.threads then .threadsTooFew
  else if maxThreads < ctx.threads then .threadsTooMany
  else if ctx.allocateCbk ∧ ¬ ctx.freeCbk then .freeMemoryCbkNull
  else if ¬ ctx.allocateCbk ∧ ctx.freeCbk then .allocateMemoryCbkNull
  else .ok

/-! ## The limits over exact integers -/

/-- The parameters Argon2 accepts on a platform. -/
structure WithinLimits (plat : Platform) (mCost tCost lanes saltlen outlen : Nat) : Prop where
  outlen_ge : 4 ≤ outlen
  saltlen_ge : 8 ≤ saltlen
  memory_ge : 8 ≤ mCost
  memory_le : mCost ≤ maxMemory plat
  memory_lanes : 8 * lanes ≤ mCost
  time_ge : 1 ≤ tCost
  lanes_ge : 1 ≤ lanes
  lanes_le : lanes ≤ 0xFFFFFF

theorem withinLimits_iff {plat : Platform} {mCost tCost lanes saltlen outlen : Nat} :
    WithinLimits plat mCost tCost lanes saltlen outlen ↔
      4 ≤ outlen ∧ 8 ≤ saltlen ∧ 8 ≤ mCost ∧ mCost ≤ maxMemory plat ∧ 8 * lanes ≤ mCost ∧
        1 ≤ tCost ∧ 1 ≤ lanes ∧ lanes ≤ 0xFFFFFF := by
  constructor
  · rintro ⟨h1, h2, h3, h4, h5, h6, h7, h8⟩
    exact ⟨h1, h2, h3, h4, h5, h6, h7, h8⟩
  · rintro ⟨h1, h2, h3, h4, h5, h6, h7, h8⟩
    exact ⟨h1, h2, h3, h4, h5, h6, h7, h8⟩

instance (plat : Platform) (mCost tCost lanes saltlen outlen : Nat) :
    Decidable (WithinLimits plat mCost tCost lanes saltlen outlen) :=
  decidable_of_iff _ withinLimits_iff.symm

/-- The shape of the contexts that `argon2_hash` and `decode_string` fill in. -/
structure Context.Plain (ctx : Context) : Prop where
  out : ctx.out.isSome = true
  pwd : ctx.pwd.isSome = true
  salt : ctx.salt.isSome = true
  secret : ctx.secret = none
  secretlen : ctx.secretlen = 0
  ad : ctx.ad = none
  adlen : ctx.adlen = 0
  threads : ctx.threads = ctx.lanes
  allocateCbk : ctx.allocateCbk = false
  freeCbk : ctx.freeCbk = false

/-- One failing check ends the validation. -/
theorem check_eq_ok_iff {c : Prop} [Decidable c] {e x : ErrorCode} (he : e ≠ .ok) :
    (if c then e else x) = .ok ↔ ¬ c ∧ x = .ok := by
  by_cases hc : c
  · simp [hc, he]
  · simp [hc]

theorem validateInputs_eq_ok_iff {plat : Platform} {ctx : Context} (h : ctx.Plain) :
    validateInputs plat ctx = .ok ↔
      WithinLimits plat ctx.mCost.toNat ctx.tCost.toNat ctx.lanes.toNat ctx.saltlen.toNat
        ctx.outlen.toNat := by
  have hout : ctx.out.isNone = false := by simpa using h.out
  have hpwd : ctx.pwd.isNone = false := by simpa using h.pwd
  have hsalt : ctx.salt.isNone = false := by simpa using h.salt
  -- the product may wrap around, but not for a number of lanes within its own limit
  have hmul : (8 * ctx.lanes).toNat = 8 * ctx.lanes.toNat % 2 ^ 32 := UInt32.toNat_mul 8 ctx.lanes
  have houtlen := ctx.outlen.toNat_lt
  have hpwdlen := ctx.pwdlen.toNat_lt
  have hsaltlen := ctx.saltlen.toNat_lt
  have htCost := ctx.tCost.toNat_lt
  have hlanes := ctx.lanes.toNat_lt
  rw [withinLimits_iff]
  simp only [validateInputs, check_eq_ok_iff, ne_eq, reduceCtorEq, not_false_eq_true, hout, hpwd,
    hsalt, h.secret, h.secretlen, h.ad, h.adlen, h.threads, h.allocateCbk, h.freeCbk,
    Option.isNone_none, Option.isSome_none, gt_iff_lt, UInt32.lt_iff_toNat_lt, hmul]
  simp [minOutlen, maxOutlen, minPwdLength, maxPwdLength, minSaltLength, maxSaltLength, minMemory,
    syncPoints, minTime, maxTime, minLanes, maxLanes, minThreads, maxThreads]
  omega

theorem check_ne {c : Prop} [Decidable c] {e x m : ErrorCode} (he : e ≠ m) (hx : x ≠ m) :
    (if c then e else x) ≠ m := by
  by_cases hc : c
  · simpa [hc] using he
  · simpa [hc] using hx

/-- Validation never reports a mismatch, nor a failure of the decoder. -/
theorem validateInputs_ne (plat : Platform) (ctx : Context) {m : ErrorCode}
    (hm : m = .verifyMismatch ∨ m = .decodingFail ∨ m = .decodingLengthFail) :
    validateInputs plat ctx ≠ m := by
  unfold validateInputs
  rcases hm with rfl | rfl | rfl
  · repeat' refine check_ne (by decide) ?_
    decide
  · repeat' refine check_ne (by decide) ?_
    decide
  · repeat' refine check_ne (by decide) ?_
    decide

end Argon2id
