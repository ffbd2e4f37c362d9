import Argon2id.Ext
import Argon2id.Libargon2.Encoder

/-!
# HashEncoded — what the native `hash_encoded` returns

Over exact integers, `Accepted` says which requests are hashed: the lengths fit 32 bits, the
parameters are within the limits, and the encoded hash is smaller than the address space.  For these
the result is the canonical text of `nativeHash`, for all others there is no result
(`rbArgon2idHashEncoded_eq_ok_iff`).
-/

namespace Argon2id

open Fallible

/-! ## Ruby integers as `unsigned int` -/

theorem toNat_ofInt (n : Int) : ((UInt32.ofInt n).toNat : Int) = n % 2 ^ 32 := by
  rw [UInt32.ofInt, UInt32.toNat_ofNat']
  omega

theorem num2uint_eq_ok_iff {n : Int} {u : UInt32} :
    num2uint n = .ok u ↔ (-2 ^ 31 ≤ n ∧ n ≤ 2 ^ 32 - 1) ∧ (u.toNat : Int) = n % 2 ^ 32 := by
  rw [num2uint, checked_eq_ok_iff, Except.ok.injEq, ← UInt32.toNat_inj, ← Int.natCast_inj,
    toNat_ofInt, eq_comm (a := n % 2 ^ 32)]

theorem num2uint_toNat (u : UInt32) : num2uint (u.toNat : Int) = .ok u := by
  have hlt := u.toNat_lt
  rw [num2uint_eq_ok_iff]
  omega

/-! ## Accepted requests -/

/-- The size of an encoded hash of version 19 with its `NUL`. -/
def encodedSize (mCost tCost lanes saltlen outlen : Nat) : Nat :=
  26 + (Numeral.print mCost).length + (Numeral.print tCost).length +
    (Numeral.print lanes).length + (4 * saltlen + 2) / 3 + (4 * outlen + 2) / 3

/-- The requests that are hashed. -/
structure Accepted (plat : Platform) (mCost tCost lanes pwdlen saltlen outlen : Nat) : Prop where
  pwdlen_le : pwdlen ≤ uint32Max
  saltlen_le : saltlen ≤ uint32Max
  limits : WithinLimits plat mCost tCost lanes saltlen outlen
  size : encodedSize mCost tCost lanes saltlen outlen < 2 ^ plat.size.bits

/-- The hash that a request asks for. -/
def nativeHash (host : Host) (tCost mCost parallelism : UInt32) (pwd salt : Bytes)
    (outlen : UInt32) : Hash where
  version := some 19
  mCost := mCost.toNat
  tCost := tCost.toNat
  lanes := parallelism.toNat
  salt := salt
  output := host.tag .id 19 mCost.toNat tCost.toNat parallelism.toNat salt pwd outlen.toNat

theorem length_write_nativeHash (host : Host) (tCost mCost parallelism : UInt32) (pwd salt : Bytes)
    (outlen : UInt32) :
    (nativeHash host tCost mCost parallelism pwd salt outlen).write.length + 1 =
      encodedSize mCost.toNat tCost.toNat parallelism.toNat salt.length outlen.toNat := by
  -- both length formulas count four characters for three bytes, and one more than a tail
  have hlen : ∀ bytes : Bytes, (Base64.encode bytes).length = (4 * bytes.length + 2) / 3 := by
    intro bytes
    rw [Base64.length_encode]
    split <;> omega
  have h19 : (Numeral.print 19).length = 2 := by decide
  rw [Hash.write, Parts.length_text]
  simp only [Hash.parts, nativeHash, Option.map_some, Parts.versionText, List.length_append, hlen,
    host.tag_length, h19, encodedSize]
  simp [ascii]
  omega

/-- A text for numbers and fields of less than `2 ^ 32` bytes is far from `2 ^ 64` characters. -/
theorem encodedSize_lt {plat : Platform} (hsize : plat.size = .w64)
    {mCost tCost lanes saltlen outlen : Nat} (hm : mCost < 2 ^ 32) (ht : tCost < 2 ^ 32)
    (hl : lanes < 2 ^ 32) (hs : saltlen < 2 ^ 32) (ho : outlen < 2 ^ 32) :
    encodedSize mCost tCost lanes saltlen outlen < 2 ^ plat.size.bits := by
  have hm' := Numeral.length_print_le mCost
  have ht' := Numeral.length_print_le tCost
  have hl' := Numeral.length_print_le lanes
  rw [encodedSize, hsize]
  simp only [Width.bits]
  omega

/-! ## The context of a request -/

/-- The context of a request, with `out` in its output buffer. -/
def requestContext (out : Bytes) (tCost mCost parallelism : UInt32) (pwd salt : Bytes)
    (outlen : UInt32) : Context :=
  { out := some out, outlen := outlen,
    pwd := some pwd, pwdlen := UInt32.ofNat pwd.length,
    salt := some salt, saltlen := UInt32.ofNat salt.length,
    secret := none, secretlen := 0, ad := none, adlen := 0,
    tCost := tCost, mCost := mCost, lanes := parallelism, threads := parallelism,
    version := versionNumber, allocateCbk := false, freeCbk := false, flags := defaultFlags }

section Request

variable {host : Host} {tCost mCost parallelism outlen : UInt32} {pwd salt : Bytes}

theorem validateInputs_requestContext (plat : Platform) (out pwd : Bytes)
    (hsalt : salt.length ≤ uint32Max) :
    validateInputs plat (requestContext out tCost mCost parallelism pwd salt outlen) = .ok ↔
      WithinLimits plat mCost.toNat tCost.toNat parallelism.toNat salt.length outlen.toNat := by
  have hplain : (requestContext out tCost mCost parallelism pwd salt outlen).Plain :=
    ⟨rfl, rfl, rfl, rfl, rfl, rfl, rfl, rfl, rfl, rfl⟩
  rw [validateInputs_eq_ok_iff hplain]
  simp only [requestContext, toNat_ofNat_of_le hsalt]

/-- The context that is encoded says what the request asks for. -/
theorem hash_requestContext (host : Host) (tCost mCost parallelism outlen : UInt32) (pwd : Bytes)
    (hsalt : salt.length ≤ uint32Max) :
    (requestContext (nativeHash host tCost mCost parallelism pwd salt outlen).output tCost mCost
      parallelism pwd salt outlen).hash =
      nativeHash host tCost mCost parallelism pwd salt outlen := by
  have hout := host.tag_length .id 19 mCost.toNat tCost.toNat parallelism.toNat salt pwd outlen.toNat
  simp [Context.hash, requestContext, nativeHash, toNat_ofNat_of_le hsalt, versionNumber,
    List.take_of_length_le, hout]

theorem argon2Ctx_requestContext (out : Bytes) (hpwd : pwd.length ≤ uint32Max)
    (hsalt : salt.length ≤ uint32Max)
    (hlimits : WithinLimits host.platform mCost.toNat tCost.toNat parallelism.toNat salt.length
      outlen.toNat) :
    argon2Ctx host (requestContext out tCost mCost parallelism pwd salt outlen) .id =
      .ok (requestContext (nativeHash host tCost mCost parallelism pwd salt outlen).output tCost mCost
        parallelism pwd salt outlen) := by
  have hvalid := (validateInputs_requestContext host.platform out pwd hsalt).2 hlimits
  rw [argon2Ctx, hvalid]
  simp [requestContext, nativeHash, toNat_ofNat_of_le hsalt, toNat_ofNat_of_le hpwd, versionNumber]

/-- `argon2_hash` on a password and a salt whose lengths fit 32 bits: within the limits, all that is
left to do is to encode. -/
theorem argon2idHashEncoded_eq (hpwd : pwd.length ≤ uint32Max) (hsalt : salt.length ≤ uint32Max)
    (hlimits : WithinLimits host.platform mCost.toNat tCost.toNat parallelism.toNat salt.length
      outlen.toNat) (encoded : Bytes) (encodedlen : Nat) :
    argon2idHashEncoded host tCost mCost parallelism pwd salt outlen encoded encodedlen =
      if encodedlen = 0 then .ok encoded
      else
        encodingResult (encodeString host.platform encoded encodedlen
          (requestContext (nativeHash host tCost mCost parallelism pwd salt outlen).output tCost mCost
            parallelism pwd salt outlen) .id) := by
  have hpwd' : ¬ maxPwdLength.toNat < pwd.length := Nat.not_lt.2 hpwd
  have hsalt' : ¬ maxSaltLength.toNat < salt.length := Nat.not_lt.2 hsalt
  have hlt := outlen.toNat_lt
  -- a 32-bit length is never too large, and the limits exclude one that is too small
  have hmax : ¬ maxOutlen < outlen := by
    simp only [UInt32.lt_iff_toNat_lt, maxOutlen]
    have h : (0xFFFFFFFF : UInt32).toNat = 4294967295 := rfl
    omega
  have hmin : ¬ outlen < minOutlen := by
    simp only [UInt32.lt_iff_toNat_lt, minOutlen]
    exact Nat.not_lt.2 hlimits.outlen_ge
  have hctx := argon2Ctx_requestContext (host.malloc outlen.toNat) hpwd hsalt hlimits
  rw [requestContext] at hctx
  rw [argon2idHashEncoded, argon2Hash, if_neg hpwd', if_neg hsalt', if_neg hmax, if_neg hmin]
  simp only [hctx]

/-- Outside the limits there is a result code. -/
theorem argon2idHashEncoded_of_not_withinLimits (host : Host) (pwd : Bytes)
    (hsalt : salt.length ≤ uint32Max)
    (hlimits : ¬ WithinLimits host.platform mCost.toNat tCost.toNat parallelism.toNat salt.length
      outlen.toNat) (encoded : Bytes) (encodedlen : Nat) :
    ∃ code, argon2idHashEncoded host tCost mCost parallelism pwd salt outlen encoded encodedlen =
      .error (.ret code) := by
  have hctx : ∃ code, argon2Ctx host (requestContext (host.malloc outlen.toNat) tCost mCost
      parallelism pwd salt outlen) .id = .error code := by
    have hinvalid := mt (validateInputs_requestContext host.platform
      (host.malloc outlen.toNat) pwd hsalt).1 hlimits
    rw [argon2Ctx]
    split
    · rename_i hvalid
      exact absurd hvalid hinvalid
    · exact ⟨_, rfl⟩
  rcases hctx with ⟨code, hctx⟩
  rw [requestContext] at hctx
  simp only [argon2idHashEncoded, argon2Hash, hctx]
  split_ifs
  · exact ⟨_, rfl⟩
  · exact ⟨_, rfl⟩
  · exact ⟨_, rfl⟩
  · exact ⟨_, rfl⟩
  · exact ⟨_, rfl⟩

/-! ## The Ruby method -/

theorem rbStrNewCstr_eq {text block : Bytes} (hnul : (0 : UInt8) ∉ text)
    (hblock : text ++ [0] <+: block) : rbStrNewCstr block = .ok text := by
  rcases hblock with ⟨rest, rfl⟩
  have htake : (text ++ [0] ++ rest).takeWhile (fun c => c ≠ 0) = text := by
    have hall : ∀ c ∈ text, decide (c ≠ 0) = true := by
      intro c hc
      simp only [decide_eq_true_eq]
      rintro rfl
      exact hnul hc
    rw [List.append_assoc, List.takeWhile_append_of_pos hall]
    simp
  rw [rbStrNewCstr, if_pos (by simp), htake]

/-- The computed size of the block is that of the encoded hash, in `size_t`. -/
theorem argon2Encodedlen_request (host : Host) (tCost mCost parallelism outlen : UInt32)
    (hsalt : salt.length ≤ uint32Max) :
    argon2Encodedlen host.platform tCost mCost parallelism (UInt32.ofNat salt.length) outlen .id =
      encodedSize mCost.toNat tCost.toNat parallelism.toNat salt.length outlen.toNat %
        2 ^ host.platform.size.bits := by
  have hlen := argon2Encodedlen_eq host.platform (requestContext
    (nativeHash host tCost mCost parallelism [] salt outlen).output tCost mCost parallelism [] salt
      outlen) rfl
  rw [hash_requestContext host tCost mCost parallelism outlen [] hsalt,
    length_write_nativeHash] at hlen
  exact hlen (toNat_ofNat_of_le hsalt).symm (host.tag_length _ _ _ _ _ _ _ _)

/-- In a block of the right size the library call leaves the encoded hash. -/
theorem hashEncodedBody_of_accepted
    (haccepted : Accepted host.platform mCost.toNat tCost.toNat parallelism.toNat pwd.length
      salt.length outlen.toNat) {block : Bytes}
    (hblock : block.length =
      encodedSize mCost.toNat tCost.toNat parallelism.toNat salt.length outlen.toNat) :
    hashEncodedBody (argon2idHashEncoded host tCost mCost parallelism pwd salt outlen block
        block.length) = .ok (nativeHash host tCost mCost parallelism pwd salt outlen).write := by
  have hhash := hash_requestContext host tCost mCost parallelism outlen pwd haccepted.saltlen_le
  have hvalid := (validateInputs_requestContext host.platform
    (nativeHash host tCost mCost parallelism pwd salt outlen).output pwd haccepted.saltlen_le).2
      haccepted.limits
  have hlength := length_write_nativeHash host tCost mCost parallelism pwd salt outlen
  have hsize : block.length < 2 ^ host.platform.size.bits := hblock ▸ haccepted.size
  rcases encodeString_complete hvalid hsize (by rw [hhash]; omega) with ⟨block', hencode, hwritten⟩
  rw [hhash] at hwritten
  -- the text has no `NUL` of its own, so the C string ends where the text does
  have hnul := not_mem_of_isAscii
    (nativeHash host tCost mCost parallelism pwd salt outlen).isAscii_write
  rw [argon2idHashEncoded_eq haccepted.pwdlen_le haccepted.saltlen_le haccepted.limits,
    if_neg (by omega), hencode]
  exact rbStrNewCstr_eq hnul hwritten

/-- In a block that is too small it does not succeed. -/
theorem hashEncodedBody_of_small (hpwd : pwd.length ≤ uint32Max) (hsalt : salt.length ≤ uint32Max)
    (hlimits : WithinLimits host.platform mCost.toNat tCost.toNat parallelism.toNat salt.length
      outlen.toNat) {block : Bytes} (hsize : block.length < 2 ^ host.platform.size.bits)
    (hsmall : block.length <
      encodedSize mCost.toNat tCost.toNat parallelism.toNat salt.length outlen.toNat) (s : Bytes) :
    hashEncodedBody (argon2idHashEncoded host tCost mCost parallelism pwd salt outlen block
        block.length) ≠ .ok s := by
  have hhash := hash_requestContext host tCost mCost parallelism outlen pwd hsalt
  have hvalid := (validateInputs_requestContext host.platform
    (nativeHash host tCost mCost parallelism pwd salt outlen).output pwd hsalt).2 hlimits
  have hlength := length_write_nativeHash host tCost mCost parallelism pwd salt outlen
  rw [argon2idHashEncoded_eq hpwd hsalt hlimits]
  by_cases hzero : block.length = 0
  · -- the empty block is returned as it is, and read past its end
    have hnil : block = [] := List.length_eq_zero_iff.1 hzero
    simp [hnil, hashEncodedBody, rbStrNewCstr]
  · rw [if_neg hzero]
    cases hencode : encodeString host.platform block block.length (requestContext
        (nativeHash host tCost mCost parallelism pwd salt outlen).output tCost mCost parallelism pwd
          salt outlen) .id with
    | ok block' =>
        have hroom := encodeString_sound hvalid hsize hencode
        rw [hhash] at hroom
        omega
    | error stop => cases stop <;> simp [encodingResult, hashEncodedBody]

/-- In a block of the computed size, wrapped around to `size_t`, it succeeds exactly for the accepted
requests. -/
theorem hashEncodedBody_eq_ok_iff (hpwd : pwd.length ≤ uint32Max) (hsalt : salt.length ≤ uint32Max)
    {block : Bytes} (hblock : block.length =
      encodedSize mCost.toNat tCost.toNat parallelism.toNat salt.length outlen.toNat %
        2 ^ host.platform.size.bits) {s : Bytes} :
    hashEncodedBody (argon2idHashEncoded host tCost mCost parallelism pwd salt outlen block
        block.length) = .ok s ↔
      Accepted host.platform mCost.toNat tCost.toNat parallelism.toNat pwd.length salt.length
          outlen.toNat ∧
        s = (nativeHash host tCost mCost parallelism pwd salt outlen).write := by
  by_cases haccepted : Accepted host.platform mCost.toNat tCost.toNat parallelism.toNat pwd.length
    salt.length outlen.toNat
  · rw [Nat.mod_eq_of_lt haccepted.size] at hblock
    rw [hashEncodedBody_of_accepted haccepted hblock, Except.ok.injEq]
    exact ⟨fun h => ⟨haccepted, h.symm⟩, fun h => h.2.symm⟩
  · refine ⟨fun hok => ?_, fun h => absurd h.1 haccepted⟩
    exfalso
    by_cases hlimits : WithinLimits host.platform mCost.toNat tCost.toNat parallelism.toNat
      salt.length outlen.toNat
    · -- only the size is left to blame: it wrapped around
      have hwrap : 2 ^ host.platform.size.bits ≤
          encodedSize mCost.toNat tCost.toNat parallelism.toNat salt.length outlen.toNat := by
        by_contra hsize
        exact haccepted ⟨hpwd, hsalt, hlimits, Nat.not_le.1 hsize⟩
      have hlt : block.length < 2 ^ host.platform.size.bits := by
        rw [hblock]
        exact Nat.mod_lt _ (Nat.two_pow_pos _)
      exact hashEncodedBody_of_small hpwd hsalt hlimits hlt (Nat.lt_of_lt_of_le hlt hwrap) s hok
    · rcases argon2idHashEncoded_of_not_withinLimits host pwd hsalt hlimits block block.length with
        ⟨code, hcode⟩
      rw [hcode] at hok
      cases hok

variable {iterations memory threads hashlen : Int}

/-- The method, once its integers are converted and its strings are not too long. -/
theorem rbArgon2idHashEncoded_of_num2uint (host : Host) (ht : num2uint iterations = .ok tCost)
    (hm : num2uint memory = .ok mCost) (hp : num2uint threads = .ok parallelism)
    (ho : num2uint hashlen = .ok outlen) (hpwd : pwd.length ≤ uint32Max)
    (hsalt : salt.length ≤ uint32Max) :
    ∃ block : Bytes, block.length =
        encodedSize mCost.toNat tCost.toNat parallelism.toNat salt.length outlen.toNat %
          2 ^ host.platform.size.bits ∧
      rbArgon2idHashEncoded host iterations memory threads pwd salt hashlen =
        hashEncodedBody (argon2idHashEncoded host tCost mCost parallelism pwd salt outlen block
          block.length) := by
  refine ⟨_, host.malloc_length _, ?_⟩
  rw [host.malloc_length, rbArgon2idHashEncoded, ht, hm, hp, ho]
  simp only [bind, Except.bind, Nat.not_lt.2 hpwd, Nat.not_lt.2 hsalt, if_false,
    argon2Encodedlen_request host tCost mCost parallelism outlen hsalt]

/-- Parameters outside the limits raise `Argon2id::Error`. -/
theorem rbArgon2idHashEncoded_of_not_withinLimits (ht : num2uint iterations = .ok tCost)
    (hm : num2uint memory = .ok mCost) (hp : num2uint threads = .ok parallelism)
    (ho : num2uint hashlen = .ok outlen) (hpwd : pwd.length ≤ uint32Max)
    (hsalt : salt.length ≤ uint32Max)
    (hlimits : ¬ WithinLimits host.platform mCost.toNat tCost.toNat parallelism.toNat salt.length
      outlen.toNat) :
    ∃ msg, rbArgon2idHashEncoded host iterations memory threads pwd salt hashlen =
      .error (.argon2idError msg) := by
  rcases rbArgon2idHashEncoded_of_num2uint host ht hm hp ho hpwd hsalt with
    ⟨block, _, heq⟩
  rcases argon2idHashEncoded_of_not_withinLimits host pwd hsalt hlimits block block.length with
    ⟨code, hcode⟩
  exact ⟨_, by rw [heq, hcode]; rfl⟩

/-- The native `hash_encoded` returns a string exactly for the accepted requests, and then the
canonical text of the hash that was asked for. -/
theorem rbArgon2idHashEncoded_eq_ok_iff {s : Bytes} :
    rbArgon2idHashEncoded host iterations memory threads pwd salt hashlen = .ok s ↔
      ∃ tCost mCost parallelism outlen : UInt32, num2uint iterations = .ok tCost ∧
        num2uint memory = .ok mCost ∧ num2uint threads = .ok parallelism ∧
        num2uint hashlen = .ok outlen ∧
        Accepted host.platform mCost.toNat tCost.toNat parallelism.toNat pwd.length salt.length
          outlen.toNat ∧
        s = (nativeHash host tCost mCost parallelism pwd salt outlen).write := by
  constructor
  · intro hok
    -- the conversions and the two length checks come before the library
    have hparts := hok
    simp only [rbArgon2idHashEncoded, bind_eq_ok_iff] at hparts
    rcases hparts with ⟨tCost, ht, mCost, hm, parallelism, hp, outlen, ho, hbody⟩
    have hpwd : pwd.length ≤ uint32Max := by
      by_contra hlong
      simp [Nat.not_le.1 hlong] at hbody
    have hsalt : salt.length ≤ uint32Max := by
      by_contra hlong
      simp [Nat.not_lt.2 hpwd, Nat.not_le.1 hlong] at hbody
    rcases rbArgon2idHashEncoded_of_num2uint host ht hm hp ho hpwd hsalt with
      ⟨block, hblock, heq⟩
    rw [heq] at hok
    exact ⟨tCost, mCost, parallelism, outlen, ht, hm, hp, ho,
      (hashEncodedBody_eq_ok_iff hpwd hsalt hblock).1 hok⟩
  · rintro ⟨tCost, mCost, parallelism, outlen, ht, hm, hp, ho, haccepted, rfl⟩
    have hpwd := haccepted.pwdlen_le
    have hsalt := haccepted.saltlen_le
    rcases rbArgon2idHashEncoded_of_num2uint host ht hm hp ho hpwd hsalt with
      ⟨block, hblock, heq⟩
    rw [heq]
    exact (hashEncodedBody_eq_ok_iff hpwd hsalt hblock).2 ⟨haccepted, rfl⟩

/-- The same for integers whose conversions are known. -/
theorem rbArgon2idHashEncoded_eq_ok_iff_of_num2uint (host : Host) (pwd salt : Bytes)
    (ht : num2uint iterations = .ok tCost) (hm : num2uint memory = .ok mCost)
    (hp : num2uint threads = .ok parallelism) (ho : num2uint hashlen = .ok outlen) {s : Bytes} :
    rbArgon2idHashEncoded host iterations memory threads pwd salt hashlen = .ok s ↔
      Accepted host.platform mCost.toNat tCost.toNat parallelism.toNat pwd.length salt.length
          outlen.toNat ∧
        s = (nativeHash host tCost mCost parallelism pwd salt outlen).write := by
  simp [rbArgon2idHashEncoded_eq_ok_iff, ht, hm, hp, ho]

end Request

end Argon2id
