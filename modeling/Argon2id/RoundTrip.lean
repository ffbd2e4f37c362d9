import Argon2id.HashEncoded
import Argon2id.Verify

/-!
# RoundTrip — from `hash_encoded` to `Password.new` and `verify`

The text of an accepted request reads back as the hash that was asked for, so the object built from
it shows the parameters of the request and verifies with its password (`create_verify_round_trip`).
`Password.create` shows the integers it was given, except for negative ones that wrap around to an
accepted request (`create_preserves_iff`).
-/

namespace Argon2id

open Fallible

section Native

variable {host : Host} {tCost mCost parallelism outlen : UInt32} {pwd salt : Bytes}

/-! ## The hash of a request, read back -/

theorem reads_nativeHash (host : Host) (tCost mCost parallelism : UInt32) (pwd salt : Bytes)
    (outlen : UInt32) :
    Reads (nativeHash host tCost mCost parallelism pwd salt outlen).write
      (nativeHash host tCost mCost parallelism pwd salt outlen) := by
  refine reads_iff.2 ⟨⟨?_, mCost.toNat_lt, tCost.toNat_lt, parallelism.toNat_lt⟩, rfl⟩
  intro v hv
  rw [← Option.some.inj hv]
  decide

theorem Accepted.acceptable
    (h : Accepted host.platform mCost.toNat tCost.toNat parallelism.toNat pwd.length salt.length
      outlen.toNat) :
    (nativeHash host tCost mCost parallelism pwd salt outlen).Acceptable host.platform := by
  have hout : (nativeHash host tCost mCost parallelism pwd salt outlen).output.length =
      outlen.toNat := host.tag_length _ _ _ _ _ _ _ _
  rw [Hash.Acceptable, hout]
  exact h.limits

/-- `Password.new` of an encoded hash. -/
theorem Accepted.new_write
    (h : Accepted host.platform mCost.toNat tCost.toNat parallelism.toNat pwd.length salt.length
      outlen.toNat) :
    Password.new (nativeHash host tCost mCost parallelism pwd salt outlen).write =
      .ok ((nativeHash host tCost mCost parallelism pwd salt outlen).password
        (nativeHash host tCost mCost parallelism pwd salt outlen).write) :=
  Password.new_of_reads (reads_nativeHash host tCost mCost parallelism pwd salt outlen)
    h.acceptable.ne_nil.1 h.acceptable.ne_nil.2

/-- Verification recomputes the tag with the parameters of the request. -/
theorem tag_nativeHash (host : Host) (tCost mCost parallelism : UInt32) (pwd salt : Bytes)
    (outlen : UInt32) (pwd' : Bytes) :
    (nativeHash host tCost mCost parallelism pwd salt outlen).tag host pwd' =
      host.tag .id 19 mCost.toNat tCost.toNat parallelism.toNat salt pwd' outlen.toNat := by
  have hout : (nativeHash host tCost mCost parallelism pwd salt outlen).output.length =
      outlen.toNat := host.tag_length _ _ _ _ _ _ _ _
  rw [Hash.tag, hout]
  rfl

theorem Accepted.verify
    (h : Accepted host.platform mCost.toNat tCost.toNat parallelism.toNat pwd.length salt.length
      outlen.toNat) {pwd' : Bytes} (hpwd' : pwd'.length ≤ uint32Max)
    (hlen : (nativeHash host tCost mCost parallelism pwd salt outlen).write.length ≤ uint32Max) :
    rbArgon2idVerify host (nativeHash host tCost mCost parallelism pwd salt outlen).write pwd' =
      .ok (decide (host.tag .id 19 mCost.toNat tCost.toNat parallelism.toNat salt pwd' outlen.toNat =
        host.tag .id 19 mCost.toNat tCost.toNat parallelism.toNat salt pwd outlen.toNat)) := by
  have hr := reads_nativeHash host tCost mCost parallelism pwd salt outlen
  refine (rbArgon2idVerify_eq_ok_iff hr.isAscii).2 ⟨hlen, hpwd', _, hr, h.acceptable, ?_⟩
  rw [tag_nativeHash]
  rfl

/-- The creator's own password verifies, unless the hash is too long for the library's `uint32_t`. -/
theorem Accepted.eq_self_iff
    (h : Accepted host.platform mCost.toNat tCost.toNat parallelism.toNat pwd.length salt.length
      outlen.toNat) :
    (∃ self, Password.new (nativeHash host tCost mCost parallelism pwd salt outlen).write = .ok self ∧
        Password.eq host self pwd = .ok true) ↔
      encodedSize mCost.toNat tCost.toNat parallelism.toNat salt.length outlen.toNat ≤ 2 ^ 32 := by
  have hsize := length_write_nativeHash host tCost mCost parallelism pwd salt outlen
  constructor
  · rintro ⟨self, hnew, heq⟩
    rw [Password.eq, Password.encoded_of_new hnew] at heq
    have hlen := ((rbArgon2idVerify_eq_ok_iff (isAscii_of_new hnew)).1 heq).1
    simp only [uint32Max] at hlen
    omega
  · intro hle
    have hverify := h.verify h.pwdlen_le (by simp only [uint32Max]; omega)
    rw [decide_eq_true rfl] at hverify
    exact ⟨_, h.new_write, hverify⟩

/-! ## With 64-bit `size_t` -/

/-- With 64-bit `size_t` only the exact limits decide: no size wraps around, and the memory is not
limited further. -/
theorem accepted_iff_of_w64 (hsize : host.platform.size = .w64) (hpwd : pwd.length ≤ uint32Max)
    (hsalt : salt.length ≤ uint32Max) :
    Accepted host.platform mCost.toNat tCost.toNat parallelism.toNat pwd.length salt.length
        outlen.toNat ↔
      4 ≤ outlen.toNat ∧ 8 ≤ salt.length ∧ 8 ≤ mCost.toNat ∧ 8 * parallelism.toNat ≤ mCost.toNat ∧
        1 ≤ tCost.toNat ∧ 1 ≤ parallelism.toNat ∧ parallelism.toNat ≤ 0xFFFFFF := by
  have hmax : maxMemory host.platform = uint32Max := by rw [maxMemory_eq, hsize]
  have hmemory : mCost.toNat ≤ uint32Max := Nat.le_of_lt_succ mCost.toNat_lt
  have hencoded : encodedSize mCost.toNat tCost.toNat parallelism.toNat salt.length outlen.toNat <
      2 ^ host.platform.size.bits :=
    encodedSize_lt hsize mCost.toNat_lt tCost.toNat_lt parallelism.toNat_lt
      (Nat.lt_succ_of_le hsalt) outlen.toNat_lt
  constructor
  · rintro ⟨_, _, hlimits, _⟩
    exact ⟨hlimits.outlen_ge, hlimits.saltlen_ge, hlimits.memory_ge, hlimits.memory_lanes,
      hlimits.time_ge, hlimits.lanes_ge, hlimits.lanes_le⟩
  · rintro ⟨hout, hsaltlen, hmem, hlanes, htime, hge, hle⟩
    exact ⟨hpwd, hsalt, ⟨hout, hsaltlen, hmem, by omega, hlanes, htime, hge, hle⟩, hencoded⟩

end Native

/-- The native extension hashes exactly the requests within the limits, and the object built from
the result verifies exactly the passwords with the same tag. -/
theorem create_verify_round_trip (host : Host) (hsize : host.platform.size = .w64)
    (tCost mCost parallelism outlen : UInt32) {pwd salt : Bytes} (hpwd : pwd.length ≤ uint32Max)
    (hsalt : salt.length ≤ uint32Max) :
    ((∃ s, rbArgon2idHashEncoded host tCost.toNat mCost.toNat parallelism.toNat pwd salt
          outlen.toNat = .ok s) ↔
        4 ≤ outlen.toNat ∧ 8 ≤ salt.length ∧ 8 ≤ mCost.toNat ∧
          8 * parallelism.toNat ≤ mCost.toNat ∧ 1 ≤ tCost.toNat ∧ 1 ≤ parallelism.toNat ∧
          parallelism.toNat ≤ 0xFFFFFF) ∧
      ∀ s, rbArgon2idHashEncoded host tCost.toNat mCost.toNat parallelism.toNat pwd salt
          outlen.toNat = .ok s → s.length ≤ uint32Max →
        ∃ self, Password.new s = .ok self ∧
          (∀ pwd' : Bytes, pwd'.length ≤ uint32Max → rbArgon2idVerify host self.encoded pwd' =
            .ok (decide (host.tag .id 19 mCost.toNat tCost.toNat parallelism.toNat salt pwd'
                outlen.toNat =
              host.tag .id 19 mCost.toNat tCost.toNat parallelism.toNat salt pwd outlen.toNat))) ∧
          rbArgon2idVerify host self.encoded pwd = .ok true := by
  -- all four integers are in range, so they reach the library unchanged
  have hok : ∀ s, rbArgon2idHashEncoded host tCost.toNat mCost.toNat parallelism.toNat pwd salt
      outlen.toNat = .ok s ↔
      Accepted host.platform mCost.toNat tCost.toNat parallelism.toNat pwd.length salt.length
          outlen.toNat ∧
        s = (nativeHash host tCost mCost parallelism pwd salt outlen).write := fun s =>
    rbArgon2idHashEncoded_eq_ok_iff_of_num2uint host pwd salt (num2uint_toNat tCost)
      (num2uint_toNat mCost) (num2uint_toNat parallelism) (num2uint_toNat outlen)
  refine ⟨?_, ?_⟩
  · simp only [hok, exists_and_left, exists_eq, and_true]
    exact accepted_iff_of_w64 hsize hpwd hsalt
  · intro s hs hlen
    rcases (hok s).1 hs with ⟨haccepted, rfl⟩
    refine ⟨_, haccepted.new_write, fun pwd' hpwd' => haccepted.verify hpwd' hlen, ?_⟩
    have hself := haccepted.verify hpwd hlen
    rw [decide_eq_true rfl] at hself
    exact hself

/-- A host whose tags are the first bytes of the password. -/
def Host.echo (plat : Platform) : Host :=
  { Host.zero plat with
    tag := fun _ _ _ _ _ _ pwd outlen => (pwd ++ List.replicate outlen 0).take outlen
    tag_length := by simp }

theorem create_verify_round_trip_sample :
    let host := Host.echo .x8664Linux
    let s := ascii "$argon2id$v=19$m=8,t=1,p=1$c29tZXNhbHQ$cGFzc3dvcmQ"
    rbArgon2idHashEncoded host 1 8 1 (ascii "password") (ascii "somesalt") 8 = .ok s ∧
      ∃ self, Password.new s = .ok self ∧
        rbArgon2idVerify host self.encoded (ascii "password") = .ok true ∧
        rbArgon2idVerify host self.encoded (ascii "guess") = .ok false := by
  intro host s
  have hpwd : (ascii "password").length ≤ uint32Max := by decide
  have hsalt : (ascii "somesalt").length ≤ uint32Max := by decide
  have hround := create_verify_round_trip host rfl 1 8 1 8 hpwd hsalt
  rcases hround.1.2 (by decide) with ⟨text, hhash⟩
  have htext : text = s := Except.ok.inj (hhash.symm.trans (by decide +kernel))
  rw [htext] at hhash
  rcases hround.2 s hhash (by decide) with ⟨self, hnew, hverify, hself⟩
  have hguess := hverify (ascii "guess") (by decide)
  exact ⟨hhash, self, hnew, hself, hguess.trans (by decide +kernel)⟩

/-! ## `Password.create` -/

section Create

variable {host : Host} {random : Nat → Bytes} {pwd : Bytes}
  {tCost mCost parallelism saltLen outputLen : Int}

theorem randomBytes_eq_ok_iff {len : Int} {salt : Bytes} :
    randomBytes random len = .ok salt ↔ (0 ≤ len ∧ len ≤ 2 ^ 31 - 1) ∧ salt = random len.toNat := by
  rw [randomBytes, guarded_eq_ok_iff, guarded_eq_ok_iff, Except.ok.injEq, eq_comm (a := salt)]
  constructor
  · rintro ⟨hrange, hneg, hsalt⟩
    exact ⟨by omega, hsalt⟩
  · rintro ⟨hlen, hsalt⟩
    exact ⟨by omega, by omega, hsalt⟩

/-- `Password.create` returns the object of an accepted request, whose integers may have wrapped
around. -/
theorem create_eq_ok_iff {self : Password} :
    Password.create host random pwd tCost mCost parallelism saltLen outputLen = .ok self ↔
      (0 ≤ saltLen ∧ saltLen ≤ 2 ^ 31 - 1) ∧
        ∃ t m p o : UInt32, num2uint tCost = .ok t ∧ num2uint mCost = .ok m ∧
          num2uint parallelism = .ok p ∧ num2uint outputLen = .ok o ∧
          Accepted host.platform m.toNat t.toNat p.toNat pwd.length (random saltLen.toNat).length
            o.toNat ∧
          self = (nativeHash host t m p pwd (random saltLen.toNat) o).password
            (nativeHash host t m p pwd (random saltLen.toNat) o).write := by
  simp only [Password.create, bind_eq_ok_iff, randomBytes_eq_ok_iff, rbArgon2idHashEncoded_eq_ok_iff]
  constructor
  · rintro ⟨_, ⟨hlen, rfl⟩, _, ⟨t, m, p, o, ht, hm, hp, ho, haccepted, rfl⟩, hnew⟩
    rw [haccepted.new_write] at hnew
    exact ⟨hlen, t, m, p, o, ht, hm, hp, ho, haccepted, (Except.ok.inj hnew).symm⟩
  · rintro ⟨hlen, t, m, p, o, ht, hm, hp, ho, haccepted, rfl⟩
    exact ⟨_, ⟨hlen, rfl⟩, _, ⟨t, m, p, o, ht, hm, hp, ho, haccepted, rfl⟩, haccepted.new_write⟩

/-- What a Ruby program can rescue: everything but undefined behaviour. -/
def IsException (e : RubyError) : Prop :=
  e ≠ .heapOverflow

theorem errors_num2uint (n : Int) : Errors IsException (num2uint n) := by
  rw [num2uint]
  split
  · exact errors_ok _ _
  · exact errors_error (by simp [IsException])

theorem errors_kernelInteger (s : Bytes) : Errors IsException (kernelInteger s) := by
  rw [kernelInteger.eq_def]
  split
  · exact errors_error (by simp [IsException])
  · split
    · exact errors_ok _ _
    · exact errors_error (by simp [IsException])
  · split_ifs
    · exact errors_error (by simp [IsException])
    · exact errors_ok _ _
    · exact errors_ok _ _
    · exact errors_error (by simp [IsException])

theorem errors_new (s : Bytes) : Errors IsException (Password.new s) := by
  rw [Password.new]
  split
  · rename_i version _ _ _ _ _ _
    have hversion : Errors IsException (integerOrVersion10 version) := by
      cases version with
      | none => exact errors_ok _ _
      | some digits => exact errors_kernelInteger digits
    exact hversion.bind fun _ => (errors_kernelInteger _).bind fun _ =>
      (errors_kernelInteger _).bind fun _ => (errors_kernelInteger _).bind fun _ => errors_ok _ _
  · exact errors_error (by simp [IsException])

/-- With 64-bit `size_t` no size wraps around, so the block is never too small for its text. -/
theorem errors_hashEncodedBody (hsize : host.platform.size = .w64) {t m p o : UInt32} {salt : Bytes}
    (hpwd : pwd.length ≤ uint32Max) (hsalt : salt.length ≤ uint32Max) {block : Bytes}
    (hblock : block.length = encodedSize m.toNat t.toNat p.toNat salt.length o.toNat %
      2 ^ host.platform.size.bits) :
    Errors IsException
      (hashEncodedBody (argon2idHashEncoded host t m p pwd salt o block block.length)) := by
  by_cases hlimits : WithinLimits host.platform m.toNat t.toNat p.toNat salt.length o.toNat
  · have haccepted : Accepted host.platform m.toNat t.toNat p.toNat pwd.length salt.length o.toNat :=
      (accepted_iff_of_w64 hsize hpwd hsalt).2 ⟨hlimits.outlen_ge, hlimits.saltlen_ge,
        hlimits.memory_ge, hlimits.memory_lanes, hlimits.time_ge, hlimits.lanes_ge,
        hlimits.lanes_le⟩
    rw [Nat.mod_eq_of_lt haccepted.size] at hblock
    rw [hashEncodedBody_of_accepted haccepted hblock]
    exact errors_ok _ _
  · rcases argon2idHashEncoded_of_not_withinLimits host pwd hsalt hlimits block block.length with
      ⟨code, hcode⟩
    rw [hcode]
    exact errors_error (by simp [IsException])

theorem errors_rbArgon2idHashEncoded (hsize : host.platform.size = .w64) (salt : Bytes) :
    Errors IsException
      (rbArgon2idHashEncoded host tCost mCost parallelism pwd salt outputLen) := by
  refine (errors_num2uint _).bind fun t => (errors_num2uint _).bind fun m =>
    (errors_num2uint _).bind fun p => (errors_num2uint _).bind fun o => ?_
  split_ifs with hpwd hsalt
  · exact errors_error (by simp [IsException])
  · exact errors_error (by simp [IsException])
  · have hlength := host.malloc_length (argon2Encodedlen host.platform t m p
      (UInt32.ofNat salt.length) o .id)
    have hbody := errors_hashEncodedBody hsize (Nat.not_lt.1 hpwd) (Nat.not_lt.1 hsalt)
      (hlength.trans (argon2Encodedlen_request host t m p o (Nat.not_lt.1 hsalt)))
    rw [hlength] at hbody
    exact hbody

theorem errors_randomBytes (random : Nat → Bytes) (len : Int) :
    Errors IsException (randomBytes random len) := by
  rw [randomBytes]
  split_ifs
  · exact errors_error (by simp [IsException])
  · exact errors_error (by simp [IsException])
  · exact errors_ok _ _

/-- With 64-bit `size_t` creating a password ends with an object or an exception. -/
theorem errors_create (hsize : host.platform.size = .w64) :
    Errors IsException
      (Password.create host random pwd tCost mCost parallelism saltLen outputLen) :=
  (errors_randomBytes random saltLen).bind fun salt =>
    (errors_rbArgon2idHashEncoded hsize salt).bind fun encoded => errors_new encoded

/-- Some integer is negative, and the request that they wrap around to is accepted. -/
def WrapsAround (plat : Platform) (pwdlen saltlen : Nat)
    (tCost mCost parallelism saltLen outputLen : Int) : Prop :=
  (tCost < 0 ∨ mCost < 0 ∨ parallelism < 0 ∨ outputLen < 0) ∧
    (-2 ^ 31 ≤ tCost ∧ tCost ≤ 2 ^ 32 - 1) ∧ (-2 ^ 31 ≤ mCost ∧ mCost ≤ 2 ^ 32 - 1) ∧
    (-2 ^ 31 ≤ parallelism ∧ parallelism ≤ 2 ^ 32 - 1) ∧
    (-2 ^ 31 ≤ outputLen ∧ outputLen ≤ 2 ^ 32 - 1) ∧ (0 ≤ saltLen ∧ saltLen ≤ 2 ^ 31 - 1) ∧
    Accepted plat (mCost % 2 ^ 32).toNat (tCost % 2 ^ 32).toNat (parallelism % 2 ^ 32).toNat pwdlen
      saltlen (outputLen % 2 ^ 32).toNat

/-- The object shows the integers it was created with. -/
structure Password.Shows (password : Password) (tCost mCost parallelism outputLen : Int) : Prop where
  tCost : (password.tCost : Int) = tCost
  mCost : (password.mCost : Int) = mCost
  parallelism : (password.parallelism : Int) = parallelism
  output : (password.output.length : Int) = outputLen

theorem exists_num2uint {n : Int} (h : -2 ^ 31 ≤ n ∧ n ≤ 2 ^ 32 - 1) :
    ∃ u, num2uint n = .ok u ∧ u.toNat = (n % 2 ^ 32).toNat := by
  refine ⟨UInt32.ofInt n, num2uint_eq_ok_iff.2 ⟨h, toNat_ofInt n⟩, ?_⟩
  have hnat := toNat_ofInt n
  omega

/-- A request that wraps around to an accepted one is hashed with other integers. -/
theorem WrapsAround.exists_create
    (h : WrapsAround host.platform pwd.length (random saltLen.toNat).length tCost mCost parallelism
      saltLen outputLen) :
    (tCost < 0 ∨ mCost < 0 ∨ parallelism < 0 ∨ outputLen < 0) ∧
      ∃ self, Password.create host random pwd tCost mCost parallelism saltLen outputLen =
        .ok self := by
  rcases h with ⟨hneg, ht, hm, hp, ho, hlen, haccepted⟩
  rcases exists_num2uint ht with ⟨t, ht, htn⟩
  rcases exists_num2uint hm with ⟨m, hm, hmn⟩
  rcases exists_num2uint hp with ⟨p, hp, hpn⟩
  rcases exists_num2uint ho with ⟨o, ho, hon⟩
  rw [← htn, ← hmn, ← hpn, ← hon] at haccepted
  exact ⟨hneg, _, create_eq_ok_iff.2 ⟨hlen, t, m, p, o, ht, hm, hp, ho, haccepted, rfl⟩⟩

/-- Without wrapping around, what is created shows the integers of the request, all of them within
32 bits. -/
theorem shows_of_create {self : Password}
    (h : Password.create host random pwd tCost mCost parallelism saltLen outputLen = .ok self)
    (hwraps : ¬ WrapsAround host.platform pwd.length (random saltLen.toNat).length tCost mCost
      parallelism saltLen outputLen) :
    self.Shows tCost mCost parallelism outputLen ∧
      ∀ n ∈ [tCost, mCost, parallelism, outputLen], 0 ≤ n ∧ n ≤ 2 ^ 32 - 1 := by
  rcases create_eq_ok_iff.1 h with ⟨hlen, t, m, p, o, ht, hm, hp, ho, haccepted, rfl⟩
  rcases num2uint_eq_ok_iff.1 ht with ⟨ht, htn⟩
  rcases num2uint_eq_ok_iff.1 hm with ⟨hm, hmn⟩
  rcases num2uint_eq_ok_iff.1 hp with ⟨hp, hpn⟩
  rcases num2uint_eq_ok_iff.1 ho with ⟨ho, hon⟩
  -- a negative integer would have wrapped around to this very request
  have hnonneg : 0 ≤ tCost ∧ 0 ≤ mCost ∧ 0 ≤ parallelism ∧ 0 ≤ outputLen := by
    by_contra hneg
    refine hwraps ⟨by omega, ht, hm, hp, ho, hlen, ?_⟩
    rw [← htn, ← hmn, ← hpn, ← hon]
    exact haccepted
  have hout : (nativeHash host t m p pwd (random saltLen.toNat) o).output.length = o.toNat :=
    host.tag_length _ _ _ _ _ _ _ _
  refine ⟨⟨?_, ?_, ?_, ?_⟩, ?_⟩
  · change (t.toNat : Int) = tCost
    omega
  · change (m.toNat : Int) = mCost
    omega
  · change (p.toNat : Int) = parallelism
    omega
  · change ((nativeHash host t m p pwd (random saltLen.toNat) o).output.length : Int) = outputLen
    omega
  · intro n hn
    simp only [List.mem_cons, List.not_mem_nil, or_false] at hn
    omega

/-- No parameter is changed silently, and a request with one outside 32 bits raises, unless negative
integers wrap around to an accepted request. -/
theorem create_preserves_iff (host : Host) (random : Nat → Bytes) (pwd : Bytes)
    (tCost mCost parallelism saltLen outputLen : Int) :
    ((∀ self, Password.create host random pwd tCost mCost parallelism saltLen outputLen = .ok self →
          self.Shows tCost mCost parallelism outputLen) ∧
        ((∃ n ∈ [tCost, mCost, parallelism, outputLen], n < 0 ∨ 2 ^ 32 - 1 < n) →
          ∃ e, Password.create host random pwd tCost mCost parallelism saltLen outputLen =
            .error e ∧ (host.platform.size = .w64 → IsException e))) ↔
      ¬ WrapsAround host.platform pwd.length (random saltLen.toNat).length tCost mCost parallelism
        saltLen outputLen := by
  constructor
  · rintro ⟨hshows, _⟩ hwraps
    rcases hwraps.exists_create with ⟨hneg, self, hself⟩
    -- the object shows natural numbers, and one of the integers is negative
    rcases hshows self hself with ⟨ht, hm, hp, ho⟩
    omega
  · intro hwraps
    refine ⟨fun self hself => (shows_of_create hself hwraps).1, ?_⟩
    rintro ⟨n, hn, hout⟩
    cases hcreate : Password.create host random pwd tCost mCost parallelism saltLen outputLen with
    | error e => exact ⟨e, rfl, fun hsize => errors_create hsize e hcreate⟩
    | ok self =>
        have hrange := (shows_of_create hcreate hwraps).2 n hn
        omega

/-- One iteration less than none is hashed as `2 ^ 32 - 1` iterations. -/
theorem create_minus_one :
    (Password.create (Host.zero .x8664Linux) (fun len => List.replicate len 0) (ascii "password") (-1)
      8 1 8 4).map Password.tCost = .ok 4294967295 := by
  decide +kernel

end Create

end Argon2id
