import Mathlib.Data.List.TakeWhile
import Argon2id.Libargon2.Decoder
import Argon2id.Parsing

/-!
# Verify — what verification answers

`Hash.tag host h pwd` is the tag that verification recomputes for a hash `h`.  The native `verify`
answers `true` or `false` exactly for the texts of the grammar with acceptable parameters, and the
answer is whether the tags are equal (`rbArgon2idVerify_eq_ok_iff`); for every other text it raises.
-/

namespace Argon2id

open Fallible

/-! ## The branch-free comparison -/

/-- The loop accumulates no difference exactly when there is none. -/
theorem compareLoop_eq_zero_iff {b1 b2 : Bytes} (h : b1.length = b2.length) (d : UInt8) :
    compareLoop b1 b2 d = 0 ↔ d = 0 ∧ b1 = b2 := by
  induction b1 generalizing b2 d with
  | nil =>
      cases b2 with
      | nil => simp [compareLoop]
      | cons b bs => simp at h
  | cons a as ih =>
      cases b2 with
      | nil => simp at h
      | cons b bs =>
          -- the accumulator only gains bits, so it stays zero only when every difference is zero
          rw [compareLoop, ih (by simpa using h)]
          simp [and_assoc]

theorem compare_result (d : UInt8) :
    ((((d.toNat : Int) - 1) >>> (8 : Nat)) % 2) - 1 = if d = 0 then 0 else -1 := by
  have hlt := d.toNat_lt
  -- for no difference the `int` is `-1`, and the shift keeps its sign bits
  rw [Int.shiftRight_eq_div_pow]
  by_cases hd : d = 0
  · rw [hd]
    decide
  · have hpos : d.toNat ≠ 0 := fun h => hd (UInt8.toNat_inj.1 h)
    rw [if_neg hd]
    omega

theorem argon2Compare_eq_zero_iff {b1 b2 : Bytes} {len : Nat} (h1 : b1.length = len)
    (h2 : b2.length = len) : argon2Compare b1 b2 len = 0 ↔ b1 = b2 := by
  rw [argon2Compare, List.take_of_length_le (by omega), List.take_of_length_le (by omega),
    compare_result]
  by_cases heq : compareLoop b1 b2 0 = 0
  · simpa [heq] using (compareLoop_eq_zero_iff (h1.trans h2.symm) 0).1 heq
  · simpa [heq] using mt (compareLoop_eq_zero_iff (h1.trans h2.symm) 0).2 heq

/-! ## Verification of a decoded context -/

/-- The tag of a password under the parameters of a hash. -/
def Hash.tag (host : Host) (h : Hash) (pwd : Bytes) : Bytes :=
  host.tag .id h.effectiveVersion h.mCost h.tCost h.lanes h.salt pwd h.output.length

theorem Hash.length_tag (host : Host) (h : Hash) (pwd : Bytes) :
    (h.tag host pwd).length = h.output.length :=
  host.tag_length _ _ _ _ _ _ _ _

/-- A canonical text is longer than what it denotes. -/
theorem Reads.length_le {s : Bytes} {h : Hash} (hr : Reads s h) :
    h.salt.length ≤ s.length ∧ h.output.length ≤ s.length := by
  have hlen : ∀ bytes : Bytes, bytes.length ≤ (Base64.encode bytes).length := by
    intro bytes
    rw [Base64.length_encode]
    split <;> omega
  have hsalt := hlen h.salt
  have hout := hlen h.output
  rw [(reads_iff.1 hr).2, Hash.write, Parts.length_text]
  simp only [Hash.parts]
  omega

/-- A hash with acceptable parameters has a salt and an output. -/
theorem Hash.Acceptable.ne_nil {plat : Platform} {h : Hash} (hacc : h.Acceptable plat) :
    h.salt ≠ [] ∧ h.output ≠ [] := by
  have hsalt := hacc.saltlen_ge
  have hout := hacc.outlen_ge
  constructor
  · intro hnil
    simp [hnil] at hsalt
  · intro hnil
    simp [hnil] at hout

section Verify

variable {host : Host} {s pwd : Bytes}

/-- Decoding into buffers as long as the text: only the grammar and the limits decide. -/
theorem decodeString_verifyContext_iff (host : Host) (pwd : Bytes) (hs : ∀ c ∈ s, IsAscii c)
    (hlen : s.length ≤ uint32Max) {ctx : Context} :
    decodeString host.platform (verifyContext host (UInt32.ofNat s.length) pwd) s .id = .ok ctx ↔
      ∃ h, Reads s h ∧ h.Acceptable host.platform ∧
        ctx = (verifyContext host (UInt32.ofNat s.length) pwd).decoded h := by
  have htoNat := toNat_ofNat_of_le hlen
  have hplain := plainChar_of_isAscii host.platform hs
  have hnul := not_mem_of_isAscii hs
  -- no field is longer than the text, so nothing is cut off in 32 bits
  have hvalid : ∀ h, Reads s h →
      (validateInputs host.platform ((verifyContext host (UInt32.ofNat s.length) pwd).decoded h) = .ok
        ↔ h.Acceptable host.platform) := by
    intro h hr
    have hle := hr.length_le
    simp only [uint32Max] at hlen
    exact validateInputs_decoded_iff rfl (reads_iff.1 hr).1 (by omega) (by omega)
  rw [decodeString_eq_ok_iff hplain hnul]
  constructor
  · rintro ⟨h, hr, _, _, hok, rfl⟩
    exact ⟨h, hr, (hvalid h hr).1 hok, rfl⟩
  · rintro ⟨h, hr, hacc, rfl⟩
    have hle := hr.length_le
    have hcap : (verifyContext host (UInt32.ofNat s.length) pwd).saltlen.toNat = s.length ∧
        (verifyContext host (UInt32.ofNat s.length) pwd).outlen.toNat = s.length := ⟨htoNat, htoNat⟩
    exact ⟨h, hr, by omega, by omega, (hvalid h hr).2 hacc, rfl⟩

/-- The comparison after decoding. -/
theorem argon2VerifyCtx_decoded {h : Hash} (hr : Reads s h) (hacc : h.Acceptable host.platform)
    (hlen : s.length ≤ uint32Max) (hpwd : pwd.length ≤ uint32Max) (out : Bytes) :
    argon2VerifyCtx host
        { (verifyContext host (UInt32.ofNat s.length) pwd).decoded h with out := some out } h.output
        .id = if h.tag host pwd = h.output then .ok else .verifyMismatch := by
  have hle := hr.length_le
  have hfits := (reads_iff.1 hr).1
  have hversion := toNat_ofNat_of_lt hfits.effectiveVersion_lt
  have hmCost := toNat_ofNat_of_lt hfits.mCost
  have htCost := toNat_ofNat_of_lt hfits.tCost
  have hlanes := toNat_ofNat_of_lt hfits.lanes
  have hsaltlen := toNat_ofNat_of_le (Nat.le_trans hle.1 hlen)
  have houtlen := toNat_ofNat_of_le (Nat.le_trans hle.2 hlen)
  have hpwdlen := toNat_ofNat_of_le hpwd
  have hvalid : validateInputs host.platform
      { (verifyContext host (UInt32.ofNat s.length) pwd).decoded h with out := some out } = .ok := by
    refine (validateInputs_eq_ok_iff ⟨rfl, rfl, rfl, rfl, rfl, rfl, rfl, rfl, rfl, rfl⟩).2 ?_
    simp only [Context.decoded, hmCost, htCost, hlanes, hsaltlen, houtlen]
    exact hacc
  have hcompare := argon2Compare_eq_zero_iff rfl (h.length_tag host pwd)
  rw [argon2VerifyCtx, argon2Ctx, hvalid]
  simp only [Context.decoded, verifyContext, Option.getD_some, hversion, hmCost, htCost, hlanes,
    hsaltlen, houtlen, hpwdlen, List.take_length]
  change (if argon2Compare h.output (h.tag host pwd) h.output.length ≠ 0 then _ else _) = _
  by_cases heq : h.tag host pwd = h.output
  · rw [if_neg (not_not.2 (hcompare.2 heq.symm)), if_pos heq]
  · rw [if_pos (fun hzero => heq (hcompare.1 hzero).symm), if_neg heq]

theorem strlen_eq (hs : ∀ c ∈ s, IsAscii c) : strlen s = s.length := by
  have htake : s.takeWhile (fun c => c ≠ 0) = s :=
    List.takeWhile_eq_self_iff.2 fun c hc => by simpa using (hs c hc).1
  rw [strlen, htake]

/-! ## The library call -/

theorem argon2idVerify_of_long (host : Host) (hs : ∀ c ∈ s, IsAscii c)
    (hpwd : pwd.length ≤ uint32Max) (hlong : uint32Max < s.length) :
    argon2idVerify host s pwd = .decodingFail := by
  have hpwd' : ¬ maxPwdLength.toNat < pwd.length := Nat.not_lt.2 hpwd
  rw [argon2idVerify, argon2Verify, if_neg hpwd', strlen_eq hs, if_pos hlong]

/-- The code of the decoder is the code of the call. -/
theorem argon2idVerify_of_error (hs : ∀ c ∈ s, IsAscii c) (hlen : s.length ≤ uint32Max)
    (hpwd : pwd.length ≤ uint32Max) {code : ErrorCode}
    (hdec : decodeString host.platform (verifyContext host (UInt32.ofNat s.length) pwd) s .id =
      .error code) : argon2idVerify host s pwd = code := by
  have hpwd' : ¬ maxPwdLength.toNat < pwd.length := Nat.not_lt.2 hpwd
  rw [argon2idVerify, argon2Verify, if_neg hpwd', strlen_eq hs]
  simp only [Nat.not_lt.2 hlen, if_false, hdec]

/-- The comparison is with the output of the decoded context. -/
theorem argon2idVerify_of_ok (hs : ∀ c ∈ s, IsAscii c) (hlen : s.length ≤ uint32Max)
    (hpwd : pwd.length ≤ uint32Max) {ctx : Context}
    (hdec : decodeString host.platform (verifyContext host (UInt32.ofNat s.length) pwd) s .id =
      .ok ctx) :
    argon2idVerify host s pwd = argon2VerifyCtx host
      { ctx with out := some (host.malloc ctx.outlen.toNat) } (ctx.out.getD []) .id := by
  have hpwd' : ¬ maxPwdLength.toNat < pwd.length := Nat.not_lt.2 hpwd
  rw [argon2idVerify, argon2Verify, if_neg hpwd', strlen_eq hs]
  simp only [Nat.not_lt.2 hlen, if_false, hdec]

theorem argon2idVerify_of_reads {h : Hash} (hr : Reads s h) (hacc : h.Acceptable host.platform)
    (hlen : s.length ≤ uint32Max) (hpwd : pwd.length ≤ uint32Max) :
    argon2idVerify host s pwd = if h.tag host pwd = h.output then .ok else .verifyMismatch := by
  have hdec := (decodeString_verifyContext_iff host pwd hr.isAscii hlen).2
    ⟨h, hr, hacc, rfl⟩
  rw [argon2idVerify_of_ok hr.isAscii hlen hpwd hdec]
  exact argon2VerifyCtx_decoded hr hacc hlen hpwd _

/-- A match or a mismatch is only reported for a text of the grammar. -/
theorem reads_of_argon2idVerify (hs : ∀ c ∈ s, IsAscii c)
    (hcode : ¬ IsFailure (argon2idVerify host s pwd)) :
    s.length ≤ uint32Max ∧ pwd.length ≤ uint32Max ∧
      ∃ h, Reads s h ∧ h.Acceptable host.platform := by
  -- too long a password or text ends the call with a failure before anything is decoded
  by_cases hlongpwd : maxPwdLength.toNat < pwd.length
  · rw [argon2idVerify, argon2Verify, if_pos hlongpwd] at hcode
    exact absurd (by decide) hcode
  have hpwd : pwd.length ≤ uint32Max := Nat.not_lt.1 hlongpwd
  by_cases hlong : uint32Max < s.length
  · rw [argon2idVerify_of_long host hs hpwd hlong] at hcode
    exact absurd (by decide) hcode
  have hlen : s.length ≤ uint32Max := Nat.not_lt.1 hlong
  refine ⟨hlen, hpwd, ?_⟩
  cases hdec : decodeString host.platform (verifyContext host (UInt32.ofNat s.length) pwd) s .id with
  | error code =>
      rw [argon2idVerify_of_error hs hlen hpwd hdec] at hcode
      exact absurd (errors_decodeString _ _ _ code hdec) hcode
  | ok ctx =>
      rcases (decodeString_verifyContext_iff host pwd hs hlen).1 hdec with ⟨h, hr, hacc, _⟩
      exact ⟨h, hr, hacc⟩

/-! ## The Ruby method -/

/-- The native `verify` answers exactly for texts in the grammar with acceptable parameters, and
says whether the tags are equal. -/
theorem rbArgon2idVerify_eq_ok_iff (hs : ∀ c ∈ s, IsAscii c) {b : Bool} :
    rbArgon2idVerify host s pwd = .ok b ↔
      s.length ≤ uint32Max ∧ pwd.length ≤ uint32Max ∧
        ∃ h, Reads s h ∧ h.Acceptable host.platform ∧ b = decide (h.tag host pwd = h.output) := by
  rw [rbArgon2idVerify, if_neg (not_mem_of_isAscii hs)]
  constructor
  · intro hok
    -- a code other than a match and a mismatch would have raised
    have hcode : ¬ IsFailure (argon2idVerify host s pwd) := by
      rintro ⟨hne, hne'⟩
      split at hok
      · rename_i heq
        exact hne heq
      · rename_i heq
        exact hne' heq
      · cases hok
      · cases hok
      · cases hok
    rcases reads_of_argon2idVerify hs hcode with ⟨hlen, hpwd, h, hr, hacc⟩
    refine ⟨hlen, hpwd, h, hr, hacc, ?_⟩
    rw [argon2idVerify_of_reads hr hacc hlen hpwd] at hok
    by_cases heq : h.tag host pwd = h.output
    · simpa [heq, eq_comm] using hok
    · simpa [heq, eq_comm] using hok
  · rintro ⟨hlen, hpwd, h, hr, hacc, rfl⟩
    rw [argon2idVerify_of_reads hr hacc hlen hpwd]
    by_cases heq : h.tag host pwd = h.output
    · simp [heq]
    · simp [heq]

/-- The outcome is an `ArgumentError` or an `Argon2id::Error`. -/
def Raises (result : Except RubyError Bool) : Prop :=
  ∃ msg, result = .error (.argumentError msg) ∨ result = .error (.argon2idError msg)

theorem rbArgon2idVerify_answers_or_raises (host : Host) (s pwd : Bytes) :
    (∃ b, rbArgon2idVerify host s pwd = .ok b) ∨ Raises (rbArgon2idVerify host s pwd) := by
  rw [rbArgon2idVerify]
  split
  · exact Or.inr ⟨_, Or.inl rfl⟩
  · split
    · exact Or.inl ⟨_, rfl⟩
    · exact Or.inl ⟨_, rfl⟩
    · exact Or.inr ⟨_, Or.inl rfl⟩
    · exact Or.inr ⟨_, Or.inl rfl⟩
    · exact Or.inr ⟨_, Or.inr rfl⟩

/-- Without an answer there is an exception, and no other way. -/
theorem raises_rbArgon2idVerify_iff :
    Raises (rbArgon2idVerify host s pwd) ↔ ¬ ∃ b, rbArgon2idVerify host s pwd = .ok b := by
  constructor
  · rintro ⟨msg, h⟩ ⟨b, hok⟩
    rcases h with h | h
    · rw [h] at hok
      cases hok
    · rw [h] at hok
      cases hok
  · intro h
    rcases rbArgon2idVerify_answers_or_raises host s pwd with hok | hraises
    · exact absurd hok h
    · exact hraises

end Verify

/-! ## Password objects -/

theorem isAscii_of_new {s : Bytes} {self : Password} (h : Password.new s = .ok self) :
    ∀ c ∈ s, IsAscii c :=
  isAscii_of_validHash (validHash_of_new h)

/-- The parameters of a hash that Argon2 accepts on every platform with enough memory. -/
structure Hash.Valid (h : Hash) : Prop where
  outlen_ge : 4 ≤ h.output.length
  saltlen_ge : 8 ≤ h.salt.length
  memory_ge : 8 ≤ h.mCost
  memory_lanes : 8 * h.lanes ≤ h.mCost
  time_ge : 1 ≤ h.tCost
  lanes_ge : 1 ≤ h.lanes
  lanes_le : h.lanes ≤ 0xFFFFFF

theorem Hash.acceptable_iff {plat : Platform} {h : Hash} :
    h.Acceptable plat ↔ h.Valid ∧ h.mCost ≤ maxMemory plat := by
  constructor
  · rintro ⟨hout, hsalt, hmem, hmax, hlanes, htime, hge, hle⟩
    exact ⟨⟨hout, hsalt, hmem, hlanes, htime, hge, hle⟩, hmax⟩
  · rintro ⟨⟨hout, hsalt, hmem, hlanes, htime, hge, hle⟩, hmax⟩
    exact ⟨hout, hsalt, hmem, hmax, hlanes, htime, hge, hle⟩

/-- The exact meaning of `Password#==`: `true` for texts of the grammar with valid parameters and the
right tag, `false` for those with another tag, and an exception for everything else. -/
theorem Password.eq_exact (host : Host) {s pwd : Bytes} {self : Password}
    (hnew : Password.new s = .ok self) (hpwd : pwd.length ≤ uint32Max) :
    (Password.eq host self pwd = .ok true ↔
      s.length ≤ uint32Max ∧ ∃ h, Reads s h ∧ h.Valid ∧ h.mCost ≤ maxMemory host.platform ∧
        h.tag host pwd = h.output) ∧
    (Password.eq host self pwd = .ok false ↔
      s.length ≤ uint32Max ∧ ∃ h, Reads s h ∧ h.Valid ∧ h.mCost ≤ maxMemory host.platform ∧
        h.tag host pwd ≠ h.output) ∧
    (Raises (Password.eq host self pwd) ↔
      ¬ (s.length ≤ uint32Max ∧
        ∃ h, Reads s h ∧ h.Valid ∧ h.mCost ≤ maxMemory host.platform)) := by
  have hs := isAscii_of_new hnew
  have hok : ∀ b, Password.eq host self pwd = .ok b ↔ s.length ≤ uint32Max ∧
      ∃ h, Reads s h ∧ h.Valid ∧ h.mCost ≤ maxMemory host.platform ∧
        b = decide (h.tag host pwd = h.output) := by
    intro b
    rw [Password.eq, Password.encoded_of_new hnew, rbArgon2idVerify_eq_ok_iff hs]
    simp only [Hash.acceptable_iff, hpwd, true_and, and_assoc]
  refine ⟨?_, ?_, ?_⟩
  · rw [hok]
    simp only [eq_comm (a := true), decide_eq_true_eq]
  · rw [hok]
    simp only [eq_comm (a := false), decide_eq_false_iff_not]
  · rw [Password.eq, raises_rbArgon2idVerify_iff, not_iff_not]
    constructor
    · rintro ⟨b, hb⟩
      rcases (hok b).1 hb with ⟨hlen, h, hr, hvalid, hmax, _⟩
      exact ⟨hlen, h, hr, hvalid, hmax⟩
    · rintro ⟨hlen, h, hr, hvalid, hmax⟩
      exact ⟨_, (hok _).2 ⟨hlen, h, hr, hvalid, hmax, rfl⟩⟩

/-- A small hash, with all-zero salt and output. -/
def sampleHash (mCost : Nat) : Hash where
  version := none
  mCost := mCost
  tCost := 1
  lanes := 1
  salt := List.replicate 8 0
  output := List.replicate 4 0

theorem reads_sampleHash (mCost : Nat) (h : mCost < 2 ^ 32) :
    Reads (sampleHash mCost).write (sampleHash mCost) :=
  reads_iff.2 ⟨⟨by simp [sampleHash], h, by simp [sampleHash], by simp [sampleHash]⟩, rfl⟩

theorem new_sampleHash (mCost : Nat) (h : mCost < 2 ^ 32) :
    Password.new (sampleHash mCost).write =
      .ok ((sampleHash mCost).password (sampleHash mCost).write) :=
  Password.new_of_reads (reads_sampleHash mCost h) (by simp [sampleHash]) (by simp [sampleHash])

theorem valid_sampleHash (mCost : Nat) (h : 8 ≤ mCost) : (sampleHash mCost).Valid := by
  refine ⟨?_, ?_, h, h, ?_, ?_, ?_⟩ <;> simp [sampleHash]

/-- The zero tags of `Host.zero` match the sample hash. -/
theorem Password.eq_exact_sample :
    Password.eq (Host.zero .x8664Linux) ((sampleHash 8).password (sampleHash 8).write) [] =
      .ok true :=
  (Password.eq_exact (Host.zero .x8664Linux) (new_sampleHash 8 (by decide)) (by decide)).1.2
    ⟨by decide +kernel, sampleHash 8, reads_sampleHash 8 (by decide), valid_sampleHash 8 (by decide),
      by decide, rfl⟩

/-- The limit on the memory cannot be left out: where pointers have 32 bits, a hash that is valid
on other platforms raises instead of matching. -/
theorem Password.eq_raises_on_arm :
    Reads (sampleHash 2097153).write (sampleHash 2097153) ∧ (sampleHash 2097153).Valid ∧
      Password.new (sampleHash 2097153).write =
        .ok ((sampleHash 2097153).password (sampleHash 2097153).write) ∧
      (sampleHash 2097153).tag (Host.zero .armLinux) [] = (sampleHash 2097153).output ∧
      Password.eq (Host.zero .armLinux)
          ((sampleHash 2097153).password (sampleHash 2097153).write) [] =
        .error (.argon2idError "Memory cost is too large") :=
  ⟨reads_sampleHash _ (by decide), valid_sampleHash _ (by decide), new_sampleHash _ (by decide), rfl,
    by decide +kernel⟩

/-! ## Other types -/

/-- The name of the type stands between two dollar signs. -/
theorem decodeString_prefix {plat : Platform} {ctx ctx' : Context} {str : Bytes} {type : Argon2Type}
    (h : decodeString plat ctx str type = .ok ctx') :
    ∃ rest, str = ascii "$" ++ (argon2Type2string type false ++ (ascii "$" ++ rest)) := by
  rw [decodeString] at h
  rcases bind_eq_ok_iff.1 h with ⟨s1, h1, h⟩
  rcases bind_eq_ok_iff.1 h with ⟨s2, h2, h⟩
  rcases bind_eq_ok_iff.1 h with ⟨⟨v, s3⟩, h3, h⟩
  rcases bind_eq_ok_iff.1 h with ⟨s4, h4, _⟩
  rcases ccOpt_version_sound h3 with ⟨vs, w, hversion, _, _⟩
  rw [cc_eq_ok_iff.1 h1, cc_eq_ok_iff.1 h2, hversion, cc_eq_ok_iff.1 h4]
  cases vs with
  | none => exact ⟨ascii "m=" ++ s4, rfl⟩
  | some ds =>
      refine ⟨ascii "v=" ++ (ds ++ (ascii "$m=" ++ s4)), ?_⟩
      rw [Parts.versionText, List.append_assoc]
      rfl

/-- A hash string of one type is no hash string of another type, although the name of one type is the
beginning of the name of another one. -/
theorem decodeString_other_type {plat plat' : Platform} {ctx ctx' other : Context} {str : Bytes}
    {type type' : Argon2Type} (h : decodeString plat ctx str type = .ok ctx') (hne : type' ≠ type) :
    decodeString plat' other str type' = .error .decodingFail := by
  rcases decodeString_prefix h with ⟨rest, rfl⟩
  cases type
  all_goals cases type'
  all_goals first | exact absurd rfl hne | rfl

theorem decodeString_other_type_sample :
    decodeString .x8664Linux (verifyContext (Host.zero .x8664Linux) 0 []) (sampleHash 8).write .i =
      .error .decodingFail := by
  have hr := reads_sampleHash 8 (by decide)
  have hacc : (sampleHash 8).Acceptable (Host.zero .x8664Linux).platform :=
    Hash.acceptable_iff.2 ⟨valid_sampleHash 8 (by decide), by decide⟩
  have hdec := (decodeString_verifyContext_iff (Host.zero .x8664Linux) [] hr.isAscii
    (by decide +kernel)).2 ⟨sampleHash 8, hr, hacc, rfl⟩
  exact decodeString_other_type hdec (by decide)

end Argon2id
