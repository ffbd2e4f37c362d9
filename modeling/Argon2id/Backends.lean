import Argon2id.JRubyResults
import Argon2id.RoundTrip

/-!
# Backends — the native extension and JRuby side by side

The parser undoes both encoders (`hashEncoded_readsBack`).  The backends differ in what they refuse:
the native extension asks for texts in the grammar with parameters that Argon2 accepts, JRuby only
for what Bouncy Castle accepts.  `verify_alike_iff` and `hash_alike_iff` are the exact conditions
under which they agree.
-/

namespace Argon2id

open Fallible

/-! ## The parser undoes both encoders -/

/-- The text `s` is parsed to the parameters, the salt and the whole tag of a request. -/
structure ReadsBack (tag : Nat → Nat → Nat → Bytes → Bytes → Nat → Bytes) (s : Bytes)
    (mCost tCost lanes : Nat) (salt pwd : Bytes) (outlen : Nat) : Prop where
  new : Password.new s = .ok
    { encoded := s
      version := 19
      mCost := mCost
      tCost := tCost
      parallelism := lanes
      salt := salt
      output := tag mCost tCost lanes salt pwd outlen }
  length : (tag mCost tCost lanes salt pwd outlen).length = outlen

/-- What either backend creates reads back as the request it was created for. -/
theorem hashEncoded_readsBack (host : Host) (bc : BouncyCastle) (tCost mCost parallelism : Int)
    (pwd salt : Bytes) (hashlen : Int) (s : Bytes) :
    (rbArgon2idHashEncoded host tCost mCost parallelism pwd salt hashlen = .ok s →
      ∃ t m p o : UInt32, num2uint tCost = .ok t ∧ num2uint mCost = .ok m ∧
        num2uint parallelism = .ok p ∧ num2uint hashlen = .ok o ∧
        ReadsBack (host.tag .id 19) s m.toNat t.toNat p.toNat salt pwd o.toNat) ∧
      (JRuby.hashEncoded bc tCost mCost parallelism pwd salt hashlen = .ok s →
        ∃ t m p o : Nat, (t : Int) = tCost ∧ (m : Int) = mCost ∧ (p : Int) = parallelism ∧
          (o : Int) = hashlen ∧ ReadsBack (bc.tag 19) s m t p salt pwd o) := by
  constructor
  · intro hok
    rcases rbArgon2idHashEncoded_eq_ok_iff.1 hok with
      ⟨t, m, p, o, ht, hm, hp, ho, haccepted, rfl⟩
    exact ⟨t, m, p, o, ht, hm, hp, ho, haccepted.new_write, host.tag_length _ _ _ _ _ _ _ _⟩
  · intro hok
    rcases JRuby.hashEncoded_eq_ok_iff.1 hok with ⟨hconverts, haccepts, rfl⟩
    rcases JRuby.bounds_of_not_refuses haccepts with ⟨_, hm, hp, ht, _⟩
    have hlen := hconverts.hashlen
    exact ⟨tCost.toNat, mCost.toNat, parallelism.toNat, hashlen.toNat, by omega, by omega, by omega,
      by omega, JRuby.new_write_hash hconverts haccepts, bc.tag_length _ _ _ _ _ _ _⟩

theorem hashEncoded_readsBack_sample :
    (∃ t m p o : UInt32, num2uint 1 = .ok t ∧ num2uint 8 = .ok m ∧ num2uint 1 = .ok p ∧
        num2uint 4 = .ok o ∧
        ReadsBack ((Host.zero .x8664Linux).tag .id 19)
          (ascii "$argon2id$v=19$m=8,t=1,p=1$AAAAAAAAAAA$AAAAAA") m.toNat t.toNat p.toNat
          (List.replicate 8 0) [] o.toNat) ∧
      ∃ t m p o : Nat, (t : Int) = 1 ∧ (m : Int) = 8 ∧ (p : Int) = 1 ∧ (o : Int) = 4 ∧
        ReadsBack (BouncyCastle.zero.tag 19) (ascii "$argon2id$v=19$m=8,t=1,p=1$AAAAAAAAAAA$AAAAAA")
          m t p (List.replicate 8 0) [] o :=
  ⟨(hashEncoded_readsBack (Host.zero .x8664Linux) .zero 1 8 1 [] (List.replicate 8 0) 4 _).1
      (by decide +kernel),
    (hashEncoded_readsBack (Host.zero .x8664Linux) .zero 1 8 1 [] (List.replicate 8 0) 4 _).2
      (by decide +kernel)⟩

/-! ## Outcomes -/

section Outcomes

variable {α : Type} (x y : Except RubyError α)

/-- Both return, and the same value. -/
def BothReturn : Prop :=
  ∃ a, x = .ok a ∧ y = .ok a

def BothArgumentError : Prop :=
  (∃ msg, x = .error (.argumentError msg)) ∧ ∃ msg, y = .error (.argumentError msg)

def BothArgon2idError : Prop :=
  (∃ msg, x = .error (.argon2idError msg)) ∧ ∃ msg, y = .error (.argon2idError msg)

/-- The same answer, or an error of the same kind. -/
def SameOutcome : Prop :=
  BothReturn x y ∨ BothArgumentError x y ∨ BothArgon2idError x y

end Outcomes

/-! ## Verifying alike -/

section Verify

variable {host : Host} {bc : BouncyCastle} {s pwd : Bytes} {self : Password}

/-- Valid parameters are not rejected by Bouncy Castle. -/
theorem Hash.Valid.illegalState_eq_none {h : Hash} (hvalid : h.Valid) (hbc : bc.Matches host) :
    bc.illegalState h.lanes h.mCost h.tCost h.output.length = none := by
  rcases hvalid with ⟨hout, _, hmem, hlanes, htime, hge, hle⟩
  refine Option.not_isSome_iff_eq_none.1 fun hsome => ?_
  rw [hbc.illegalState, BouncyRejects] at hsome
  omega

/-- The two tags of an acceptable hash are equal. -/
theorem Hash.Acceptable.tag_eq {h : Hash} (hacc : h.Acceptable host.platform)
    (hbc : bc.Matches host) (pwd : Bytes) :
    bc.tag h.effectiveVersion h.mCost h.tCost h.lanes h.salt pwd h.output.length =
      h.tag host pwd := by
  have hvalid := (Hash.acceptable_iff.1 hacc).1
  refine hbc.tag _ _ _ _ _ _ _ hacc fun hrejects => ?_
  rw [← hbc.illegalState, hvalid.illegalState_eq_none hbc] at hrejects
  cases hrejects

/-- The backends verify alike exactly for texts in the grammar with valid parameters: for all others
the native extension raises, while JRuby computes a tag or raises a Java exception. -/
theorem verify_alike_iff (host : Host) (bc : BouncyCastle) (hbc : bc.Matches host)
    (hnew : Password.new s = .ok self) (hversion : self.version ≤ 2 ^ 31 - 1)
    (hm : self.mCost ≤ 2 ^ 31 - 1) (ht : self.tCost ≤ 2 ^ 31 - 1)
    (hp : self.parallelism ≤ 2 ^ 31 - 1) (pwd : Bytes) :
    SameOutcome (JRuby.verify bc self pwd) (Password.eq host self pwd) ↔
      s.length ≤ uint32Max ∧ pwd.length < 2 ^ 31 ∧
        ∃ h, Reads s h ∧ h.Valid ∧ h.mCost ≤ maxMemory host.platform ∧ h.salt.length < 2 ^ 31 ∧
          h.output.length < 2 ^ 31 := by
  have hs := isAscii_of_new hnew
  have hencoded := Password.encoded_of_new hnew
  -- a text in the grammar determines the object
  have hself : ∀ h, Reads s h → h.Acceptable host.platform → self = h.password s := by
    intro h hr hacc
    rw [Password.new_of_reads hr hacc.ne_nil.1 hacc.ne_nil.2] at hnew
    exact (Except.ok.inj hnew).symm
  constructor
  · rintro (⟨b, hjruby, hnative⟩ | ⟨⟨msg, hjruby⟩, _⟩ | ⟨⟨msg, hjruby⟩, _⟩)
    · rw [Password.eq, hencoded] at hnative
      rcases (rbArgon2idVerify_eq_ok_iff hs).1 hnative with ⟨hlen, _, h, hr, hacc, _⟩
      rcases JRuby.verify_eq_ok_iff.1 hjruby with ⟨⟨_, _, _, _, hsalt, hout, hpwd⟩, _⟩
      rw [hself h hr hacc] at hsalt hout
      rcases Hash.acceptable_iff.1 hacc with ⟨hvalid, hmax⟩
      exact ⟨hlen, hpwd, h, hr, hvalid, hmax, hsalt, hout⟩
    -- JRuby raises neither of the two errors
    · rcases JRuby.errors_verify bc self pwd _ hjruby with ⟨_, h⟩ | ⟨_, h⟩ <;> cases h
    · rcases JRuby.errors_verify bc self pwd _ hjruby with ⟨_, h⟩ | ⟨_, h⟩ <;> cases h
  · rintro ⟨hlen, hpwd, h, hr, hvalid, hmax, hsalt, hout⟩
    -- both compute the same tag, from the same fields
    have hacc : h.Acceptable host.platform := Hash.acceptable_iff.2 ⟨hvalid, hmax⟩
    have hpwd' : pwd.length ≤ uint32Max := Nat.le_trans (Nat.le_of_lt hpwd) (by decide)
    refine Or.inl ⟨decide (h.tag host pwd = h.output), ?_, ?_⟩
    · rw [hself h hr hacc] at hversion hm ht hp ⊢
      simp only [Hash.password] at hversion hm ht hp
      refine JRuby.verify_eq_ok_iff.2 ⟨?_, hvalid.illegalState_eq_none hbc, ?_⟩
      · simp only [Hash.password]
        omega
      · simp only [Hash.password, hacc.tag_eq hbc pwd, eq_comm (a := h.output)]
    · rw [Password.eq, hencoded]
      exact (rbArgon2idVerify_eq_ok_iff hs).2 ⟨hlen, hpwd', h, hr, hacc, rfl⟩

/-- Eight zero bytes of salt: both backends find the zero tag. -/
theorem verify_alike_sample :
    SameOutcome (JRuby.verify .zero ((sampleHash 8).password (sampleHash 8).write) [])
      (Password.eq (Host.zero .x8664Linux) ((sampleHash 8).password (sampleHash 8).write) []) :=
  (verify_alike_iff (Host.zero .x8664Linux) .zero (BouncyCastle.zero_matches _)
    (new_sampleHash 8 (by decide)) (by decide) (by decide) (by decide) (by decide) []).2
    ⟨by decide +kernel, by decide, sampleHash 8, reads_sampleHash 8 (by decide),
      valid_sampleHash 8 (by decide), by decide, by decide, by decide⟩

/-- A hash with five zero bytes of salt and four of output. -/
def shortSaltPassword : Password where
  encoded := ascii "$argon2id$v=19$m=8,t=1,p=1$AAAAAAA$AAAAAA"
  version := 19
  mCost := 8
  tCost := 1
  parallelism := 1
  salt := List.replicate 5 0
  output := List.replicate 4 0

/-- JRuby compares its tags, and the native extension raises. -/
theorem verify_differs_on_short_salt :
    BouncyCastle.zero.Matches (Host.zero .x8664Linux) ∧
      Password.new (ascii "$argon2id$v=19$m=8,t=1,p=1$AAAAAAA$AAAAAA") = .ok shortSaltPassword ∧
      JRuby.verify .zero shortSaltPassword [] = .ok true ∧
      Password.eq (Host.zero .x8664Linux) shortSaltPassword [] =
        .error (.argon2idError "Salt is too short") :=
  ⟨BouncyCastle.zero_matches _, by decide +kernel, by decide +kernel, by decide +kernel⟩

end Verify

/-! ## Hashing alike -/

section Hash

variable {host : Host} {bc : BouncyCastle} {tCost mCost parallelism hashlen : Int} {pwd salt : Bytes}

theorem exists_num2uint_nonneg {n : Int} (h : 0 ≤ n ∧ n ≤ 2 ^ 31 - 1) :
    ∃ u, num2uint n = .ok u ∧ u.toNat = n.toNat := by
  rcases exists_num2uint (n := n) (by omega) with ⟨u, hu, hun⟩
  exact ⟨u, hu, by omega⟩

theorem JRuby.refuses_iff (hbc : bc.Matches host) :
    JRuby.Refuses bc tCost mCost parallelism salt hashlen ↔
      salt = [] ∨ mCost < 8 ∨ BouncyRejects parallelism mCost tCost hashlen.toNat := by
  rw [JRuby.Refuses, hbc.illegalState]

/-- What JRuby does not refuse is within the limits, up to four of them. -/
theorem withinLimits_of_not_refuses (plat : Platform)
    (h : ¬ (salt = [] ∨ mCost < 8 ∨ BouncyRejects parallelism mCost tCost hashlen.toNat)) :
    WithinLimits plat mCost.toNat tCost.toNat parallelism.toNat salt.length hashlen.toNat ↔
      8 ≤ salt.length ∧ 8 * parallelism ≤ mCost ∧ parallelism ≤ 0xFFFFFF ∧
        mCost ≤ maxMemory plat := by
  simp only [BouncyRejects, not_or] at h
  rw [withinLimits_iff]
  omega

/-- What JRuby refuses is not within the limits. -/
theorem not_withinLimits_of_refuses (plat : Platform)
    (h : salt = [] ∨ mCost < 8 ∨ BouncyRejects parallelism mCost tCost hashlen.toNat) :
    ¬ WithinLimits plat mCost.toNat tCost.toNat parallelism.toNat salt.length hashlen.toNat := by
  intro hlimits
  rw [withinLimits_iff] at hlimits
  rcases h with hsalt | hm | hrejects
  · simp [hsalt] at hlimits
  · omega
  · rw [BouncyRejects] at hrejects
    omega

/-- Where both backends hash, they write the same text. -/
theorem JRuby.hash_eq_nativeHash (hbc : bc.Matches host) {t m p o : UInt32}
    (htn : t.toNat = tCost.toNat) (hmn : m.toNat = mCost.toNat)
    (hpn : p.toNat = parallelism.toNat) (hon : o.toNat = hashlen.toNat)
    (haccepts : ¬ (salt = [] ∨ mCost < 8 ∨ BouncyRejects parallelism mCost tCost hashlen.toNat))
    (hlimits : WithinLimits host.platform mCost.toNat tCost.toNat parallelism.toNat salt.length
      hashlen.toNat) :
    JRuby.hash bc tCost mCost parallelism pwd salt hashlen = nativeHash host t m p pwd salt o := by
  have hrejects : ¬ BouncyRejects parallelism.toNat mCost.toNat tCost.toNat hashlen.toNat := by
    simp only [BouncyRejects, not_or] at haccepts ⊢
    omega
  rw [JRuby.hash, nativeHash, htn, hmn, hpn, hon, hbc.tag _ _ _ _ _ _ _ hlimits hrejects]

/-- The requests that both backends answer with a text. -/
theorem accepted_iff_of_not_refuses (plat : Platform) {t m p o : UInt32}
    (htn : t.toNat = tCost.toNat) (hmn : m.toNat = mCost.toNat)
    (hpn : p.toNat = parallelism.toNat) (hon : o.toNat = hashlen.toNat)
    (hpwd : pwd.length ≤ uint32Max) (hsalt : salt.length ≤ uint32Max)
    (haccepts : ¬ (salt = [] ∨ mCost < 8 ∨ BouncyRejects parallelism mCost tCost hashlen.toNat)) :
    Accepted plat m.toNat t.toNat p.toNat pwd.length salt.length o.toNat ↔
      8 ≤ salt.length ∧ 8 * parallelism ≤ mCost ∧ parallelism ≤ 0xFFFFFF ∧
        mCost ≤ maxMemory plat ∧
        encodedSize mCost.toNat tCost.toNat parallelism.toNat salt.length hashlen.toNat <
          2 ^ plat.size.bits := by
  have hlimits := withinLimits_of_not_refuses plat haccepts
  rw [htn, hmn, hpn, hon]
  constructor
  · rintro ⟨_, _, hwithin, hsize⟩
    rcases hlimits.1 hwithin with ⟨hlen, hlanes, hmax, hmem⟩
    exact ⟨hlen, hlanes, hmax, hmem, hsize⟩
  · rintro ⟨hlen, hlanes, hmax, hmem, hsize⟩
    exact ⟨hpwd, hsalt, hlimits.2 ⟨hlen, hlanes, hmax, hmem⟩, hsize⟩

/-- What JRuby refuses, the native extension refuses as well. -/
theorem bothArgon2idError_of_refuses (hbc : bc.Matches host)
    (hconverts : JRuby.Converts tCost mCost parallelism pwd salt hashlen) {t m p o : UInt32}
    (htu : num2uint tCost = .ok t) (hmu : num2uint mCost = .ok m)
    (hpu : num2uint parallelism = .ok p) (hou : num2uint hashlen = .ok o)
    (htn : t.toNat = tCost.toNat) (hmn : m.toNat = mCost.toNat)
    (hpn : p.toNat = parallelism.toNat) (hon : o.toNat = hashlen.toNat)
    (hrefuses : salt = [] ∨ mCost < 8 ∨ BouncyRejects parallelism mCost tCost hashlen.toNat) :
    BothArgon2idError (JRuby.hashEncoded bc tCost mCost parallelism pwd salt hashlen)
      (rbArgon2idHashEncoded host tCost mCost parallelism pwd salt hashlen) := by
  have hlimits := not_withinLimits_of_refuses host.platform hrefuses
  rw [← htn, ← hmn, ← hpn, ← hon] at hlimits
  exact ⟨JRuby.hashEncoded_of_refuses hconverts ((JRuby.refuses_iff hbc).2 hrefuses),
    rbArgon2idHashEncoded_of_not_withinLimits htu hmu hpu hou
      (Nat.le_trans hconverts.pwd (by decide)) (Nat.le_trans hconverts.salt (by decide)) hlimits⟩

/-- The backends hash alike, and the native extension verifies what JRuby creates, exactly for the
requests that JRuby refuses and for those that the native extension accepts.  In between are short
salts, less than 8 blocks of memory for each lane, `2 ^ 24` lanes, and sizes the platform does not
have. -/
theorem hash_alike_iff (host : Host) (bc : BouncyCastle) (hbc : bc.Matches host)
    (tCost mCost parallelism hashlen : Int) (pwd salt : Bytes)
    (ht : 0 ≤ tCost ∧ tCost ≤ 2 ^ 31 - 1) (hm : 0 ≤ mCost ∧ mCost ≤ 2 ^ 31 - 1)
    (hp : 0 ≤ parallelism ∧ parallelism ≤ 2 ^ 31 - 1) (ho : 0 ≤ hashlen ∧ hashlen ≤ 2 ^ 31 - 1)
    (hpwd : pwd.length ≤ 2 ^ 31 - 1) (hsalt : salt.length ≤ 2 ^ 31 - 1) :
    ((BothReturn (JRuby.hashEncoded bc tCost mCost parallelism pwd salt hashlen)
            (rbArgon2idHashEncoded host tCost mCost parallelism pwd salt hashlen) ∨
          BothArgon2idError (JRuby.hashEncoded bc tCost mCost parallelism pwd salt hashlen)
            (rbArgon2idHashEncoded host tCost mCost parallelism pwd salt hashlen)) ∧
        ∀ s, JRuby.hashEncoded bc tCost mCost parallelism pwd salt hashlen = .ok s →
          ∃ self, Password.new s = .ok self ∧ Password.eq host self pwd = .ok true) ↔
      (salt = [] ∨ mCost < 8 ∨ BouncyRejects parallelism mCost tCost hashlen.toNat) ∨
        (8 ≤ salt.length ∧ 8 * parallelism ≤ mCost ∧ parallelism ≤ 0xFFFFFF ∧
          mCost ≤ maxMemory host.platform ∧
          encodedSize mCost.toNat tCost.toNat parallelism.toNat salt.length hashlen.toNat <
            2 ^ host.platform.size.bits ∧
          encodedSize mCost.toNat tCost.toNat parallelism.toNat salt.length hashlen.toNat ≤
            2 ^ 32) := by
  rcases exists_num2uint_nonneg ht with ⟨t, htu, htn⟩
  rcases exists_num2uint_nonneg hm with ⟨m, hmu, hmn⟩
  rcases exists_num2uint_nonneg hp with ⟨p, hpu, hpn⟩
  rcases exists_num2uint_nonneg ho with ⟨o, hou, hon⟩
  have hconverts : JRuby.Converts tCost mCost parallelism pwd salt hashlen :=
    ⟨by omega, by omega, by omega, hpwd, hsalt, ho⟩
  have hpwd' : pwd.length ≤ uint32Max := Nat.le_trans hpwd (by decide)
  have hsalt' : salt.length ≤ uint32Max := Nat.le_trans hsalt (by decide)
  by_cases hrefuses : salt = [] ∨ mCost < 8 ∨ BouncyRejects parallelism mCost tCost hashlen.toNat
  · -- both raise
    have hraise := bothArgon2idError_of_refuses hbc hconverts htu hmu hpu hou htn hmn hpn hon hrefuses
    refine ⟨fun _ => Or.inl hrefuses, fun _ => ⟨Or.inr hraise, ?_⟩⟩
    intro s hs
    rcases hraise.1 with ⟨msg, hmsg⟩
    rw [hmsg] at hs
    cases hs
  · -- JRuby hashes, and the native extension has to follow
    have hjruby := JRuby.hashEncoded_eq_ok_iff.2
      ⟨hconverts, mt (JRuby.refuses_iff hbc).1 hrefuses, rfl⟩
    have hnative := fun s => rbArgon2idHashEncoded_eq_ok_iff_of_num2uint (s := s) host pwd salt htu hmu
      hpu hou
    have haccepted := accepted_iff_of_not_refuses host.platform htn hmn hpn hon hpwd' hsalt'
      hrefuses
    -- where both hash, they write the same text
    have htext : ∀ h : Accepted host.platform m.toNat t.toNat p.toNat pwd.length salt.length o.toNat,
        JRuby.hash bc tCost mCost parallelism pwd salt hashlen =
          nativeHash host t m p pwd salt o := by
      intro h
      have hlimits := h.limits
      rw [htn, hmn, hpn, hon] at hlimits
      exact JRuby.hash_eq_nativeHash hbc htn hmn hpn hon hrefuses hlimits
    constructor
    · rintro ⟨⟨s, _, hs⟩ | ⟨⟨msg, hmsg⟩, _⟩, hverifies⟩
      · have hacc := ((hnative s).1 hs).1
        have hself := hverifies _ hjruby
        rw [htext hacc, hacc.eq_self_iff, hmn, htn, hpn, hon] at hself
        rcases haccepted.1 hacc with ⟨hsaltlen, hlanes, hmax, hmem, hbits⟩
        exact Or.inr ⟨hsaltlen, hlanes, hmax, hmem, hbits, hself⟩
      · rw [hmsg] at hjruby
        cases hjruby
    · rintro (hrefuses' | ⟨hsaltlen, hlanes, hmax, hmem, hbits, hlen⟩)
      · exact absurd hrefuses' hrefuses
      · have hacc := haccepted.2 ⟨hsaltlen, hlanes, hmax, hmem, hbits⟩
        rw [htext hacc] at hjruby
        refine ⟨Or.inl ⟨_, hjruby, (hnative _).2 ⟨hacc, rfl⟩⟩, ?_⟩
        intro s hs
        rw [hjruby] at hs
        rw [← Except.ok.inj hs, hacc.eq_self_iff, hmn, htn, hpn, hon]
        exact hlen

/-- Both backends write the same text for eight zero bytes of salt. -/
theorem hash_alike_sample :
    ∃ s, JRuby.hashEncoded .zero 1 8 1 [] (List.replicate 8 0) 4 = .ok s ∧
      ∃ self, Password.new s = .ok self ∧ Password.eq (Host.zero .x8664Linux) self [] = .ok true :=
  have halike := (hash_alike_iff (Host.zero .x8664Linux) .zero (BouncyCastle.zero_matches _) 1 8 1 4
    [] (List.replicate 8 0) (by decide) (by decide) (by decide) (by decide) (by decide)
    (by decide)).2 (Or.inr (by decide +kernel))
  ⟨ascii "$argon2id$v=19$m=8,t=1,p=1$AAAAAAAAAAA$AAAAAA", by decide +kernel,
    halike.2 _ (by decide +kernel)⟩

/-- One byte of salt is enough for JRuby. -/
theorem hash_differs_on_short_salt :
    BouncyCastle.zero.Matches (Host.zero .x8664Linux) ∧
      JRuby.hashEncoded .zero 1 8 1 [] [0] 4 =
        .ok (ascii "$argon2id$v=19$m=8,t=1,p=1$AA$AAAAAA") ∧
      rbArgon2idHashEncoded (Host.zero .x8664Linux) 1 8 1 [] [0] 4 =
        .error (.argon2idError "Salt is too short") :=
  ⟨BouncyCastle.zero_matches _, by decide +kernel, by decide +kernel⟩

end Hash

end Argon2id
