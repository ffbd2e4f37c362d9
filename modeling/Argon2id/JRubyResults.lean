import Argon2id.JRuby
import Argon2id.Parsing

/-!
# JRubyResults — what the JRuby backend returns

In the terms used for the native extension: `hash_encoded` writes the canonical text of the hash that
was asked for (`JRuby.hashEncoded_eq_ok_iff`), `verify` compares two tags (`JRuby.verify_eq_ok_iff`).
What it raises instead is Java's or the generator's, and only `hash_encoded` turns the latter into
`Argon2id::Error`.
-/

namespace Argon2id

open Fallible

namespace JRuby

variable {bc : BouncyCastle} {tCost mCost parallelism hashlen : Int} {pwd salt : Bytes}

/-! ## Conversions to Java -/

theorem toJavaInt_eq_ok_iff {n k : Int} :
    toJavaInt n = .ok k ↔ (-2 ^ 31 ≤ n ∧ n ≤ 2 ^ 31 - 1) ∧ k = n := by
  rw [toJavaInt, checked_eq_ok_iff, Except.ok.injEq, eq_comm (a := n)]

theorem newByteArray_eq_ok_iff {n : Int} {len : Nat} :
    newByteArray n = .ok len ↔ (0 ≤ n ∧ n ≤ 2 ^ 31 - 1) ∧ len = n.toNat := by
  simp only [newByteArray, bind_eq_ok_iff, toJavaInt_eq_ok_iff, guarded_eq_ok_iff, Except.ok.injEq]
  constructor
  · rintro ⟨_, ⟨hrange, rfl⟩, hneg, hlen⟩
    exact ⟨by omega, hlen.symm⟩
  · rintro ⟨hrange, hlen⟩
    exact ⟨n, ⟨by omega, rfl⟩, by omega, hlen.symm⟩

theorem toJavaBytes_eq_ok_iff {bytes array : Bytes} :
    toJavaBytes bytes = .ok array ↔ bytes.length ≤ 2 ^ 31 - 1 ∧ array = bytes := by
  rw [toJavaBytes, checked_eq_ok_iff, Except.ok.injEq, eq_comm (a := bytes)]

theorem integerToS_of_nonneg {n : Int} (h : 0 ≤ n) : integerToS n = Numeral.print n.toNat := by
  rw [integerToS, if_pos h]

/-! ## `hash_encoded` -/

/-- The arguments of `hash_encoded` that have a Java value. -/
structure Converts (tCost mCost parallelism : Int) (pwd salt : Bytes) (hashlen : Int) : Prop where
  tCost : -2 ^ 31 ≤ tCost ∧ tCost ≤ 2 ^ 31 - 1
  mCost : -2 ^ 31 ≤ mCost ∧ mCost ≤ 2 ^ 31 - 1
  parallelism : -2 ^ 31 ≤ parallelism ∧ parallelism ≤ 2 ^ 31 - 1
  pwd : pwd.length ≤ 2 ^ 31 - 1
  salt : salt.length ≤ 2 ^ 31 - 1
  hashlen : 0 ≤ hashlen ∧ hashlen ≤ 2 ^ 31 - 1

/-- The hash that a request asks for. -/
def hash (bc : BouncyCastle) (tCost mCost parallelism : Int) (pwd salt : Bytes) (hashlen : Int) :
    Hash where
  version := some 19
  mCost := mCost.toNat
  tCost := tCost.toNat
  lanes := parallelism.toNat
  salt := salt
  output := bc.tag 19 mCost.toNat tCost.toNat parallelism.toNat salt pwd hashlen.toNat

/-- The interpolated string is the canonical text. -/
theorem interpolation_eq_write (ht : 0 ≤ tCost) (hm : 0 ≤ mCost) (hp : 0 ≤ parallelism) :
    ascii "$argon2id$v=19$m=" ++ integerToS mCost ++ ascii ",t=" ++ integerToS tCost ++
        ascii ",p=" ++ integerToS parallelism ++ ascii "$" ++ Base64.encode salt ++ ascii "$" ++
          Base64.encode (bc.tag 19 mCost.toNat tCost.toNat parallelism.toNat salt pwd
            hashlen.toNat) =
      (hash bc tCost mCost parallelism pwd salt hashlen).write := by
  have hhead : ascii "$argon2id$v=19$m=" =
      ascii "$argon2id" ++ (ascii "$v=" ++ Numeral.print 19) ++ ascii "$m=" := by
    decide +kernel
  rw [integerToS_of_nonneg hm, integerToS_of_nonneg ht, integerToS_of_nonneg hp, hhead]
  simp only [hash, Hash.write, Hash.parts, Parts.text, Option.map_some, Parts.versionText,
    List.append_assoc]

/-- The requests that are answered with `Argon2id::Error`. -/
def Refuses (bc : BouncyCastle) (tCost mCost parallelism : Int) (salt : Bytes) (hashlen : Int) :
    Prop :=
  salt = [] ∨ mCost < 8 ∨ (bc.illegalState parallelism mCost tCost hashlen.toNat).isSome = true

/-- The method, once all its arguments have Java values. -/
theorem hashEncoded_of_converts (h : Converts tCost mCost parallelism pwd salt hashlen)
    (hsalt : salt ≠ []) (hm : ¬ mCost < 8) :
    hashEncoded bc tCost mCost parallelism pwd salt hashlen =
      match bc.illegalState parallelism mCost tCost hashlen.toNat with
      | some message => .error (.argon2idError message)
      | none => .ok (hash bc tCost mCost parallelism pwd salt hashlen).write := by
  have hempty : salt.isEmpty = false := by simpa using hsalt
  rw [hashEncoded, hempty, if_neg (by decide), if_neg hm, toJavaBytes_eq_ok_iff.2 ⟨h.salt, rfl⟩,
    newByteArray_eq_ok_iff.2 ⟨h.hashlen, rfl⟩, toJavaInt_eq_ok_iff.2 ⟨h.tCost, rfl⟩,
    toJavaInt_eq_ok_iff.2 ⟨h.mCost, rfl⟩, toJavaInt_eq_ok_iff.2 ⟨h.parallelism, rfl⟩,
    toJavaBytes_eq_ok_iff.2 ⟨h.pwd, rfl⟩]
  simp only [bind, Except.bind, BouncyCastle.generateBytes]
  cases hstate : bc.illegalState parallelism mCost tCost hashlen.toNat with
  | some message => rfl
  | none =>
      -- what is not rejected is positive, so no sign is printed
      have hvalid : ¬ (parallelism < 1 ∨ mCost < 2 * parallelism ∨ tCost < 1 ∨ hashlen.toNat < 4) := by
        intro hinvalid
        have hsome := bc.illegalState_isSome _ _ _ _ hinvalid
        rw [hstate] at hsome
        cases hsome
      rw [← interpolation_eq_write (by omega) (by omega) (by omega)]
      rfl

theorem hashEncoded_of_refuses (h : Converts tCost mCost parallelism pwd salt hashlen)
    (hrefuses : Refuses bc tCost mCost parallelism salt hashlen) :
    ∃ msg, hashEncoded bc tCost mCost parallelism pwd salt hashlen =
      .error (.argon2idError msg) := by
  by_cases hsalt : salt = []
  · exact ⟨_, by rw [hashEncoded, hsalt]; rfl⟩
  by_cases hm : mCost < 8
  · exact ⟨_, by rw [hashEncoded, if_neg (by simpa using hsalt), if_pos hm]⟩
  rcases hrefuses with hsalt' | hm' | hstate
  · exact absurd hsalt' hsalt
  · exact absurd hm' hm
  · rcases Option.isSome_iff_exists.1 hstate with ⟨message, hmessage⟩
    exact ⟨message, by rw [hashEncoded_of_converts h hsalt hm, hmessage]⟩

/-- `hash_encoded` returns the canonical text of the hash that was asked for, or nothing. -/
theorem hashEncoded_eq_ok_iff {s : Bytes} :
    hashEncoded bc tCost mCost parallelism pwd salt hashlen = .ok s ↔
      Converts tCost mCost parallelism pwd salt hashlen ∧
        ¬ Refuses bc tCost mCost parallelism salt hashlen ∧
          s = (hash bc tCost mCost parallelism pwd salt hashlen).write := by
  constructor
  · intro hok
    have hparts := hok
    simp only [hashEncoded, guarded_eq_ok_iff, bind_eq_ok_iff, toJavaBytes_eq_ok_iff,
      newByteArray_eq_ok_iff, toJavaInt_eq_ok_iff] at hparts
    rcases hparts with ⟨hsalt, hm, _, ⟨hsaltlen, _⟩, _, ⟨hlen, _⟩, _, ⟨ht, _⟩, _, ⟨hmem, _⟩, _,
      ⟨hp, _⟩, _, ⟨hpwd, _⟩, _⟩
    have hconverts : Converts tCost mCost parallelism pwd salt hashlen :=
      ⟨ht, hmem, hp, hpwd, hsaltlen, hlen⟩
    refine ⟨hconverts, ?_, ?_⟩
    · intro hrefuses
      rcases hashEncoded_of_refuses hconverts hrefuses with ⟨msg, hmsg⟩
      rw [hmsg] at hok
      cases hok
    · rw [hashEncoded_of_converts hconverts (by simpa using hsalt) hm] at hok
      split at hok
      · cases hok
      · exact (Except.ok.inj hok).symm
  · rintro ⟨hconverts, haccepts, rfl⟩
    have hnone : bc.illegalState parallelism mCost tCost hashlen.toNat = none :=
      Option.not_isSome_iff_eq_none.1 fun h => haccepts (Or.inr (Or.inr h))
    rw [hashEncoded_of_converts hconverts (fun h => haccepts (Or.inl h))
      (fun h => haccepts (Or.inr (Or.inl h))), hnone]

/-- What an accepted request is known to satisfy. -/
theorem bounds_of_not_refuses (h : ¬ Refuses bc tCost mCost parallelism salt hashlen) :
    salt ≠ [] ∧ 8 ≤ mCost ∧ 1 ≤ parallelism ∧ 1 ≤ tCost ∧ 4 ≤ hashlen.toNat := by
  have hvalid : ¬ (parallelism < 1 ∨ mCost < 2 * parallelism ∨ tCost < 1 ∨ hashlen.toNat < 4) :=
    fun hinvalid => h (Or.inr (Or.inr (bc.illegalState_isSome _ _ _ _ hinvalid)))
  exact ⟨fun hsalt => h (Or.inl hsalt), by by_contra hm; exact h (Or.inr (Or.inl (by omega))),
    by omega, by omega, by omega⟩

theorem reads_hash (h : Converts tCost mCost parallelism pwd salt hashlen) :
    Reads (hash bc tCost mCost parallelism pwd salt hashlen).write
      (hash bc tCost mCost parallelism pwd salt hashlen) := by
  have ht := h.tCost
  have hm := h.mCost
  have hp := h.parallelism
  refine reads_iff.2 ⟨⟨?_, ?_, ?_, ?_⟩, rfl⟩
  · intro v hv
    rw [← Option.some.inj hv]
    decide
  · change mCost.toNat < 2 ^ 32
    omega
  · change tCost.toNat < 2 ^ 32
    omega
  · change parallelism.toNat < 2 ^ 32
    omega

/-- `Password.new` of a hash created on JRuby. -/
theorem new_write_hash (h : Converts tCost mCost parallelism pwd salt hashlen)
    (haccepts : ¬ Refuses bc tCost mCost parallelism salt hashlen) :
    Password.new (hash bc tCost mCost parallelism pwd salt hashlen).write =
      .ok ((hash bc tCost mCost parallelism pwd salt hashlen).password
        (hash bc tCost mCost parallelism pwd salt hashlen).write) := by
  rcases bounds_of_not_refuses haccepts with ⟨hsalt, _, _, _, hout⟩
  have hlength : (hash bc tCost mCost parallelism pwd salt hashlen).output.length = hashlen.toNat :=
    bc.tag_length _ _ _ _ _ _ _
  refine Password.new_of_reads (reads_hash h) hsalt ?_
  intro hnil
  rw [hnil] at hlength
  simp only [List.length_nil] at hlength
  omega

/-! ## `verify` -/

/-- `verify` compares the output with a tag, for parameters that have Java values and that the
generator does not reject. -/
theorem verify_eq_ok_iff {self : Password} {b : Bool} :
    verify bc self pwd = .ok b ↔
      (self.version < 2 ^ 31 ∧ self.mCost < 2 ^ 31 ∧ self.tCost < 2 ^ 31 ∧
          self.parallelism < 2 ^ 31 ∧ self.salt.length < 2 ^ 31 ∧ self.output.length < 2 ^ 31 ∧
          pwd.length < 2 ^ 31) ∧
        bc.illegalState self.parallelism self.mCost self.tCost self.output.length = none ∧
        b = decide (self.output = bc.tag self.version self.mCost self.tCost self.parallelism
          self.salt pwd self.output.length) := by
  simp only [verify, bind_eq_ok_iff, newByteArray_eq_ok_iff, toJavaInt_eq_ok_iff,
    toJavaBytes_eq_ok_iff]
  constructor
  · rintro ⟨_, ⟨hout, rfl⟩, _, ⟨hv, rfl⟩, _, ⟨ht, rfl⟩, _, ⟨hm, rfl⟩, _, ⟨hp, rfl⟩, _, ⟨hsalt, rfl⟩, _,
      ⟨hpwd, rfl⟩, hmatch⟩
    refine ⟨by omega, ?_⟩
    simp only [BouncyCastle.generateBytes, Int.toNat_natCast] at hmatch
    cases hstate : bc.illegalState self.parallelism self.mCost self.tCost self.output.length with
    | some message =>
        rw [hstate] at hmatch
        cases hmatch
    | none =>
        rw [hstate] at hmatch
        exact ⟨rfl, (Except.ok.inj hmatch).symm⟩
  · rintro ⟨hfits, hstate, rfl⟩
    refine ⟨_, ⟨by omega, rfl⟩, _, ⟨by omega, rfl⟩, _, ⟨by omega, rfl⟩, _, ⟨by omega, rfl⟩, _,
      ⟨by omega, rfl⟩, _, ⟨by omega, rfl⟩, _, ⟨by omega, rfl⟩, ?_⟩
    simp only [BouncyCastle.generateBytes, Int.toNat_natCast, hstate]

/-- The exceptions of Java and of the conversion to Java. -/
def IsForeign (e : RubyError) : Prop :=
  (∃ msg, e = .rangeError msg) ∨ ∃ msg, e = .javaException msg

theorem errors_toJavaInt (n : Int) : Errors IsForeign (toJavaInt n) := by
  rw [toJavaInt]
  split_ifs
  · exact errors_ok _ _
  · exact errors_error (Or.inl ⟨_, rfl⟩)

theorem errors_toJavaBytes (bytes : Bytes) : Errors IsForeign (toJavaBytes bytes) := by
  rw [toJavaBytes]
  split_ifs
  · exact errors_ok _ _
  · exact errors_error (Or.inr ⟨_, rfl⟩)

theorem errors_newByteArray (n : Int) : Errors IsForeign (newByteArray n) := by
  refine (errors_toJavaInt n).bind fun n => ?_
  split_ifs
  · exact errors_error (Or.inr ⟨_, rfl⟩)
  · exact errors_ok _ _

/-- `verify` never raises `ArgumentError` or `Argon2id::Error`. -/
theorem errors_verify (bc : BouncyCastle) (self : Password) (pwd : Bytes) :
    Errors IsForeign (verify bc self pwd) := by
  refine (errors_newByteArray _).bind fun outlen => (errors_toJavaInt _).bind fun version =>
    (errors_toJavaInt _).bind fun iterations => (errors_toJavaInt _).bind fun memory =>
      (errors_toJavaInt _).bind fun lanes => (errors_toJavaBytes _).bind fun saltBytes =>
        (errors_toJavaBytes _).bind fun pwdBytes => ?_
  split
  · exact errors_error (Or.inr ⟨_, rfl⟩)
  · exact errors_ok _ _

end JRuby

end Argon2id
