import Argon2id.Verify

/-!
# Undecodable — what verification raises for a hash that cannot be decoded

An object of `Password.new` may hold a string that `decode_string` does not accept.  Where the string
is outside the grammar, the decoder fails with a code of its own and the extension raises
`ArgumentError`.  Where it is in the grammar, the parameters are outside the limits: the code comes
from the validation, and the extension raises `Argon2id::Error`.
-/

namespace Argon2id

open Fallible

section Undecodable

variable {host : Host} {s pwd : Bytes}

/-- The decoder has not accepted the string: it was not called for want of a 32-bit length, or it
returned something else than `ARGON2_OK`. -/
def Undecodable (host : Host) (s pwd : Bytes) : Prop :=
  s.length ≤ uint32Max → ∀ ctx,
    decodeString host.platform (verifyContext host (UInt32.ofNat s.length) pwd) s .id ≠ .ok ctx

/-- A string of the shape of the pattern that is not in the grammar fails while its fields are
read. -/
theorem decodeString_of_not_reads {plat : Platform} (ctx : Context) (hvalid : validHash s = true)
    (hnot : ¬ ∃ h, Reads s h) : decodeString plat ctx s .id = .error .decodingFail := by
  rcases validHash_iff.1 hvalid with ⟨p, hp, rfl⟩
  have hplain := plainChar_of_isAscii plat hp.isAscii
  rw [decodeString_eq]
  cases hfields : decodeFields plat ctx.saltlen.toNat ctx.outlen.toNat p.text with
  | error code =>
      rw [errors_decodeFields _ _ _ _ code hfields]
      rfl
  | ok f =>
      -- all fields were read, so they are the parts of the string and nothing is left over
      rcases decodeFields_sound hplain hfields with ⟨q, h, htext, hd, hstop, _⟩
      rcases Parts.text_append_inj hp.runs hd.runs hstop htext with ⟨rfl, _⟩
      exact absurd ⟨h, p, rfl, hd⟩ hnot

theorem argon2idVerify_of_not_reads (host : Host) (hvalid : validHash s = true)
    (hpwd : pwd.length ≤ uint32Max) (hnot : ¬ (s.length ≤ uint32Max ∧ ∃ h, Reads s h)) :
    argon2idVerify host s pwd = .decodingFail := by
  have hs := isAscii_of_validHash hvalid
  by_cases hlong : uint32Max < s.length
  · exact argon2idVerify_of_long host hs hpwd hlong
  · have hlen : s.length ≤ uint32Max := Nat.not_lt.1 hlong
    have hnot' : ¬ ∃ h, Reads s h := fun hr => hnot ⟨hlen, hr⟩
    exact argon2idVerify_of_error hs hlen hpwd (decodeString_of_not_reads _ hvalid hnot')

/-- For a string in the grammar the code is that of the validation. -/
theorem argon2idVerify_of_undecodable {h : Hash} (hr : Reads s h) (hlen : s.length ≤ uint32Max)
    (hpwd : pwd.length ≤ uint32Max) (hundec : Undecodable host s pwd) :
    IsFailure (argon2idVerify host s pwd) ∧ argon2idVerify host s pwd ≠ .decodingFail ∧
      argon2idVerify host s pwd ≠ .decodingLengthFail := by
  have hplain := plainChar_of_isAscii host.platform hr.isAscii
  have hle := hr.length_le
  have htoNat := toNat_ofNat_of_le hlen
  -- only the validation can have failed
  have hdec : decodeString host.platform (verifyContext host (UInt32.ofNat s.length) pwd) s .id =
      validateDecoded host.platform
        ((verifyContext host (UInt32.ofNat s.length) pwd).decoded h) := by
    rcases hr with ⟨p, rfl, hd⟩
    refine decodeString_of_denotes hplain hd ?_ ?_
    · simp only [verifyContext, htoNat]
      exact hle.1
    · simp only [verifyContext, htoNat]
      exact hle.2
  cases hresult : decodeString host.platform (verifyContext host (UInt32.ofNat s.length) pwd) s .id with
  | ok ctx => exact absurd hresult (hundec hlen ctx)
  | error code =>
      rw [argon2idVerify_of_error hr.isAscii hlen hpwd hresult]
      rw [hdec, validateDecoded] at hresult
      split at hresult
      · cases hresult
      · rename_i hinvalid
        obtain rfl := Except.error.inj hresult
        exact ⟨⟨hinvalid, validateInputs_ne _ _ (Or.inl rfl)⟩,
          validateInputs_ne _ _ (Or.inr (Or.inl rfl)), validateInputs_ne _ _ (Or.inr (Or.inr rfl))⟩

/-- The extension turns a failure of the decoder itself into an `ArgumentError`. -/
theorem rbArgon2idVerify_of_decodingFail (hnul : (0 : UInt8) ∉ s)
    (hcode : argon2idVerify host s pwd = .decodingFail) :
    rbArgon2idVerify host s pwd = .error (.argumentError "Decoding failed") := by
  rw [rbArgon2idVerify, if_neg hnul, hcode]
  rfl

/-- Every other failure becomes an `Argon2id::Error`. -/
theorem rbArgon2idVerify_of_failure (hnul : (0 : UInt8) ∉ s)
    (hcode : IsFailure (argon2idVerify host s pwd))
    (hdecoding : argon2idVerify host s pwd ≠ .decodingFail)
    (hlength : argon2idVerify host s pwd ≠ .decodingLengthFail) :
    rbArgon2idVerify host s pwd =
      .error (.argon2idError (argon2ErrorMessage (argon2idVerify host s pwd))) := by
  rw [rbArgon2idVerify, if_neg hnul]
  split
  · rename_i heq
    exact absurd heq hcode.1
  · rename_i heq
    exact absurd heq hcode.2
  · rename_i heq
    exact absurd heq hdecoding
  · rename_i heq
    exact absurd heq hlength
  · rfl

end Undecodable

/-- For an object whose string cannot be decoded, verification raises `ArgumentError` and no
`Argon2id::Error` exactly when the string is too long or outside the grammar.  The strings for which
it does not are those of well-formed hashes with parameters outside the limits. -/
theorem Password.eq_argumentError_iff (host : Host) {s pwd : Bytes} {self : Password}
    (hnew : Password.new s = .ok self) (hpwd : pwd.length ≤ uint32Max)
    (hundec : Undecodable host s pwd) :
    ((∃ msg, Password.eq host self pwd = .error (.argumentError msg)) ∧
        ∀ msg, Password.eq host self pwd ≠ .error (.argon2idError msg)) ↔
      ¬ (s.length ≤ uint32Max ∧ ∃ h, Reads s h) := by
  have hvalid := validHash_of_new hnew
  have hnul := not_mem_of_isAscii (isAscii_of_validHash hvalid)
  rw [Password.eq, Password.encoded_of_new hnew]
  constructor
  · rintro ⟨_, hnever⟩ ⟨hlen, h, hr⟩
    rcases argon2idVerify_of_undecodable hr hlen hpwd hundec with ⟨hcode, hdecoding, hlength⟩
    exact hnever _ (rbArgon2idVerify_of_failure hnul hcode hdecoding hlength)
  · intro hnot
    rw [rbArgon2idVerify_of_decodingFail hnul (argon2idVerify_of_not_reads host hvalid hpwd hnot)]
    exact ⟨⟨_, rfl⟩, by simp⟩

/-- `Integer` reads `010` as octal, but the decoder does not accept a leading zero. -/
theorem Password.eq_argumentError_iff_octal :
    ∃ self, Password.new (ascii "$argon2id$m=010,t=1,p=1$AAAAAAAAAAA$AAAAAA") = .ok self ∧
      ∃ msg, Password.eq (Host.zero .x8664Linux) self [] = .error (.argumentError msg) := by
  let text := ascii "$argon2id$m=010,t=1,p=1$AAAAAAAAAAA$AAAAAA"
  have hnew : Password.new text =
      .ok ⟨text, 16, 8, 1, 1, List.replicate 8 0, List.replicate 4 0⟩ := by
    decide +kernel
  have hundec : Undecodable (Host.zero .x8664Linux) text [] := by
    intro _ ctx hok
    have hfail : decodeString Platform.x8664Linux
        (verifyContext (Host.zero .x8664Linux) (UInt32.ofNat text.length) []) text .id =
          .error .decodingFail := by
      decide +kernel
    cases hfail.symm.trans hok
  have hnot : ¬ ∃ h, Reads text h := by
    rintro ⟨h, hr⟩
    have hcode := argon2idVerify_of_undecodable hr (by decide +kernel) (by decide) hundec
    exact hcode.2.1 (by decide +kernel)
  exact ⟨_, hnew, ((Password.eq_argumentError_iff (Host.zero .x8664Linux) hnew (by decide) hundec).2
    fun h => hnot h.2).1⟩

/-- A well-formed hash with too little memory is not decoded either, but raises `Argon2id::Error`. -/
theorem Password.eq_error_on_little_memory :
    let text := ascii "$argon2id$v=19$m=7,t=1,p=1$AAAAAAAAAAA$AAAAAA"
    let self : Password := ⟨text, 19, 7, 1, 1, List.replicate 8 0, List.replicate 4 0⟩
    Password.new text = .ok self ∧
      decodeString Platform.x8664Linux
          (verifyContext (Host.zero .x8664Linux) (UInt32.ofNat text.length) []) text .id =
        .error .memoryTooLittle ∧
      Password.eq (Host.zero .x8664Linux) self [] =
        .error (.argon2idError "Memory cost is too small") := by
  decide +kernel

end Argon2id
