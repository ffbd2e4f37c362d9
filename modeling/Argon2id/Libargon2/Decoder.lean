import Argon2id.Format
import Argon2id.Lib.Fallible
import Argon2id.Libargon2.Base64Codec
import Argon2id.Libargon2.Decimal

/-!
# Libargon2.Decoder — `decode_string` reads the reference grammar

On a text that `char` represents as itself, `decode_string` returns `ARGON2_OK` exactly when the
text is in the grammar, its salt and output fit the buffers and the parameters pass
`validate_inputs`; the context then holds what the text means (`decodeString_eq_ok_iff`).
-/

namespace Argon2id

open Fallible Scan

/-! ## The parts of the decoder -/

/-- `char` represents ASCII as itself on every platform. -/
theorem plainChar_of_isAscii (plat : Platform) {s : Bytes} (hs : ∀ c ∈ s, IsAscii c) :
    ∀ c ∈ s, PlainChar plat c :=
  fun c hc => Or.inr (hs c hc).2

theorem cc_eq_ok_iff {pre str rest : Bytes} : cc pre str = .ok rest ↔ str = pre ++ rest := by
  rw [cc]
  by_cases hpre : pre.isPrefixOf str = true
  · rcases List.isPrefixOf_iff_prefix.1 hpre with ⟨tail, rfl⟩
    simp [hpre]
  · simp only [hpre, Bool.false_eq_true, if_false]
    constructor
    · intro h
      cases h
    · rintro rfl
      exact absurd (List.isPrefixOf_iff_prefix.2 (List.prefix_append pre rest)) hpre

theorem number_toNat_iff {ds : Bytes} {v : UInt32} :
    Number ds v.toNat ↔ Numeral.Canonical ds ∧ Numeral.value 10 ds = v.toNat := by
  have hlt := v.toNat_lt
  constructor
  · rintro ⟨hcanon, hv, _⟩
    exact ⟨hcanon, hv⟩
  · rintro ⟨hcanon, hv⟩
    exact ⟨hcanon, hv, hlt⟩

theorem decimalU32_number {plat : Platform} {str rest : Bytes} {v : UInt32} :
    decimalU32 plat str = .ok (v, rest) ↔
      ∃ ds, str = ds ++ rest ∧ StopsAt Numeral.isDigit rest ∧ Number ds v.toNat := by
  simp only [decimalU32_eq_ok_iff, number_toNat_iff]

theorem bin_eq_ok_iff {plat : Platform} {maxLen : UInt32} {str rest bytes : Bytes}
    (hplain : ∀ c ∈ str, PlainChar plat c) :
    bin plat maxLen.toNat str = .ok (bytes, rest) ↔
      ∃ cs, str = cs ++ rest ∧ StopsAt Base64.isChar rest ∧ Base64.Denotes cs bytes ∧
        bytes.length ≤ maxLen.toNat := by
  have hlt := maxLen.toNat_lt
  rw [← fromBase64_eq_some_iff hplain, bin]
  cases hdec : fromBase64 plat maxLen.toNat str with
  | none => simp
  | some r =>
      rcases r with ⟨buf, tail⟩
      rcases (fromBase64_eq_some_iff hplain).1 hdec with ⟨_, _, _, _, hle⟩
      -- a buffer of at most `UINT32_MAX` bytes cannot receive more
      have hmax : ¬ uint32Max < buf.length := by
        simp only [uint32Max]
        omega
      simp [hmax]

/-- The version part: present or suppressed, but never in front of another version part. -/
theorem ccOpt_version_sound {plat : Platform} {str rest : Bytes} {v : UInt32}
    (h : ccOptDecimalU32 plat (ascii "$v=") version10 str = .ok (v, rest)) :
    ∃ vs w, str = Parts.versionText vs ++ rest ∧ Option.Rel Number vs w ∧ v.toNat = w.getD 0x10 := by
  rw [ccOptDecimalU32] at h
  by_cases hpre : (ascii "$v=").isPrefixOf str = true
  · rcases List.isPrefixOf_iff_prefix.1 hpre with ⟨tail, rfl⟩
    simp only [hpre, if_true, List.drop_left] at h
    rcases decimalU32_number.1 h with ⟨ds, rfl, _, hnum⟩
    exact ⟨some ds, some v.toNat, by simp [Parts.versionText], Option.Rel.some hnum, rfl⟩
  · simp only [hpre, Bool.false_eq_true, if_false, Except.ok.injEq, Prod.mk.injEq] at h
    rcases h with ⟨rfl, rfl⟩
    exact ⟨none, none, rfl, Option.Rel.none, rfl⟩

theorem ccOpt_version_complete {plat : Platform} {vs : Option Bytes} {w : Option Nat}
    (hrel : Option.Rel Number vs w) (rest : Bytes) :
    ccOptDecimalU32 plat (ascii "$v=") version10 (Parts.versionText vs ++ (ascii "$m=" ++ rest)) =
      .ok (UInt32.ofNat (w.getD 0x10), ascii "$m=" ++ rest) := by
  cases hrel with
  | none => rfl
  | @some ds n hnum =>
      have htoNat : (UInt32.ofNat n).toNat = n := toNat_ofNat_of_lt hnum.2.2
      have hpre : (ascii "$v=").isPrefixOf (ascii "$v=" ++ (ds ++ (ascii "$m=" ++ rest))) = true :=
        List.isPrefixOf_iff_prefix.2 (List.prefix_append _ _)
      have hdec : decimalU32 plat (ds ++ (ascii "$m=" ++ rest)) =
          .ok (UInt32.ofNat n, ascii "$m=" ++ rest) :=
        decimalU32_number.2 ⟨ds, rfl, stopsAt_dollar_m rest, by rwa [htoNat]⟩
      rw [Parts.versionText, List.append_assoc, ccOptDecimalU32, if_pos hpre, List.drop_left, hdec]
      rfl

/-! ## Fields, then validation

`decode_string` reads all its fields before it looks at their values, so it is a reader of fields
followed by the validation and the test for the end of the string. -/

/-- What has been read up to the end of the last field, and what is left of the string. -/
structure Fields where
  version : UInt32
  mCost : UInt32
  tCost : UInt32
  lanes : UInt32
  salt : Bytes
  out : Bytes
  rest : Bytes

/-- The part of the decoder that reads the fields. -/
def decodeFields (plat : Platform) (maxsaltlen maxoutlen : Nat) (str : Bytes) :
    Except ErrorCode Fields := do
  let str ← cc (ascii "$") str
  let str ← cc (argon2Type2string .id false) str
  let (version, str) ← ccOptDecimalU32 plat (ascii "$v=") version10 str
  let str ← cc (ascii "$m=") str
  let (mCost, str) ← decimalU32 plat str
  let str ← cc (ascii ",t=") str
  let (tCost, str) ← decimalU32 plat str
  let str ← cc (ascii ",p=") str
  let (lanes, str) ← decimalU32 plat str
  let str ← cc (ascii "$") str
  let (salt, str) ← bin plat maxsaltlen str
  let str ← cc (ascii "$") str
  let (out, str) ← bin plat maxoutlen str
  .ok { version := version, mCost := mCost, tCost := tCost, lanes := lanes, salt := salt, out := out,
        rest := str }

/-- The context with the fields filled in. -/
def Context.filled (ctx : Context) (f : Fields) : Context :=
  { ctx with
    version := f.version, mCost := f.mCost, tCost := f.tCost, lanes := f.lanes, threads := f.lanes,
    salt := some f.salt, saltlen := UInt32.ofNat f.salt.length,
    out := some f.out, outlen := UInt32.ofNat f.out.length,
    secret := none, secretlen := 0, ad := none, adlen := 0,
    allocateCbk := false, freeCbk := false, flags := defaultFlags }

/-- The part of the decoder after the fields. -/
def endDecoding (plat : Platform) (ctx : Context) (rest : Bytes) : Except ErrorCode Context :=
  match validateInputs plat ctx with
  | .ok => if rest.headD 0 = 0 then .ok ctx else .error .decodingFail
  | code => .error code

theorem decodeString_eq (plat : Platform) (ctx : Context) (str : Bytes) :
    decodeString plat ctx str .id =
      (decodeFields plat ctx.saltlen.toNat ctx.outlen.toNat str >>= fun f =>
        endDecoding plat (ctx.filled f) f.rest) := by
  simp only [decodeString, decodeFields, bind_assoc]
  rfl

/-- The validation only asks whether there is a password. -/
theorem validateInputs_pwd (plat : Platform) (ctx : Context) (pwd pwd' : Bytes) :
    validateInputs plat { ctx with pwd := some pwd } =
      validateInputs plat { ctx with pwd := some pwd' } :=
  rfl

/-- The decoder leaves the password in the context as it is, and never reads it. -/
theorem decodeString_pwd (plat : Platform) (ctx : Context) (pwd pwd' str : Bytes) :
    decodeString plat { ctx with pwd := some pwd' } str .id =
      (decodeString plat { ctx with pwd := some pwd } str .id).map fun ctx =>
        { ctx with pwd := some pwd' } := by
  rw [decodeString_eq, decodeString_eq]
  cases decodeFields plat ctx.saltlen.toNat ctx.outlen.toNat str with
  | error code => rfl
  | ok f =>
      have hvalid := validateInputs_pwd plat (ctx.filled f) pwd pwd'
      simp only [Context.filled] at hvalid
      simp only [bind, Except.bind, endDecoding, Context.filled, hvalid]
      split
      · split
        · rfl
        · rfl
      · rfl

/-! ## The whole decoder -/

/-- The context that holds what a hash says. -/
def Context.decoded (ctx : Context) (h : Hash) : Context :=
  { ctx with
    version := UInt32.ofNat h.effectiveVersion, mCost := UInt32.ofNat h.mCost,
    tCost := UInt32.ofNat h.tCost, lanes := UInt32.ofNat h.lanes, threads := UInt32.ofNat h.lanes,
    salt := some h.salt, saltlen := UInt32.ofNat h.salt.length,
    out := some h.output, outlen := UInt32.ofNat h.output.length,
    secret := none, secretlen := 0, ad := none, adlen := 0,
    allocateCbk := false, freeCbk := false, flags := defaultFlags }

/-- What the decoder makes of a text in the grammar before it validates. -/
def validateDecoded (plat : Platform) (ctx : Context) : Except ErrorCode Context :=
  match validateInputs plat ctx with
  | .ok => .ok ctx
  | code => .error code

theorem validateDecoded_eq_ok_iff {plat : Platform} {ctx ctx' : Context} :
    validateDecoded plat ctx = .ok ctx' ↔ validateInputs plat ctx = .ok ∧ ctx' = ctx := by
  rw [validateDecoded]
  cases validateInputs plat ctx <;> simp [eq_comm]

/-- On a text in the grammar only the validation can fail. -/
theorem decodeString_of_denotes {plat : Platform} {ctx : Context} {p : Parts} {h : Hash}
    (hplain : ∀ c ∈ p.text, PlainChar plat c) (hd : p.Denotes h)
    (hsalt : h.salt.length ≤ ctx.saltlen.toNat) (hout : h.output.length ≤ ctx.outlen.toNat) :
    decodeString plat ctx p.text .id = validateDecoded plat (ctx.decoded h) := by
  -- each macro finds its own part at the front of the text
  have hcc : ∀ pre rest, cc pre (pre ++ rest) = .ok rest := fun _ _ => cc_eq_ok_iff.2 rfl
  have hnum : ∀ {ds rest : Bytes} {n : Nat}, Number ds n → StopsAt Numeral.isDigit rest →
      decimalU32 plat (ds ++ rest) = .ok (UInt32.ofNat n, rest) := by
    intro ds rest n hn hstop
    have htoNat : (UInt32.ofNat n).toNat = n := toNat_ofNat_of_lt hn.2.2
    exact decimalU32_number.2 ⟨ds, rfl, hstop, by rwa [htoNat]⟩
  -- a run of the alphabet ends at the next `$`, or at the end of the text
  have hsaltBin : bin plat ctx.saltlen.toNat (p.salt ++ (ascii "$" ++ p.output)) =
      .ok (h.salt, ascii "$" ++ p.output) := by
    refine (bin_eq_ok_iff fun c hc => hplain c ?_).2
      ⟨p.salt, rfl, stopsAt_base64_dollar _, hd.salt, hsalt⟩
    simp only [Parts.text, List.mem_append] at hc ⊢
    tauto
  have houtBin : bin plat ctx.outlen.toNat p.output = .ok (h.output, []) := by
    refine (bin_eq_ok_iff fun c hc => hplain c ?_).2
      ⟨p.output, (List.append_nil _).symm, stopsAt_nil _, hd.output, hout⟩
    simp only [Parts.text, List.mem_append]
    tauto
  have htext : p.text = ascii "$" ++ (argon2Type2string .id false ++ (Parts.versionText p.version ++
      (ascii "$m=" ++ (p.mCost ++ (ascii ",t=" ++ (p.tCost ++ (ascii ",p=" ++ (p.parallelism ++
        (ascii "$" ++ (p.salt ++ (ascii "$" ++ p.output))))))))))) := rfl
  simp only [decodeString, htext, hcc, ccOpt_version_complete hd.version,
    hnum hd.mCost (stopsAt_comma_t _), hnum hd.tCost (stopsAt_comma_p _),
    hnum hd.lanes (stopsAt_dollar _), hsaltBin, houtBin, bind, Except.bind]
  rfl

/-- The fields that have been read mean a hash, and the last of them is a longest run. -/
theorem decodeFields_sound {plat : Platform} {maxsaltlen maxoutlen : UInt32} {s : Bytes} {f : Fields}
    (hplain : ∀ c ∈ s, PlainChar plat c)
    (hdec : decodeFields plat maxsaltlen.toNat maxoutlen.toNat s = .ok f) :
    ∃ p h, s = p.text ++ f.rest ∧ Parts.Denotes p h ∧ StopsAt Base64.isChar f.rest ∧
      h.salt.length ≤ maxsaltlen.toNat ∧ h.output.length ≤ maxoutlen.toNat ∧
      ∀ ctx : Context, ctx.filled f = ctx.decoded h := by
  simp only [decodeFields, bind_eq_ok_iff, Prod.exists, cc_eq_ok_iff, decimalU32_number,
    Except.ok.injEq] at hdec
  -- the text taken apart from the left, one step of the decoder after the other
  rcases hdec with ⟨s1, rfl, s2, rfl, v, s3, hversion, hdec⟩
  rcases ccOpt_version_sound hversion with ⟨vs, w, rfl, hrel, hv⟩
  rcases hdec with ⟨s4, rfl, m, s5, ⟨ms, rfl, _, hm⟩, s6, rfl, t, s7, ⟨ts, rfl, _, ht⟩, s8, rfl, l, s9,
    ⟨ls, rfl, _, hl⟩, s10, rfl, salt, s11, hsaltBin, s12, hs11, out, s13, houtBin, rfl⟩
  rcases (bin_eq_ok_iff fun c hc => hplain c (by simp [hc])).1 hsaltBin with
    ⟨ss, rfl, _, hsalt, hsaltlen⟩
  obtain rfl := hs11
  rcases (bin_eq_ok_iff fun c hc => hplain c (by simp [hc])).1 houtBin with
    ⟨os, rfl, hstop, hout, houtlen⟩
  -- what has been read, as a hash and as the parts it was read from
  let h : Hash := { version := w, mCost := m.toNat, tCost := t.toNat, lanes := l.toNat,
                    salt := salt, output := out }
  let p : Parts := { version := vs, mCost := ms, tCost := ts, parallelism := ls,
                     salt := ss, output := os }
  refine ⟨p, h, ?_, ⟨hrel, hm, ht, hl, hsalt, hout⟩, hstop, hsaltlen, houtlen, ?_⟩
  · simp only [p, Parts.text, List.append_assoc]
    rfl
  · intro ctx
    simp [Context.filled, Context.decoded, h, Hash.effectiveVersion, ← hv]

/-- What the decoder accepts is in the grammar. -/
theorem decodeString_sound {plat : Platform} {ctx ctx' : Context} {s : Bytes}
    (hplain : ∀ c ∈ s, PlainChar plat c) (hnul : (0 : UInt8) ∉ s)
    (hdec : decodeString plat ctx s .id = .ok ctx') :
    ∃ h, Reads s h ∧ h.salt.length ≤ ctx.saltlen.toNat ∧ h.output.length ≤ ctx.outlen.toNat ∧
      validateInputs plat (ctx.decoded h) = .ok ∧ ctx' = ctx.decoded h := by
  rw [decodeString_eq] at hdec
  rcases bind_eq_ok_iff.1 hdec with ⟨f, hfields, hend⟩
  rcases decodeFields_sound hplain hfields with ⟨p, h, hs, hd, _, hsalt, hout, hfilled⟩
  rw [hfilled, endDecoding] at hend
  split at hend
  · rename_i hvalid
    rcases checked_eq_ok_iff.1 hend with ⟨hhead, hctx⟩
    -- the text ends where the last run ends: any other character would not be the final `NUL`
    have hrest : f.rest = [] := by
      cases hcons : f.rest with
      | nil => rfl
      | cons c rest =>
          rw [hcons, List.headD_cons] at hhead
          exact absurd (by simp [hs, hcons, hhead]) hnul
    refine ⟨h, ⟨p, ?_, hd⟩, hsalt, hout, hvalid, (Except.ok.inj hctx).symm⟩
    rw [hs, hrest, List.append_nil]
  · cases hend

/-- The decoder accepts exactly the texts of the grammar whose salt and output fit the buffers and
whose parameters are valid. -/
theorem decodeString_eq_ok_iff {plat : Platform} {ctx ctx' : Context} {s : Bytes}
    (hplain : ∀ c ∈ s, PlainChar plat c) (hnul : (0 : UInt8) ∉ s) :
    decodeString plat ctx s .id = .ok ctx' ↔
      ∃ h, Reads s h ∧ h.salt.length ≤ ctx.saltlen.toNat ∧ h.output.length ≤ ctx.outlen.toNat ∧
        validateInputs plat (ctx.decoded h) = .ok ∧ ctx' = ctx.decoded h := by
  constructor
  · exact decodeString_sound hplain hnul
  · rintro ⟨h, ⟨p, rfl, hd⟩, hsalt, hout, hvalid, rfl⟩
    rw [decodeString_of_denotes hplain hd hsalt hout, validateDecoded_eq_ok_iff]
    exact ⟨hvalid, rfl⟩

/-! ## Validation of a decoded context -/

/-- Whatever the rest of the context, the salt and the output must have their minimal lengths. -/
theorem lengths_of_validateInputs {plat : Platform} {ctx : Context}
    (h : validateInputs plat ctx = .ok) : 4 ≤ ctx.outlen.toNat ∧ 8 ≤ ctx.saltlen.toNat := by
  simp only [validateInputs, check_eq_ok_iff, ne_eq, reduceCtorEq, not_false_eq_true, gt_iff_lt,
    UInt32.lt_iff_toNat_lt, minOutlen, minSaltLength] at h
  exact ⟨Nat.le_of_not_lt h.2.1, Nat.le_of_not_lt h.2.2.2.2.2.2.2.1⟩

/-- For a context with a password the limits on the hash decide. -/
theorem validateInputs_decoded_iff {plat : Platform} {ctx : Context} {h : Hash}
    (hpwd : ctx.pwd.isSome = true) (hfits : h.Fits) (hsalt : h.salt.length < 2 ^ 32)
    (hout : h.output.length < 2 ^ 32) :
    validateInputs plat (ctx.decoded h) = .ok ↔ h.Acceptable plat := by
  have hplain : (ctx.decoded h).Plain :=
    ⟨rfl, hpwd, rfl, rfl, rfl, rfl, rfl, rfl, rfl, rfl⟩
  rw [validateInputs_eq_ok_iff hplain]
  simp only [Context.decoded, toNat_ofNat_of_lt hfits.mCost, toNat_ofNat_of_lt hfits.tCost,
    toNat_ofNat_of_lt hfits.lanes, toNat_ofNat_of_lt hsalt, toNat_ofNat_of_lt hout]
  rfl

/-! ## The result codes of the decoder -/

theorem errors_cc (pre str : Bytes) : Errors (fun code => code = .decodingFail) (cc pre str) := by
  rw [cc]
  split
  · exact errors_ok _ _
  · exact errors_error rfl

theorem errors_decimalU32 (plat : Platform) (str : Bytes) :
    Errors (fun code => code = .decodingFail) (decimalU32 plat str) := by
  rw [decimalU32]
  split
  · exact errors_error rfl
  · split
    · exact errors_error rfl
    · exact errors_ok _ _

theorem errors_ccOptDecimalU32 (plat : Platform) (pre : Bytes) (dflt : UInt32) (str : Bytes) :
    Errors (fun code => code = .decodingFail) (ccOptDecimalU32 plat pre dflt str) := by
  rw [ccOptDecimalU32]
  split
  · exact errors_decimalU32 plat _
  · exact errors_ok _ _

theorem errors_bin (plat : Platform) (maxLen : Nat) (str : Bytes) :
    Errors (fun code => code = .decodingFail) (bin plat maxLen str) := by
  rw [bin]
  split
  · exact errors_error rfl
  · split
    · exact errors_error rfl
    · exact errors_ok _ _

/-- Whatever goes wrong while the fields are read has the same code. -/
theorem errors_decodeFields (plat : Platform) (maxsaltlen maxoutlen : Nat) (str : Bytes) :
    Errors (fun code => code = .decodingFail) (decodeFields plat maxsaltlen maxoutlen str) :=
  (errors_cc _ _).bind fun _ => (errors_cc _ _).bind fun _ =>
    (errors_ccOptDecimalU32 _ _ _ _).bind fun _ => (errors_cc _ _).bind fun _ =>
    (errors_decimalU32 _ _).bind fun _ => (errors_cc _ _).bind fun _ =>
    (errors_decimalU32 _ _).bind fun _ => (errors_cc _ _).bind fun _ =>
    (errors_decimalU32 _ _).bind fun _ => (errors_cc _ _).bind fun _ =>
    (errors_bin _ _ _).bind fun _ => (errors_cc _ _).bind fun _ =>
    (errors_bin _ _ _).bind fun _ => errors_ok _ _

/-- A result code that stands for a failure of the decoder itself. -/
def IsFailure (code : ErrorCode) : Prop :=
  code ≠ .ok ∧ code ≠ .verifyMismatch

instance (code : ErrorCode) : Decidable (IsFailure code) :=
  inferInstanceAs (Decidable (code ≠ .ok ∧ code ≠ .verifyMismatch))

/-- The decoder never reports a match or a mismatch of its own. -/
theorem errors_decodeString (plat : Platform) (ctx : Context) (str : Bytes) :
    Errors IsFailure (decodeString plat ctx str .id) := by
  have hfields : Errors IsFailure (decodeFields plat ctx.saltlen.toNat ctx.outlen.toNat str) :=
    (errors_decodeFields plat _ _ str).mono (by rintro _ rfl; decide)
  rw [decodeString_eq]
  refine hfields.bind fun f => ?_
  -- after the last field only the validation and the test for the end are left
  rw [endDecoding]
  split
  · split
    · exact errors_ok _ _
    · exact errors_error (by decide)
  · rename_i hinvalid
    exact errors_error ⟨hinvalid, validateInputs_ne _ _ (Or.inl rfl)⟩

end Argon2id
