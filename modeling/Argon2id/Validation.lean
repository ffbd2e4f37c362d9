import Argon2id.Verify

/-!
# Validation — the pattern, `Password.new` and `decode_string` on one string

- where both accept, Ruby and C read the same values, and the values determine the string
  (`decoders_agree`)
- a string that `Password.new` accepts can be verified exactly when it is in the grammar and its
  parameters are valid (`verifiable_iff`)
- a string that `decode_string` accepts is matched by the pattern exactly when `char` is unsigned or
  the string is ASCII (`validHash_of_decodeString_iff`)
- the pattern predicts `Password.new`, and numbers are read in decimal, exactly when no leading zero
  matters (`validHash_predicts_new_iff`)
-/

namespace Argon2id

/-! ## The two decoders -/

/-- The version part of a canonical text shows in its first characters. -/
theorem isPrefixOf_write_iff (h : Hash) :
    (ascii "$argon2id$v=").isPrefixOf h.write = true ↔ h.version.isSome = true := by
  rw [List.isPrefixOf_iff_prefix,
    show ascii "$argon2id$v=" = ascii "$argon2id" ++ ascii "$v=" from rfl, Hash.write, Parts.text,
    List.prefix_append_right_inj]
  cases hv : h.version with
  | none =>
      simp only [Hash.parts, hv, Option.map_none, Parts.versionText, List.nil_append]
      simp [ascii]
  | some v =>
      simp only [Hash.parts, hv, Option.map_some, Parts.versionText, List.append_assoc]
      simp

/-- What the decoder stores is what the string means, and both have a salt and an output. -/
theorem reads_of_decodeString {plat : Platform} {ctx ctx' : Context} {s : Bytes}
    (hplain : ∀ c ∈ s, PlainChar plat c) (hnul : (0 : UInt8) ∉ s)
    (hdec : decodeString plat ctx s .id = .ok ctx') :
    ∃ h, Reads s h ∧ h.salt ≠ [] ∧ h.output ≠ [] ∧ ctx' = ctx.decoded h ∧
      ctx'.saltlen.toNat = h.salt.length ∧ ctx'.outlen.toNat = h.output.length := by
  rcases decodeString_sound hplain hnul hdec with ⟨h, hr, hsalt, hout, hvalid, rfl⟩
  have hsaltlen : (ctx.decoded h).saltlen.toNat = h.salt.length :=
    toNat_ofNat_of_lt (Nat.lt_of_le_of_lt hsalt ctx.saltlen.toNat_lt)
  have houtlen : (ctx.decoded h).outlen.toNat = h.output.length :=
    toNat_ofNat_of_lt (Nat.lt_of_le_of_lt hout ctx.outlen.toNat_lt)
  have hlengths := lengths_of_validateInputs hvalid
  refine ⟨h, hr, ?_, ?_, rfl, hsaltlen, houtlen⟩
  · intro hnil
    simp [hsaltlen, hnil] at hlengths
  · intro hnil
    simp [houtlen, hnil] at hlengths

/-- Where the pattern matches and the decoder accepts, `Password.new` reads what the decoder stores,
and writing it back gives the string. -/
theorem decoders_agree {plat : Platform} {ctx ctx' : Context} {s : Bytes}
    (hmatch : validHash s = true) (hdec : decodeString plat ctx s .id = .ok ctx') :
    ∃ self, Password.new s = .ok self ∧
      self.version = ctx'.version.toNat ∧ self.mCost = ctx'.mCost.toNat ∧
      self.tCost = ctx'.tCost.toNat ∧ self.parallelism = ctx'.lanes.toNat ∧
      some self.salt = ctx'.salt ∧ self.salt.length = ctx'.saltlen.toNat ∧
      some self.output = ctx'.out ∧ self.output.length = ctx'.outlen.toNat ∧
      Hash.write
        { version := if (ascii "$argon2id$v=").isPrefixOf s then some ctx'.version.toNat else none
          mCost := ctx'.mCost.toNat
          tCost := ctx'.tCost.toNat
          lanes := ctx'.lanes.toNat
          salt := self.salt
          output := self.output } = s := by
  -- the pattern only matches ASCII, where `char` represents every byte as itself
  have hascii := isAscii_of_validHash hmatch
  rcases reads_of_decodeString (plainChar_of_isAscii plat hascii) (not_mem_of_isAscii hascii) hdec
    with ⟨h, hr, hs, ho, rfl, hsaltlen, houtlen⟩
  rcases reads_iff.1 hr with ⟨hfits, rfl⟩
  have hversion : (ctx.decoded h).version.toNat = h.effectiveVersion :=
    toNat_ofNat_of_lt hfits.effectiveVersion_lt
  have hmCost : (ctx.decoded h).mCost.toNat = h.mCost := toNat_ofNat_of_lt hfits.mCost
  have htCost : (ctx.decoded h).tCost.toNat = h.tCost := toNat_ofNat_of_lt hfits.tCost
  have hlanes : (ctx.decoded h).lanes.toNat = h.lanes := toNat_ofNat_of_lt hfits.lanes
  refine ⟨h.password h.write, Password.new_of_reads hr hs ho, hversion.symm, hmCost.symm, htCost.symm,
    hlanes.symm, rfl, hsaltlen.symm, rfl, houtlen.symm, ?_⟩
  rw [hversion, hmCost, htCost, hlanes]
  congr 1
  -- what is written back has a version part exactly when the text had one
  rcases h with ⟨v, m, t, l, salt, out⟩
  cases v with
  | none =>
      have hprefix := mt (isPrefixOf_write_iff ⟨none, m, t, l, salt, out⟩).1 (by simp)
      rw [if_neg hprefix]
      rfl
  | some v =>
      have hprefix := (isPrefixOf_write_iff ⟨some v, m, t, l, salt, out⟩).2 rfl
      rw [if_pos hprefix]
      rfl

theorem decoders_agree_sample :
    ∃ self, Password.new (sampleHash 8).write = .ok self ∧ self.version = 16 ∧ self.mCost = 8 := by
  have hr := reads_sampleHash 8 (by decide)
  have hacc : (sampleHash 8).Acceptable (Host.zero .x8664Linux).platform :=
    Hash.acceptable_iff.2 ⟨valid_sampleHash 8 (by decide), by decide⟩
  have hdec := (decodeString_verifyContext_iff (Host.zero .x8664Linux) [] hr.isAscii
    (by decide +kernel)).2 ⟨sampleHash 8, hr, hacc, rfl⟩
  rcases decoders_agree (validHash_of_new (new_sampleHash 8 (by decide))) hdec with
    ⟨self, hnew, hversion, hmCost, _⟩
  exact ⟨self, hnew, hversion, hmCost⟩

/-! ## Validation and verification -/

/-- A string that `Password.new` accepts can be verified exactly when it is in the grammar and its
parameters are valid, whatever the password. -/
theorem verifiable_iff (host : Host) {s : Bytes} {self : Password} (hlen : s.length ≤ uint32Max)
    (hmatch : validHash s = true) (hnew : Password.new s = .ok self) (pwd : Bytes) :
    ((∃ ctx, decodeString host.platform (verifyContext host (UInt32.ofNat s.length) pwd) s .id =
          .ok ctx) ∧
        (pwd.length ≤ uint32Max → ∃ b, Password.eq host self pwd = .ok b)) ↔
      ∃ h, Reads s h ∧ h.Valid ∧ h.mCost ≤ maxMemory host.platform := by
  have hs := isAscii_of_validHash hmatch
  constructor
  · rintro ⟨⟨ctx, hdec⟩, _⟩
    rcases (decodeString_verifyContext_iff host pwd hs hlen).1 hdec with ⟨h, hr, hacc, _⟩
    exact ⟨h, hr, Hash.acceptable_iff.1 hacc⟩
  · rintro ⟨h, hr, hacc⟩
    have hacc := Hash.acceptable_iff.2 hacc
    refine ⟨⟨_, (decodeString_verifyContext_iff host pwd hs hlen).2 ⟨h, hr, hacc, rfl⟩⟩, fun hpwd => ?_⟩
    refine ⟨decide (h.tag host pwd = h.output), ?_⟩
    rw [Password.eq, Password.encoded_of_new hnew]
    exact (rbArgon2idVerify_eq_ok_iff hs).2 ⟨hlen, hpwd, h, hr, hacc, rfl⟩

theorem verifiable_iff_sample : ∃ b, Password.eq (Host.zero .x8664Linux)
    ((sampleHash 8).password (sampleHash 8).write) (ascii "password") = .ok b := by
  have hnew := new_sampleHash 8 (by decide)
  exact ((verifiable_iff (Host.zero .x8664Linux) (by decide +kernel) (validHash_of_new hnew) hnew
    (ascii "password")).2 ⟨sampleHash 8, reads_sampleHash 8 (by decide),
      valid_sampleHash 8 (by decide), by decide⟩).2 (by decide)

/-- A string with a one-character salt and output passes the validation, but cannot be verified. -/
theorem not_verifiable :
    validHash (ascii "$argon2id$v=19$m=8,t=1,p=1$A$A") = true ∧
      Password.new (ascii "$argon2id$v=19$m=8,t=1,p=1$A$A") =
        .ok
          { encoded := ascii "$argon2id$v=19$m=8,t=1,p=1$A$A", version := 19, mCost := 8, tCost := 1,
            parallelism := 1, salt := [], output := [] } ∧
      decodeString .x8664Linux (verifyContext (Host.zero .x8664Linux) 30 [])
        (ascii "$argon2id$v=19$m=8,t=1,p=1$A$A") .id = .error .decodingFail ∧
      rbArgon2idVerify (Host.zero .x8664Linux) (ascii "$argon2id$v=19$m=8,t=1,p=1$A$A") [] =
        .error (.argumentError "Decoding failed") := by
  decide +kernel

/-! ## The decoder and the pattern -/

/-- What the decoder accepts is matched by the pattern, and not rejected by `Password.new`, exactly
when `char` is unsigned or the string is ASCII: where `char` is signed, every other byte is read as
the Base64 character of value 63. -/
theorem validHash_of_decodeString_iff {plat : Platform} {ctx ctx' : Context} {s : Bytes}
    (hnul : (0 : UInt8) ∉ s) (hdec : decodeString plat ctx s .id = .ok ctx') :
    (validHash s = true ∧ ∃ self, Password.new s = .ok self) ↔
      plat.charSigned = false ∨ ∀ c ∈ s, c.toNat < 128 := by
  constructor
  · rintro ⟨hmatch, _⟩
    exact Or.inr fun c hc => (isAscii_of_validHash hmatch c hc).2
  · intro h
    -- either way `char` represents the bytes as themselves
    have hplain : ∀ c ∈ s, PlainChar plat c := by
      intro c hc
      rcases h with h | h
      · exact Or.inl h
      · exact Or.inr (h c hc)
    rcases reads_of_decodeString hplain hnul hdec with ⟨h, hr, hs, ho, _⟩
    have hnew := Password.new_of_reads hr hs ho
    exact ⟨validHash_of_new hnew, _, hnew⟩

/-- A salt of twelve bytes `0xFF`. -/
def highSaltHash : Bytes :=
  ascii "$argon2id$m=8,t=1,p=1$" ++ List.replicate 12 0xFF ++ ascii "$AAAAAAAA"

/-- It is decoded as if it consisted of slashes. -/
def highSaltContext : Context :=
  (verifyContext (Host.zero .x8664Linux) 43 []).decoded
    { version := none, mCost := 8, tCost := 1, lanes := 1, salt := List.replicate 9 0xFF,
      output := List.replicate 6 0 }

theorem decodeString_highSaltHash :
    decodeString .x8664Linux (verifyContext (Host.zero .x8664Linux) 43 []) highSaltHash .id =
      .ok highSaltContext := by
  decide +kernel

/-- Where `char` is unsigned, the decoder refuses these bytes. -/
example : decodeString .aarch64Linux (verifyContext (Host.zero .aarch64Linux) 43 [])
    (ascii "$argon2id$m=8,t=1,p=1$" ++ List.replicate 12 0xFF ++ ascii "$AAAAAAAA") .id =
      .error .decodingFail := by
  decide +kernel

theorem not_validHash_of_decodeString :
    (0 : UInt8) ∉ highSaltHash ∧
      decodeString .x8664Linux (verifyContext (Host.zero .x8664Linux) 43 []) highSaltHash .id =
        .ok highSaltContext ∧
      validHash highSaltHash = false ∧
      Password.new highSaltHash = .error (.argumentError "invalid hash") := by
  decide +kernel

theorem validHash_of_decodeString_high_salt :
    ¬ (validHash highSaltHash = true ∧ ∃ self, Password.new highSaltHash = .ok self) :=
  mt (validHash_of_decodeString_iff (by decide +kernel) decodeString_highSaltHash).1
    (by decide +kernel)

/-! ## The pattern and `Password.new` -/

/-- The numbers of a password object are the base-ten values of the parts of its text. -/
structure Password.InDecimal (password : Password) (p : Parts) : Prop where
  version : password.version = (p.version.map (Numeral.value 10)).getD 0x10
  mCost : password.mCost = Numeral.value 10 p.mCost
  tCost : password.tCost = Numeral.value 10 p.tCost
  parallelism : password.parallelism = Numeral.value 10 p.parallelism

/-- `Password.new` succeeds with decimal numbers exactly when `Integer()` reads every digit string as
its decimal value. -/
theorem exists_inDecimal_iff {p : Parts} (hp : p.WellFormed) :
    (∃ self, Password.new p.text = .ok self ∧ self.InDecimal p) ↔
      ∀ ds ∈ p.digitStrings, kernelInteger ds = .ok (Numeral.value 10 ds) := by
  constructor
  · rintro ⟨self, hnew, hdec⟩ ds hds
    rcases (Password.new_eq_ok_iff hp).1 hnew with ⟨hv, hm, ht, hl, _⟩
    rw [hdec.mCost] at hm
    rw [hdec.tCost] at ht
    rw [hdec.parallelism] at hl
    simp only [Parts.digitStrings, List.mem_append, Option.mem_toList, List.mem_cons,
      List.not_mem_nil, or_false] at hds
    rcases hds with hds | rfl | rfl | rfl
    · have hversion := hdec.version
      rw [hds] at hv hversion
      rw [hversion] at hv
      exact hv
    · exact hm
    · exact ht
    · exact hl
  · intro hall
    refine ⟨{ encoded := p.text
              version := (p.version.map (Numeral.value 10)).getD 0x10
              mCost := Numeral.value 10 p.mCost
              tCost := Numeral.value 10 p.tCost
              parallelism := Numeral.value 10 p.parallelism
              salt := unpack1m p.salt
              output := unpack1m p.output }, (Password.new_eq_ok_iff hp).2 ?_, ⟨rfl, rfl, rfl, rfl⟩⟩
    refine ⟨?_, hall _ (by simp [Parts.digitStrings]), hall _ (by simp [Parts.digitStrings]),
      hall _ (by simp [Parts.digitStrings]), rfl, rfl, rfl⟩
    cases hv : p.version with
    | none => rfl
    | some ds => exact hall ds (by simp [Parts.digitStrings, hv])

/-- The pattern predicts `Password.new` and the numbers are read in decimal, exactly when no number
of the string has a leading zero that matters. -/
theorem validHash_predicts_new_iff (s : Bytes) :
    ((validHash s = true ↔ ∃ self, Password.new s = .ok self) ∧
        ∀ self p, Password.new s = .ok self → p.WellFormed → p.text = s → self.InDecimal p) ↔
      ∀ p : Parts, p.WellFormed → p.text = s →
        ∀ ds ∈ p.digitStrings, ds.head? ≠ some 48 ∨ Numeral.value 10 ds < 8 := by
  constructor
  · rintro ⟨hpredicts, hdecimal⟩ p hp rfl ds hds
    -- the text is parsed, and its numbers are decimal, so `Integer()` read each of them in decimal
    rcases hpredicts.1 (validHash_iff.2 ⟨p, hp, rfl⟩) with ⟨self, hnew⟩
    have hall := (exists_inDecimal_iff hp).1 ⟨self, hnew, hdecimal self p hnew hp rfl⟩
    exact (kernelInteger_eq_ok_value_iff (hp.isDigits ds hds)).1 (hall ds hds)
  · intro h
    have hnew : ∀ p : Parts, p.WellFormed → p.text = s →
        ∃ self, Password.new s = .ok self ∧ self.InDecimal p := by
      rintro p hp rfl
      refine (exists_inDecimal_iff hp).2 fun ds hds => ?_
      exact (kernelInteger_eq_ok_value_iff (hp.isDigits ds hds)).2 (h p hp rfl ds hds)
    refine ⟨⟨fun hmatch => ?_, fun ⟨self, hself⟩ => validHash_of_new hself⟩, ?_⟩
    · rcases validHash_iff.1 hmatch with ⟨p, hp, htext⟩
      rcases hnew p hp htext with ⟨self, hself, _⟩
      exact ⟨self, hself⟩
    · intro self p hself hp htext
      -- the object is the one whose numbers are known to be decimal
      rcases hnew p hp htext with ⟨self', hself', hdecimal⟩
      rw [hself] at hself'
      exact Except.ok.inj hself' ▸ hdecimal

/-- A zero in front of an eight is matched by the pattern and rejected by `Password.new`; in front of
a ten it makes the number octal. -/
theorem leading_zero_rejected_or_octal :
    (validHash (ascii "$argon2id$m=08,t=1,p=1$AAAAAAAAAAA$AAAAAA") = true ∧
      Password.new (ascii "$argon2id$m=08,t=1,p=1$AAAAAAAAAAA$AAAAAA") =
        .error (.argumentError "invalid value for Integer(): \"08\"")) ∧
    ((Password.new (ascii "$argon2id$m=010,t=1,p=1$AAAAAAAAAAA$AAAAAA")).map Password.mCost =
      .ok 8) := by
  decide +kernel

end Argon2id
