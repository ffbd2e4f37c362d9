import Argon2id.Format
import Argon2id.Lib.Fallible
import Argon2id.Password

/-!
# Parsing — what the pattern and `Password.new` accept

- `Kernel#Integer` reads a run of digits in decimal unless it has a leading zero that matters
  (`kernelInteger_eq_ok_value_iff`)
- `String#unpack1("m")` undoes the canonical encoding (`unpack1m_of_denotes`)
- the pattern matches exactly the texts with well-formed parts, and captures these parts
  (`matches_pattern_iff`, `fullMatch?_pattern`)
- `Password.new` of a text in the grammar holds what the text means (`Password.new_of_reads`)
-/

namespace Argon2id

open Fallible

/-! ## `Kernel#Integer` -/

/-- A run of digits is read as its decimal value exactly when it has no leading zero or is so small
that octal makes no difference. -/
theorem kernelInteger_eq_ok_value_iff {ds : Bytes} (h : IsDigits ds) :
    kernelInteger ds = .ok (Numeral.value 10 ds) ↔
      ds.head? ≠ some 48 ∨ Numeral.value 10 ds < 8 := by
  have hall : ds.all Numeral.isDigit = true := by simpa using h.2
  match ds, h with
  | [], h => exact absurd rfl h.1
  | [c], h =>
      have hc : Numeral.isDigit c = true := h.2 c (by simp)
      rw [kernelInteger, if_pos hc, Numeral.value_singleton]
      refine ⟨fun _ => ?_, fun _ => rfl⟩
      by_cases hzero : c = 48
      · exact Or.inr (by rw [hzero]; decide)
      · exact Or.inl (by simpa using hzero)
  | c :: d :: ds, h =>
      by_cases hzero : c = 48
      · have hhead : ¬ (c :: d :: ds).head? ≠ some 48 := by simp [hzero]
        have hnot : ¬ c ≠ 48 := by simp [hzero]
        simp only [kernelInteger, hall, hhead, hnot, Bool.true_eq_false, if_false, false_or]
        -- a leading zero in front of other digits selects octal
        by_cases hoctal : (c :: d :: ds).all (fun d => Numeral.digit d < 8) = true
        · have hlt : ∀ x ∈ c :: d :: ds, Numeral.digit x < 8 := by simpa using hoctal
          rw [if_pos hoctal, Except.ok.injEq, Numeral.value_eq_value_iff (by decide) hlt]
          simp
        · -- an `8` or a `9` makes the literal invalid, and the value too large
          have hbig : ∃ x ∈ c :: d :: ds, 8 ≤ Numeral.digit x := by
            by_contra hnone
            refine hoctal (List.all_eq_true.2 fun x hx => ?_)
            by_contra hx8
            exact hnone ⟨x, hx, by simpa using hx8⟩
          rcases hbig with ⟨x, hx, hx8⟩
          have hvalue := Numeral.digit_le_value (by decide : 1 ≤ 10) hx
          rw [if_neg hoctal]
          constructor
          · intro h
            cases h
          · omega
      · simp [kernelInteger, hall, hzero]

theorem kernelInteger_of_canonical {ds : Bytes} (h : Numeral.Canonical ds) :
    kernelInteger ds = .ok (Numeral.value 10 ds) := by
  refine (kernelInteger_eq_ok_value_iff ⟨h.ne_nil, h.digits⟩).2 ?_
  by_cases hzero : ds.head? = some 48
  · exact Or.inr (by rw [h.leading_zero hzero]; decide)
  · exact Or.inl hzero

theorem kernelInteger_of_number {ds : Bytes} {n : Nat} (h : Number ds n) :
    kernelInteger ds = .ok n := by
  rw [kernelInteger_of_canonical h.1, h.2.1]

/-! ## `String#unpack1("m")` -/

theorem value?_char {v : Nat} (hv : v < 64) : Base64.value? (Base64.char v) = some v :=
  Base64.value?_eq_some_iff.2 ⟨hv, rfl⟩

/-- Joining the high bits of a byte with its low bits. -/
theorem ofNat_shiftLeft_or {k hi lo : Nat} {b : UInt8} (hlo : lo < 2 ^ k)
    (h : (hi * 2 ^ k + lo) % 256 = b.toNat) : UInt8.ofNat (hi <<< k ||| lo) = b := by
  apply UInt8.toNat_inj.1
  rw [UInt8.toNat_ofNat', ← Nat.shiftLeft_add_eq_or_of_lt hlo, Nat.shiftLeft_eq]
  exact h

theorem unpack1m_encode (bytes : Bytes) : unpack1m (Base64.encode bytes) = bytes := by
  induction bytes using Base64.encode.induct with
  | case1 a b c rest ih =>
      have ha := a.toNat_lt
      have hb := b.toNat_lt
      have hc := c.toNat_lt
      rw [unpack1m] at ih
      rw [Base64.encode, unpack1m, List.filterMap_cons_some (value?_char (by omega)),
        List.filterMap_cons_some (value?_char (by omega)),
        List.filterMap_cons_some (value?_char (by omega)),
        List.filterMap_cons_some (value?_char (by omega)), unpackGroups, ih,
        Nat.shiftRight_eq_div_pow, Nat.shiftRight_eq_div_pow,
        ofNat_shiftLeft_or (b := a) (by omega) (by omega),
        ofNat_shiftLeft_or (b := b) (by omega) (by omega),
        ofNat_shiftLeft_or (b := c) (by omega) (by omega)]
  | case2 a b =>
      have ha := a.toNat_lt
      have hb := b.toNat_lt
      rw [Base64.encode, unpack1m, List.filterMap_cons_some (value?_char (by omega)),
        List.filterMap_cons_some (value?_char (by omega)),
        List.filterMap_cons_some (value?_char (by omega)), List.filterMap_nil, unpackGroups,
        Nat.shiftRight_eq_div_pow, Nat.shiftRight_eq_div_pow,
        ofNat_shiftLeft_or (b := a) (by omega) (by omega),
        ofNat_shiftLeft_or (b := b) (by omega) (by omega)]
  | case3 a =>
      have ha := a.toNat_lt
      rw [Base64.encode, unpack1m, List.filterMap_cons_some (value?_char (by omega)),
        List.filterMap_cons_some (value?_char (by omega)), List.filterMap_nil, unpackGroups,
        Nat.shiftRight_eq_div_pow, ofNat_shiftLeft_or (b := a) (by omega) (by omega)]
  | case4 => rfl

/-- `String#unpack1("m")` reads a canonical text. -/
theorem unpack1m_of_denotes {cs bytes : Bytes} (h : Base64.Denotes cs bytes) :
    unpack1m cs = bytes := by
  rw [Base64.denotes_iff.1 h, unpack1m_encode]

/-! ## The pattern -/

theorem base64Class_of_mem : ∀ n < 256, base64Class (UInt8.ofNat n) = true →
    UInt8.ofNat n ∈ Base64.alphabet := by
  decide +kernel

theorem base64Class_of_alphabet : ∀ c ∈ Base64.alphabet, base64Class c = true := by
  decide +kernel

/-- The character class of the pattern is the Base64 alphabet. -/
theorem base64Class_eq (c : UInt8) : base64Class c = Base64.isChar c := by
  have hof : UInt8.ofNat c.toNat = c := UInt8.ofNat_toNat
  rw [Bool.eq_iff_iff, Base64.isChar_iff_mem]
  constructor
  · intro h
    have hmem := base64Class_of_mem c.toNat c.toNat_lt
    rw [hof] at hmem
    exact hmem h
  · exact base64Class_of_alphabet c

/-- What the groups of the pattern capture of a text. -/
def Parts.captures (p : Parts) : Regexp.Captures UInt8 :=
  [p.version, some p.mCost, some p.tCost, some p.parallelism, some p.salt, some p.output]

theorem matches_digitsGroup_seq_iff {u : Bytes} {r : Regexp UInt8} {cs : Regexp.Captures UInt8} :
    Regexp.Matches (.seq digitsGroup r) u cs ↔
      ∃ w v ds, IsDigits w ∧ u = w ++ v ∧ cs = some w :: ds ∧ Regexp.Matches r v ds :=
  Regexp.matches_group_plus_seq_iff

theorem matches_base64Group_iff {u : Bytes} {cs : Regexp.Captures UInt8} :
    Regexp.Matches base64Group u cs ↔ IsBase64 u ∧ cs = [some u] := by
  rw [base64Group, Regexp.matches_group_plus_iff]
  simp only [base64Class_eq, IsBase64]

theorem matches_base64Group_seq_iff {u : Bytes} {r : Regexp UInt8} {cs : Regexp.Captures UInt8} :
    Regexp.Matches (.seq base64Group r) u cs ↔
      ∃ w v ds, IsBase64 w ∧ u = w ++ v ∧ cs = some w :: ds ∧ Regexp.Matches r v ds := by
  rw [base64Group, Regexp.matches_group_plus_seq_iff]
  simp only [base64Class_eq, IsBase64]

/-- The optional version part of the pattern. -/
theorem matches_version_seq_iff {u : Bytes} {r : Regexp UInt8} {cs : Regexp.Captures UInt8} :
    Regexp.Matches (.seq (.opt (.seq (.text (ascii "$v=")) digitsGroup)) r) u cs ↔
      ∃ vs v ds, (∀ w ∈ vs, IsDigits w) ∧ u = Parts.versionText vs ++ v ∧ cs = vs :: ds ∧
        Regexp.Matches r v ds := by
  rw [Regexp.matches_seq_iff]
  constructor
  · rintro ⟨_, v, _, ds, hopt, hr, rfl, rfl⟩
    rw [Regexp.matches_opt_iff, Regexp.matches_text_seq_iff] at hopt
    rcases hopt with ⟨w, rfl, hgroup⟩ | ⟨rfl, rfl⟩
    · rcases Regexp.matches_group_plus_iff.1 hgroup with ⟨hw, rfl⟩
      refine ⟨some w, v, ds, ?_, rfl, rfl, hr⟩
      intro w' hw'
      exact Option.mem_some_iff.1 hw' ▸ hw
    · exact ⟨none, v, ds, by simp, rfl, rfl, hr⟩
  · rintro ⟨vs, v, ds, hvs, rfl, rfl, hr⟩
    refine ⟨Parts.versionText vs, v, [vs], ds, ?_, hr, rfl, rfl⟩
    rw [Regexp.matches_opt_iff, Regexp.matches_text_seq_iff]
    cases vs with
    | none => exact Or.inr ⟨rfl, rfl⟩
    | some w => exact Or.inl ⟨w, rfl, Regexp.matches_group_plus_iff.2 ⟨hvs w rfl, rfl⟩⟩

/-- The pattern matches the texts with well-formed parts, and captures these parts. -/
theorem matches_pattern_iff {s : Bytes} {cs : Regexp.Captures UInt8} :
    Regexp.Matches pattern s cs ↔ ∃ p : Parts, p.WellFormed ∧ p.text = s ∧ cs = p.captures := by
  simp only [pattern, Regexp.matches_text_seq_iff, matches_version_seq_iff,
    matches_digitsGroup_seq_iff, matches_base64Group_seq_iff, matches_base64Group_iff]
  constructor
  -- the text is taken apart from the left, one group after the other
  · rintro ⟨_, rfl, vs, _, _, hvs, rfl, rfl, _, rfl, m, _, _, hm, rfl, rfl, _, rfl, t, _, _, ht, rfl,
      rfl, _, rfl, l, _, _, hl, rfl, rfl, _, rfl, salt, _, _, hsalt, rfl, rfl, out, rfl, hout, rfl⟩
    exact ⟨⟨vs, m, t, l, salt, out⟩, ⟨hvs, hm, ht, hl, hsalt, hout⟩, rfl, rfl⟩
  · rintro ⟨⟨vs, m, t, l, salt, out⟩, ⟨hvs, hm, ht, hl, hsalt, hout⟩, rfl, rfl⟩
    exact ⟨_, rfl, vs, _, _, hvs, rfl, rfl, _, rfl, m, _, _, hm, rfl, rfl, _, rfl, t, _, _, ht, rfl,
      rfl, _, rfl, l, _, _, hl, rfl, rfl, _, rfl, salt, _, _, hsalt, rfl, rfl, out, rfl, hout, rfl⟩

/-- On a text with well-formed parts the matcher captures these parts. -/
theorem fullMatch?_pattern {p : Parts} (hp : p.WellFormed) :
    pattern.fullMatch? p.text = some p.captures := by
  refine Regexp.fullMatch?_eq_some (matches_pattern_iff.2 ⟨p, hp, rfl, rfl⟩) ?_
  intro cs hcs
  rcases matches_pattern_iff.1 hcs with ⟨q, hq, htext, rfl⟩
  rw [Parts.text_inj hq.runs hp.runs htext]

theorem validHash_iff {s : Bytes} :
    validHash s = true ↔ ∃ p : Parts, p.WellFormed ∧ p.text = s := by
  rw [validHash, Regexp.fullMatch?_isSome_iff]
  constructor
  · rintro ⟨cs, hcs⟩
    rcases matches_pattern_iff.1 hcs with ⟨p, hp, htext, _⟩
    exact ⟨p, hp, htext⟩
  · rintro ⟨p, hp, htext⟩
    exact ⟨p.captures, matches_pattern_iff.2 ⟨p, hp, htext, rfl⟩⟩

theorem isAscii_of_validHash {s : Bytes} (h : validHash s = true) : ∀ c ∈ s, IsAscii c := by
  rcases validHash_iff.1 h with ⟨p, hp, rfl⟩
  exact hp.isAscii

/-! ## `Password.new` -/

/-- `Password.new` of a text with well-formed parts. -/
theorem Password.new_text {p : Parts} (hp : p.WellFormed) :
    Password.new p.text = (do
      let version ← integerOrVersion10 p.version
      let mCost ← kernelInteger p.mCost
      let tCost ← kernelInteger p.tCost
      let parallelism ← kernelInteger p.parallelism
      .ok
        { encoded := p.text
          version := version
          mCost := mCost
          tCost := tCost
          parallelism := parallelism
          salt := unpack1m p.salt
          output := unpack1m p.output }) := by
  rw [Password.new, fullMatch?_pattern hp]
  rfl

theorem Password.new_eq_ok_iff {p : Parts} (hp : p.WellFormed) {self : Password} :
    Password.new p.text = .ok self ↔
      integerOrVersion10 p.version = .ok self.version ∧ kernelInteger p.mCost = .ok self.mCost ∧
        kernelInteger p.tCost = .ok self.tCost ∧
        kernelInteger p.parallelism = .ok self.parallelism ∧ self.encoded = p.text ∧
        self.salt = unpack1m p.salt ∧ self.output = unpack1m p.output := by
  rw [Password.new_text hp]
  simp only [bind_eq_ok_iff, Except.ok.injEq]
  constructor
  · rintro ⟨version, hv, mCost, hm, tCost, ht, parallelism, hl, rfl⟩
    exact ⟨hv, hm, ht, hl, rfl, rfl, rfl⟩
  · rintro ⟨hv, hm, ht, hl, hencoded, hsalt, hout⟩
    refine ⟨_, hv, _, hm, _, ht, _, hl, ?_⟩
    rw [← hencoded, ← hsalt, ← hout]

/-- A string that the pattern does not match is rejected. -/
theorem Password.new_of_not_validHash {s : Bytes} (h : validHash s = false) :
    Password.new s = .error (.argumentError "invalid hash") := by
  have hnone : pattern.fullMatch? s = none := by simpa [validHash] using h
  rw [Password.new, hnone]

theorem validHash_of_new {s : Bytes} {self : Password} (h : Password.new s = .ok self) :
    validHash s = true := by
  by_contra hinvalid
  rw [Password.new_of_not_validHash (by simpa using hinvalid)] at h
  cases h

theorem Password.encoded_of_new {s : Bytes} {self : Password} (h : Password.new s = .ok self) :
    self.encoded = s := by
  rcases validHash_iff.1 (validHash_of_new h) with ⟨p, hp, rfl⟩
  exact ((Password.new_eq_ok_iff hp).1 h).2.2.2.2.1

/-- What a hash says, as a password object. -/
def Hash.password (h : Hash) (encoded : Bytes) : Password where
  encoded := encoded
  version := h.effectiveVersion
  mCost := h.mCost
  tCost := h.tCost
  parallelism := h.lanes
  salt := h.salt
  output := h.output

/-- The parts of a text in the grammar are well formed, unless the salt or the output is empty. -/
theorem Parts.Denotes.wellFormed {p : Parts} {h : Hash} (hd : p.Denotes h) (hs : h.salt ≠ [])
    (ho : h.output ≠ []) : p.WellFormed := by
  rw [hd.eq_parts]
  exact Hash.wellFormed_parts hs ho

/-- `Password.new` reads the grammar. -/
theorem Password.new_of_reads {s : Bytes} {h : Hash} (hr : Reads s h) (hs : h.salt ≠ [])
    (ho : h.output ≠ []) : Password.new s = .ok (h.password s) := by
  rcases hr with ⟨p, rfl, hd⟩
  have hversion : integerOrVersion10 p.version = .ok h.effectiveVersion := by
    have hrel := hd.version
    rw [Hash.effectiveVersion]
    generalize p.version = ds at hrel
    generalize h.version = v at hrel
    cases hrel with
    | none => rfl
    | some hnum => exact kernelInteger_of_number hnum
  rw [Password.new_text (hd.wellFormed hs ho), hversion, kernelInteger_of_number hd.mCost,
    kernelInteger_of_number hd.tCost, kernelInteger_of_number hd.lanes, unpack1m_of_denotes hd.salt,
    unpack1m_of_denotes hd.output]
  rfl

end Argon2id
