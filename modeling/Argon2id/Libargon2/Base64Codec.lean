import Argon2id.Lib.Base64
import Argon2id.Lib.Scan
import Argon2id.Libargon2.Encoding

/-!
# Libargon2.Base64Codec — `from_base64` and `to_base64`

- `from_base64` reads a longest run of the alphabet and accepts it exactly when it is the canonical
  text of some bytes that fit the buffer (`fromBase64_eq_some_iff`)
- `to_base64` writes the canonical text of its bytes and a `NUL` (`toBase64_eq`)

Both loops keep the same invariant: the bits taken from the input so far are the bits given to the
output so far, followed by the `acc_len` low bits of the accumulator.
-/

namespace Argon2id

open BitStream Base64 Scan

/-! ## Single characters -/

/-- `char` represents the byte as itself. -/
def PlainChar (plat : Platform) (c : UInt8) : Prop :=
  plat.charSigned = false ∨ c.toNat < 128

theorem charToInt_of_plain {plat : Platform} {c : UInt8} (h : PlainChar plat c) :
    charToInt plat c = (c.toNat : Int) := by
  rcases h with h | h
  · simp [charToInt, h]
  · simp [charToInt, Nat.not_le.2 h]

/-- On `0..255` the comparison macros do what they are meant to do. -/
theorem b64CharToByte_char :
    ∀ v < 64, b64CharToByte ((char v).toNat : Nat) = UInt32.ofNat v := by
  decide +kernel

theorem char_b64CharToByte :
    ∀ n < 256, b64CharToByte (n : Nat) ≠ 0xFF →
      (b64CharToByte (n : Nat)).toNat < 64 ∧ (char (b64CharToByte (n : Nat)).toNat).toNat = n := by
  decide +kernel

theorem b64ByteToChar_nat : ∀ v < 64, (b64ByteToChar (UInt32.ofNat v)).toUInt8 = char v := by
  decide +kernel

theorem b64CharToByte_of_isChar {plat : Platform} {c : UInt8} (hplain : PlainChar plat c)
    (hc : isChar c = true) : b64CharToByte (charToInt plat c) = UInt32.ofNat (value c) := by
  have h := b64CharToByte_char (value c) (value_lt c)
  rw [charToInt_of_plain hplain, ← h, char_value hc]

theorem b64CharToByte_of_not_isChar {plat : Platform} {c : UInt8} (hplain : PlainChar plat c)
    (hc : isChar c = false) : b64CharToByte (charToInt plat c) = 0xFF := by
  rw [charToInt_of_plain hplain]
  by_contra hne
  rcases char_b64CharToByte c.toNat c.toNat_lt hne with ⟨hlt, hchar⟩
  have htrue : isChar c = true := isChar_iff.2 ⟨_, hlt, UInt8.toNat_inj.1 hchar⟩
  simp [htrue] at hc

theorem ofNat_value_ne (c : UInt8) : UInt32.ofNat (value c) ≠ 0xFF := by
  have hlt := value_lt c
  intro h
  have hnat := congrArg UInt32.toNat h
  rw [UInt32.toNat_ofNat'] at hnat
  have h255 : (0xFF : UInt32).toNat = 255 := rfl
  omega

/-! ## Decoding -/

theorem fromBase64Loop_stop {plat : Platform} {rest : Bytes}
    (hplain : ∀ c ∈ rest, PlainChar plat c) (hrest : StopsAt isChar rest)
    (dstLen acc accLen : Nat) (buf : Bytes) :
    fromBase64Loop plat dstLen rest acc accLen buf = some (acc, accLen, buf, rest) := by
  cases rest with
  | nil => rfl
  | cons c rest =>
      have hc := b64CharToByte_of_not_isChar (hplain c (by simp)) (stopsAt_cons.1 hrest)
      simp [fromBase64Loop, hc]

/-- One character of the alphabet. -/
theorem fromBase64Loop_char {plat : Platform} {c : UInt8} (hplain : PlainChar plat c)
    (hc : isChar c = true) (dstLen acc accLen : Nat) (src buf : Bytes) :
    fromBase64Loop plat dstLen (c :: src) acc accLen buf =
      let acc' := ((acc <<< 6) + value c) % 2 ^ 32
      if 8 ≤ accLen + 6 then
        if dstLen ≤ buf.length then none
        else
          fromBase64Loop plat dstLen src acc' (accLen + 6 - 8)
            (buf ++ [UInt8.ofNat ((acc' >>> (accLen + 6 - 8)) &&& 0xFF)])
      else
        fromBase64Loop plat dstLen src acc' (accLen + 6) buf := by
  have hlt := value_lt c
  have htoNat : (UInt32.ofNat (value c)).toNat = value c := toNat_ofNat_of_lt (by omega)
  rw [fromBase64Loop]
  simp only [b64CharToByte_of_isChar hplain hc, ofNat_value_ne c, if_false, htoNat]

/-- Shifting a character in appends its bits to the accumulator. -/
theorem bits_acc_push {accLen : Nat} (hlen : accLen < 8) (acc : Nat) (c : UInt8) :
    bits (accLen + 6) (((acc <<< 6) + value c) % 2 ^ 32) = bits accLen acc ++ bits 6 (value c) := by
  rw [bits_mod _ (by omega)]
  exact bits_push accLen acc (value_lt c)

/-- Shifting a byte out takes its bits off the accumulator. -/
theorem bits_acc_pop {accLen : Nat} (hlen : 8 ≤ accLen) (acc : Nat) :
    bits accLen acc =
      bits 8 (UInt8.ofNat ((acc >>> (accLen - 8)) &&& 0xFF)).toNat ++ bits (accLen - 8) acc := by
  have hbyte : (UInt8.ofNat ((acc >>> (accLen - 8)) &&& 0xFF)).toNat =
      (acc >>> (accLen - 8)) % 2 ^ 8 := by
    have hand := Nat.and_two_pow_sub_one_eq_mod (acc >>> (accLen - 8)) 8
    rw [UInt8.toNat_ofNat', show (0xFF : Nat) = 2 ^ 8 - 1 from rfl, hand, Nat.mod_mod]
  rw [hbyte, bits_mod _ (Nat.le_refl 8), ← bits_add]
  congr 1
  omega

/-- The loop on a run of the alphabet: it gives out all complete bytes, if they fit. -/
theorem fromBase64Loop_spec {plat : Platform} {rest cs : Bytes}
    (hplain : ∀ c ∈ cs ++ rest, PlainChar plat c) (hcs : ∀ c ∈ cs, isChar c = true)
    (hrest : StopsAt isChar rest) (dstLen acc accLen : Nat) (buf : Bytes) (hlen : accLen < 8)
    (hbuf : buf.length ≤ dstLen) :
    ∃ acc' accLen' new, accLen' < 8 ∧
      bits accLen acc ++ textBits cs = byteBits new ++ bits accLen' acc' ∧
      fromBase64Loop plat dstLen (cs ++ rest) acc accLen buf =
        if (buf ++ new).length ≤ dstLen then some (acc', accLen', buf ++ new, rest) else none := by
  induction cs generalizing dstLen acc accLen buf with
  | nil =>
      refine ⟨acc, accLen, [], hlen, by simp, ?_⟩
      have hstop := fromBase64Loop_stop hplain hrest dstLen acc accLen buf
      simpa [hbuf] using hstop
  | cons c cs ih =>
      have ih := ih (fun x hx => hplain x (List.mem_cons_of_mem c hx))
        (fun x hx => hcs x (List.mem_cons_of_mem c hx))
      have hchar := fromBase64Loop_char (hplain c (by simp)) (hcs c (by simp)) dstLen acc accLen
        (cs ++ rest) buf
      have hpush := bits_acc_push hlen acc c
      rw [List.cons_append, hchar, textBits_cons, ← List.append_assoc, ← hpush]
      generalize ((acc <<< 6) + value c) % 2 ^ 32 = acc
      by_cases hfull : 8 ≤ accLen + 6
      · -- a complete byte is given out; without room for it the loop ends here
        simp only [hfull, if_true]
        have hpop := bits_acc_pop hfull acc
        generalize UInt8.ofNat ((acc >>> (accLen + 6 - 8)) &&& 0xFF) = byte at hpop ⊢
        by_cases hroom : dstLen ≤ buf.length
        · -- the rest of the run still says which bytes would have followed
          rcases ih (buf.length + 1) acc (accLen + 6 - 8) (buf ++ [byte]) (by omega) (by simp) with
            ⟨acc', accLen', new, hlen', hbits, _⟩
          refine ⟨acc', accLen', byte :: new, hlen', ?_, ?_⟩
          · rw [hpop, byteBits_cons, List.append_assoc, hbits, List.append_assoc]
          · have hover : ¬ (buf ++ byte :: new).length ≤ dstLen := by
              simp
              omega
            simp only [hroom, hover, if_true, if_false]
        · rcases ih dstLen acc (accLen + 6 - 8) (buf ++ [byte]) (by omega) (by simp; omega) with
            ⟨acc', accLen', new, hlen', hbits, hloop⟩
          refine ⟨acc', accLen', byte :: new, hlen', ?_, ?_⟩
          · rw [hpop, byteBits_cons, List.append_assoc, hbits, List.append_assoc]
          · simp only [hroom, if_false, hloop, List.append_assoc, List.singleton_append]
      · simp only [hfull, if_false]
        exact ih dstLen acc (accLen + 6) buf (by omega) hbuf

/-- `from_base64` accepts exactly the canonical text of bytes that fit the buffer. -/
theorem fromBase64_eq_some_iff {plat : Platform} {dstLen : Nat} {src rest bytes : Bytes}
    (hplain : ∀ c ∈ src, PlainChar plat c) :
    fromBase64 plat dstLen src = some (bytes, rest) ↔
      ∃ cs, src = cs ++ rest ∧ StopsAt isChar rest ∧ Denotes cs bytes ∧ bytes.length ≤ dstLen := by
  rcases exists_munch isChar src with ⟨run, tail, rfl, hrun, htail⟩
  rcases fromBase64Loop_spec hplain hrun htail dstLen 0 0 [] (by decide) (by simp) with
    ⟨acc, accLen, new, hlen, hbits, hloop⟩
  have hdenotes : ∀ bytes, Denotes run bytes ↔ bytes = new ∧ accLen ≤ 4 ∧ acc % 2 ^ accLen = 0 :=
    fun _ => denotes_iff_of_bits hrun hlen hbits
  -- the mask takes the bits that are left in the accumulator
  have hmask : acc &&& ((1 <<< accLen) - 1) = acc % 2 ^ accLen := by
    rw [Nat.one_shiftLeft, Nat.and_two_pow_sub_one_eq_mod]
  have hvalue : fromBase64 plat dstLen (run ++ tail) = some (bytes, rest) ↔
      new.length ≤ dstLen ∧ accLen ≤ 4 ∧ acc % 2 ^ accLen = 0 ∧ new = bytes ∧ tail = rest := by
    rw [fromBase64, hloop]
    by_cases hroom : new.length ≤ dstLen
    · simp [hroom, hmask, and_assoc]
    · simp [hroom]
  rw [hvalue]
  constructor
  · rintro ⟨hroom, h4, hzero, rfl, rfl⟩
    exact ⟨run, rfl, htail, (hdenotes new).2 ⟨rfl, h4, hzero⟩, hroom⟩
  -- the run is the longest one, so it is the text that is denoted
  · rintro ⟨cs, heq, hrest, hd, hroom⟩
    rcases munch_unique hrun hd.chars htail hrest heq with ⟨rfl, rfl⟩
    rcases (hdenotes bytes).1 hd with ⟨rfl, h4, hzero⟩
    exact ⟨hroom, h4, hzero, rfl, rfl⟩

/-! ## Encoding -/

/-- `*dst++ = c` for each byte of `cs`. -/
def Dst.putAll : Bytes → Dst → Except Stop Dst
  | [], dst => .ok dst
  | c :: cs, dst => do
      let dst ← dst.put c
      putAll cs dst

theorem Dst.putAll_append (cs ds : Bytes) (dst : Dst) :
    putAll (cs ++ ds) dst = (putAll cs dst >>= putAll ds) := by
  induction cs generalizing dst with
  | nil => rfl
  | cons c cs ih =>
      cases h : dst.put c with
      | error stop => simp [putAll, h, bind, Except.bind]
      | ok dst' => simpa [putAll, h, bind, Except.bind] using ih dst'

/-- The inner loop gives out the complete six-bit digits. -/
theorem emitChars_spec (acc accLen : Nat) :
    ∃ accLen' cs, accLen' < 6 ∧ (∀ c ∈ cs, isChar c = true) ∧
      bits accLen acc = textBits cs ++ bits accLen' acc ∧
      ∀ dst : Dst, emitChars acc accLen dst = (dst.putAll cs).map fun dst => (accLen', dst) := by
  induction accLen using Nat.strongRecOn with
  | ind accLen ih =>
      by_cases hlt : accLen < 6
      · refine ⟨accLen, [], hlt, by simp, rfl, ?_⟩
        intro dst
        rw [emitChars]
        · rfl
        · intro n hn
          omega
      -- one digit is given out, and the induction goes on with six bits less
      · obtain ⟨k, rfl⟩ : ∃ k, accLen = k + 6 := ⟨accLen - 6, by omega⟩
        rcases ih k (by omega) with ⟨accLen', cs, hlt', hcs, hbits, hemit⟩
        have hdigit : (acc >>> k) &&& 0x3F = (acc >>> k) % 2 ^ 6 :=
          Nat.and_two_pow_sub_one_eq_mod (acc >>> k) 6
        have hdlt : (acc >>> k) % 2 ^ 6 < 64 := Nat.mod_lt _ (by decide)
        refine ⟨accLen', char ((acc >>> k) % 2 ^ 6) :: cs, hlt', ?_, ?_, ?_⟩
        · intro c hc
          rcases List.mem_cons.1 hc with rfl | hc
          · exact isChar_char hdlt
          · exact hcs c hc
        · rw [textBits_cons, value_char hdlt, bits_mod _ (Nat.le_refl 6), List.append_assoc, ← hbits,
            ← bits_add, Nat.add_comm]
        · intro dst
          rw [emitChars, hdigit, b64ByteToChar_nat _ hdlt]
          generalize char ((acc >>> k) % 2 ^ 6) = c
          cases hput : dst.put c with
          | error stop => simp [Dst.putAll, hput, bind, Except.bind, Except.map]
          | ok dst' => simpa [Dst.putAll, hput, bind, Except.bind] using hemit dst'

/-- The outer loop on all bytes. -/
theorem toBase64Loop_spec (src : Bytes) (acc accLen : Nat) (hlen : accLen < 6) :
    ∃ acc' accLen' cs, accLen' < 6 ∧ (∀ c ∈ cs, isChar c = true) ∧
      bits accLen acc ++ byteBits src = textBits cs ++ bits accLen' acc' ∧
      ∀ dst : Dst, toBase64Loop src acc accLen dst =
        (dst.putAll cs).map fun dst => (acc', accLen', dst) := by
  induction src generalizing acc accLen with
  | nil => exact ⟨acc, accLen, [], hlen, by simp, by simp, fun _ => rfl⟩
  | cons b src ih =>
      have hpush : bits (accLen + 8) (((acc <<< 8) + b.toNat) % 2 ^ 32) =
          bits accLen acc ++ bits 8 b.toNat := by
        rw [bits_mod _ (by omega)]
        exact bits_push accLen acc b.toNat_lt
      rcases emitChars_spec (((acc <<< 8) + b.toNat) % 2 ^ 32) (accLen + 8) with
        ⟨mid, cs, hmid, hcs, hbits, hemit⟩
      rcases ih (((acc <<< 8) + b.toNat) % 2 ^ 32) mid hmid with
        ⟨acc', accLen', ds, hlen', hds, hbits', hloop⟩
      refine ⟨acc', accLen', cs ++ ds, hlen', ?_, ?_, ?_⟩
      · intro c hc
        rcases List.mem_append.1 hc with hc | hc
        · exact hcs c hc
        · exact hds c hc
      · rw [byteBits_cons, ← List.append_assoc, ← hpush, hbits, List.append_assoc, hbits',
          textBits_append, List.append_assoc]
      · intro dst
        simp only [toBase64Loop, hemit, Dst.putAll_append]
        cases dst.putAll cs with
        | error stop => rfl
        | ok dst' => simpa [bind, Except.bind, Except.map] using hloop dst'

theorem base64Length_eq (plat : Platform) (bytes : Bytes) :
    base64Length plat bytes.length = (encode bytes).length % 2 ^ plat.size.bits := by
  have hshift : (bytes.length / 3) <<< 2 = bytes.length / 3 * 4 := Nat.shiftLeft_eq _ 2
  have hmod : bytes.length % 3 = 0 ∨ bytes.length % 3 = 1 ∨ bytes.length % 3 = 2 := by omega
  rw [length_encode, base64Length, hshift]
  rcases hmod with h | h | h
  · simp [h]
  · simp [h, Nat.add_mod]
  · simp [h, Nat.add_mod, Nat.add_assoc]

/-- The last character takes the bits that are left and as many zero bits as it needs. -/
theorem bits_last_digit {accLen : Nat} (hlen : accLen < 6) (acc : Nat) :
    bits 6 ((acc <<< (6 - accLen)) % 2 ^ 32 &&& 0x3F) =
      bits accLen acc ++ List.replicate (6 - accLen) false := by
  have hand : (acc <<< (6 - accLen)) % 2 ^ 32 &&& 0x3F = (acc <<< (6 - accLen)) % 2 ^ 32 % 2 ^ 6 :=
    Nat.and_two_pow_sub_one_eq_mod _ 6
  have hwidth : accLen + (6 - accLen) = 6 := by omega
  calc
    bits 6 ((acc <<< (6 - accLen)) % 2 ^ 32 &&& 0x3F)
        = bits 6 ((acc <<< (6 - accLen)) % 2 ^ 32 % 2 ^ 6) := by rw [hand]
    _ = bits 6 (acc <<< (6 - accLen)) := by
          rw [bits_mod _ (Nat.le_refl 6), bits_mod _ (by decide)]
    _ = bits (accLen + (6 - accLen)) (acc <<< (6 - accLen)) := by rw [hwidth]
    _ = bits accLen acc ++ List.replicate (6 - accLen) false := bits_shiftLeft _ _ _

/-- The characters of the loop, with one more for the bits that are left, are the canonical text. -/
theorem encode_eq_of_bits {src cs : Bytes} {acc accLen : Nat} (hlen : accLen < 6)
    (hcs : ∀ c ∈ cs, isChar c = true) (hbits : byteBits src = textBits cs ++ bits accLen acc) :
    encode src = if 0 < accLen then
      cs ++ [char ((acc <<< (6 - accLen)) % 2 ^ 32 &&& 0x3F)] else cs := by
  have hcount : 8 * src.length = 6 * cs.length + accLen := by
    calc
      8 * src.length = (byteBits src).length := (length_byteBits src).symm
      _ = (textBits cs ++ bits accLen acc).length := by rw [hbits]
      _ = 6 * cs.length + accLen := by rw [List.length_append, length_textBits, length_bits]
  symm
  apply denotes_iff.1
  by_cases hrest : 0 < accLen
  · have hdlt : (acc <<< (6 - accLen)) % 2 ^ 32 &&& 0x3F < 64 :=
      Nat.lt_of_le_of_lt Nat.and_le_right (by decide)
    rw [if_pos hrest]
    refine ⟨?_, ?_, 6 - accLen, by omega, ?_⟩
    · intro c hc
      rcases List.mem_append.1 hc with hc | hc
      · exact hcs c hc
      · rw [List.mem_singleton.1 hc]
        exact isChar_char hdlt
    · simp only [List.length_append, List.length_singleton]
      omega
    · calc
        textBits (cs ++ [char ((acc <<< (6 - accLen)) % 2 ^ 32 &&& 0x3F)])
            = textBits cs ++ bits 6 ((acc <<< (6 - accLen)) % 2 ^ 32 &&& 0x3F) := by
              rw [textBits_append, textBits_cons, textBits_nil, value_char hdlt, List.append_nil]
        _ = textBits cs ++ (bits accLen acc ++ List.replicate (6 - accLen) false) := by
              rw [bits_last_digit hlen]
        _ = byteBits src ++ List.replicate (6 - accLen) false := by
              rw [hbits, List.append_assoc]
  · have hzero : accLen = 0 := by omega
    rw [if_neg hrest]
    refine ⟨hcs, by omega, 0, by decide, ?_⟩
    simpa [hzero, bits] using hbits.symm

/-- `to_base64` writes the canonical text of its bytes and a `NUL`. -/
theorem toBase64_eq (plat : Platform) (dst : Dst) (dstLen : Nat) (src : Bytes) :
    toBase64 plat dst dstLen src =
      if dstLen ≤ base64Length plat src.length then .ok none
      else (dst.putAll (encode src ++ [0])).map fun dst =>
        some (base64Length plat src.length, dst) := by
  rcases toBase64Loop_spec src 0 0 (by decide) with ⟨acc, accLen, cs, hlen, hcs, hbits, hloop⟩
  have htext := encode_eq_of_bits hlen hcs (by simpa [bits] using hbits)
  have hlast := b64ByteToChar_nat ((acc <<< (6 - accLen)) % 2 ^ 32 &&& 0x3F)
    (Nat.lt_of_le_of_lt Nat.and_le_right (by decide))
  rw [toBase64]
  by_cases hfull : dstLen ≤ base64Length plat src.length
  · simp [hfull]
  · simp only [hfull, if_false, hloop, htext, Dst.putAll_append]
    by_cases hrest : 0 < accLen
    -- bits are left over: one more character, then the `NUL`
    · simp only [hrest, if_true, Dst.putAll_append]
      cases dst.putAll cs with
      | error stop => rfl
      | ok dst =>
          simp only [bind, Except.bind, Except.map, hrest, if_true, hlast, Dst.putAll]
          cases dst.put (char ((acc <<< (6 - accLen)) % 2 ^ 32 &&& 0x3F)) with
          | error stop => rfl
          | ok dst =>
              dsimp only
              cases dst.put 0 with
              | error stop => rfl
              | ok dst => rfl
    -- no bits are left over: only the `NUL`
    · simp only [hrest, if_false]
      cases dst.putAll cs with
      | error stop => rfl
      | ok dst =>
          simp only [bind, Except.bind, Except.map, hrest, if_false, Dst.putAll]
          cases dst.put 0 with
          | error stop => rfl
          | ok dst => rfl

end Argon2id
