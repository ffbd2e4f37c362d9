import Mathlib.Data.List.Nodup
import Argon2id.Lib.BitStream

/-!
# Base64 — unpadded standard Base64 as a relation on bit strings

Texts over the standard alphabet, without `=` padding.  `Denotes cs bytes` says what a text means
without mentioning any algorithm: the six-bit values of its characters, written as one bit string,
are the bits of `bytes` followed by fewer than eight zero bits, and the length is not 1 modulo 4.

The relation is a bijection between canonical texts and byte strings (`Denotes.unique`,
`Denotes.text_unique`), so every encoder that meets it agrees with every other one; `encode` is the
usual three-bytes-to-four-characters encoder.
-/

namespace Base64

open BitStream

/-! ## The alphabet -/

/-- The 64 characters in the order of their values. -/
def alphabet : List UInt8 :=
  "ABCDEFGHIJKLMNOPQRSTUVWXYZabcdefghijklmnopqrstuvwxyz0123456789+/".toList.map
    fun c => UInt8.ofNat c.toNat

/-- The character of a six-bit value. -/
def char (v : Nat) : UInt8 :=
  alphabet.getD v 0

/-- The six-bit value of a character of the alphabet. -/
def value? (c : UInt8) : Option Nat :=
  alphabet.idxOf? c

def isChar (c : UInt8) : Bool :=
  (value? c).isSome

/-- The six-bit value of a character, `0` outside the alphabet. -/
def value (c : UInt8) : Nat :=
  (value? c).getD 0

theorem length_alphabet : alphabet.length = 64 := by
  decide +kernel

theorem nodup_alphabet : alphabet.Nodup := by
  decide +kernel

theorem value?_eq_some_iff {c : UInt8} {v : Nat} : value? c = some v ↔ v < 64 ∧ char v = c := by
  have hnodup := nodup_alphabet
  rw [value?, List.idxOf?_eq_some_iff]
  constructor
  · rintro ⟨hv, hc, _⟩
    refine ⟨by simpa [length_alphabet] using hv, ?_⟩
    simpa [char, List.getD_eq_getElem?_getD, List.getElem?_eq_getElem hv] using hc
  · rintro ⟨hv, hc⟩
    have hlt : v < alphabet.length := by simpa [length_alphabet] using hv
    have hget : alphabet[v] = c := by
      simpa [char, List.getD_eq_getElem?_getD, List.getElem?_eq_getElem hlt] using hc
    refine ⟨hlt, by simp [hget], ?_⟩
    intro j hj
    have hjlt : j < alphabet.length := Nat.lt_trans hj hlt
    have hne : alphabet[j] ≠ alphabet[v] := by
      intro heq
      exact Nat.ne_of_lt hj ((List.Nodup.getElem_inj_iff hnodup).1 heq)
    simpa [hget] using hne

theorem isChar_iff {c : UInt8} : isChar c = true ↔ ∃ v < 64, char v = c := by
  simp [isChar, Option.isSome_iff_exists, value?_eq_some_iff]

theorem isChar_iff_mem {c : UInt8} : isChar c = true ↔ c ∈ alphabet := by
  simp [isChar, value?, List.isSome_idxOf?]

theorem value_char {v : Nat} (hv : v < 64) : value (char v) = v := by
  have h : value? (char v) = some v := value?_eq_some_iff.2 ⟨hv, rfl⟩
  simp [value, h]

theorem isChar_char {v : Nat} (hv : v < 64) : isChar (char v) = true :=
  isChar_iff.2 ⟨v, hv, rfl⟩

theorem char_value {c : UInt8} (hc : isChar c = true) : char (value c) = c := by
  rcases isChar_iff.1 hc with ⟨v, hv, rfl⟩
  rw [value_char hv]

theorem value_lt (c : UInt8) : value c < 2 ^ 6 := by
  cases h : value? c with
  | none => simp [value, h]
  | some v =>
      have hv : v < 64 := (value?_eq_some_iff.1 h).1
      simpa [value, h] using hv

/-! ## What a text denotes -/

/-- The six-bit values of a text, as one bit string. -/
def textBits (cs : List UInt8) : List Bool :=
  stream 6 (cs.map value)

/-- The bits of a byte string. -/
def byteBits (bytes : List UInt8) : List Bool :=
  stream 8 (bytes.map UInt8.toNat)

/-- `cs` is the unpadded Base64 text of `bytes`, with all spare bits zero. -/
structure Denotes (cs bytes : List UInt8) : Prop where
  chars : ∀ c ∈ cs, isChar c = true
  length_ne : cs.length % 4 ≠ 1
  spare : ∃ k < 8, textBits cs = byteBits bytes ++ List.replicate k false

@[simp] theorem textBits_nil : textBits [] = [] := rfl

@[simp] theorem textBits_cons (c : UInt8) (cs : List UInt8) :
    textBits (c :: cs) = bits 6 (value c) ++ textBits cs := rfl

@[simp] theorem textBits_append (cs ds : List UInt8) :
    textBits (cs ++ ds) = textBits cs ++ textBits ds := by
  simp [textBits]

@[simp] theorem byteBits_nil : byteBits [] = [] := rfl

@[simp] theorem byteBits_cons (b : UInt8) (bytes : List UInt8) :
    byteBits (b :: bytes) = bits 8 b.toNat ++ byteBits bytes := rfl

theorem length_textBits (cs : List UInt8) : (textBits cs).length = 6 * cs.length := by
  simp [textBits]

theorem length_byteBits (bytes : List UInt8) : (byteBits bytes).length = 8 * bytes.length := by
  simp [byteBits]

/-- The length of a text from the bits that are left over. -/
theorem length_of_textBits {cs bytes : List UInt8} {rest : List Bool}
    (h : textBits cs = byteBits bytes ++ rest) : 6 * cs.length = 8 * bytes.length + rest.length := by
  rw [← length_textBits, h, List.length_append, length_byteBits]

/-- A byte string is determined by its bits, even when fewer than eight further bits follow. -/
theorem byteBits_append_inj {bs bs' : List UInt8} {r r' : List Bool} (hr : r.length < 8)
    (hr' : r'.length < 8) (h : byteBits bs ++ r = byteBits bs' ++ r') : bs = bs' ∧ r = r' := by
  have hlt : ∀ (l : List UInt8), ∀ x ∈ l.map UInt8.toNat, x < 2 ^ 8 := by
    intro l x hx
    rcases List.mem_map.1 hx with ⟨b, _, rfl⟩
    exact b.toNat_lt
  rcases stream_append_inj (hlt bs) (hlt bs') hr hr' h with ⟨hmap, hrest⟩
  refine ⟨?_, hrest⟩
  exact List.map_injective_iff.2 (fun a b hab => UInt8.toNat_inj.1 hab) hmap

/-- A text over the alphabet is determined by its bits. -/
theorem textBits_inj {cs cs' : List UInt8} (hcs : ∀ c ∈ cs, isChar c = true)
    (hcs' : ∀ c ∈ cs', isChar c = true) (h : textBits cs = textBits cs') : cs = cs' := by
  have hlt : ∀ (l : List UInt8), ∀ x ∈ l.map value, x < 2 ^ 6 := by
    intro l x hx
    rcases List.mem_map.1 hx with ⟨c, _, rfl⟩
    exact value_lt c
  have happend : stream 6 (cs.map value) ++ [] = stream 6 (cs'.map value) ++ [] := by
    rw [List.append_nil, List.append_nil]
    exact h
  have hmap := (stream_append_inj (hlt cs) (hlt cs') (by simp) (by simp) happend).1
  -- characters of the alphabet are determined by their values
  have hback : ∀ (l : List UInt8), (∀ c ∈ l, isChar c = true) →
      (l.map value).map char = l := by
    intro l hl
    have hchars : ∀ c ∈ l, (char ∘ value) c = id c := fun c hc => char_value (hl c hc)
    calc
      (l.map value).map char = l.map (char ∘ value) := List.map_map
      _ = l.map id := List.map_congr_left hchars
      _ = l := List.map_id l
  calc
    cs = (cs.map value).map char := (hback cs hcs).symm
    _ = (cs'.map value).map char := by rw [hmap]
    _ = cs' := hback cs' hcs'

/-- No two lengths other than 1 modulo 4 leave fewer than eight spare bits over `n` bytes. -/
theorem length_unique {x y n k k' : Nat} (hx : 6 * x = 8 * n + k) (hy : 6 * y = 8 * n + k')
    (hk : k < 8) (hk' : k' < 8) (hx4 : x % 4 ≠ 1) (hy4 : y % 4 ≠ 1) : x = y := by
  -- two such lengths differ by one character at most, and one character is six bits
  have hclose : x ≤ y + 1 ∧ y ≤ x + 1 := by omega
  rcases Nat.lt_trichotomy x y with hlt | heq | hgt
  · have hk0 : k = 0 := by omega
    subst hk0
    have hx0 : x % 4 = 0 := by omega
    omega
  · exact heq
  · have hk0 : k' = 0 := by omega
    subst hk0
    have hy0 : y % 4 = 0 := by omega
    omega

/-- What a shift register is left with decides whether a text is canonical: at most four bits, all
of them zero. -/
theorem denotes_iff_of_bits {cs bytes new : List UInt8} {k acc : Nat}
    (hcs : ∀ c ∈ cs, isChar c = true) (hk : k < 8)
    (hbits : textBits cs = byteBits new ++ bits k acc) :
    Denotes cs bytes ↔ bytes = new ∧ k ≤ 4 ∧ acc % 2 ^ k = 0 := by
  have hlen : 6 * cs.length = 8 * new.length + k := by simpa using length_of_textBits hbits
  constructor
  · intro h
    rcases h.spare with ⟨j, hj, hspare⟩
    rcases byteBits_append_inj (by simpa using hj) (by simpa using hk) (hspare.symm.trans hbits)
      with ⟨hbytes, hrest⟩
    have hjk : j = k := by simpa using congrArg List.length hrest
    have hne := h.length_ne
    refine ⟨hbytes, by omega, (bits_eq_replicate_false_iff k acc).1 ?_⟩
    rw [← hrest, hjk]
  · rintro ⟨rfl, hk4, hzero⟩
    refine ⟨hcs, by omega, k, hk, ?_⟩
    rw [hbits, (bits_eq_replicate_false_iff k acc).2 hzero]

namespace Denotes

/-- A text denotes at most one byte string. -/
theorem unique {cs bytes bytes' : List UInt8} (h : Denotes cs bytes) (h' : Denotes cs bytes') :
    bytes = bytes' := by
  rcases h.spare with ⟨k, hk, hbits⟩
  rcases h'.spare with ⟨k', hk', hbits'⟩
  exact (byteBits_append_inj (by simpa using hk) (by simpa using hk') (hbits.symm.trans hbits')).1

/-- A byte string has at most one text. -/
theorem text_unique {cs cs' bytes : List UInt8} (h : Denotes cs bytes) (h' : Denotes cs' bytes) :
    cs = cs' := by
  rcases h.spare with ⟨k, hk, hbits⟩
  rcases h'.spare with ⟨k', hk', hbits'⟩
  have hlen : 6 * cs.length = 8 * bytes.length + k := by simpa using length_of_textBits hbits
  have hlen' : 6 * cs'.length = 8 * bytes.length + k' := by simpa using length_of_textBits hbits'
  have hcount : cs.length = cs'.length :=
    length_unique hlen hlen' hk hk' h.length_ne h'.length_ne
  have hkk : k = k' := by omega
  subst hkk
  exact textBits_inj h.chars h'.chars (hbits.trans hbits'.symm)

end Denotes

/-! ## The group-wise encoder -/

/-- The encoder without padding: three bytes become four characters, a tail of two bytes three and
a tail of one byte two. -/
def encode : List UInt8 → List UInt8
  | a :: b :: c :: rest =>
      char (a.toNat / 4) :: char (a.toNat % 4 * 16 + b.toNat / 16) ::
        char (b.toNat % 16 * 4 + c.toNat / 64) :: char (c.toNat % 64) :: encode rest
  | [a, b] =>
      [char (a.toNat / 4), char (a.toNat % 4 * 16 + b.toNat / 16), char (b.toNat % 16 * 4)]
  | [a] => [char (a.toNat / 4), char (a.toNat % 4 * 16)]
  | [] => []

theorem bits_first_digit (a : Nat) : bits 8 a = bits 6 (a / 4) ++ bits 2 (a % 4) :=
  bits_split 6 2 a

theorem bits_second_digit (a b : Nat) (hb : b < 256) :
    bits 6 (a % 4 * 16 + b / 16) = bits 2 (a % 4) ++ bits 4 (b / 16) :=
  bits_join 2 (w := 4) (a % 4) (by omega)

theorem bits_third_digit (b c : Nat) (hc : c < 256) :
    bits 6 (b % 16 * 4 + c / 64) = bits 4 (b % 16) ++ bits 2 (c / 64) :=
  bits_join 4 (w := 2) (b % 16) (by omega)

/-- Three bytes and their four six-bit digits are the same twenty-four bits. -/
theorem bits_group (a b c : Nat) (hb : b < 256) (hc : c < 256) :
    bits 6 (a / 4) ++ (bits 6 (a % 4 * 16 + b / 16) ++ (bits 6 (b % 16 * 4 + c / 64) ++
      bits 6 (c % 64))) = bits 8 a ++ (bits 8 b ++ bits 8 c) := by
  have hbyte : bits 8 b = bits 4 (b / 16) ++ bits 4 (b % 16) := bits_split 4 4 b
  have hbyte' : bits 8 c = bits 2 (c / 64) ++ bits 6 (c % 64) := bits_split 2 6 c
  calc
    bits 6 (a / 4) ++ (bits 6 (a % 4 * 16 + b / 16) ++ (bits 6 (b % 16 * 4 + c / 64) ++
        bits 6 (c % 64)))
        = bits 6 (a / 4) ++ ((bits 2 (a % 4) ++ bits 4 (b / 16)) ++
            ((bits 4 (b % 16) ++ bits 2 (c / 64)) ++ bits 6 (c % 64))) := by
          rw [bits_second_digit a b hb, bits_third_digit b c hc]
    _ = (bits 6 (a / 4) ++ bits 2 (a % 4)) ++ ((bits 4 (b / 16) ++ bits 4 (b % 16)) ++
          (bits 2 (c / 64) ++ bits 6 (c % 64))) := by
          simp only [List.append_assoc]
    _ = bits 8 a ++ (bits 8 b ++ bits 8 c) := by
          rw [bits_first_digit a, hbyte, hbyte']

/-- A tail of two bytes: three digits, the last with two spare zero bits. -/
theorem bits_tail_two (a b : Nat) (hb : b < 256) :
    bits 6 (a / 4) ++ (bits 6 (a % 4 * 16 + b / 16) ++ bits 6 (b % 16 * 4)) =
      bits 8 a ++ (bits 8 b ++ List.replicate 2 false) := by
  have hlast : bits 6 (b % 16 * 4) = bits 4 (b % 16) ++ List.replicate 2 false := by
    simpa [bits_zero] using bits_third_digit b 0 (by decide)
  have hbyte : bits 8 b = bits 4 (b / 16) ++ bits 4 (b % 16) := bits_split 4 4 b
  calc
    bits 6 (a / 4) ++ (bits 6 (a % 4 * 16 + b / 16) ++ bits 6 (b % 16 * 4))
        = bits 6 (a / 4) ++ ((bits 2 (a % 4) ++ bits 4 (b / 16)) ++
            (bits 4 (b % 16) ++ List.replicate 2 false)) := by
          rw [bits_second_digit a b hb, hlast]
    _ = (bits 6 (a / 4) ++ bits 2 (a % 4)) ++ ((bits 4 (b / 16) ++ bits 4 (b % 16)) ++
          List.replicate 2 false) := by
          simp only [List.append_assoc]
    _ = bits 8 a ++ (bits 8 b ++ List.replicate 2 false) := by
          rw [bits_first_digit a, hbyte]

/-- A tail of one byte: two digits, the last with four spare zero bits. -/
theorem bits_tail_one (a : Nat) :
    bits 6 (a / 4) ++ bits 6 (a % 4 * 16) = bits 8 a ++ List.replicate 4 false := by
  have hlast : bits 6 (a % 4 * 16) = bits 2 (a % 4) ++ List.replicate 4 false := by
    simpa [bits_zero] using bits_second_digit a 0 (by decide)
  calc
    bits 6 (a / 4) ++ bits 6 (a % 4 * 16)
        = bits 6 (a / 4) ++ (bits 2 (a % 4) ++ List.replicate 4 false) := by rw [hlast]
    _ = (bits 6 (a / 4) ++ bits 2 (a % 4)) ++ List.replicate 4 false := by
          rw [List.append_assoc]
    _ = bits 8 a ++ List.replicate 4 false := by rw [bits_first_digit a]

theorem length_encode (bytes : List UInt8) :
    (encode bytes).length = bytes.length / 3 * 4 +
      (if bytes.length % 3 = 0 then 0 else bytes.length % 3 + 1) := by
  induction bytes using encode.induct with
  | case1 a b c rest ih =>
      have hdiv : (rest.length + 3) / 3 = rest.length / 3 + 1 := by omega
      have hmod : (rest.length + 3) % 3 = rest.length % 3 := by omega
      simp [encode, ih, hdiv, hmod]
      omega
  | case2 a b => simp [encode]
  | case3 a => simp [encode]
  | case4 => simp [encode]

theorem isChar_of_mem_encode {bytes : List UInt8} : ∀ c ∈ encode bytes, isChar c = true := by
  induction bytes using encode.induct with
  | case1 a b c rest ih =>
      have ha := a.toNat_lt
      have hb := b.toNat_lt
      have hc := c.toNat_lt
      simp only [encode, List.forall_mem_cons]
      refine ⟨isChar_char ?_, isChar_char ?_, isChar_char ?_, isChar_char ?_, ih⟩ <;> omega
  | case2 a b =>
      have ha := a.toNat_lt
      have hb := b.toNat_lt
      simp only [encode, List.forall_mem_cons]
      refine ⟨isChar_char ?_, isChar_char ?_, isChar_char ?_, List.forall_mem_nil _⟩ <;> omega
  | case3 a =>
      have ha := a.toNat_lt
      simp only [encode, List.forall_mem_cons]
      refine ⟨isChar_char ?_, isChar_char ?_, List.forall_mem_nil _⟩ <;> omega
  | case4 => exact List.forall_mem_nil _

/-- The bits of an encoded text: the bits of the bytes, then two or four zero bits on a tail. -/
theorem textBits_encode (bytes : List UInt8) :
    ∃ k < 8, textBits (encode bytes) = byteBits bytes ++ List.replicate k false := by
  induction bytes using encode.induct with
  | case1 a b c rest ih =>
      have ha := a.toNat_lt
      have hb := b.toNat_lt
      have hc := c.toNat_lt
      rcases ih with ⟨k, hk, hbits⟩
      refine ⟨k, hk, ?_⟩
      have hgroup := bits_group a.toNat b.toNat c.toNat hb hc
      have hvalues : textBits (encode (a :: b :: c :: rest)) =
          (bits 6 (a.toNat / 4) ++ (bits 6 (a.toNat % 4 * 16 + b.toNat / 16) ++
            (bits 6 (b.toNat % 16 * 4 + c.toNat / 64) ++ bits 6 (c.toNat % 64)))) ++
              textBits (encode rest) := by
        simp only [encode, textBits_cons, List.append_assoc]
        rw [value_char (by omega), value_char (by omega), value_char (by omega),
          value_char (by omega)]
      rw [hvalues, hgroup, hbits]
      simp
  | case2 a b =>
      have ha := a.toNat_lt
      have hb := b.toNat_lt
      refine ⟨2, by decide, ?_⟩
      have htail := bits_tail_two a.toNat b.toNat hb
      simp only [encode, textBits_cons, textBits_nil, byteBits_cons, byteBits_nil, List.append_nil,
        List.append_assoc]
      rw [value_char (by omega), value_char (by omega), value_char (by omega)]
      exact htail
  | case3 a =>
      have ha := a.toNat_lt
      refine ⟨4, by decide, ?_⟩
      have htail := bits_tail_one a.toNat
      simp only [encode, textBits_cons, textBits_nil, byteBits_cons, byteBits_nil, List.append_nil]
      rw [value_char (by omega), value_char (by omega)]
      exact htail
  | case4 => exact ⟨0, by decide, rfl⟩

/-- The encoder produces the text of its argument. -/
theorem denotes_encode (bytes : List UInt8) : Denotes (encode bytes) bytes := by
  refine ⟨isChar_of_mem_encode, ?_, textBits_encode bytes⟩
  rw [length_encode]
  split <;> omega

/-- The encoder produces the only text of its argument. -/
theorem denotes_iff {cs bytes : List UInt8} : Denotes cs bytes ↔ cs = encode bytes := by
  constructor
  · intro h
    exact h.text_unique (denotes_encode bytes)
  · rintro rfl
    exact denotes_encode bytes

end Base64
