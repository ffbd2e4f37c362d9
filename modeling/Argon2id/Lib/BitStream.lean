import Mathlib.Data.List.Basic
import Mathlib.Data.Nat.Bitwise

/-!
# BitStream — fixed-width units as big-endian bit strings

A list of `w`-bit units is read as one bit string, most significant bit first.  Codecs that regroup
bits (eight-bit bytes into six-bit digits and back) are then equations between two such strings:

- `bits w n`     : the `w` low bits of `n`
- `stream w xs`  : the bit strings of the units `xs`, one after the other

The accumulator lemmas (`bits_push`, `bits_add`) are what a shift-register loop needs: pushing a
unit appends its bits, taking the top bits off splits the string.
-/

namespace BitStream

/-! ## One unit -/

/-- The `w` low bits of `n`, most significant first. -/
def bits : Nat → Nat → List Bool
  | 0, _ => []
  | w + 1, n => n.testBit w :: bits w n

@[simp] theorem length_bits (w n : Nat) : (bits w n).length = w := by
  induction w with
  | zero => rfl
  | succ w ih => simp [bits, ih]

theorem bits_congr {w m n : Nat} (h : ∀ i < w, m.testBit i = n.testBit i) :
    bits w m = bits w n := by
  induction w with
  | zero => rfl
  | succ w ih =>
      have hlow : bits w m = bits w n := ih fun i hi => h i (Nat.lt_succ_of_lt hi)
      simp [bits, h w (Nat.lt_succ_self w), hlow]

theorem testBit_eq_of_bits_eq {w m n : Nat} (h : bits w m = bits w n) :
    ∀ i < w, m.testBit i = n.testBit i := by
  induction w with
  | zero =>
      intro i hi
      exact absurd hi (Nat.not_lt_zero i)
  | succ w ih =>
      intro i hi
      have hcons : m.testBit w = n.testBit w ∧ bits w m = bits w n := by
        simpa [bits] using h
      rcases Nat.lt_succ_iff_lt_or_eq.1 hi with hlt | rfl
      · exact ih hcons.2 i hlt
      · exact hcons.1

/-- A unit below `2 ^ w` is determined by its `w` bits. -/
theorem eq_of_bits_eq {w m n : Nat} (hm : m < 2 ^ w) (hn : n < 2 ^ w) (h : bits w m = bits w n) :
    m = n := by
  apply Nat.eq_of_testBit_eq
  intro i
  by_cases hi : i < w
  · exact testBit_eq_of_bits_eq h i hi
  · have hpow : 2 ^ w ≤ 2 ^ i := Nat.pow_le_pow_right (by decide) (Nat.le_of_not_lt hi)
    rw [Nat.testBit_lt_two_pow (Nat.lt_of_lt_of_le hm hpow),
      Nat.testBit_lt_two_pow (Nat.lt_of_lt_of_le hn hpow)]

theorem bits_mod {w k : Nat} (n : Nat) (h : w ≤ k) : bits w (n % 2 ^ k) = bits w n := by
  apply bits_congr
  intro i hi
  have hik : i < k := Nat.lt_of_lt_of_le hi h
  simp [Nat.testBit_mod_two_pow, hik]

/-- Taking the top `a` of `a + b` bits off. -/
theorem bits_add (a b n : Nat) : bits (a + b) n = bits a (n >>> b) ++ bits b n := by
  induction a with
  | zero => simp [bits]
  | succ a ih =>
      have hsucc : a + 1 + b = (a + b) + 1 := by omega
      rw [hsucc]
      simp [bits, ih, Nat.testBit_shiftRight, Nat.add_comm b a]

/-- Shifting a `w`-bit unit into an accumulator appends its bits. -/
theorem bits_push (k : Nat) {w d : Nat} (acc : Nat) (hd : d < 2 ^ w) :
    bits (k + w) ((acc <<< w) + d) = bits k acc ++ bits w d := by
  have hbit : ∀ i, ((acc <<< w) + d).testBit i =
      if i < w then d.testBit i else acc.testBit (i - w) := by
    intro i
    rw [Nat.shiftLeft_eq, Nat.mul_comm]
    exact Nat.testBit_two_pow_mul_add acc hd i
  rw [bits_add]
  congr 1
  · apply bits_congr
    intro i _
    simp [Nat.testBit_shiftRight, hbit]
  · apply bits_congr
    intro i hi
    simp [hbit, hi]

/-- `bits_add` with division and remainder in place of shifts. -/
theorem bits_split (a b n : Nat) : bits (a + b) n = bits a (n / 2 ^ b) ++ bits b (n % 2 ^ b) := by
  rw [bits_add, Nat.shiftRight_eq_div_pow, bits_mod n (Nat.le_refl b)]

/-- `bits_push` with a product in place of the shift. -/
theorem bits_join (k : Nat) {w lo : Nat} (hi : Nat) (h : lo < 2 ^ w) :
    bits (k + w) (hi * 2 ^ w + lo) = bits k hi ++ bits w lo := by
  rw [← Nat.shiftLeft_eq]
  exact bits_push k hi h

theorem bits_zero (w : Nat) : bits w 0 = List.replicate w false := by
  induction w with
  | zero => rfl
  | succ w ih => simp [bits, ih, List.replicate_succ]

/-- Padding on the right: shifting left appends zero bits. -/
theorem bits_shiftLeft (k w n : Nat) :
    bits (k + w) (n <<< w) = bits k n ++ List.replicate w false := by
  have h := bits_push k (w := w) (d := 0) n (Nat.two_pow_pos w)
  simpa [bits_zero] using h

/-- The low `w` bits are all zero exactly when `2 ^ w` divides the number. -/
theorem bits_eq_replicate_false_iff (w n : Nat) :
    bits w n = List.replicate w false ↔ n % 2 ^ w = 0 := by
  rw [← bits_zero w, ← bits_mod n (Nat.le_refl w)]
  constructor
  · intro h
    exact eq_of_bits_eq (Nat.mod_lt n (Nat.two_pow_pos w)) (Nat.two_pow_pos w) h
  · intro h
    rw [h]

/-! ## Streams of units -/

/-- The bit string of a list of `w`-bit units. -/
def stream (w : Nat) (xs : List Nat) : List Bool :=
  xs.flatMap (bits w)

@[simp] theorem stream_nil (w : Nat) : stream w [] = [] := rfl

@[simp] theorem stream_cons (w x : Nat) (xs : List Nat) :
    stream w (x :: xs) = bits w x ++ stream w xs := rfl

@[simp] theorem stream_append (w : Nat) (xs ys : List Nat) :
    stream w (xs ++ ys) = stream w xs ++ stream w ys := by
  simp [stream]

@[simp] theorem length_stream (w : Nat) (xs : List Nat) :
    (stream w xs).length = w * xs.length := by
  induction xs with
  | nil => rfl
  | cons x xs ih =>
      simp [ih, Nat.mul_succ]
      omega

/-- A stream followed by fewer bits than one unit determines its units and that rest. -/
theorem stream_append_inj {w : Nat} :
    ∀ {xs ys : List Nat} {r s : List Bool},
      (∀ x ∈ xs, x < 2 ^ w) → (∀ y ∈ ys, y < 2 ^ w) → r.length < w → s.length < w →
        stream w xs ++ r = stream w ys ++ s → xs = ys ∧ r = s
  | [], [], r, s, _, _, _, _, h => ⟨rfl, by simpa using h⟩
  -- a stream that ends first would leave a whole unit to its rest
  | [], y :: ys, r, s, _, _, hr, _, h => by
      have hlen := congrArg List.length h
      simp at hlen
      omega
  | x :: xs, [], r, s, _, _, _, hs, h => by
      have hlen := congrArg List.length h
      simp at hlen
      omega
  | x :: xs, y :: ys, r, s, hx, hy, hr, hs, h => by
      have hsplit : bits w x ++ (stream w xs ++ r) = bits w y ++ (stream w ys ++ s) := by
        simpa [List.append_assoc] using h
      rcases List.append_inj hsplit (by simp) with ⟨hhead, htail⟩
      have hxy : x = y := eq_of_bits_eq (hx x (by simp)) (hy y (by simp)) hhead
      rcases stream_append_inj (fun a ha => hx a (by simp [ha])) (fun a ha => hy a (by simp [ha]))
        hr hs htail with ⟨hxs, hrs⟩
      exact ⟨by rw [hxy, hxs], hrs⟩

end BitStream
