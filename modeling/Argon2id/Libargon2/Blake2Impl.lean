import Argon2id.Lib.LittleEndian
import Argon2id.Libargon2.Types
import Mathlib.Tactic.Ring

/-!
# Libargon2.Blake2Impl — `blake2-impl.h`: words and bytes

The portable branches of the source, which go byte by byte.  On a little-endian machine the source
copies the word instead, to the same effect.
-/

namespace Argon2id

open LittleEndian

/-! ## The source -/

def load64 (src : Bytes) : UInt64 :=
  let p : Nat → UInt64 := fun i => (src.getD i 0).toUInt64
  p 0 ||| p 1 <<< 8 ||| p 2 <<< 16 ||| p 3 <<< 24 ||| p 4 <<< 32 ||| p 5 <<< 40 ||| p 6 <<< 48 |||
    p 7 <<< 56

def store32 (w : UInt32) : Bytes :=
  [w.toUInt8, (w >>> 8).toUInt8, (w >>> 8 >>> 8).toUInt8, (w >>> 8 >>> 8 >>> 8).toUInt8]

/-- `*p++ = (uint8_t)w; w >>= 8;`, `n` times. -/
def storeBytes : Nat → UInt64 → Bytes
  | 0, _ => []
  | n + 1, w => w.toUInt8 :: storeBytes n (w >>> 8)

def store64 (w : UInt64) : Bytes :=
  storeBytes 8 w

def rotr64 (w c : UInt64) : UInt64 :=
  w >>> c ||| w <<< (64 - c)

/-! ## Little-endian numbers -/

theorem store32_eq (w : UInt32) : store32 w = toBytes 4 w.toNat := by
  have hw := w.toNat_lt
  have hbyte : ∀ x : UInt32, x.toUInt8 = UInt8.ofNat x.toNat := fun x => rfl
  have hshift : ∀ x : UInt32, (x >>> 8).toNat = x.toNat / 256 := by
    intro x
    rw [UInt32.toNat_shiftRight]
    exact Nat.shiftRight_eq_div_pow _ 8
  simp only [store32, toBytes, hbyte, hshift]

theorem storeBytes_eq (n : Nat) (w : UInt64) : storeBytes n w = toBytes n w.toNat := by
  induction n generalizing w with
  | zero => rfl
  | succ n ih =>
      have hshift : (w >>> 8).toNat = w.toNat / 256 := by
        rw [UInt64.toNat_shiftRight]
        exact Nat.shiftRight_eq_div_pow _ 8
      rw [storeBytes, toBytes, ih, hshift]
      rfl

theorem store64_eq (w : UInt64) : store64 w = toBytes 8 w.toNat :=
  storeBytes_eq 8 w

@[simp] theorem length_store32 (w : UInt32) : (store32 w).length = 4 := rfl

@[simp] theorem length_store64 (w : UInt64) : (store64 w).length = 8 := rfl

/-- One more byte above the bits of a word. -/
theorem toNat_or_shiftLeft {x b : UInt64} {k : Nat} (hk : k + 8 ≤ 64) (hx : x.toNat < 2 ^ k)
    (hb : b.toNat < 256) :
    (x ||| b <<< UInt64.ofNat k).toNat = x.toNat + 2 ^ k * b.toNat ∧
      x.toNat + 2 ^ k * b.toNat < 2 ^ (k + 8) := by
  have hlt : 2 ^ k * b.toNat + x.toNat < 2 ^ (k + 8) := by
    have hpow : 2 ^ (k + 8) = 2 ^ k * 256 := by rw [pow_add]; rfl
    have hmul : 2 ^ k * (b.toNat + 1) ≤ 2 ^ k * 256 := Nat.mul_le_mul_left _ hb
    rw [Nat.mul_add] at hmul
    omega
  have hword : 2 ^ (k + 8) ≤ 2 ^ 64 := Nat.pow_le_pow_right (by decide) hk
  have hshift : (UInt64.ofNat k).toNat % 64 = k := by
    rw [UInt64.toNat_ofNat']
    omega
  refine ⟨?_, by omega⟩
  rw [UInt64.toNat_or, UInt64.toNat_shiftLeft, hshift, Nat.shiftLeft_eq, Nat.mul_comm,
    Nat.mod_eq_of_lt (by omega), Nat.or_comm, ← Nat.two_pow_add_eq_or_of_lt hx, Nat.add_comm]

/-- `load64` reads eight bytes as a little-endian number. -/
theorem toNat_load64 (b0 b1 b2 b3 b4 b5 b6 b7 : UInt8) (rest : Bytes) :
    (load64 (b0 :: b1 :: b2 :: b3 :: b4 :: b5 :: b6 :: b7 :: rest)).toNat =
      ofBytes [b0, b1, b2, b3, b4, b5, b6, b7] := by
  have hb : ∀ b : UInt8, b.toUInt64.toNat < 256 := fun b => by
    rw [UInt8.toNat_toUInt64]
    exact b.toNat_lt
  have h0 : b0.toUInt64.toNat < 2 ^ 8 := hb b0
  have h1 := toNat_or_shiftLeft (k := 8) (by decide) h0 (hb b1)
  have h2 := toNat_or_shiftLeft (k := 16) (by decide) (h1.1.trans_lt h1.2) (hb b2)
  have h3 := toNat_or_shiftLeft (k := 24) (by decide) (h2.1.trans_lt h2.2) (hb b3)
  have h4 := toNat_or_shiftLeft (k := 32) (by decide) (h3.1.trans_lt h3.2) (hb b4)
  have h5 := toNat_or_shiftLeft (k := 40) (by decide) (h4.1.trans_lt h4.2) (hb b5)
  have h6 := toNat_or_shiftLeft (k := 48) (by decide) (h5.1.trans_lt h5.2) (hb b6)
  have h7 := toNat_or_shiftLeft (k := 56) (by decide) (h6.1.trans_lt h6.2) (hb b7)
  refine h7.1.trans ?_
  rw [h6.1, h5.1, h4.1, h3.1, h2.1, h1.1]
  simp only [UInt8.toNat_toUInt64, ofBytes]
  ring

/-- What has been stored is loaded again. -/
theorem load64_store64 (w : UInt64) (rest : Bytes) : load64 (store64 w ++ rest) = w := by
  refine UInt64.toNat_inj.1 ((toNat_load64 _ _ _ _ _ _ _ _ rest).trans ?_)
  change ofBytes (store64 w) = w.toNat
  rw [store64_eq, ofBytes_toBytes]
  exact Nat.mod_eq_of_lt w.toNat_lt

/-- What has been loaded is stored again. -/
theorem store64_load64 : ∀ {src : Bytes}, src.length = 8 → ∀ rest,
    store64 (load64 (src ++ rest)) = src
  | [b0, b1, b2, b3, b4, b5, b6, b7], _, rest => by
      rw [store64_eq]
      exact (congrArg (toBytes 8) (toNat_load64 b0 b1 b2 b3 b4 b5 b6 b7 rest)).trans
        (toBytes_ofBytes [b0, b1, b2, b3, b4, b5, b6, b7])

theorem length_flatMap_store64 (ws : List UInt64) : (ws.flatMap store64).length = 8 * ws.length := by
  induction ws with
  | nil => rfl
  | cons w ws ih =>
      rw [List.flatMap_cons, List.length_append, ih, length_store64, List.length_cons]
      omega

/-! ## Rotation -/

/-- The low bits move to the top. -/
theorem toNat_rotr64 (w : UInt64) {c : Nat} (h0 : 0 < c) (hc : c < 64) :
    (rotr64 w (UInt64.ofNat c)).toNat =
      w.toNat / 2 ^ c + 2 ^ (64 - c) * (w.toNat % 2 ^ c) := by
  have hshift : (UInt64.ofNat c).toNat % 64 = c := by
    rw [UInt64.toNat_ofNat']
    omega
  have hrest : (64 - UInt64.ofNat c).toNat % 64 = 64 - c := by
    rw [UInt64.toNat_sub, UInt64.toNat_ofNat']
    simp only [UInt64.reduceToNat]
    omega
  have hpow : 2 ^ 64 = 2 ^ c * 2 ^ (64 - c) := by rw [← pow_add, Nat.add_sub_cancel' hc.le]
  have hlow : w.toNat / 2 ^ c < 2 ^ (64 - c) := by
    refine Nat.div_lt_of_lt_mul ?_
    rw [← hpow]
    exact w.toNat_lt
  have hhigh : w.toNat * 2 ^ (64 - c) % 2 ^ 64 = 2 ^ (64 - c) * (w.toNat % 2 ^ c) := by
    rw [hpow, Nat.mul_mod_mul_right, Nat.mul_comm]
  rw [rotr64, UInt64.toNat_or, UInt64.toNat_shiftRight, UInt64.toNat_shiftLeft, hshift, hrest,
    Nat.shiftRight_eq_div_pow, Nat.shiftLeft_eq, hhigh, Nat.or_comm,
    ← Nat.two_pow_add_eq_or_of_lt hlow, Nat.add_comm]

theorem rotr64_injective {c : Nat} (h0 : 0 < c) (hc : c < 64) :
    Function.Injective fun w => rotr64 w (UInt64.ofNat c) := by
  intro w w' h
  have heq := congrArg UInt64.toNat h
  dsimp only at heq
  have hbound : ∀ w : UInt64, w.toNat / 2 ^ c < 2 ^ (64 - c) := by
    intro w
    refine Nat.div_lt_of_lt_mul ?_
    rw [← pow_add, Nat.add_sub_cancel' hc.le]
    exact w.toNat_lt
  rw [toNat_rotr64 w h0 hc, toNat_rotr64 w' h0 hc] at heq
  have hmod := congrArg (· % 2 ^ (64 - c)) heq
  have hdiv := congrArg (· / 2 ^ (64 - c)) heq
  simp only [Nat.add_mul_mod_self_left, Nat.mod_eq_of_lt (hbound _)] at hmod
  simp only [Nat.add_mul_div_left _ _ (Nat.two_pow_pos (64 - c)), Nat.div_eq_of_lt (hbound _),
    Nat.zero_add] at hdiv
  refine UInt64.toNat_inj.1 ?_
  rw [← Nat.div_add_mod w.toNat (2 ^ c), ← Nat.div_add_mod w'.toNat (2 ^ c), hmod, hdiv]

end Argon2id
