import Mathlib.Data.List.Basic
import Mathlib.Tactic.Ring

/-!
# LittleEndian — numbers as little-endian bytes

- `toBytes n x` are the `n` low bytes of `x`, the lowest first; `ofBytes` reads them back
- `prefixed` puts the length of some bytes in front of them: a sequence of such fields can be taken apart
  again (`prefixed_append_inj`)
-/

namespace LittleEndian

def toBytes : Nat → Nat → List UInt8
  | 0, _ => []
  | n + 1, x => UInt8.ofNat x :: toBytes n (x / 256)

def ofBytes : List UInt8 → Nat
  | [] => 0
  | b :: bs => b.toNat + 256 * ofBytes bs

@[simp] theorem length_toBytes (n x : Nat) : (toBytes n x).length = n := by
  induction n generalizing x with
  | zero => rfl
  | succ n ih => rw [toBytes, List.length_cons, ih]

theorem ofBytes_toBytes (n x : Nat) : ofBytes (toBytes n x) = x % 256 ^ n := by
  induction n generalizing x with
  | zero => rw [pow_zero, Nat.mod_one, toBytes, ofBytes]
  | succ n ih =>
      rw [toBytes, ofBytes, ih, UInt8.toNat_ofNat', pow_succ' 256 n, Nat.mod_mul]

theorem ofBytes_lt (bs : List UInt8) : ofBytes bs < 256 ^ bs.length := by
  induction bs with
  | nil => exact Nat.one_pos
  | cons b bs ih =>
      have hb := b.toNat_lt
      rw [ofBytes, List.length_cons, pow_succ]
      omega

theorem toBytes_ofBytes (bs : List UInt8) : toBytes bs.length (ofBytes bs) = bs := by
  induction bs with
  | nil => rfl
  | cons b bs ih =>
      have hb := b.toNat_lt
      have hhead : UInt8.ofNat (b.toNat + 256 * ofBytes bs) = b := by
        refine UInt8.toNat_inj.1 ?_
        rw [UInt8.toNat_ofNat']
        omega
      have htail : (b.toNat + 256 * ofBytes bs) / 256 = ofBytes bs := by omega
      rw [List.length_cons, ofBytes, toBytes, hhead, htail, ih]

theorem toBytes_inj {n x y : Nat} (hx : x < 256 ^ n) (hy : y < 256 ^ n)
    (h : toBytes n x = toBytes n y) : x = y := by
  have heq := congrArg ofBytes h
  rwa [ofBytes_toBytes, ofBytes_toBytes, Nat.mod_eq_of_lt hx, Nat.mod_eq_of_lt hy] at heq

/-- A field of `n` bytes in front of others can be taken off. -/
theorem toBytes_append_inj {n x y : Nat} (hx : x < 256 ^ n) (hy : y < 256 ^ n) {r s : List UInt8}
    (h : toBytes n x ++ r = toBytes n y ++ s) : x = y ∧ r = s := by
  have hlength : (toBytes n x).length = (toBytes n y).length := by
    rw [length_toBytes, length_toBytes]
  rcases List.append_inj h hlength with ⟨hbytes, hrest⟩
  exact ⟨toBytes_inj hx hy hbytes, hrest⟩

/-- Some bytes behind their length in `n` bytes. -/
def prefixed (n : Nat) (bs : List UInt8) : List UInt8 :=
  toBytes n bs.length ++ bs

theorem prefixed_append_inj {n : Nat} {x y r s : List UInt8} (hx : x.length < 256 ^ n)
    (hy : y.length < 256 ^ n) (h : prefixed n x ++ r = prefixed n y ++ s) : x = y ∧ r = s := by
  rw [prefixed, prefixed, List.append_assoc, List.append_assoc] at h
  rcases toBytes_append_inj hx hy h with ⟨hlength, hrest⟩
  exact List.append_inj hrest hlength

end LittleEndian
