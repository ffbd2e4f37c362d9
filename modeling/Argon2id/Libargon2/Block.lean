import Argon2id.Lib.Mixing
import Argon2id.Libargon2.Blake2b
import Mathlib.Algebra.Ring.Parity
import Mathlib.Data.Nat.ModEq
import Mathlib.Data.Nat.Prime.Basic

/-!
# Libargon2.Block — blocks of 1 KiB, and how a new one is computed

The operations of `core.c` on a block, the round function of `blamka-round-ref.h`, and the local part of
`fill_block` of `ref.c`: which words a new block has, given the blocks it is made of.

- `invOn_loadBlock_storeBlock`: a block and its bytes
- `bijective_mixBlock`: the two layers of rounds permute the set of blocks, so no entropy is lost in them
-/

namespace Argon2id

open Mixing

/-! ## Blocks -/

/-- `block`: `ARGON2_QWORDS_IN_BLOCK` words -/
abbrev Block := Vector UInt64 128

/-- `ARGON2_BLOCK_SIZE` -/
def blockSize : Nat := 1024

/-- `init_block_value`, which sets each byte. -/
def initBlockValue (b : UInt8) : Block :=
  Vector.replicate 128 (load64 (List.replicate 8 b))

def xorBlock (dst src : Block) : Block :=
  Vector.ofFn fun i : Fin 128 => dst[i] ^^^ src[i]

def loadBlock (input : Bytes) : Block :=
  Vector.ofFn fun i : Fin 128 => load64 (input.drop (i.val * 8))

def storeBlock (src : Block) : Bytes :=
  src.toList.flatMap store64

/-! ## The round function -/

def fBlaMka (x y : UInt64) : UInt64 :=
  let m : UInt64 := 0xFFFFFFFF
  let xy := (x &&& m) * (y &&& m)
  x + y + 2 * xy

/-- The macro `G`, on four words of a block. -/
def blamkaG (a b c d : Fin 128) (v : Block) : Block :=
  let v := v.set a (fBlaMka v[a] v[b])
  let v := v.set d (rotr64 (v[d] ^^^ v[a]) 32)
  let v := v.set c (fBlaMka v[c] v[d])
  let v := v.set b (rotr64 (v[b] ^^^ v[c]) 24)
  let v := v.set a (fBlaMka v[a] v[b])
  let v := v.set d (rotr64 (v[d] ^^^ v[a]) 16)
  let v := v.set c (fBlaMka v[c] v[d])
  v.set b (rotr64 (v[b] ^^^ v[c]) 63)

/-- A round is on sixteen words. -/
instance neZero_sixteen : NeZero 16 :=
  ⟨by decide⟩

/-- `BLAKE2_ROUND_NOMSG`, on sixteen words of a block. -/
def blake2RoundNomsg (w : Fin 16 → Fin 128) (v : Block) : Block :=
  let v := blamkaG (w 0) (w 4) (w 8) (w 12) v
  let v := blamkaG (w 1) (w 5) (w 9) (w 13) v
  let v := blamkaG (w 2) (w 6) (w 10) (w 14) v
  let v := blamkaG (w 3) (w 7) (w 11) (w 15) v
  let v := blamkaG (w 0) (w 5) (w 10) (w 15) v
  let v := blamkaG (w 1) (w 6) (w 11) (w 12) v
  let v := blamkaG (w 2) (w 7) (w 8) (w 13) v
  blamkaG (w 3) (w 4) (w 9) (w 14) v

/-- The words `16 * i`, …, `16 * i + 15`. -/
def columnWord (i : Fin 8) (k : Fin 16) : Fin 128 :=
  ⟨16 * i.val + k.val, by omega⟩

/-- The words `2 * i`, `2 * i + 1`, `2 * i + 16`, `2 * i + 17`, …, `2 * i + 113`. -/
def rowWord (i : Fin 8) (k : Fin 16) : Fin 128 :=
  ⟨2 * i.val + 16 * (k.val / 2) + k.val % 2, by omega⟩

def mixColumns (blockR : Block) : Block :=
  (List.finRange 8).foldl (fun v i => blake2RoundNomsg (columnWord i) v) blockR

def mixRows (blockR : Block) : Block :=
  (List.finRange 8).foldl (fun v i => blake2RoundNomsg (rowWord i) v) blockR

/-- The rounds on the columns and then on the rows of a block. -/
def mixBlock (blockR : Block) : Block :=
  mixRows (mixColumns blockR)

/-- The new contents of `next_block`. -/
def fillBlock (prevBlock refBlock nextBlock : Block) (withXor : Bool) : Block :=
  let blockR := xorBlock refBlock prevBlock
  let blockTmp := if withXor then xorBlock blockR nextBlock else blockR
  xorBlock blockTmp (mixBlock blockR)

/-- Without XOR the old contents do not matter. -/
theorem fillBlock_false (prevBlock refBlock nextBlock : Block) :
    fillBlock prevBlock refBlock nextBlock false =
      xorBlock (xorBlock refBlock prevBlock) (mixBlock (xorBlock refBlock prevBlock)) := rfl

/-! ## Blocks and bytes -/

theorem length_storeBlock (b : Block) : (storeBlock b).length = blockSize := by
  rw [storeBlock, length_flatMap_store64, Vector.length_toList, blockSize]

/-- Word `i` of some words stands at byte `8 * i`. -/
theorem drop_flatMap_store64 (ws : List UInt64) {i : Nat} (h : i < ws.length) :
    (ws.flatMap store64).drop (i * 8) = store64 ws[i] ++ (ws.drop (i + 1)).flatMap store64 := by
  have hsplit : ws = ws.take i ++ ws[i] :: ws.drop (i + 1) := by
    rw [List.getElem_cons_drop, List.take_append_drop]
  have hlength : ((ws.take i).flatMap store64).length = i * 8 := by
    rw [length_flatMap_store64, List.length_take]
    omega
  conv_lhs => rw [hsplit]
  rw [List.flatMap_append, List.flatMap_cons, List.drop_left' hlength]

theorem load_store (b : Block) : loadBlock (storeBlock b) = b := by
  refine Vector.ext fun i hi => ?_
  have hlength : i < b.toList.length := by rwa [Vector.length_toList]
  rw [loadBlock, Vector.getElem_ofFn, storeBlock, drop_flatMap_store64 _ hlength, load64_store64,
    Vector.getElem_toList]

theorem flatMap_store64_load64 (n : Nat) {input : Bytes} (h : input.length = 8 * n) :
    (List.ofFn fun i : Fin n => load64 (input.drop (i.val * 8))).flatMap store64 = input := by
  induction n generalizing input with
  | zero => rw [List.ofFn_zero, List.flatMap_nil, List.eq_nil_of_length_eq_zero h]
  | succ n ih =>
      have hfirst : (input.take 8).length = 8 := List.length_take_of_le (by omega)
      have hlength : (input.drop 8).length = 8 * n := by
        rw [List.length_drop]
        omega
      have hrest := ih hlength
      simp only [List.drop_drop] at hrest
      rw [List.ofFn_succ, List.flatMap_cons]
      conv_rhs => rw [← List.take_append_drop 8 input]
      refine congrArg₂ (· ++ ·) ?_ ?_
      · have hstore := store64_load64 hfirst (input.drop 8)
        rw [List.take_append_drop] at hstore
        exact hstore
      · refine Eq.trans ?_ hrest
        simp only [Fin.val_succ, Nat.add_mul, Nat.one_mul, Nat.add_comm 8]

theorem store_load {input : Bytes} (h : input.length = blockSize) :
    storeBlock (loadBlock input) = input := by
  rw [storeBlock, loadBlock, Vector.toList_ofFn]
  exact flatMap_store64_load64 128 h

/-- The blocks are the byte strings of 1024 bytes. -/
theorem invOn_loadBlock_storeBlock :
    Set.InvOn loadBlock storeBlock Set.univ {input | input.length = blockSize} :=
  ⟨fun b _ => load_store b, fun _ h => store_load h⟩

/-! ## Mixing is a permutation -/

theorem toNat_fBlaMka (x y : UInt64) :
    (fBlaMka x y).toNat =
      (x.toNat + y.toNat + 2 * (x.toNat % 2 ^ 32 * (y.toNat % 2 ^ 32))) % 2 ^ 64 := by
  have hmask : ∀ z : UInt64, (z &&& 0xFFFFFFFF).toNat = z.toNat % 2 ^ 32 := fun z => by
    rw [UInt64.toNat_and]
    exact Nat.and_two_pow_sub_one_eq_mod _ 32
  have hmul : ∀ a b : Nat, a < 2 ^ 32 → b < 2 ^ 32 → a * b < 2 ^ 64 := by
    intro a b ha hb
    exact (Nat.mul_lt_mul'' ha hb).trans_eq (pow_add 2 32 32).symm
  have hlt := hmul _ _ (Nat.mod_lt x.toNat (Nat.two_pow_pos 32))
    (Nat.mod_lt y.toNat (Nat.two_pow_pos 32))
  rw [fBlaMka, UInt64.toNat_add, UInt64.toNat_add, UInt64.toNat_mul, UInt64.toNat_mul, hmask, hmask,
    Nat.mod_eq_of_lt hlt]
  exact (Nat.add_mod _ _ _).symm

/-- Multiplying by an odd number loses nothing of the low half. -/
theorem fBlaMka_injective (y : UInt64) : Function.Injective fun x => fBlaMka x y := by
  intro x x' h
  have heq := congrArg UInt64.toNat h
  dsimp only at heq
  rw [toNat_fBlaMka, toNat_fBlaMka] at heq
  generalize hc : y.toNat % 2 ^ 32 = c at heq
  -- modulo `2 ^ 32`, `x` is multiplied by an odd number
  have hlow : x.toNat % 2 ^ 32 = x'.toNat % 2 ^ 32 := by
    have hodd : Nat.gcd (2 ^ 32) (1 + 2 * c) = 1 := by
      refine Nat.Coprime.pow_left 32 ?_
      rw [Nat.coprime_two_left, Nat.odd_iff]
      omega
    refine Nat.ModEq.cancel_right_of_coprime hodd (Nat.ModEq.add_right_cancel' y.toNat ?_)
    have hmod : ∀ z : Nat, (z * (1 + 2 * c) + y.toNat) % 2 ^ 32 =
        (z + y.toNat + 2 * (z % 2 ^ 32 * c)) % 2 ^ 64 % 2 ^ 32 := by
      intro z
      rw [Nat.mod_mod_of_dvd _ (by decide : 2 ^ 32 ∣ 2 ^ 64)]
      have hz : z = 2 ^ 32 * (z / 2 ^ 32) + z % 2 ^ 32 := (Nat.div_add_mod z _).symm
      generalize z % 2 ^ 32 = r at hz
      generalize z / 2 ^ 32 = q at hz
      rw [hz, show (2 ^ 32 * q + r) * (1 + 2 * c) + y.toNat =
        2 ^ 32 * q + r + y.toNat + 2 * (r * c) + 2 ^ 32 * (q * (2 * c)) by ring,
        Nat.add_mul_mod_self_left]
    exact (hmod x.toNat).trans ((congrArg (· % 2 ^ 32) heq).trans (hmod x'.toNat).symm)
  rw [hlow] at heq
  have hx := x.toNat_lt
  have hx' := x'.toNat_lt
  refine UInt64.toNat_inj.1 ?_
  generalize 2 * (x'.toNat % 2 ^ 32 * c) = d at heq
  omega

instance finite_uint64 : Finite UInt64 :=
  Finite.of_injective UInt64.toFin fun _ _ h => UInt64.toFin_inj.1 h

theorem bijective_fBlaMka (y : UInt64) : Function.Bijective fun x => fBlaMka x y :=
  Finite.injective_iff_bijective.1 (fBlaMka_injective y)

theorem bijective_rotr64_xor {c : Nat} (h0 : 0 < c) (hc : c < 64) (y : UInt64) :
    Function.Bijective fun x => rotr64 (x ^^^ y) (UInt64.ofNat c) := by
  refine Finite.injective_iff_bijective.1 fun x x' h => ?_
  exact (UInt64.xor_left_inj y).1 (rotr64_injective h0 hc h)

/-- Four different words are mixed. -/
theorem bijective_blamkaG {a b c d : Fin 128} (hab : a ≠ b) (hcd : c ≠ d) (hda : d ≠ a)
    (hbc : b ≠ c) : Function.Bijective (blamkaG a b c d) := by
  have hadd := bijective_set hab bijective_fBlaMka
  have hadd' := bijective_set hcd bijective_fBlaMka
  have h32 := bijective_set hda (bijective_rotr64_xor (c := 32) (by decide) (by decide))
  have h24 := bijective_set hbc (bijective_rotr64_xor (c := 24) (by decide) (by decide))
  have h16 := bijective_set hda (bijective_rotr64_xor (c := 16) (by decide) (by decide))
  have h63 := bijective_set hbc (bijective_rotr64_xor (c := 63) (by decide) (by decide))
  exact h63.comp (hadd'.comp (h16.comp (hadd.comp (h24.comp (hadd'.comp (h32.comp hadd))))))

/-- Sixteen different words are mixed. -/
theorem bijective_blake2RoundNomsg {w : Fin 16 → Fin 128} (hw : Function.Injective w) :
    Function.Bijective (blake2RoundNomsg w) := by
  have hG : ∀ i j k l : Fin 16, i ≠ j → k ≠ l → l ≠ i → j ≠ k →
      Function.Bijective (blamkaG (w i) (w j) (w k) (w l)) := fun i j k l hij hkl hli hjk =>
    bijective_blamkaG (hw.ne hij) (hw.ne hkl) (hw.ne hli) (hw.ne hjk)
  have h0 := hG 0 4 8 12 (by decide) (by decide) (by decide) (by decide)
  have h1 := hG 1 5 9 13 (by decide) (by decide) (by decide) (by decide)
  have h2 := hG 2 6 10 14 (by decide) (by decide) (by decide) (by decide)
  have h3 := hG 3 7 11 15 (by decide) (by decide) (by decide) (by decide)
  have h4 := hG 0 5 10 15 (by decide) (by decide) (by decide) (by decide)
  have h5 := hG 1 6 11 12 (by decide) (by decide) (by decide) (by decide)
  have h6 := hG 2 7 8 13 (by decide) (by decide) (by decide) (by decide)
  have h7 := hG 3 4 9 14 (by decide) (by decide) (by decide) (by decide)
  exact h7.comp (h6.comp (h5.comp (h4.comp (h3.comp (h2.comp (h1.comp h0))))))

theorem columnWord_injective (i : Fin 8) : Function.Injective (columnWord i) := by
  intro k l h
  have hval := Fin.val_eq_of_eq h
  simp only [columnWord] at hval
  omega

theorem rowWord_injective (i : Fin 8) : Function.Injective (rowWord i) := by
  intro k l h
  have hval := Fin.val_eq_of_eq h
  simp only [rowWord] at hval
  omega

theorem bijective_mixColumns : Function.Bijective mixColumns := by
  unfold mixColumns
  exact bijective_foldl fun i _ => bijective_blake2RoundNomsg (columnWord_injective i)

theorem bijective_mixRows : Function.Bijective mixRows := by
  unfold mixRows
  exact bijective_foldl fun i _ => bijective_blake2RoundNomsg (rowWord_injective i)

/-- The rounds on columns and rows permute the blocks. -/
theorem bijective_mixBlock : Function.Bijective mixBlock := by
  have hcomp := bijective_mixRows.comp bijective_mixColumns
  rw [Function.comp_def] at hcomp
  unfold mixBlock
  exact hcomp

end Argon2id
