import Argon2id.Libargon2.Types
import Mathlib.Tactic.IntervalCases

/-!
# Libargon2.Instance — the layout of the memory, and which block is referenced

`argon2_instance_t` and `argon2_position_t`, and `index_alpha` in the fixed-width arithmetic of the
source.  The memory is a matrix of blocks, one row a lane; four slices cut every lane into segments.

- `Instance.Laid`: the layout that `argon2_ctx` sets up
- `toNat_indexAlpha`: the result over exact integers, for every instance that is laid out
- `indexAlpha_finished`: it is a block that is finished and that no other thread is writing, and never
  the previous block
-/

namespace Argon2id

/-! ## The source -/

/-- `argon2_instance_t`; the memory is the one that programs run on. -/
structure Instance where
  version : UInt32
  passes : UInt32
  memoryBlocks : UInt32
  segmentLength : UInt32
  laneLength : UInt32
  lanes : UInt32
  threads : UInt32
  type : Argon2Type

/-- `argon2_position_t` -/
structure Position where
  pass : UInt32
  lane : UInt32
  slice : UInt8
  index : UInt32

/-- The number of blocks that may be referenced. -/
def referenceAreaSize (inst : Instance) (pos : Position) (sameLane : Bool) : UInt32 :=
  if 0 = pos.pass then
    if 0 = pos.slice then pos.index - 1
    else if sameLane then pos.slice.toUInt32 * inst.segmentLength + pos.index - 1
    else pos.slice.toUInt32 * inst.segmentLength + if pos.index = 0 then -1 else 0
  else if sameLane then inst.laneLength - inst.segmentLength + pos.index - 1
  else inst.laneLength - inst.segmentLength + if pos.index = 0 then -1 else 0

def startPosition (inst : Instance) (pos : Position) : UInt32 :=
  if 0 ≠ pos.pass then
    if pos.slice.toUInt32 = syncPoints - 1 then 0
    else (pos.slice.toUInt32 + 1) * inst.segmentLength
  else 0

/-- `index_alpha`: the products and the sum are computed in 64 bits. -/
def indexAlpha (inst : Instance) (pos : Position) (pseudoRand : UInt32) (sameLane : Bool) : UInt32 :=
  let referenceAreaSize := referenceAreaSize inst pos sameLane
  let relativePosition := pseudoRand.toUInt64
  let relativePosition := (relativePosition * relativePosition) >>> 32
  let relativePosition := (referenceAreaSize - 1).toUInt64 -
    (referenceAreaSize.toUInt64 * relativePosition) >>> 32
  ((startPosition inst pos).toUInt64 + relativePosition) % inst.laneLength.toUInt64 |>.toUInt32

/-! ## Instances that are laid out -/

/-- The relations between the fields of an instance that `argon2_ctx` sets up. -/
structure Instance.Laid (inst : Instance) : Prop where
  laneLength : inst.laneLength.toNat = 4 * inst.segmentLength.toNat
  memoryBlocks : inst.memoryBlocks.toNat = inst.lanes.toNat * inst.laneLength.toNat
  segmentLength : 2 ≤ inst.segmentLength.toNat
  lanes : 1 ≤ inst.lanes.toNat
  threads : 1 ≤ inst.threads.toNat
  threads_le : inst.threads.toNat ≤ inst.lanes.toNat

/-- A position where a block is computed: the first two blocks of a lane are given. -/
structure Position.Valid (pos : Position) (inst : Instance) : Prop where
  lane : pos.lane.toNat < inst.lanes.toNat
  slice : pos.slice.toNat < 4
  index : pos.index.toNat < inst.segmentLength.toNat
  start : pos.pass.toNat = 0 → pos.slice.toNat = 0 → 2 ≤ pos.index.toNat

/-- The column of the block at a position. -/
def Position.column (pos : Position) (inst : Instance) : Nat :=
  pos.slice.toNat * inst.segmentLength.toNat + pos.index.toNat

/-- The column before another one, around the end of the lane. -/
def previousColumn (inst : Instance) (column : Nat) : Nat :=
  if column = 0 then inst.laneLength.toNat - 1 else column - 1

section Laid

variable {inst : Instance} {pos : Position}

theorem Instance.Laid.laneLength_pos (h : inst.Laid) : 0 < inst.laneLength.toNat := by
  have h1 := h.laneLength
  have h2 := h.segmentLength
  omega

/-! ## The area over exact integers -/

/-- The area that may be referenced, over exact integers. -/
def area (inst : Instance) (pos : Position) (sameLane : Bool) : Nat :=
  (if pos.pass.toNat = 0 then pos.slice.toNat * inst.segmentLength.toNat
    else 3 * inst.segmentLength.toNat) +
      (if sameLane then pos.index.toNat else 0) -
        if sameLane ∨ pos.index.toNat = 0 then 1 else 0

/-- Where the area starts, over exact integers. -/
def start (inst : Instance) (pos : Position) : Nat :=
  if pos.pass.toNat = 0 ∨ pos.slice.toNat = 3 then 0
  else (pos.slice.toNat + 1) * inst.segmentLength.toNat

theorem toNat_referenceAreaSize (hinst : inst.Laid) (hpos : pos.Valid inst) {sameLane : Bool}
    (hlane : pos.pass.toNat = 0 → pos.slice.toNat = 0 → sameLane = true) :
    (referenceAreaSize inst pos sameLane).toNat = area inst pos sameLane ∧
      0 < area inst pos sameLane := by
  have hslice := hpos.slice
  have hindex := hpos.index
  have hstart := hpos.start
  have hlength := hinst.laneLength
  have hsegment := hinst.segmentLength
  have hlt := inst.laneLength.toNat_lt
  have hpass0 : 0 = pos.pass ↔ pos.pass.toNat = 0 := by
    rw [← UInt32.toNat_inj]; exact eq_comm
  have hslice0 : 0 = pos.slice ↔ pos.slice.toNat = 0 := by
    rw [← UInt8.toNat_inj]; exact eq_comm
  have hindex0 : pos.index = 0 ↔ pos.index.toNat = 0 := by
    rw [← UInt32.toNat_inj]; rfl
  have hneg : (-1 : UInt32).toNat = 2 ^ 32 - 1 := rfl
  unfold referenceAreaSize area
  simp only [hpass0, hslice0, hindex0, apply_ite UInt32.toNat, UInt32.toNat_add, UInt32.toNat_sub,
    UInt32.toNat_mul, UInt8.toNat_toUInt32, hneg, UInt32.reduceToNat]
  generalize pos.slice.toNat = s at *
  generalize pos.index.toNat = i at *
  generalize pos.pass.toNat = r at *
  interval_cases s
  all_goals by_cases hr : r = 0
  all_goals by_cases hi : i = 0
  all_goals cases sameLane
  all_goals simp [hr, hi] at *
  all_goals omega

theorem toNat_startPosition (hinst : inst.Laid) (hpos : pos.Valid inst) :
    (startPosition inst pos).toNat = start inst pos := by
  have hslice := hpos.slice
  have hlength := hinst.laneLength
  have hlt := inst.laneLength.toNat_lt
  have hpass0 : 0 ≠ pos.pass ↔ ¬ pos.pass.toNat = 0 := by
    rw [ne_eq, ← UInt32.toNat_inj]; exact not_congr eq_comm
  have hslice3 : pos.slice.toUInt32 = syncPoints - 1 ↔ pos.slice.toNat = 3 := by
    rw [← UInt32.toNat_inj, UInt8.toNat_toUInt32]; rfl
  unfold startPosition start
  simp only [hpass0, hslice3, apply_ite UInt32.toNat, UInt32.toNat_add, UInt32.toNat_mul,
    UInt8.toNat_toUInt32, UInt32.reduceToNat]
  generalize pos.slice.toNat = s at *
  generalize pos.pass.toNat = r at *
  interval_cases s
  all_goals by_cases hr : r = 0
  all_goals simp [hr]
  all_goals omega

/-! ## The referenced block -/

/-- How far into the area the pseudo-random number leads; small numbers lead to late blocks. -/
def relative (inst : Instance) (pos : Position) (pseudoRand : UInt32) (sameLane : Bool) : Nat :=
  area inst pos sameLane - 1 -
    area inst pos sameLane * (pseudoRand.toNat * pseudoRand.toNat / 2 ^ 32) / 2 ^ 32

theorem toNat_indexAlpha (hinst : inst.Laid) (hpos : pos.Valid inst) (pseudoRand : UInt32)
    {sameLane : Bool} (hlane : pos.pass.toNat = 0 → pos.slice.toNat = 0 → sameLane = true) :
    (indexAlpha inst pos pseudoRand sameLane).toNat =
      (start inst pos + relative inst pos pseudoRand sameLane) % inst.laneLength.toNat := by
  rcases toNat_referenceAreaSize hinst hpos hlane with ⟨harea, hpositive⟩
  have hstart := toNat_startPosition hinst hpos
  have hareaLt := (referenceAreaSize inst pos sameLane).toNat_lt
  have hstartLt := (startPosition inst pos).toNat_lt
  have hrand := pseudoRand.toNat_lt
  have hlt := inst.laneLength.toNat_lt
  unfold indexAlpha relative
  dsimp only
  generalize referenceAreaSize inst pos sameLane = A at *
  generalize startPosition inst pos = st at *
  rw [← harea] at hpositive ⊢
  rw [← hstart]
  -- the square, the product and the sum fit 64 bits
  have hsquare : ((pseudoRand.toUInt64 * pseudoRand.toUInt64) >>> 32).toNat =
      pseudoRand.toNat * pseudoRand.toNat / 2 ^ 32 := by
    have hfits := (Nat.mul_lt_mul'' hrand hrand).trans_eq (pow_add 2 32 32).symm
    rw [UInt64.toNat_shiftRight, UInt64.toNat_mul, UInt32.toNat_toUInt64, Nat.mod_eq_of_lt hfits]
    exact Nat.shiftRight_eq_div_pow _ 32
  have hsquareLt : pseudoRand.toNat * pseudoRand.toNat / 2 ^ 32 < 2 ^ 32 :=
    Nat.div_lt_of_lt_mul (Nat.mul_lt_mul'' hrand hrand)
  generalize (pseudoRand.toUInt64 * pseudoRand.toUInt64) >>> 32 = x at hsquare ⊢
  rw [← hsquare] at hsquareLt ⊢
  have hproduct : ((A.toUInt64 * x) >>> 32).toNat = A.toNat * x.toNat / 2 ^ 32 := by
    have hfits := (Nat.mul_lt_mul'' hareaLt hsquareLt).trans_eq (pow_add 2 32 32).symm
    rw [UInt64.toNat_shiftRight, UInt64.toNat_mul, UInt32.toNat_toUInt64, Nat.mod_eq_of_lt hfits]
    exact Nat.shiftRight_eq_div_pow _ 32
  have hproductLt : A.toNat * x.toNat / 2 ^ 32 < A.toNat := by
    refine Nat.div_lt_of_lt_mul ?_
    rw [Nat.mul_comm (2 ^ 32)]
    exact Nat.mul_lt_mul_of_pos_left hsquareLt hpositive
  have hpred : (A - 1).toUInt64.toNat = A.toNat - 1 := by
    rw [UInt32.toNat_toUInt64, UInt32.toNat_sub_of_le]
    · rfl
    · exact UInt32.le_iff_toNat_le.2 hpositive
  have hrelative : ((A - 1).toUInt64 - (A.toUInt64 * x) >>> 32).toNat =
      A.toNat - 1 - A.toNat * x.toNat / 2 ^ 32 := by
    rw [UInt64.toNat_sub_of_le, hpred, hproduct]
    rw [UInt64.le_iff_toNat_le, hpred, hproduct]
    omega
  have hmod := Nat.mod_lt (st.toNat + (A.toNat - 1 - A.toNat * x.toNat / 2 ^ 32))
    hinst.laneLength_pos
  rw [UInt64.toNat_toUInt32, UInt64.toNat_mod, UInt64.toNat_add, hrelative, UInt32.toNat_toUInt64,
    UInt32.toNat_toUInt64, Nat.mod_eq_of_lt (by omega : st.toNat + _ < 2 ^ 64),
    Nat.mod_eq_of_lt (hmod.trans hlt)]

theorem relative_lt (inst : Instance) (pos : Position) (pseudoRand : UInt32) {sameLane : Bool}
    (h : 0 < area inst pos sameLane) :
    relative inst pos pseudoRand sameLane < area inst pos sameLane := by
  unfold relative
  omega

/-- A column that may be referenced from a position: in a lane of its own slice only the position's, and
in the first pass only what has been computed. -/
structure Finished (inst : Instance) (pos : Position) (sameLane : Bool) (column : Nat) : Prop where
  lt : column < inst.laneLength.toNat
  other : sameLane = false → column / inst.segmentLength.toNat ≠ pos.slice.toNat
  computed : pos.pass.toNat = 0 → column < pos.column inst
  ne : column ≠ pos.column inst
  ne_previous : column ≠ previousColumn inst (pos.column inst)

/-- The length of the area without the current segment. -/
def base (inst : Instance) (pos : Position) : Nat :=
  if pos.pass.toNat = 0 then pos.slice.toNat * inst.segmentLength.toNat
  else 3 * inst.segmentLength.toNat

theorem area_cases {sameLane : Bool} (h : 0 < area inst pos sameLane) :
    sameLane = true ∧ area inst pos sameLane + 1 = base inst pos + pos.index.toNat ∨
      sameLane = false ∧ pos.index.toNat = 0 ∧ area inst pos sameLane + 1 = base inst pos ∨
        sameLane = false ∧ 0 < pos.index.toNat ∧ area inst pos sameLane = base inst pos := by
  have harea : area inst pos sameLane = base inst pos + (if sameLane then pos.index.toNat else 0) -
      if sameLane ∨ pos.index.toNat = 0 then 1 else 0 := rfl
  cases sameLane
  · by_cases hindex : pos.index.toNat = 0
    · rw [if_neg Bool.false_ne_true, if_pos (Or.inr hindex)] at harea
      exact Or.inr (Or.inl ⟨rfl, hindex, by omega⟩)
    · rw [if_neg Bool.false_ne_true, if_neg (by simpa using hindex)] at harea
      exact Or.inr (Or.inr ⟨rfl, Nat.pos_of_ne_zero hindex, by omega⟩)
  · rw [if_pos rfl, if_pos (Or.inl rfl)] at harea
    exact Or.inl ⟨rfl, by omega⟩

/-- The area starts behind the current segment, or in the first pass with the lane. -/
theorem start_cases (inst : Instance) (hslice : pos.slice.toNat < 4) :
    pos.pass.toNat = 0 ∧ start inst pos = 0 ∧
        base inst pos = pos.slice.toNat * inst.segmentLength.toNat ∨
      pos.pass.toNat ≠ 0 ∧ start inst pos = 0 ∧ pos.slice.toNat = 3 ∧
        base inst pos = 3 * inst.segmentLength.toNat ∨
      pos.pass.toNat ≠ 0 ∧ pos.slice.toNat < 3 ∧ base inst pos = 3 * inst.segmentLength.toNat ∧
        start inst pos =
          pos.slice.toNat * inst.segmentLength.toNat + inst.segmentLength.toNat := by
  unfold start base
  by_cases hpass : pos.pass.toNat = 0
  · exact Or.inl ⟨hpass, if_pos (Or.inl hpass), if_pos hpass⟩
  · by_cases hlast : pos.slice.toNat = 3
    · exact Or.inr (Or.inl ⟨hpass, if_pos (Or.inr hlast), hlast, if_neg hpass⟩)
    · refine Or.inr (Or.inr ⟨hpass, by omega, if_neg hpass, ?_⟩)
      rw [if_neg (not_or.2 ⟨hpass, hlast⟩), Nat.add_mul, Nat.one_mul]

theorem mod_of_lt_two_mul {a n : Nat} (h : a < 2 * n) :
    a % n = a ∧ a < n ∨ a % n + n = a := by
  by_cases hlt : a < n
  · exact Or.inl ⟨Nat.mod_eq_of_lt hlt, hlt⟩
  · have hle : n ≤ a := Nat.le_of_not_lt hlt
    rw [Nat.mod_eq_sub_mod hle, Nat.mod_eq_of_lt (by omega)]
    exact Or.inr (Nat.sub_add_cancel hle)

/-- The referenced block is finished, no other thread writes it, and it is not the previous block. -/
theorem indexAlpha_finished (hinst : inst.Laid) (hpos : pos.Valid inst) (pseudoRand : UInt32)
    {sameLane : Bool} (hlane : pos.pass.toNat = 0 → pos.slice.toNat = 0 → sameLane = true) :
    Finished inst pos sameLane (indexAlpha inst pos pseudoRand sameLane).toNat := by
  have hpositive := (toNat_referenceAreaSize hinst hpos hlane).2
  have hrelative := relative_lt inst pos pseudoRand hpositive
  have hsegment := hinst.segmentLength
  have hlength := hinst.laneLength
  have hindex := hpos.index
  have hbegin := hpos.start
  have hslice := hpos.slice
  -- the slices are full, and the last one ends the lane
  have hfull := Nat.mul_le_mul_right inst.segmentLength.toNat (Nat.le_of_lt_succ hpos.slice)
  have hless : pos.slice.toNat < 3 →
      pos.slice.toNat * inst.segmentLength.toNat + inst.segmentLength.toNat ≤
        3 * inst.segmentLength.toNat := fun h => by
    rw [← Nat.succ_mul]
    exact Nat.mul_le_mul_right _ h
  have hlast : pos.slice.toNat = 3 →
      pos.slice.toNat * inst.segmentLength.toNat = 3 * inst.segmentLength.toNat := fun h => by rw [h]
  have hfirst : pos.slice.toNat = 0 → pos.slice.toNat * inst.segmentLength.toNat = 0 := fun h => by
    rw [h, Nat.zero_mul]
  rw [toNat_indexAlpha hinst hpos pseudoRand hlane]
  generalize relative inst pos pseudoRand sameLane = z at *
  have hsum : start inst pos + z < 2 * inst.laneLength.toNat := by
    rcases area_cases hpositive with h | h | h
    all_goals rcases start_cases inst hslice with h' | h' | h'
    all_goals omega
  -- the sum goes around the end of the lane at most once
  have hwrap := mod_of_lt_two_mul hsum
  have hlt := Nat.mod_lt (start inst pos + z) hinst.laneLength_pos
  generalize (start inst pos + z) % inst.laneLength.toNat = c at *
  have hdiv := Nat.div_mul_le_self c inst.segmentLength.toNat
  have hdiv' := Nat.lt_div_mul_add (a := c) (by omega : 0 < inst.segmentLength.toNat)
  have hcases := area_cases hpositive
  have hcases' := start_cases inst hslice
  refine ⟨hlt, ?_, ?_, ?_, ?_⟩
  · intro hother hc
    rw [hc] at hdiv hdiv'
    rcases hcases with ⟨hsame, _⟩ | ⟨_, h⟩ | ⟨_, h⟩
    · exact Bool.false_ne_true (hother.symm.trans hsame)
    · omega
    · omega
  · intro hpass
    rw [Position.column]
    omega
  · rw [Position.column]
    omega
  · rw [Position.column, previousColumn]
    split_ifs
    · omega
    · omega

end Laid

/-! ## A sample -/

/-- Lanes of 12 blocks, filled in one pass. -/
def Instance.sample (lanes threads : UInt32) (type : Argon2Type) : Instance where
  version := versionNumber
  passes := 1
  memoryBlocks := lanes * 12
  segmentLength := 3
  laneLength := 12
  lanes := lanes
  threads := threads
  type := type

theorem Instance.laid_sample {lanes threads : UInt32} (type : Argon2Type) (h : 1 ≤ threads.toNat)
    (hle : threads.toNat ≤ lanes.toNat) (hlanes : lanes.toNat ≤ 0xFFFFFF) :
    (Instance.sample lanes threads type).Laid := by
  refine ⟨rfl, ?_, Nat.le_succ 2, h.trans hle, h, hle⟩
  change (lanes * 12).toNat = lanes.toNat * 12
  rw [UInt32.toNat_mul]
  exact Nat.mod_eq_of_lt (Nat.lt_of_le_of_lt (Nat.mul_le_mul_right 12 hlanes) (by decide))

theorem indexAlpha_finished_sample :
    Finished (Instance.sample 2 2 .d) ⟨0, 1, 1, 0⟩ false
      (indexAlpha (Instance.sample 2 2 .d) ⟨0, 1, 1, 0⟩ 7 false).toNat :=
  indexAlpha_finished (Instance.laid_sample .d (by decide) (by decide) (by decide))
    ⟨by decide, by decide, by decide, by decide⟩ 7 (by decide)

end Argon2id
