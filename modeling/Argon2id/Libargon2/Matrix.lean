import Argon2id.Libargon2.Fill
import Argon2id.Libargon2.SegmentResults

/-!
# Libargon2.Matrix — the blocks of the memory, pass by pass

What the memory is filled with, without any memory: a block of a pass is computed from the blocks of
the same pass in the columns before it, and from those of the pass before.

- `matrix`: the blocks after a number of passes
- `blockAt_fillPass`: the segments of a pass compute its blocks in whatever order of the lanes
- `blockAt_fillMemoryBlocksSt`: so the memory in the end is the matrix
- `matrix_congr`: it depends on the first two blocks of every lane only
-/

namespace Argon2id

open SharedMemory

/-! ## The recurrence -/

/-- The block of a pass at a lane and column, when `previous` are the blocks of the pass before. -/
def passBlock (inst : Instance) (r : Nat) (previous : Nat → Nat → Block) (lane column : Nat) : Block :=
  if r = 0 ∧ column < 2 then previous lane column
  else
    newBlock inst (positionAt r (column / inst.segmentLength.toNat) lane)
      (column % inst.segmentLength.toNat)
      (fun lane' column' =>
        if column' < column then passBlock inst r previous lane' column' else previous lane' column')
      (previous lane column)
termination_by column

/-- The blocks after `r` passes, when `first` are those before. -/
def matrix (inst : Instance) (first : Nat → Nat → Block) : Nat → Nat → Nat → Block
  | 0 => first
  | r + 1 => passBlock inst r (matrix inst first r)

/-- The blocks of a memory. -/
def blocksOf (inst : Instance) (m : Memory) (lane column : Nat) : Block :=
  blockAt m (blockIndex inst lane column)

theorem blocksOf_setBlock {inst : Instance} {lane column lane' column' : Nat} (m : Memory) (b : Block)
    (h : column < inst.laneLength.toNat) (h' : column' < inst.laneLength.toNat) :
    blocksOf inst (setBlock m (blockIndex inst lane' column') b) lane column =
      if lane = lane' ∧ column = column' then b else blocksOf inst m lane column := by
  rw [blocksOf]
  split_ifs with heq
  · rw [heq.1, heq.2, blockAt_setBlock_self]
  · exact blockAt_setBlock_of_ne fun hindex => heq (blockIndex_inj h h' hindex)

/-! ## The loops of `fill_memory_blocks_st` -/

def fillSlice (inst : Instance) (r s : Nat) : Prog Nat UInt64 Unit :=
  loop (fun l _ => fillSegment inst (positionAt r s l)) 0 inst.lanes.toNat ()

def fillPass (inst : Instance) (r : Nat) : Prog Nat UInt64 Unit :=
  loop (fun s _ => fillSlice inst r s) 0 syncPoints.toNat ()

theorem fillMemoryBlocksSt_eq (inst : Instance) :
    fillMemoryBlocksSt inst = loop (fun r _ => fillPass inst r) 0 inst.passes.toNat () :=
  rfl

section Matrix

variable {inst : Instance} {r s l : Nat}

/-! ## Positions -/

/-- Numbers of a pass, a slice and a lane. -/
structure InRange (inst : Instance) (r s l : Nat) : Prop where
  pass : r < inst.passes.toNat
  slice : s < 4
  lane : l < inst.lanes.toNat

theorem InRange.toNat_lane (h : InRange inst r s l) : (positionAt r s l).lane.toNat = l :=
  toNat_ofNat_of_lt (h.lane.trans inst.lanes.toNat_lt)

theorem InRange.toNat_slice (h : InRange inst r s l) : (positionAt r s l).slice.toNat = s :=
  Nat.mod_eq_of_lt (h.slice.trans (by decide))

theorem InRange.pass_eq_zero (h : InRange inst r s l) : (positionAt r s l).pass = 0 ↔ r = 0 := by
  rw [← UInt32.toNat_inj]
  exact Eq.congr_left (toNat_ofNat_of_lt (h.pass.trans inst.passes.toNat_lt))

theorem InRange.slice_eq_zero (h : InRange inst r s l) : (positionAt r s l).slice = 0 ↔ s = 0 := by
  rw [← UInt8.toNat_inj]
  exact Eq.congr_left h.toNat_slice

theorem InRange.startingIndex (h : InRange inst r s l) :
    (startingIndex (positionAt r s l)).toNat = if r = 0 ∧ s = 0 then 2 else 0 := by
  have hiff : 0 = (positionAt r s l).pass ∧ 0 = (positionAt r s l).slice ↔ r = 0 ∧ s = 0 :=
    and_congr (eq_comm.trans h.pass_eq_zero) (eq_comm.trans h.slice_eq_zero)
  rw [Argon2id.startingIndex]
  by_cases h0 : r = 0 ∧ s = 0
  · rw [if_pos (hiff.2 h0), if_pos h0]
    rfl
  · rw [if_neg fun hc => h0 (hiff.1 hc), if_neg h0]
    rfl

theorem InRange.columnAt (h : InRange inst r s l) (i : Nat) :
    columnAt inst (positionAt r s l) i = s * inst.segmentLength.toNat + i := by
  rw [Argon2id.columnAt, h.toNat_slice]

/-- All blocks but the first two of a lane are computed. -/
theorem InRange.computes (h : InRange inst r s l) (hinst : inst.Laid) {column : Nat}
    (hcs : column / inst.segmentLength.toNat = s) (hgiven : ¬ (r = 0 ∧ column < 2)) :
    (positionAt r s l).Computes inst (column % inst.segmentLength.toNat) ∧
      Argon2id.columnAt inst (positionAt r s l) (column % inst.segmentLength.toNat) = column := by
  have hsegment := hinst.segmentLength
  have hmod := Nat.div_add_mod' column inst.segmentLength.toNat
  rw [hcs] at hmod
  refine ⟨⟨h.toNat_lane.symm ▸ h.lane, h.toNat_slice.symm ▸ h.slice, ?_, Nat.mod_lt _ (by omega)⟩, ?_⟩
  · rw [h.startingIndex]
    split_ifs with hfirst
    · rw [hfirst.2] at hmod
      omega
    · exact Nat.zero_le _
  · rw [h.columnAt, hmod]

/-- The slices cut a lane into columns. -/
theorem column_lt_of_slice (hinst : inst.Laid) {column : Nat} (h : column / inst.segmentLength.toNat < 4) :
    column < inst.laneLength.toNat := by
  rw [hinst.laneLength]
  exact (Nat.div_lt_iff_lt_mul (by have := hinst.segmentLength; omega)).1 h

theorem slice_lt (hinst : inst.Laid) {column : Nat} (h : column < inst.laneLength.toNat) :
    column / inst.segmentLength.toNat < 4 := by
  rw [hinst.laneLength] at h
  exact (Nat.div_lt_iff_lt_mul (by have := hinst.segmentLength; omega)).2 h

/-! ## A pass -/

/-- The block at `column` has been computed when the slices before `s` are filled, and in slice `s` the
lanes before `l`. -/
def Done (inst : Instance) (s l lane column : Nat) : Prop :=
  column / inst.segmentLength.toNat < s ∨ column / inst.segmentLength.toNat = s ∧ lane < l

/-- The blocks that are done are those of the pass; the others are those of the pass before. -/
def PassProgress (inst : Instance) (r : Nat) (m : Memory) (s l : Nat) (m' : Memory) : Prop :=
  ∀ lane column, lane < inst.lanes.toNat → column < inst.laneLength.toNat →
    (Done inst s l lane column →
      blocksOf inst m' lane column = passBlock inst r (blocksOf inst m) lane column) ∧
    (¬ Done inst s l lane column → blocksOf inst m' lane column = blocksOf inst m lane column)

/-- The first two blocks of a lane stay. -/
theorem passBlock_given {previous : Nat → Nat → Block} {lane column : Nat} (h : r = 0 ∧ column < 2) :
    passBlock inst r previous lane column = previous lane column := by
  rw [passBlock, if_pos h]

/-- Filling a segment computes its blocks. -/
theorem PassProgress.step (hinst : inst.Laid) (h : InRange inst r s l) {m m' : Memory}
    (hm : PassProgress inst r m s l m') :
    PassProgress inst r m s (l + 1) ((fillSegment inst (positionAt r s l)).run m').2 := by
  have hsegment := hinst.segmentLength
  have hlane : (positionAt r s l).lane.toNat < inst.lanes.toNat := h.toNat_lane.symm ▸ h.lane
  have hslice : (positionAt r s l).slice.toNat < 4 := h.toNat_slice.symm ▸ h.slice
  have hfill := run_fillSegment hinst hlane hslice m'
  generalize ((fillSegment inst (positionAt r s l)).run m').2 = m'' at hfill
  -- blocks of other segments
  have hother : ∀ lane column, column < inst.laneLength.toNat →
      ¬ (lane = l ∧ column / inst.segmentLength.toNat = s) →
      blocksOf inst m'' lane column = blocksOf inst m' lane column := by
    intro lane column hcolumn hne
    refine hfill.frame lane column hcolumn fun heq hstart => ?_
    rw [h.toNat_lane] at heq
    rw [h.columnAt] at hstart ⊢
    by_contra hlt
    refine hne ⟨heq, ?_⟩
    refine (Nat.div_eq_iff (by omega)).2 ?_
    rw [Nat.mul_comm] at hstart hlt
    constructor <;> rw [Nat.mul_comm] <;> omega
  -- the blocks of the segment, in the order in which they are computed
  have hown : ∀ column, column / inst.segmentLength.toNat = s →
      blocksOf inst m'' l column = passBlock inst r (blocksOf inst m) l column := by
    intro column
    induction column using Nat.strong_induction_on with
    | h column ih =>
        intro hcs
        have hcolumn := column_lt_of_slice hinst (hcs.trans_lt h.slice)
        have hold := (hm l column h.lane hcolumn).2 (by rintro (hlt | hlt) <;> omega)
        by_cases hgiven : r = 0 ∧ column < 2
        · rw [passBlock_given hgiven, ← hold]
          refine hfill.frame l column hcolumn fun _ hstart => ?_
          have hs : s = 0 := by
            rw [← hcs]
            exact Nat.div_eq_of_lt (by omega)
          rw [h.columnAt, h.startingIndex, if_pos ⟨hgiven.1, hs⟩, hs] at hstart
          omega
        · have ⟨hi, hcol⟩ := h.computes hinst hcs hgiven
          have hblock := hfill.filled _ hi hi.lt
          rw [hcol, h.toNat_lane] at hblock
          rw [passBlock, if_neg hgiven, hcs, ← hold]
          refine hblock.trans (newBlock_congr hinst hi _ fun lane' column' hread _ => ?_)
          have hlane' := hread.own
          rw [h.toNat_slice, h.toNat_lane] at hlane'
          have hbefore' := hm lane' column' hread.lane_lt hread.column_lt
          rw [viewAt]
          split_ifs with hbefore
          · by_cases hsame : column' / inst.segmentLength.toNat = s
            · rw [hlane' hsame]
              exact ih column' hbefore hsame
            · have hle := Nat.div_le_div_right (c := inst.segmentLength.toNat) hbefore.le
              exact (hother lane' column' hread.column_lt fun hc => hsame hc.2).trans
                (hbefore'.1 (Or.inl (by omega)))
          · have hle := Nat.div_le_div_right (c := inst.segmentLength.toNat) (Nat.le_of_not_lt hbefore)
            refine hbefore'.2 ?_
            rintro (hlt | ⟨hsame, hlt⟩)
            · omega
            · exact Nat.ne_of_lt hlt (hlane' hsame)
  intro lane column hlanes hcolumn
  by_cases hin : lane = l ∧ column / inst.segmentLength.toNat = s
  · rcases hin with ⟨rfl, hcs⟩
    refine ⟨fun _ => hown column hcs, fun hnot => absurd ?_ hnot⟩
    exact Or.inr ⟨hcs, Nat.lt_succ_self lane⟩
  · have hiff : Done inst s (l + 1) lane column ↔ Done inst s l lane column := by
      unfold Done
      omega
    rw [hiff, hother lane column hcolumn hin]
    exact hm lane column hlanes hcolumn

theorem done_zero (lane column : Nat) : ¬ Done inst 0 0 lane column := by
  rintro (h | h)
  · exact Nat.not_lt_zero _ h
  · exact Nat.not_lt_zero _ h.2

theorem done_lanes {lane column : Nat} (h : lane < inst.lanes.toNat) :
    Done inst s inst.lanes.toNat lane column ↔ Done inst (s + 1) 0 lane column := by
  unfold Done
  omega

theorem run_fillSlice (hinst : inst.Laid) (hr : r < inst.passes.toNat) (hs : s < 4) {m m' : Memory}
    (h : PassProgress inst r m s 0 m') :
    PassProgress inst r m (s + 1) 0 ((fillSlice inst r s).run m').2 := by
  have hloop : PassProgress inst r m s (0 + inst.lanes.toNat) ((fillSlice inst r s).run m').2 :=
    run_loop (I := fun l (_ : Unit) m' => PassProgress inst r m s l m')
      (fun l _ m' _ hl hm' => hm'.step hinst ⟨hr, hs, by omega⟩) h
  rw [Nat.zero_add] at hloop
  intro lane column hlane hcolumn
  rw [← done_lanes hlane]
  exact hloop lane column hlane hcolumn

/-- A pass computes its blocks from the ones before. -/
theorem blockAt_fillPass (hinst : inst.Laid) (hr : r < inst.passes.toNat) (m : Memory) {lane column : Nat}
    (hlane : lane < inst.lanes.toNat) (hcolumn : column < inst.laneLength.toNat) :
    blocksOf inst ((fillPass inst r).run m).2 lane column =
      passBlock inst r (blocksOf inst m) lane column := by
  have hstart : PassProgress inst r m 0 0 m :=
    fun lane column _ _ => ⟨fun h => absurd h (done_zero lane column), fun _ => rfl⟩
  have hloop : PassProgress inst r m (0 + syncPoints.toNat) 0 ((fillPass inst r).run m).2 :=
    run_loop (I := fun s (_ : Unit) m' => PassProgress inst r m s 0 m')
      (fun s _ m' _ hs hm' => run_fillSlice hinst hr (hs.trans_eq rfl) hm') hstart
  exact (hloop lane column hlane hcolumn).1 (Or.inl (slice_lt hinst hcolumn))

/-! ## All passes -/

/-- In the first pass the old block does not matter. -/
theorem newBlock_old (pos : Position) (i : Nat) (view : Nat → Nat → Block) (h : pos.pass = 0)
    (old old' : Block) : newBlock inst pos i view old = newBlock inst pos i view old' := by
  have hxor : withXor inst pos = false := decide_eq_false fun hc => hc.2 h
  rw [newBlock, newBlock, hxor, fillBlock_false, fillBlock_false]

/-- The blocks of a pass depend on those of the pass before; in the first pass only on the first two
blocks of every lane. -/
theorem passBlock_congr (hinst : inst.Laid) (hr : r < inst.passes.toNat)
    {previous previous' : Nat → Nat → Block}
    (h : ∀ lane column, lane < inst.lanes.toNat → column < inst.laneLength.toNat →
      (r = 0 → column < 2) → previous lane column = previous' lane column)
    {lane column : Nat} (hlane : lane < inst.lanes.toNat) (hcolumn : column < inst.laneLength.toNat) :
    passBlock inst r previous lane column = passBlock inst r previous' lane column := by
  induction column using Nat.strong_induction_on generalizing lane with
  | h column ih =>
      by_cases hgiven : r = 0 ∧ column < 2
      · rw [passBlock_given hgiven, passBlock_given hgiven]
        exact h lane column hlane hcolumn fun _ => hgiven.2
      rw [passBlock, passBlock, if_neg hgiven, if_neg hgiven]
      have hin : InRange inst r (column / inst.segmentLength.toNat) lane :=
        ⟨hr, slice_lt hinst hcolumn, hlane⟩
      have hi := hin.computes hinst rfl hgiven
      have hold : newBlock inst (positionAt r (column / inst.segmentLength.toNat) lane)
          (column % inst.segmentLength.toNat)
          (fun lane' column' => if column' < column then passBlock inst r previous' lane' column'
            else previous' lane' column') (previous lane column) =
          newBlock inst (positionAt r (column / inst.segmentLength.toNat) lane)
          (column % inst.segmentLength.toNat)
          (fun lane' column' => if column' < column then passBlock inst r previous' lane' column'
            else previous' lane' column') (previous' lane column) := by
        by_cases h0 : r = 0
        · exact newBlock_old _ _ _ (hin.pass_eq_zero.2 h0) _ _
        · rw [h lane column hlane hcolumn fun hc => absurd hc h0]
      rw [← hold]
      refine newBlock_congr hinst hi.1 _ fun lane' column' hread _ => ?_
      have hpass := hread.pass
      rw [hin.pass_eq_zero, hi.2] at hpass
      split_ifs with hbefore
      · exact ih column' hbefore hread.lane_lt hread.column_lt
      · exact h lane' column' hread.lane_lt hread.column_lt fun h0 => absurd (hpass h0) hbefore

/-- The memory in the end is the matrix. -/
theorem blockAt_fillMemoryBlocksSt (hinst : inst.Laid) (m : Memory) {lane column : Nat}
    (hlane : lane < inst.lanes.toNat) (hcolumn : column < inst.laneLength.toNat) :
    blocksOf inst ((fillMemoryBlocksSt inst).run m).2 lane column =
      matrix inst (blocksOf inst m) inst.passes.toNat lane column := by
  have hloop : ∀ lane column, lane < inst.lanes.toNat → column < inst.laneLength.toNat →
      blocksOf inst ((fillMemoryBlocksSt inst).run m).2 lane column =
        matrix inst (blocksOf inst m) (0 + inst.passes.toNat) lane column := by
    rw [fillMemoryBlocksSt_eq]
    refine run_loop (I := fun r (_ : Unit) m' => ∀ lane column, lane < inst.lanes.toNat →
      column < inst.laneLength.toNat →
        blocksOf inst m' lane column = matrix inst (blocksOf inst m) r lane column)
      (fun r _ m' _ hr hm' lane column hlane hcolumn => ?_) fun lane column _ _ => rfl
    have hr' : r < inst.passes.toNat := by omega
    rw [blockAt_fillPass hinst hr' m' hlane hcolumn, matrix]
    exact passBlock_congr hinst hr' (fun lane column hl hc _ => hm' lane column hl hc) hlane hcolumn
  rw [Nat.zero_add] at hloop
  exact hloop lane column hlane hcolumn

theorem blockAt_fillMemoryBlocksSt_sample :
    blocksOf (Instance.sample 2 2 .id)
      ((fillMemoryBlocksSt (Instance.sample 2 2 .id)).run fun _ => 0).2 1 11 =
      matrix (Instance.sample 2 2 .id) (blocksOf (Instance.sample 2 2 .id) fun _ => 0) 1 1 11 :=
  blockAt_fillMemoryBlocksSt (Instance.laid_sample .id (by decide) (by decide) (by decide)) _
    (by decide) (by decide)

/-- The matrix depends on the first two blocks of every lane only. -/
theorem matrix_congr (hinst : inst.Laid) {first first' : Nat → Nat → Block}
    (h : ∀ lane column, lane < inst.lanes.toNat → column < 2 → first lane column = first' lane column)
    (hr : r < inst.passes.toNat) {lane column : Nat} (hlane : lane < inst.lanes.toNat)
    (hcolumn : column < inst.laneLength.toNat) :
    matrix inst first (r + 1) lane column = matrix inst first' (r + 1) lane column := by
  have hpass : ∀ first r, matrix inst first (r + 1) = passBlock inst r (matrix inst first r) :=
    fun first r => by rw [matrix]
  induction r generalizing lane column with
  | zero =>
      rw [hpass, hpass]
      exact passBlock_congr hinst hr (fun lane column hl _ hc => h lane column hl (hc rfl)) hlane hcolumn
  | succ r ih =>
      rw [hpass first, hpass first']
      exact passBlock_congr hinst hr (fun lane column hl hc _ => ih (by omega) hl hc) hlane hcolumn

end Matrix

end Argon2id
