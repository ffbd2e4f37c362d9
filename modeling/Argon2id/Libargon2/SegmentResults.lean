import Argon2id.Libargon2.Segment

/-!
# Libargon2.SegmentResults — what a segment accesses and computes

- `within_fillSegment`: what a segment accesses, whatever is in the memory
- `oblivious_fillSegment`: with data-independent addressing the accesses are known beforehand
- `run_fillSegment`: every block of the segment is computed from the blocks that it refers to
-/

namespace Argon2id

open SharedMemory

section Segment

variable {inst : Instance} {pos : Position} {i : Nat} {s : Locals}

/-! ## What a segment accesses -/

/-- The words that a segment writes: its own blocks. -/
def segmentWords (inst : Instance) (pos : Position) : Set Nat :=
  {a | ∃ i, pos.Computes inst i ∧ a ∈ words (blockIndex inst pos.lane.toNat (columnAt inst pos i))}

/-- The blocks that index `i` may refer to: those of other slices, in the first pass of slices that are
finished, and those of the own segment, in the first pass before index `i`. -/
structure Readable (inst : Instance) (pos : Position) (i lane column : Nat) : Prop where
  lane_lt : lane < inst.lanes.toNat
  column_lt : column < inst.laneLength.toNat
  own : column / inst.segmentLength.toNat = pos.slice.toNat → lane = pos.lane.toNat
  pass : pos.pass = 0 → column < columnAt inst pos i

def readableWords (inst : Instance) (pos : Position) (i : Nat) : Set Nat :=
  {a | ∃ lane column, Readable inst pos i lane column ∧ a ∈ words (blockIndex inst lane column)}

theorem Readable.words_subset {lane column : Nat} (h : Readable inst pos i lane column) :
    words (blockIndex inst lane column) ⊆ readableWords inst pos i :=
  fun _ ha => ⟨lane, column, h, ha⟩

/-- The block that is referenced is finished. -/
theorem refColumn_finished (hinst : inst.Laid) (hi : pos.Computes inst i) (rand : UInt64) :
    Finished inst { pos with index := UInt32.ofNat i } (refLane inst pos rand = pos.lane.toNat)
      (refColumn inst pos i rand) := by
  have hsame : pos.pass.toNat = 0 → pos.slice.toNat = 0 →
      decide (refLane inst pos rand = pos.lane.toNat) = true := by
    intro hpass hslice
    have hpass' : pos.pass = 0 := UInt32.toNat_inj.1 hpass
    have hslice' : pos.slice = 0 := UInt8.toNat_inj.1 hslice
    rw [refLane, if_pos ⟨hpass', hslice'⟩]
    exact decide_eq_true rfl
  exact indexAlpha_finished hinst hi.valid (rand &&& 0xFFFFFFFF).toUInt32 hsame

theorem Position.Computes.column_eq (hi : pos.Computes inst i) :
    Position.column { pos with index := UInt32.ofNat i } inst = columnAt inst pos i := by
  have hindex : (UInt32.ofNat i).toNat = i :=
    toNat_ofNat_of_lt (hi.lt.trans inst.segmentLength.toNat_lt)
  rw [Position.column, hindex]
  rfl

/-- The block that is referenced may be read, and is not the one that is computed. -/
theorem readable_ref (hinst : inst.Laid) (hi : pos.Computes inst i) (rand : UInt64) :
    Readable inst pos i (refLane inst pos rand) (refColumn inst pos i rand) ∧
      refColumn inst pos i rand ≠ columnAt inst pos i := by
  have hfinished := refColumn_finished hinst hi rand
  refine ⟨⟨refLane_lt hinst hi.lane rand, hfinished.lt, ?_, ?_⟩, ?_⟩
  · intro hslice
    by_contra hne
    exact hfinished.other (decide_eq_false hne) hslice
  · intro hpass
    have hcomputed := hfinished.computed (congrArg UInt32.toNat hpass)
    rwa [hi.column_eq] at hcomputed
  · have hne := hfinished.ne
    rwa [hi.column_eq] at hne

theorem previousColumn_ne (hinst : inst.Laid) {column : Nat} : previousColumn inst column ≠ column := by
  have hlength := hinst.laneLength
  have hsegment := hinst.segmentLength
  rw [previousColumn]
  split_ifs
  · omega
  · omega

/-- So may the previous block. -/
theorem readable_previous (hinst : inst.Laid) (hi : pos.Computes inst i) :
    Readable inst pos i pos.lane.toNat (previousColumn inst (columnAt inst pos i)) := by
  have hcolumn := columnAt_lt hinst hi
  refine ⟨hi.lane, previousColumn_lt hinst hcolumn, fun _ => rfl, ?_⟩
  intro hpass
  have hstart := hi.start
  have hne : columnAt inst pos i ≠ 0 := by
    intro h0
    have hslice : pos.slice.toNat = 0 := by
      have hmul := Nat.eq_zero_of_add_eq_zero_right h0
      rcases Nat.mul_eq_zero.1 hmul with h | h
      · exact h
      · have hsegment := hinst.segmentLength
        omega
    have hslice' : pos.slice = 0 := UInt8.toNat_inj.1 hslice
    rw [startingIndex, if_pos ⟨hpass.symm, hslice'.symm⟩] at hstart
    have hi2 : 2 ≤ i := hstart
    rw [columnAt] at h0
    omega
  rw [previousColumn, if_neg hne]
  omega

theorem within_pseudoRand (hinst : inst.Laid) (hi : pos.Computes inst i) {W : Set Nat} :
    Within W (readableWords inst pos i) (fun _ => True) (pseudoRand inst pos i)
      (readableWords inst pos i) := by
  rw [pseudoRand]
  split_ifs
  · exact Within.pure (Set.Subset.refl _) trivial
  · exact Within.get ((readable_previous hinst hi).words_subset (word_mem_words (by decide)))
      fun _ => trivial

theorem columnAt_div (hi : pos.Computes inst i) :
    columnAt inst pos i / inst.segmentLength.toNat = pos.slice.toNat := by
  have hlt := hi.lt
  rw [columnAt, Nat.add_comm, Nat.add_mul_div_right _ _ (by omega), Nat.div_eq_of_lt hlt,
    Nat.zero_add]

/-- After an iteration its block may be read, too. -/
theorem readableWords_succ (hi : pos.Computes inst i) :
    readableWords inst pos (i + 1) ⊆ readableWords inst pos i ∪
      words (blockIndex inst pos.lane.toNat (columnAt inst pos i)) := by
  rintro a ⟨lane, column, ⟨hlane, hcolumn, hown, hpass⟩, ha⟩
  by_cases hlt : pos.pass = 0 → column < columnAt inst pos i
  · exact Or.inl ⟨lane, column, ⟨hlane, hcolumn, hown, hlt⟩, ha⟩
  · have hsucc : columnAt inst pos (i + 1) = columnAt inst pos i + 1 := rfl
    obtain ⟨hpass0, hle⟩ := Classical.not_imp.1 hlt
    have heq : column = columnAt inst pos i := by
      have := hpass hpass0
      omega
    subst heq
    refine Or.inr ?_
    rw [← hown (columnAt_div hi)]
    exact ha

theorem within_fillSegmentBody (hinst : inst.Laid) (hi : pos.Computes inst i)
    (h : LoopState inst pos i s) :
    Within (segmentWords inst pos) (readableWords inst pos (i + 1)) (LoopState inst pos (i + 1))
      (fillSegmentBody inst pos i s) (readableWords inst pos i) := by
  rcases fillSegmentBody_eq hinst hi h with ⟨s', hs', heq⟩
  have hwrites : words (blockIndex inst pos.lane.toNat (columnAt inst pos i)) ⊆
      segmentWords inst pos := fun a ha => ⟨i, hi, ha⟩
  have hxor : withXor inst pos = true →
      words (blockIndex inst pos.lane.toNat (columnAt inst pos i)) ⊆ readableWords inst pos i :=
    fun hx => Readable.words_subset ⟨hi.lane, columnAt_lt hinst hi, fun _ => rfl,
      fun hpass => absurd hpass (of_decide_eq_true hx).2⟩
  rw [heq]
  refine (within_pseudoRand hinst hi).bind fun rand _ => ?_
  exact (within_fillBlockAt (readable_previous hinst hi).words_subset
    (readable_ref hinst hi rand).1.words_subset hwrites hxor).bind fun _ _ => Within.pure (readableWords_succ hi) hs'

theorem startingIndex_le (hinst : inst.Laid) (pos : Position) :
    (startingIndex pos).toNat ≤ inst.segmentLength.toNat := by
  rw [startingIndex]
  split_ifs
  · exact hinst.segmentLength
  · exact Nat.zero_le _

/-- Whatever is in the memory, a segment writes only its own blocks, and reads only what may be read. -/
theorem within_fillSegment (hinst : inst.Laid) (hlane : pos.lane.toNat < inst.lanes.toNat)
    (hslice : pos.slice.toNat < 4) :
    Within (segmentWords inst pos) (readableWords inst pos inst.segmentLength.toNat)
      (fun _ => True) (fillSegment inst pos)
      (readableWords inst pos (startingIndex pos).toNat) := by
  have hloop := Within.loop (K := readableWords inst pos) (I := LoopState inst pos)
    (n := inst.segmentLength.toNat - (startingIndex pos).toNat)
    (fun j s hj hlt hs => within_fillSegmentBody hinst
      ⟨hlane, hslice, hj, by have := startingIndex_le hinst pos; omega⟩ hs)
    (loopState_startLocals hinst hlane hslice)
  rw [Nat.add_sub_cancel' (startingIndex_le hinst pos)] at hloop
  exact hloop.bind fun _ _ => Within.pure (Set.Subset.refl _) trivial

/-! ## Data-independent addressing -/

/-- The blocks that index `i` accesses when the addresses do not come from the memory. -/
def indexAccesses (inst : Instance) (pos : Position) (i : Nat) : List (Nat × Bool) :=
  let rand := getWord (addressBlockAt inst pos (i / 128 + 1)) (i % 128)
  fillAccesses (blockIndex inst pos.lane.toNat (previousColumn inst (columnAt inst pos i)))
    (blockIndex inst (refLane inst pos rand) (refColumn inst pos i rand))
    (blockIndex inst pos.lane.toNat (columnAt inst pos i)) (withXor inst pos)

theorem oblivious_fillSegmentBody (hinst : inst.Laid) (hi : pos.Computes inst i)
    (hind : dataIndependentAddressing inst pos = true) (h : LoopState inst pos i s) :
    Oblivious (LoopState inst pos (i + 1)) (fillSegmentBody inst pos i s)
      (indexAccesses inst pos i) := by
  rcases fillSegmentBody_eq hinst hi h with ⟨s', hs', heq⟩
  rw [heq, pseudoRand, if_pos hind]
  exact (oblivious_fillBlockAt (withXor inst pos)).bind_pure fun _ _ => hs'

/-- The accesses of a segment are known before it is filled. -/
theorem oblivious_fillSegment (hinst : inst.Laid) (hlane : pos.lane.toNat < inst.lanes.toNat)
    (hslice : pos.slice.toNat < 4) (hind : dataIndependentAddressing inst pos = true) :
    Oblivious (fun _ => True) (fillSegment inst pos)
      ((List.range' (startingIndex pos).toNat
        (inst.segmentLength.toNat - (startingIndex pos).toNat)).flatMap
          (indexAccesses inst pos)) := by
  have hloop := Oblivious.loop (I := LoopState inst pos)
    (n := inst.segmentLength.toNat - (startingIndex pos).toNat)
    (fun j s hj hlt hs => oblivious_fillSegmentBody hinst
      ⟨hlane, hslice, hj, by have := startingIndex_le hinst pos; omega⟩ hind hs)
    (loopState_startLocals hinst hlane hslice)
  exact hloop.bind_pure fun _ _ => trivial

/-! ## What a segment computes -/

/-- A block as it is when a column is computed: the columns before it are new. -/
def viewAt (inst : Instance) (column : Nat) (old new : Memory) (lane' column' : Nat) : Block :=
  if column' < column then blockAt new (blockIndex inst lane' column')
  else blockAt old (blockIndex inst lane' column')

/-- The pseudo-random number at an index, given the previous block. -/
def pseudoRandOf (inst : Instance) (pos : Position) (i : Nat) (prevBlock : Block) : UInt64 :=
  if dataIndependentAddressing inst pos then
    getWord (addressBlockAt inst pos (i / 128 + 1)) (i % 128)
  else prevBlock[0]

/-- The new block at an index, from the blocks that can be seen. -/
def newBlock (inst : Instance) (pos : Position) (i : Nat) (view : Nat → Nat → Block) (old : Block) :
    Block :=
  let prevBlock := view pos.lane.toNat (previousColumn inst (columnAt inst pos i))
  let rand := pseudoRandOf inst pos i prevBlock
  fillBlock prevBlock (view (refLane inst pos rand) (refColumn inst pos i rand)) old
    (withXor inst pos)

theorem blockIndex_inj {lane column lane' column' : Nat} (h : column < inst.laneLength.toNat)
    (h' : column' < inst.laneLength.toNat)
    (heq : blockIndex inst lane column = blockIndex inst lane' column') :
    lane = lane' ∧ column = column' := by
  have hcolumn : column = column' := by
    rw [← blockIndex_mod inst lane h, heq, blockIndex_mod inst lane' h']
  subst hcolumn
  refine ⟨?_, rfl⟩
  rw [blockIndex, blockIndex] at heq
  exact Nat.eq_of_mul_eq_mul_right (Nat.zero_lt_of_lt h) (Nat.add_right_cancel heq)

/-- An iteration on the memory. -/
theorem run_fillSegmentBody (hinst : inst.Laid) (hi : pos.Computes inst i)
    (h : LoopState inst pos i s) (m : Memory) :
    LoopState inst pos (i + 1) ((fillSegmentBody inst pos i s).run m).1 ∧
      ((fillSegmentBody inst pos i s).run m).2 =
        setBlock m (blockIndex inst pos.lane.toNat (columnAt inst pos i))
          (newBlock inst pos i (fun lane column => blockAt m (blockIndex inst lane column))
            (blockAt m (blockIndex inst pos.lane.toNat (columnAt inst pos i)))) := by
  rcases fillSegmentBody_eq hinst hi h with ⟨s', hs', heq⟩
  have hrand : (pseudoRand inst pos i).run m = (pseudoRandOf inst pos i
      (blockAt m (blockIndex inst pos.lane.toNat (previousColumn inst (columnAt inst pos i)))), m) := by
    rw [pseudoRand, pseudoRandOf, blockAt]
    split_ifs
    · rfl
    · rw [Vector.getElem_ofFn]
      rfl
  rw [heq, run_bind, hrand, run_bind, run_pure, run_fillBlockAt]
  exact ⟨hs', rfl⟩

/-- The blocks that an index sees do not change until the segment is filled. -/
structure Progress (inst : Instance) (pos : Position) (m : Memory) (j : Nat) (m' : Memory) : Prop where
  filled : ∀ i, pos.Computes inst i → i < j →
    blockAt m' (blockIndex inst pos.lane.toNat (columnAt inst pos i)) =
      newBlock inst pos i (viewAt inst (columnAt inst pos i) m m')
        (blockAt m (blockIndex inst pos.lane.toNat (columnAt inst pos i)))
  frame : ∀ lane column, column < inst.laneLength.toNat →
    (lane = pos.lane.toNat → columnAt inst pos (startingIndex pos).toNat ≤ column →
      columnAt inst pos j ≤ column) →
    blockAt m' (blockIndex inst lane column) = blockAt m (blockIndex inst lane column)

/-- A new block depends only on blocks that it may refer to. -/
theorem newBlock_congr (hinst : inst.Laid) (hi : pos.Computes inst i)
    {view view' : Nat → Nat → Block} (old : Block)
    (h : ∀ lane column, Readable inst pos i lane column → column ≠ columnAt inst pos i →
      view lane column = view' lane column) :
    newBlock inst pos i view old = newBlock inst pos i view' old := by
  have hprev := h _ _ (readable_previous hinst hi) (previousColumn_ne hinst)
  have href := readable_ref hinst hi
    (pseudoRandOf inst pos i (view' pos.lane.toNat (previousColumn inst (columnAt inst pos i))))
  rw [newBlock, newBlock, hprev, h _ _ href.1 href.2]

theorem Progress.step (hinst : inst.Laid) (hi : pos.Computes inst i) {m m' : Memory}
    (h : Progress inst pos m i m') (hs : LoopState inst pos i s) :
    Progress inst pos m (i + 1) ((fillSegmentBody inst pos i s).run m').2 := by
  have hcolumn := columnAt_lt hinst hi
  have hsucc : columnAt inst pos (i + 1) = columnAt inst pos i + 1 := rfl
  rw [(run_fillSegmentBody hinst hi hs m').2]
  generalize hnew : newBlock inst pos i _ _ = new
  -- all other blocks stay
  have hother : ∀ lane column, column < inst.laneLength.toNat →
      ¬ (lane = pos.lane.toNat ∧ column = columnAt inst pos i) →
      blockAt (setBlock m' (blockIndex inst pos.lane.toNat (columnAt inst pos i)) new)
        (blockIndex inst lane column) = blockAt m' (blockIndex inst lane column) :=
    fun lane column hlt hne => blockAt_setBlock_of_ne fun heq => hne (blockIndex_inj hlt hcolumn heq)
  refine ⟨fun k hk hlt => ?_, fun lane column hlt hwritten => ?_⟩
  · by_cases hki : k = i
    · subst hki
      rw [blockAt_setBlock_self]
      refine hnew.symm.trans ?_
      rw [h.frame _ _ hcolumn fun _ _ => Nat.le_refl _]
      refine newBlock_congr hinst hi _ fun lane column hread hne => ?_
      rw [viewAt]
      split_ifs with hbefore
      · exact (hother lane column hread.column_lt fun heq => hne heq.2).symm
      · exact h.frame lane column hread.column_lt fun _ _ => Nat.le_of_not_lt hbefore
    · have hki' : k < i := by omega
      have hcolumns : columnAt inst pos k < columnAt inst pos i := Nat.add_lt_add_left hki' _
      rw [hother _ _ (hcolumns.trans hcolumn) fun heq => Nat.ne_of_lt hcolumns heq.2,
        h.filled k hk hki']
      refine newBlock_congr hinst hk _ fun lane column hread _ => ?_
      rw [viewAt, viewAt]
      split_ifs with hbefore
      · exact (hother lane column hread.column_lt fun heq =>
          Nat.lt_irrefl _ (heq.2 ▸ hbefore.trans hcolumns)).symm
      · rfl
  · have hne : ¬ (lane = pos.lane.toNat ∧ column = columnAt inst pos i) := by
      rintro ⟨hlane, rfl⟩
      have hstart : columnAt inst pos (startingIndex pos).toNat ≤ columnAt inst pos i :=
        Nat.add_le_add_left hi.start _
      have hle := hwritten hlane hstart
      omega
    rw [hother lane column hlt hne]
    refine h.frame lane column hlt fun hlane hstart => ?_
    have hle := hwritten hlane hstart
    omega

/-- Every block of a filled segment is computed from the blocks that it refers to, the new ones in the
columns before it and the old ones in the others; other blocks stay. -/
theorem run_fillSegment (hinst : inst.Laid) (hlane : pos.lane.toNat < inst.lanes.toNat)
    (hslice : pos.slice.toNat < 4) (m : Memory) :
    Progress inst pos m inst.segmentLength.toNat ((fillSegment inst pos).run m).2 := by
  have hstart : Progress inst pos m (startingIndex pos).toNat m :=
    ⟨fun k hk hlt => absurd hk.start (Nat.not_le.2 hlt), fun _ _ _ _ => rfl⟩
  have hloop := run_loop (I := fun j s m' => LoopState inst pos j s ∧ Progress inst pos m j m')
    (n := inst.segmentLength.toNat - (startingIndex pos).toNat)
    (fun j s m' hj hlt h => by
      have hi : pos.Computes inst j :=
        ⟨hlane, hslice, hj, by have := startingIndex_le hinst pos; omega⟩
      exact ⟨(run_fillSegmentBody hinst hi h.1 m').1, h.2.step hinst hi h.1⟩)
    ⟨loopState_startLocals hinst hlane hslice, hstart⟩
  rw [Nat.add_sub_cancel' (startingIndex_le hinst pos)] at hloop
  rw [fillSegment, run_bind, run_pure]
  exact hloop.2

end Segment

end Argon2id
