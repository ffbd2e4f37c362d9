import Argon2id.Libargon2.BlockMemory
import Argon2id.Libargon2.Instance

/-!
# Libargon2.Segment — `ref.c`: filling a segment

`fill_segment` as a program on the shared memory, with its local variables.

- `LoopState`: what the local variables are in every iteration
- `fillSegmentBody_eq`: so one iteration takes a pseudo-random number, from the addresses or from the
  memory, and fills one block
-/

namespace Argon2id

open SharedMemory

/-! ## The source -/

/-- The values of `argon2_type`. -/
def Argon2Type.value : Argon2Type → UInt64
  | .d => 0
  | .i => 1
  | .id => 2

def dataIndependentAddressing (inst : Instance) (pos : Position) : Bool :=
  inst.type = .i ∨ (inst.type = .id ∧ pos.pass = 0 ∧ pos.slice.toUInt32 < syncPoints / 2)

/-- The input block of the addresses of a segment, before the counter in word 6 is set. -/
def addressInput (inst : Instance) (pos : Position) : Block :=
  setWord (setWord (setWord (setWord (setWord (setWord (initBlockValue 0)
    0 pos.pass.toUInt64) 1 pos.lane.toUInt64) 2 pos.slice.toUInt64) 3 inst.memoryBlocks.toUInt64)
    4 inst.passes.toUInt64) 5 inst.type.value

/-- The local variables of `fill_segment` that change. -/
structure Locals where
  addressBlock : Block
  inputBlock : Block
  currOffset : UInt32
  prevOffset : UInt32

/-- `next_addresses`: the old address block is overwritten. -/
def nextAddresses (s : Locals) : Locals :=
  let zeroBlock := initBlockValue 0
  let inputBlock := setWord s.inputBlock 6 (getWord s.inputBlock 6 + 1)
  let addressBlock := fillBlock zeroBlock inputBlock s.addressBlock false
  let addressBlock := fillBlock zeroBlock addressBlock addressBlock false
  { s with addressBlock := addressBlock, inputBlock := inputBlock }

/-- One iteration of the loop of `fill_segment`. -/
def fillSegmentBody (inst : Instance) (pos : Position) (i : Nat) (s : Locals) :
    Prog Nat UInt64 Locals := do
  let i := UInt32.ofNat i
  -- rotating `prev_offset` if needed
  let prevOffset := if s.currOffset % inst.laneLength = 1 then s.currOffset - 1 else s.prevOffset
  let s := if dataIndependentAddressing inst pos ∧ i % 128 = 0 then nextAddresses s else s
  let pseudoRand ←
    if dataIndependentAddressing inst pos then pure (getWord s.addressBlock (i % 128).toNat)
    else get (word prevOffset.toNat 0)
  let refLane := (pseudoRand >>> 32) % inst.lanes.toUInt64
  -- other lanes cannot be referenced yet
  let refLane := if pos.pass = 0 ∧ pos.slice = 0 then pos.lane.toUInt64 else refLane
  let pos := { pos with index := i }
  let refIndex := indexAlpha inst pos (pseudoRand &&& 0xFFFFFFFF).toUInt32
    (refLane = pos.lane.toUInt64)
  let refBlock := (inst.laneLength.toUInt64 * refLane).toNat + refIndex.toNat
  -- version 1.2.1 and earlier: overwrite, not XOR
  fillBlockAt prevOffset.toNat refBlock s.currOffset.toNat
    (inst.version ≠ version10 ∧ pos.pass ≠ 0)
  pure { s with currOffset := s.currOffset + 1, prevOffset := prevOffset + 1 }

/-- The first two blocks of a lane are given. -/
def startingIndex (pos : Position) : UInt32 :=
  if 0 = pos.pass ∧ 0 = pos.slice then 2 else 0

/-- The local variables before the loop. -/
def startLocals (inst : Instance) (pos : Position) : Locals :=
  let currOffset := pos.lane * inst.laneLength + pos.slice.toUInt32 * inst.segmentLength +
    startingIndex pos
  let prevOffset :=
    if 0 = currOffset % inst.laneLength then currOffset + inst.laneLength - 1 else currOffset - 1
  let s : Locals :=
    { addressBlock := initBlockValue 0
      inputBlock := if dataIndependentAddressing inst pos then addressInput inst pos
        else initBlockValue 0
      currOffset := currOffset
      prevOffset := prevOffset }
  -- the first block of addresses, which the loop only generates from index 0 on
  if 0 = pos.pass ∧ 0 = pos.slice ∧ dataIndependentAddressing inst pos then nextAddresses s else s

def fillSegment (inst : Instance) (pos : Position) : Prog Nat UInt64 Unit := do
  let start := (startingIndex pos).toNat
  let _ ← loop (fillSegmentBody inst pos) start (inst.segmentLength.toNat - start)
    (startLocals inst pos)
  pure ()

/-! ## What an iteration refers to -/

/-- The index of a block in the memory. -/
def blockIndex (inst : Instance) (lane column : Nat) : Nat :=
  lane * inst.laneLength.toNat + column

/-- The column of index `i` of a segment. -/
def columnAt (inst : Instance) (pos : Position) (i : Nat) : Nat :=
  pos.slice.toNat * inst.segmentLength.toNat + i

/-- The input of address block `n` of a segment. -/
def inputBlockAt (inst : Instance) (pos : Position) (n : Nat) : Block :=
  setWord (addressInput inst pos) 6 (UInt64.ofNat n)

def addressBlockAt (inst : Instance) (pos : Position) (n : Nat) : Block :=
  let zeroBlock := initBlockValue 0
  let addressBlock := fillBlock zeroBlock (inputBlockAt inst pos n) zeroBlock false
  fillBlock zeroBlock addressBlock zeroBlock false

/-- The pseudo-random number of an iteration. -/
def pseudoRand (inst : Instance) (pos : Position) (i : Nat) : Prog Nat UInt64 UInt64 :=
  if dataIndependentAddressing inst pos then
    pure (getWord (addressBlockAt inst pos (i / 128 + 1)) (i % 128))
  else
    get (word (blockIndex inst pos.lane.toNat (previousColumn inst (columnAt inst pos i))) 0)

def refLane (inst : Instance) (pos : Position) (rand : UInt64) : Nat :=
  if pos.pass = 0 ∧ pos.slice = 0 then pos.lane.toNat
  else rand.toNat / 2 ^ 32 % inst.lanes.toNat

def refColumn (inst : Instance) (pos : Position) (i : Nat) (rand : UInt64) : Nat :=
  (indexAlpha inst { pos with index := UInt32.ofNat i } (rand &&& 0xFFFFFFFF).toUInt32
    (refLane inst pos rand = pos.lane.toNat)).toNat

/-- Whether the new block is combined with the old one. -/
def withXor (inst : Instance) (pos : Position) : Bool :=
  inst.version ≠ version10 ∧ pos.pass ≠ 0

/-- An index of a segment where a block is computed. -/
structure Position.Computes (pos : Position) (inst : Instance) (i : Nat) : Prop where
  lane : pos.lane.toNat < inst.lanes.toNat
  slice : pos.slice.toNat < 4
  start : (startingIndex pos).toNat ≤ i
  lt : i < inst.segmentLength.toNat

/-- The local variables at the start of iteration `i`. -/
structure LoopState (inst : Instance) (pos : Position) (i : Nat) (s : Locals) : Prop where
  currOffset : s.currOffset.toNat = blockIndex inst pos.lane.toNat (columnAt inst pos i)
  -- where the column is 1, the offset is set in the iteration
  prevOffset : columnAt inst pos i ≠ 1 → s.prevOffset.toNat =
    blockIndex inst pos.lane.toNat (previousColumn inst (columnAt inst pos i))
  inputBlock : dataIndependentAddressing inst pos = true →
    s.inputBlock = inputBlockAt inst pos ((i + 127) / 128)
  addressBlock : dataIndependentAddressing inst pos = true → 0 < i →
    s.addressBlock = addressBlockAt inst pos ((i + 127) / 128)

section Body

variable {inst : Instance} {pos : Position} {i : Nat} {s : Locals}

theorem Position.Computes.valid (h : pos.Computes inst i) :
    Position.Valid { pos with index := UInt32.ofNat i } inst := by
  have hlt := inst.segmentLength.toNat_lt
  have hi : (UInt32.ofNat i).toNat = i := toNat_ofNat_of_lt (h.lt.trans hlt)
  refine ⟨h.lane, h.slice, ?_, ?_⟩
  · rw [hi]
    exact h.lt
  · intro hpass hslice
    have hstart := h.start
    rw [hi]
    have hpass' : 0 = pos.pass := UInt32.toNat_inj.1 hpass.symm
    have hslice' : 0 = pos.slice := UInt8.toNat_inj.1 hslice.symm
    rw [startingIndex, if_pos ⟨hpass', hslice'⟩] at hstart
    exact hstart

theorem columnAt_lt (hinst : inst.Laid) (h : pos.Computes inst i) :
    columnAt inst pos i < inst.laneLength.toNat := by
  have hslice := Nat.mul_le_mul_right inst.segmentLength.toNat (Nat.le_of_lt_succ h.slice)
  have hlt := h.lt
  rw [columnAt, hinst.laneLength]
  omega

theorem previousColumn_lt (hinst : inst.Laid) {column : Nat} (h : column < inst.laneLength.toNat) :
    previousColumn inst column < inst.laneLength.toNat := by
  rw [previousColumn]
  split_ifs
  · exact Nat.sub_lt hinst.laneLength_pos Nat.one_pos
  · omega

/-- The rows of the matrix follow each other. -/
theorem blockIndex_lt (hinst : inst.Laid) {lane column : Nat} (hlane : lane < inst.lanes.toNat)
    (hcolumn : column < inst.laneLength.toNat) :
    blockIndex inst lane column < inst.memoryBlocks.toNat := by
  rw [blockIndex, hinst.memoryBlocks]
  calc lane * inst.laneLength.toNat + column
      < lane * inst.laneLength.toNat + inst.laneLength.toNat := Nat.add_lt_add_left hcolumn _
    _ = (lane + 1) * inst.laneLength.toNat := (Nat.succ_mul _ _).symm
    _ ≤ inst.lanes.toNat * inst.laneLength.toNat := Nat.mul_le_mul_right _ hlane

/-! ## The addresses -/

theorem setWord_setWord (b : Block) (j : Nat) (v w : UInt64) :
    setWord (setWord b j v) j w = setWord b j w :=
  Vector.set_set ..

theorem getWord_setWord (b : Block) (j : Nat) (w : UInt64) : getWord (setWord b j w) j = w :=
  Vector.getElem_set_self _

theorem inputBlockAt_zero (inst : Instance) (pos : Position) :
    inputBlockAt inst pos 0 = addressInput inst pos := by
  refine Vector.ext fun j hj => ?_
  rw [inputBlockAt, getElem_setWord (by decide) _ _ hj]
  by_cases h6 : 6 = j
  · subst h6
    have hother : ∀ (b : Block) (k : Nat) (w : UInt64), k < 6 → (setWord b k w)[6] = b[6] :=
      fun b k w hk => by rw [getElem_setWord (by omega) _ _ (by decide), if_neg (by omega)]
    rw [if_pos rfl, addressInput, hother _ 5 _ (by decide), hother _ 4 _ (by decide),
      hother _ 3 _ (by decide), hother _ 2 _ (by decide), hother _ 1 _ (by decide),
      hother _ 0 _ (by decide), initBlockValue, Vector.getElem_replicate]
    rfl
  · rw [if_neg h6]

theorem nextAddresses_currOffset (s : Locals) : (nextAddresses s).currOffset = s.currOffset := by
  simp only [nextAddresses]

/-- The next block of addresses has the next number. -/
theorem nextAddresses_eq {n : Nat} (h : s.inputBlock = inputBlockAt inst pos n) :
    nextAddresses s =
      { s with
        inputBlock := inputBlockAt inst pos (n + 1)
        addressBlock := addressBlockAt inst pos (n + 1) } := by
  have hinput : setWord s.inputBlock 6 (getWord s.inputBlock 6 + 1) =
      inputBlockAt inst pos (n + 1) := by
    rw [h, inputBlockAt, getWord_setWord, setWord_setWord, inputBlockAt, UInt64.ofNat_add]
    rfl
  simp only [nextAddresses, hinput, addressBlockAt, fillBlock_false]

/-! ## The offsets -/

theorem blockIndex_mod (inst : Instance) (lane : Nat) {column : Nat}
    (h : column < inst.laneLength.toNat) :
    blockIndex inst lane column % inst.laneLength.toNat = column := by
  rw [blockIndex, Nat.add_comm, Nat.add_mul_mod_self_right, Nat.mod_eq_of_lt h]

/-- The remainder of an offset of a lane is its column. -/
theorem offset_mod_eq_iff {offset : UInt32} {lane column : Nat}
    (h : offset.toNat = blockIndex inst lane column) (hcolumn : column < inst.laneLength.toNat)
    (k : UInt32) : offset % inst.laneLength = k ↔ column = k.toNat := by
  rw [← UInt32.toNat_inj, UInt32.toNat_mod, h, blockIndex_mod inst lane hcolumn]

theorem toNat_succ {x y : UInt32} (h : x.toNat < y.toNat) : (x + 1).toNat = x.toNat + 1 := by
  have hy := y.toNat_lt
  have hone : (1 : UInt32).toNat = 1 := rfl
  rw [UInt32.toNat_add, hone]
  exact Nat.mod_eq_of_lt (by omega)

theorem toNat_pred {x : UInt32} (h : 0 < x.toNat) : (x - 1).toNat = x.toNat - 1 :=
  UInt32.toNat_sub_of_le _ _ (UInt32.le_iff_toNat_le.2 h)

/-- The offset of the previous block, once it has been set in column 1. -/
theorem LoopState.rotated (hinst : inst.Laid) (hi : pos.Computes inst i) (h : LoopState inst pos i s) :
    (if s.currOffset % inst.laneLength = 1 then s.currOffset - 1 else s.prevOffset).toNat =
      blockIndex inst pos.lane.toNat (previousColumn inst (columnAt inst pos i)) := by
  have hcolumn := columnAt_lt hinst hi
  by_cases h1 : columnAt inst pos i = 1
  · rw [if_pos ((offset_mod_eq_iff h.currOffset hcolumn 1).2 h1)]
    have hcurr := h.currOffset
    rw [h1, blockIndex] at hcurr
    rw [toNat_pred (by omega), hcurr, h1]
    rfl
  · rw [if_neg fun hc => h1 ((offset_mod_eq_iff h.currOffset hcolumn 1).1 hc)]
    exact h.prevOffset h1

theorem toNat_curr (hinst : inst.Laid) (hlane : pos.lane.toNat < inst.lanes.toNat) {k : UInt32}
    (hcolumn : columnAt inst pos k.toNat < inst.laneLength.toNat) :
    (pos.lane * inst.laneLength + pos.slice.toUInt32 * inst.segmentLength + k).toNat =
      blockIndex inst pos.lane.toNat (columnAt inst pos k.toNat) := by
  have hlt := (blockIndex_lt hinst hlane hcolumn).trans inst.memoryBlocks.toNat_lt
  rw [blockIndex, columnAt] at hlt ⊢
  rw [UInt32.toNat_add, UInt32.toNat_add, UInt32.toNat_mul, UInt32.toNat_mul, UInt8.toNat_toUInt32,
    Nat.mod_eq_of_lt (by omega : pos.lane.toNat * inst.laneLength.toNat < 2 ^ 32),
    Nat.mod_eq_of_lt (by omega : pos.slice.toNat * inst.segmentLength.toNat < 2 ^ 32),
    Nat.mod_eq_of_lt (by omega : pos.lane.toNat * inst.laneLength.toNat +
      pos.slice.toNat * inst.segmentLength.toNat < 2 ^ 32), Nat.mod_eq_of_lt (by omega), Nat.add_assoc]

theorem toNat_prev (hinst : inst.Laid) {curr : UInt32} {lane column : Nat}
    (hlane : lane < inst.lanes.toNat) (hcolumn : column < inst.laneLength.toNat)
    (h : curr.toNat = blockIndex inst lane column) :
    (if 0 = curr % inst.laneLength then curr + inst.laneLength - 1 else curr - 1).toNat =
      blockIndex inst lane (previousColumn inst column) := by
  have hiff := offset_mod_eq_iff h hcolumn 0
  have hpos := hinst.laneLength_pos
  by_cases h0 : column = 0
  · have hlast := (blockIndex_lt hinst hlane (Nat.sub_lt hpos Nat.one_pos)).trans
      inst.memoryBlocks.toNat_lt
    rw [blockIndex] at hlast
    have hsum : (curr + inst.laneLength).toNat = curr.toNat + inst.laneLength.toNat := by
      have hmax := blockIndex_lt hinst hlane (Nat.sub_lt hpos Nat.one_pos)
      have hmem := inst.memoryBlocks.toNat_lt
      rw [blockIndex] at hmax
      rw [h0, blockIndex] at h
      rw [UInt32.toNat_add]
      exact Nat.mod_eq_of_lt (by omega)
    rw [if_pos (hiff.2 h0).symm, toNat_pred (by omega), hsum, h, h0, previousColumn, if_pos rfl,
      blockIndex, blockIndex]
    omega
  · have hcurr := h
    rw [blockIndex] at hcurr
    rw [if_neg fun hc => h0 (hiff.1 hc.symm), toNat_pred (by omega), h, previousColumn, if_neg h0,
      blockIndex, blockIndex]
    omega

/-- The loop starts in its first state. -/
theorem loopState_startLocals (hinst : inst.Laid) (hlane : pos.lane.toNat < inst.lanes.toNat)
    (hslice : pos.slice.toNat < 4) :
    LoopState inst pos (startingIndex pos).toNat (startLocals inst pos) := by
  have hsegment := hinst.segmentLength
  have hcolumn : columnAt inst pos (startingIndex pos).toNat < inst.laneLength.toNat := by
    have hfull := Nat.mul_le_mul_right inst.segmentLength.toNat (Nat.le_of_lt_succ hslice)
    rw [columnAt, startingIndex, hinst.laneLength]
    split_ifs with h
    · rw [← h.2]
      change 0 * inst.segmentLength.toNat + 2 < _
      omega
    · change _ + 0 < _
      omega
  have hcurr := toNat_curr hinst hlane hcolumn
  have hprev := toNat_prev hinst hlane hcolumn hcurr
  unfold startLocals
  dsimp only
  generalize hs : Locals.mk _ _ _ _ = s
  have hscurr : s.currOffset.toNat =
      blockIndex inst pos.lane.toNat (columnAt inst pos (startingIndex pos).toNat) := by
    rw [← hs]
    exact hcurr
  have hsprev : s.prevOffset.toNat = blockIndex inst pos.lane.toNat
      (previousColumn inst (columnAt inst pos (startingIndex pos).toNat)) := by
    rw [← hs]
    exact hprev
  have hsinput : dataIndependentAddressing inst pos = true →
      s.inputBlock = inputBlockAt inst pos 0 := by
    intro hind
    rw [← hs, inputBlockAt_zero]
    exact if_pos hind
  by_cases hfirst : 0 = pos.pass ∧ 0 = pos.slice ∧ dataIndependentAddressing inst pos
  · have hstart : (startingIndex pos).toNat = 2 := by
      rw [startingIndex, if_pos ⟨hfirst.1, hfirst.2.1⟩]
      rfl
    rw [if_pos hfirst, nextAddresses_eq (hsinput hfirst.2.2)]
    refine ⟨hscurr, fun _ => hsprev, fun _ => ?_, fun _ _ => ?_⟩
    · rw [hstart]
    · rw [hstart]
  · rw [if_neg hfirst]
    have hstart : dataIndependentAddressing inst pos = true → (startingIndex pos).toNat = 0 := by
      intro hind
      rw [startingIndex, if_neg fun h => hfirst ⟨h.1, h.2, hind⟩]
      rfl
    refine ⟨hscurr, fun _ => hsprev, fun hind => ?_, fun hind hpos => ?_⟩
    · rw [hstart hind]
      exact hsinput hind
    · rw [hstart hind] at hpos
      exact absurd hpos (Nat.lt_irrefl 0)

/-! ## One iteration -/

/-- The address block is renewed at every multiple of 128. -/
theorem LoopState.addresses (hi : pos.Computes inst i) (h : LoopState inst pos i s)
    (hind : dataIndependentAddressing inst pos = true) {s' : Locals}
    (hs' : s' = if dataIndependentAddressing inst pos ∧ UInt32.ofNat i % 128 = 0 then nextAddresses s
      else s) :
    s'.inputBlock = inputBlockAt inst pos (i / 128 + 1) ∧
      s'.addressBlock = addressBlockAt inst pos (i / 128 + 1) ∧
        s'.currOffset = s.currOffset := by
  have hlt := hi.lt.trans inst.segmentLength.toNat_lt
  have hmod : UInt32.ofNat i % 128 = 0 ↔ i % 128 = 0 := by
    rw [← UInt32.toNat_inj, UInt32.toNat_mod, toNat_ofNat_of_lt hlt]
    rfl
  by_cases h0 : i % 128 = 0
  · have hn : (i + 127) / 128 = i / 128 := by omega
    have hinput := h.inputBlock hind
    rw [hn] at hinput
    rw [hs', if_pos ⟨hind, hmod.2 h0⟩, nextAddresses_eq hinput]
    exact ⟨rfl, rfl, rfl⟩
  · have hn : (i + 127) / 128 = i / 128 + 1 := by omega
    have hinput := h.inputBlock hind
    have haddress := h.addressBlock hind (by omega)
    rw [hn] at hinput haddress
    rw [hs', if_neg fun hc => h0 (hmod.1 hc.2)]
    exact ⟨hinput, haddress, rfl⟩

theorem refLane_lt (hinst : inst.Laid) (hlane : pos.lane.toNat < inst.lanes.toNat) (rand : UInt64) :
    refLane inst pos rand < inst.lanes.toNat := by
  rw [refLane]
  split_ifs
  · exact hlane
  · exact Nat.mod_lt _ hinst.lanes

/-- The block that is referenced, computed in 64 bits as in the source. -/
theorem toNat_refBlock (hinst : inst.Laid) (hi : pos.Computes inst i) (rand : UInt64) {lane : UInt64}
    (hlane : lane = if pos.pass = 0 ∧ pos.slice = 0 then pos.lane.toUInt64
      else (rand >>> 32) % inst.lanes.toUInt64) :
    lane.toNat = refLane inst pos rand ∧
      (inst.laneLength.toUInt64 * lane).toNat = refLane inst pos rand * inst.laneLength.toNat := by
  have hrefLane : lane.toNat = refLane inst pos rand := by
    rw [hlane, refLane, apply_ite UInt64.toNat, UInt64.toNat_mod, UInt64.toNat_shiftRight,
      UInt32.toNat_toUInt64, UInt32.toNat_toUInt64, ← Nat.shiftRight_eq_div_pow]
    rfl
  have hlanes := refLane_lt hinst hi.lane rand
  have hfits := (Nat.mul_lt_mul'' (hlanes.trans inst.lanes.toNat_lt) inst.laneLength.toNat_lt).trans_eq
    (pow_add 2 32 32).symm
  refine ⟨hrefLane, ?_⟩
  rw [UInt64.toNat_mul, hrefLane, UInt32.toNat_toUInt64, Nat.mul_comm, Nat.mod_eq_of_lt hfits]

/-- An iteration takes its pseudo-random number and fills one block; its local variables do not depend
on the memory. -/
theorem fillSegmentBody_eq (hinst : inst.Laid) (hi : pos.Computes inst i) (h : LoopState inst pos i s) :
    ∃ s', LoopState inst pos (i + 1) s' ∧
      fillSegmentBody inst pos i s =
        (do
          let rand ← pseudoRand inst pos i
          fillBlockAt (blockIndex inst pos.lane.toNat (previousColumn inst (columnAt inst pos i)))
            (blockIndex inst (refLane inst pos rand) (refColumn inst pos i rand))
            (blockIndex inst pos.lane.toNat (columnAt inst pos i)) (withXor inst pos)
          pure s') := by
  have hlt := hi.lt.trans inst.segmentLength.toNat_lt
  have hcolumn := columnAt_lt hinst hi
  have hrotated := h.rotated hinst hi
  generalize hprev : (if s.currOffset % inst.laneLength = 1 then s.currOffset - 1
    else s.prevOffset) = prev at hrotated
  generalize hs' : (if dataIndependentAddressing inst pos ∧ UInt32.ofNat i % 128 = 0
    then nextAddresses s else s) = s'
  have hcurr : s'.currOffset.toNat = blockIndex inst pos.lane.toNat (columnAt inst pos i) := by
    rw [← hs', ← h.currOffset]
    split_ifs
    · rw [nextAddresses_currOffset]
    · rfl
  refine ⟨{ s' with currOffset := s'.currOffset + 1, prevOffset := prev + 1 }, ?_, ?_⟩
  · have hblock := blockIndex_lt hinst hi.lane hcolumn
    have hprevBlock := blockIndex_lt hinst hi.lane (previousColumn_lt hinst hcolumn)
    have hn : (i + 1 + 127) / 128 = i / 128 + 1 := by omega
    refine ⟨?_, fun hne => ?_, fun hind => ?_, fun hind _ => ?_⟩
    · rw [toNat_succ (hcurr.trans_lt hblock), hcurr]
      rfl
    · have hsucc : columnAt inst pos (i + 1) = columnAt inst pos i + 1 := rfl
      rw [toNat_succ (hrotated.trans_lt hprevBlock), hrotated, hsucc, previousColumn, previousColumn,
        if_neg (by omega), if_neg (by omega), blockIndex, blockIndex]
      omega
    · rw [hn]
      exact (h.addresses hi hind hs'.symm).1
    · rw [hn]
      exact (h.addresses hi hind hs'.symm).2.1
  · have href : ∀ rand : UInt64,
        (inst.laneLength.toUInt64 * if pos.pass = 0 ∧ pos.slice = 0 then pos.lane.toUInt64
          else rand >>> 32 % inst.lanes.toUInt64).toNat +
          (indexAlpha inst { pos with index := UInt32.ofNat i } (rand &&& 0xFFFFFFFF).toUInt32
            ((if pos.pass = 0 ∧ pos.slice = 0 then pos.lane.toUInt64
              else rand >>> 32 % inst.lanes.toUInt64) = pos.lane.toUInt64)).toNat =
          blockIndex inst (refLane inst pos rand) (refColumn inst pos i rand) := by
      intro rand
      rcases toNat_refBlock hinst hi rand rfl with ⟨hlane, hmul⟩
      have hsame : decide ((if pos.pass = 0 ∧ pos.slice = 0 then pos.lane.toUInt64
          else rand >>> 32 % inst.lanes.toUInt64) = pos.lane.toUInt64) =
          decide (refLane inst pos rand = pos.lane.toNat) := by
        refine decide_eq_decide.2 ?_
        rw [← UInt64.toNat_inj, hlane, UInt32.toNat_toUInt64]
      rw [hmul, hsame]
      rfl
    unfold fillSegmentBody
    dsimp only
    rw [hprev, hs']
    simp only [href, hcurr, hrotated]
    by_cases hind : dataIndependentAddressing inst pos = true
    · have hmod : (UInt32.ofNat i % 128).toNat = i % 128 := by
        rw [UInt32.toNat_mod, toNat_ofNat_of_lt hlt]
        rfl
      rw [if_pos hind, pseudoRand, if_pos hind, (h.addresses hi hind hs'.symm).2.1, hmod]
      rfl
    · rw [if_neg hind, pseudoRand, if_neg hind]
      rfl

end Body

end Argon2id
