import Argon2id.Libargon2.Initialized

/-!
# Libargon2.AccessPattern — which words are accessed, and when

An observer of the memory may see which words a run accesses.  With data-independent addressing this does
not depend on the password, nor on anything else that is hashed.

- `trace_computeTag`: the accesses of the whole computation in Argon2i
- `trace_computeTag_prefix`: those up to the middle of the first pass in Argon2id
-/

namespace Argon2id

open SharedMemory

section AccessPattern

variable {inst : Instance} {r s l : Nat}

/-! ## Slices -/

/-- The accesses of a segment, in order. -/
def segmentAccesses (inst : Instance) (pos : Position) : List (Nat × Bool) :=
  (List.range' (startingIndex pos).toNat
    (inst.segmentLength.toNat - (startingIndex pos).toNat)).flatMap (indexAccesses inst pos)

/-- The accesses of a slice, lane by lane. -/
def sliceAccesses (inst : Instance) (r s : Nat) : List (Nat × Bool) :=
  (List.range' 0 inst.lanes.toNat).flatMap fun l => segmentAccesses inst (positionAt r s l)

/-- With data-independent addressing, the accesses of a slice are the same for every memory. -/
theorem oblivious_fillSlice (hinst : inst.Laid) (hr : r < inst.passes.toNat) (hs : s < 4)
    (hind : inst.type = .i ∨ inst.type = .id ∧ r = 0 ∧ s < 2) :
    Oblivious (fun _ => True) (fillSlice inst r s) (sliceAccesses inst r s) := by
  refine Oblivious.loop (I := fun _ _ => True) (fun l _ _ hl _ => ?_) trivial
  have h : InRange inst r s l := ⟨hr, hs, by omega⟩
  have hlane : (positionAt r s l).lane.toNat < inst.lanes.toNat := h.toNat_lane.symm ▸ h.lane
  have hslice : (positionAt r s l).slice.toNat < 4 := h.toNat_slice.symm ▸ h.slice
  refine oblivious_fillSegment hinst hlane hslice (decide_eq_true ?_)
  rcases hind with htype | ⟨htype, hzero, hhalf⟩
  · exact Or.inl htype
  · refine Or.inr ⟨htype, h.pass_eq_zero.2 hzero, UInt32.lt_iff_toNat_lt.2 ?_⟩
    rw [UInt8.toNat_toUInt32, h.toNat_slice]
    exact hhalf

/-! ## The whole computation -/

theorem oblivious_loadBlockTo (dst : Nat) (input : Bytes) :
    Oblivious (fun _ => True) (loadBlockTo dst input) (blockAccesses dst true) :=
  Oblivious.loop (I := fun _ _ => True) (fun j _ _ _ _ => Oblivious.set (word dst j) _ trivial)
    trivial

/-- The first two blocks of a lane. -/
def laneAccesses (inst : Instance) (l : Nat) : List (Nat × Bool) :=
  blockAccesses (UInt32.ofNat l * inst.laneLength + 0).toNat true ++
    blockAccesses (UInt32.ofNat l * inst.laneLength + 1).toNat true

theorem oblivious_fillFirstBlocksBody (inst : Instance) (l : Nat) (locals : Bytes × Bytes) :
    Oblivious (fun _ => True) (fillFirstBlocksBody inst l locals) (laneAccesses inst l) :=
  (oblivious_loadBlockTo _ _).bind fun _ _ =>
    (oblivious_loadBlockTo _ _).bind_pure fun _ _ => trivial

/-- The accesses of `fill_first_blocks`. -/
def firstAccesses (inst : Instance) : List (Nat × Bool) :=
  (List.range' 0 inst.lanes.toNat).flatMap (laneAccesses inst)

theorem oblivious_fillFirstBlocks (inst : Instance) (blockhash : Bytes) :
    Oblivious (fun _ => True) (fillFirstBlocks inst blockhash) (firstAccesses inst) := by
  have hloop : Oblivious (fun _ => True)
      (loop (fillFirstBlocksBody inst) 0 inst.lanes.toNat (blockhash, zeros blockSize))
      (firstAccesses inst) :=
    Oblivious.loop (I := fun _ _ => True)
      (fun l locals _ _ _ => oblivious_fillFirstBlocksBody inst l locals) trivial
  exact hloop.bind_pure fun _ _ => trivial

/-- The accesses of filling the memory, slice by slice. -/
def matrixAccesses (inst : Instance) : List (Nat × Bool) :=
  (List.range' 0 inst.passes.toNat).flatMap fun r =>
    (List.range' 0 syncPoints.toNat).flatMap (sliceAccesses inst r)

theorem oblivious_fillMemoryBlocksSt (hinst : inst.Laid) (htype : inst.type = .i) :
    Oblivious (fun _ => True) (fillMemoryBlocksSt inst) (matrixAccesses inst) := by
  refine Oblivious.loop (I := fun _ _ => True) (fun r _ _ hr _ => ?_) trivial
  refine Oblivious.loop (I := fun _ _ => True) (fun s _ _ hs _ => ?_) trivial
  exact oblivious_fillSlice hinst (by omega) (hs.trans_eq rfl) (Or.inl htype)

/-- The last block of a lane. -/
def lastBlockAccesses (inst : Instance) (l : Nat) : List (Nat × Bool) :=
  blockAccesses (UInt32.ofNat l * inst.laneLength + (inst.laneLength - 1)).toNat false

theorem oblivious_finalizeBody (inst : Instance) (l : Nat) (b : Block) :
    Oblivious (fun _ => True) (finalizeBody inst l b) (lastBlockAccesses inst l) :=
  oblivious_xorBlockFrom

/-- The accesses of `finalize`. -/
def lastAccesses (inst : Instance) : List (Nat × Bool) :=
  blockAccesses (inst.laneLength - 1).toNat false ++
    (List.range' 1 (inst.lanes.toNat - 1)).flatMap (lastBlockAccesses inst)

theorem oblivious_finalizeTag (inst : Instance) (outlen : UInt32) (out : Bytes) :
    Oblivious (fun _ => True) (finalizeTag inst outlen out) (lastAccesses inst) := by
  refine oblivious_copyBlockFrom.bind fun b _ => ?_
  have hloop : Oblivious (fun _ => True) (loop (finalizeBody inst) 1 (inst.lanes.toNat - 1) b)
      ((List.range' 1 (inst.lanes.toNat - 1)).flatMap (lastBlockAccesses inst)) :=
    Oblivious.loop (I := fun _ _ => True) (fun l b _ _ _ => oblivious_finalizeBody inst l b) trivial
  exact hloop.bind_pure fun _ _ => trivial

/-- In Argon2i, the accesses of the whole computation depend on the parameters only: neither on what is
hashed nor on what the memory contains. -/
theorem trace_computeTag (hinst : inst.Laid) (htype : inst.type = .i) (blockhash : Bytes)
    (outlen : UInt32) (out : Bytes) (m : Memory) :
    (computeTag inst blockhash outlen out).trace m =
      firstAccesses inst ++ (matrixAccesses inst ++ lastAccesses inst) := by
  have hrun : Oblivious (fun _ => True) (computeTag inst blockhash outlen out)
      (firstAccesses inst ++ (matrixAccesses inst ++ lastAccesses inst)) :=
    (oblivious_fillFirstBlocks inst blockhash).bind fun _ _ =>
      (oblivious_fillMemoryBlocksSt hinst htype).bind fun _ _ => oblivious_finalizeTag inst outlen out
  exact hrun.trace_eq m

theorem trace_computeTag_sample :
    (computeTag (Instance.sample 2 2 .i) (zeros 72) 4 []).trace (fun _ => 0) =
      firstAccesses (Instance.sample 2 2 .i) ++ (matrixAccesses (Instance.sample 2 2 .i) ++
        lastAccesses (Instance.sample 2 2 .i)) :=
  trace_computeTag (Instance.laid_sample .i (by decide) (by decide) (by decide)) rfl _ 4 [] _

/-- In Argon2id, so do the accesses up to the middle of the first pass. -/
theorem trace_computeTag_prefix (hinst : inst.Laid) (htype : inst.type = .id)
    (hpasses : 0 < inst.passes.toNat) (blockhash : Bytes) (outlen : UInt32) (out : Bytes) (m : Memory) :
    firstAccesses inst ++ (sliceAccesses inst 0 0 ++ sliceAccesses inst 0 1) <+:
      (computeTag inst blockhash outlen out).trace m := by
  obtain ⟨passes, hsucc⟩ := Nat.exists_eq_add_of_le' hpasses
  have hzero := oblivious_fillSlice hinst hpasses (by decide : 0 < 4) (Or.inr ⟨htype, rfl, by decide⟩)
  have hone := oblivious_fillSlice hinst hpasses (by decide : 1 < 4) (Or.inr ⟨htype, rfl, by decide⟩)
  rw [computeTag, trace_bind, (oblivious_fillFirstBlocks inst blockhash).trace_eq,
    List.prefix_append_right_inj, trace_bind, fillMemoryBlocksSt_eq, hsucc, loop, trace_bind, fillPass,
    show syncPoints.toNat = 2 + 1 + 1 from rfl, loop, trace_bind, loop, trace_bind, hzero.trace_eq,
    hone.trace_eq, List.append_assoc, List.append_assoc, List.append_assoc, ← List.append_assoc]
  exact List.prefix_append _ _

theorem trace_computeTag_prefix_sample :
    firstAccesses (Instance.sample 2 2 .id) ++ (sliceAccesses (Instance.sample 2 2 .id) 0 0 ++
        sliceAccesses (Instance.sample 2 2 .id) 0 1) <+:
      (computeTag (Instance.sample 2 2 .id) (zeros 72) 4 []).trace fun _ => 0 :=
  trace_computeTag_prefix (Instance.laid_sample .id (by decide) (by decide) (by decide)) rfl (by decide)
    _ 4 [] _

end AccessPattern

end Argon2id
