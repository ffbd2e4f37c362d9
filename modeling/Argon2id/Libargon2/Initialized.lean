import Argon2id.Libargon2.ComputeResults

/-!
# Libargon2.Initialized — no word is read before it has been written

The working memory comes from `malloc`, with whatever it contains.

- `within_fillMemoryBlocksSt`: what has been written when a segment is filled is all that it reads
- `within_computeTag`: so the computation reads nothing that it has not written before
- `computeTag_runArray`: on an array of the size of the memory it computes the tag, without any access
  out of bounds
-/

namespace Argon2id

open SharedMemory

section Initialized

variable {inst : Instance} {r s l : Nat}

/-! ## What has been written -/

/-- The words of the blocks that have been written, when in pass `r` the slices before `s` are filled,
and in slice `s` the lanes before `l`. -/
def filledWords (inst : Instance) (r s l : Nat) : Set Nat :=
  {a | ∃ lane column, lane < inst.lanes.toNat ∧ column < inst.laneLength.toNat ∧
    a ∈ words (blockIndex inst lane column) ∧ (r = 0 → column < 2 ∨ Done inst s l lane column)}

/-- When a segment is filled, all that it may read has been written. -/
theorem readableWords_subset_filled (h : InRange inst r s l) :
    readableWords inst (positionAt r s l) (startingIndex (positionAt r s l)).toNat ⊆
      filledWords inst r s l := by
  rintro a ⟨lane, column, hread, ha⟩
  refine ⟨lane, column, hread.lane_lt, hread.column_lt, ha, fun hr => ?_⟩
  have hpass := hread.pass (h.pass_eq_zero.2 hr)
  rw [h.columnAt, h.startingIndex] at hpass
  split_ifs at hpass with hfirst
  · rw [hfirst.2] at hpass
    exact Or.inl (by omega)
  · exact Or.inr (Or.inl (Nat.div_lt_of_lt_mul (by rw [Nat.mul_comm]; omega)))

/-- Afterwards, its own blocks have been written. -/
theorem filledWords_succ_subset (hinst : inst.Laid) (h : InRange inst r s l) :
    filledWords inst r s (l + 1) ⊆
      readableWords inst (positionAt r s l) inst.segmentLength.toNat ∪ filledWords inst r s l := by
  rintro a ⟨lane, column, hlane, hcolumn, ha, hdone⟩
  by_cases hbefore : r = 0 → column < 2 ∨ Done inst s l lane column
  · exact Or.inr ⟨lane, column, hlane, hcolumn, ha, hbefore⟩
  · have hsegment := hinst.segmentLength
    obtain ⟨hr, hnot⟩ := Classical.not_imp.1 hbefore
    have hown : column / inst.segmentLength.toNat = s ∧ lane = l := by
      have hdone' := hdone hr
      unfold Done at hdone' hnot
      omega
    have hlt : column < (s + 1) * inst.segmentLength.toNat :=
      (Nat.div_lt_iff_lt_mul (by omega)).1 (by omega)
    refine Or.inl ⟨lane, column, ⟨hlane, hcolumn, fun _ => hown.2.trans h.toNat_lane.symm, fun _ => ?_⟩,
      ha⟩
    rw [h.columnAt, ← Nat.succ_mul]
    exact hlt

/-! ## Filling the memory -/

theorem within_segment (hinst : inst.Laid) (h : InRange inst r s l) :
    Within (matrixWords inst) (filledWords inst r s (l + 1)) (fun _ => True)
      (fillSegment inst (positionAt r s l)) (filledWords inst r s l) := by
  have hlane : (positionAt r s l).lane.toNat < inst.lanes.toNat := h.toNat_lane.symm ▸ h.lane
  have hslice : (positionAt r s l).slice.toNat < 4 := h.toNat_slice.symm ▸ h.slice
  have hframe := (within_fillSegment hinst hlane hslice).frame (filledWords inst r s l)
  rw [Set.union_eq_self_of_subset_left (readableWords_subset_filled h)] at hframe
  exact hframe.mono (segmentWords_subset hinst) (Set.Subset.refl _) (filledWords_succ_subset hinst h)
    fun _ h => h

theorem within_fillSlice (hinst : inst.Laid) (hr : r < inst.passes.toNat) (hs : s < 4) :
    Within (matrixWords inst) (filledWords inst r (s + 1) 0) (fun _ => True) (fillSlice inst r s)
      (filledWords inst r s 0) := by
  have hloop : Within (matrixWords inst) (filledWords inst r s (0 + inst.lanes.toNat)) (fun _ => True)
      (fillSlice inst r s) (filledWords inst r s 0) :=
    Within.loop (K := filledWords inst r s) (I := fun _ _ => True)
      (fun l _ _ hl _ => within_segment hinst ⟨hr, hs, by omega⟩) trivial
  rw [Nat.zero_add] at hloop
  refine hloop.mono (Set.Subset.refl _) (Set.Subset.refl _) ?_ fun _ h => h
  rintro a ⟨lane, column, hlane, hcolumn, ha, hdone⟩
  exact ⟨lane, column, hlane, hcolumn, ha, fun hr => (hdone hr).imp_right (done_lanes hlane).2⟩

theorem within_fillPass (hinst : inst.Laid) (hr : r < inst.passes.toNat) :
    Within (matrixWords inst) (filledWords inst (r + 1) 0 0) (fun _ => True) (fillPass inst r)
      (filledWords inst r 0 0) := by
  have hloop : Within (matrixWords inst) (filledWords inst r (0 + syncPoints.toNat) 0) (fun _ => True)
      (fillPass inst r) (filledWords inst r 0 0) :=
    Within.loop (K := fun s => filledWords inst r s 0) (I := fun _ _ => True)
      (fun s _ _ hs _ => within_fillSlice hinst hr (hs.trans_eq rfl)) trivial
  refine hloop.mono (Set.Subset.refl _) (Set.Subset.refl _) ?_ fun _ h => h
  rintro a ⟨lane, column, hlane, hcolumn, ha, _⟩
  exact ⟨lane, column, hlane, hcolumn, ha, fun _ => Or.inr (Or.inl (slice_lt hinst hcolumn))⟩

theorem within_fillMemoryBlocksSt (hinst : inst.Laid) :
    Within (matrixWords inst) (filledWords inst inst.passes.toNat 0 0) (fun _ => True)
      (fillMemoryBlocksSt inst) (filledWords inst 0 0 0) := by
  have hloop : Within (matrixWords inst) (filledWords inst (0 + inst.passes.toNat) 0 0) (fun _ => True)
      (fillMemoryBlocksSt inst) (filledWords inst 0 0 0) :=
    Within.loop (K := fun r => filledWords inst r 0 0) (I := fun _ _ => True)
      (fun r _ _ hr _ => within_fillPass hinst (by omega)) trivial
  rwa [Nat.zero_add] at hloop

/-! ## The first blocks, and the last ones -/

theorem within_loadBlockTo (hinst : inst.Laid) {lane : Nat} (hlane : lane < inst.lanes.toNat)
    (column : UInt32) (hcolumn : column.toNat < inst.laneLength.toNat) (input : Bytes) (S : Set Nat) :
    Within (matrixWords inst) (S ∪ words (blockIndex inst lane column.toNat)) (fun _ => True)
      (loadBlockTo (UInt32.ofNat lane * inst.laneLength + column).toNat input) S := by
  rw [toNat_offset hinst hlane column hcolumn]
  exact within_stored (words_subset_matrix hinst hlane hcolumn)

/-- The words of the first two blocks of the lanes before `l`. -/
def firstWords (inst : Instance) (l : Nat) : Set Nat :=
  {a | ∃ lane column, lane < l ∧ column < 2 ∧ a ∈ words (blockIndex inst lane column)}

theorem within_fillFirstBlocksBody (hinst : inst.Laid) (hl : l < inst.lanes.toNat)
    (locals : Bytes × Bytes) :
    Within (matrixWords inst) (firstWords inst (l + 1)) (fun _ => True)
      (fillFirstBlocksBody inst l locals) (firstWords inst l) := by
  have hlength := hinst.laneLength
  have hsegment := hinst.segmentLength
  have hone : (1 : UInt32).toNat < inst.laneLength.toNat := by
    change 1 < _
    omega
  refine (within_loadBlockTo hinst hl 0 hinst.laneLength_pos _ _).bind fun _ _ =>
    (within_loadBlockTo hinst hl 1 hone _ _).bind fun _ _ => Within.pure ?_ trivial
  rintro a ⟨lane, column, hlane, hcolumn, ha⟩
  by_cases hown : lane = l
  · subst hown
    rcases Nat.le_one_iff_eq_zero_or_eq_one.1 (Nat.le_of_lt_succ hcolumn) with rfl | rfl
    · exact Or.inl (Or.inr ha)
    · exact Or.inr ha
  · exact Or.inl (Or.inl ⟨lane, column, by omega, hcolumn, ha⟩)

/-- The first two blocks of every lane do not depend on anything in the memory. -/
theorem within_fillFirstBlocks (hinst : inst.Laid) (blockhash : Bytes) :
    Within (matrixWords inst) (filledWords inst 0 0 0) (fun _ => True) (fillFirstBlocks inst blockhash)
      ∅ := by
  have hloop := Within.loop (i := 0) (n := inst.lanes.toNat) (K := firstWords inst) (I := fun _ _ => True)
    (fun l locals _ hl _ => within_fillFirstBlocksBody hinst (by omega) locals)
    (s := (blockhash, zeros blockSize)) trivial
  rw [Nat.zero_add] at hloop
  refine Within.bind (hloop.mono (Set.Subset.refl _) ?_ (Set.Subset.refl _) fun _ h => h)
    fun _ _ => Within.pure ?_ trivial
  · rintro a ⟨lane, _, hlane, _⟩
    exact absurd hlane (Nat.not_lt_zero lane)
  · rintro a ⟨lane, column, hlane, _, ha, hdone⟩
    exact ⟨lane, column, hlane, (hdone rfl).resolve_right (done_zero lane column), ha⟩

theorem within_finalizeTag (hinst : inst.Laid) (outlen : UInt32) (out : Bytes) {S : Set Nat}
    (hS : ∀ lane, lane < inst.lanes.toNat →
      words (blockIndex inst lane (inst.laneLength.toNat - 1)) ⊆ S) :
    Within (matrixWords inst) ∅ (fun _ => True) (finalizeTag inst outlen out) S := by
  have hlanes := hinst.lanes
  have hlast := toNat_pred hinst.laneLength_pos
  have hlt := Nat.sub_lt hinst.laneLength_pos Nat.one_pos
  have hfirst : words (inst.laneLength - 1).toNat ⊆ S := by
    have hzero := hS 0 hlanes
    rwa [blockIndex, Nat.zero_mul, Nat.zero_add, ← hlast] at hzero
  refine (within_copyBlockFrom hfirst).bind fun b _ => ?_
  have hloop : Within (matrixWords inst) S (fun _ => True)
      (loop (finalizeBody inst) 1 (inst.lanes.toNat - 1) b) S :=
    Within.loop (K := fun _ => S) (I := fun _ _ => True) (fun l b _ hl _ => by
      rw [finalizeBody, toNat_offset hinst (by omega) _ (hlast.trans_lt hlt), hlast]
      exact within_xorBlockFrom (hS l (by omega))) trivial
  exact hloop.bind fun _ _ => Within.pure (Set.empty_subset S) trivial

/-- The computation reads nothing that it has not written before, whatever the memory contains. -/
theorem within_computeTag (hinst : inst.Laid) (hpasses : 0 < inst.passes.toNat) (blockhash : Bytes)
    (outlen : UInt32) (out : Bytes) :
    Within (matrixWords inst) ∅ (fun _ => True) (computeTag inst blockhash outlen out) ∅ := by
  refine (within_fillFirstBlocks hinst blockhash).bind fun _ _ =>
    (within_fillMemoryBlocksSt hinst).bind fun _ _ => within_finalizeTag hinst outlen out ?_
  intro lane hlane a ha
  exact ⟨lane, _, hlane, Nat.sub_lt hinst.laneLength_pos Nat.one_pos, ha,
    fun hzero => absurd hzero hpasses.ne'⟩

theorem within_computeTag_sample :
    Within (matrixWords (Instance.sample 2 2 .id)) ∅ (fun _ => True)
      (computeTag (Instance.sample 2 2 .id) (zeros 72) 4 []) ∅ :=
  within_computeTag (Instance.laid_sample .id (by decide) (by decide) (by decide)) (by decide) _ 4 []

/-! ## On an array -/

/-- On an array as long as the memory that is allocated, whatever it contains, the computation is the
tag, no access is out of bounds, and afterwards the array is the working memory. -/
theorem computeTag_runArray {plat : Platform} {context : Context} {type : Argon2Type}
    (hsized : context.Sized) (h : validateInputs plat context = .ok) (out : Bytes) {a : Array UInt64}
    (ha : a.size = (setupInstance context type).memoryBlocks.toNat * 128) :
    ∃ a', (computeTag (setupInstance context type) (blockhash context type) context.outlen
        out).runArray a = some (storeAt out 0 (argon2Tag (context.inputs type)), a') ∧
      a'.size = a.size ∧
      ∀ m : Memory, Holds a m → Holds a' ((computeTag (setupInstance context type)
        (blockhash context type) context.outlen out).run m).2 := by
  have hvalidated := validated_of_ok h
  have hinst := setupInstance_laid type hvalidated
  have houtlen := hvalidated.outlen
  have hwithin := within_computeTag hinst (show 0 < context.tCost.toNat from hvalidated.time)
    (blockhash context type) context.outlen out
  have hrunArray : ∀ m : Memory, Holds a m → _ := fun m hm =>
    hwithin.runArray (fun i hi => ha ▸ hi) (fun i hi => absurd hi (Set.notMem_empty i)) hm
  rcases hrunArray (fun i => a.getD i 0) fun i hi => Array.getElem_eq_getD 0 with
    ⟨a', hrun, hsize, _⟩
  refine ⟨a', ?_, hsize, fun m hm => ?_⟩
  · rw [hrun, computeTag, run_bind, run_bind, run_finalizeTag hinst (by omega),
      lastBlock_filled hsized hvalidated]
    rfl
  -- there is only one array at the end
  · rcases hrunArray m hm with ⟨a'', hrun', _, hholds⟩
    have heq := Option.some.inj (hrun.symm.trans hrun')
    rw [(Prod.mk.inj heq).2]
    exact hholds

theorem computeTag_runArray_sample : ∃ a',
    (computeTag (setupInstance Context.sample .id) (blockhash Context.sample .id) 4
      []).runArray (Array.replicate (16 * 128) 0) =
        some (storeAt [] 0 (argon2Tag (Context.sample.inputs .id)), a') ∧
      a'.size = 16 * 128 ∧
      Holds a' ((computeTag (setupInstance Context.sample .id) (blockhash Context.sample .id) 4
        []).run fun _ => 0).2 := by
  have hzero : Holds (Array.replicate (16 * 128) (0 : UInt64)) fun _ => 0 := fun i hi =>
    Array.getElem_replicate hi
  rcases computeTag_runArray Context.sized_sample
    (show validateInputs .x8664Linux Context.sample = .ok by decide) [] Array.size_replicate with
    ⟨a', hrun, hsize, hholds⟩
  exact ⟨a', hrun, hsize.trans Array.size_replicate, hholds _ hzero⟩

end Initialized

end Argon2id
