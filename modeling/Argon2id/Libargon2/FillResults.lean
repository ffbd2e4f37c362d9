import Argon2id.Libargon2.Matrix

/-!
# Libargon2.FillResults — filling the memory with threads

The threads of a slice write different lanes, and read only slices that no thread writes at the time.

- `wellForked_fillMemoryBlocksMt`, `sequential_fillMemoryBlocksMt`: so the threads are independent, and
  one after the other they do what the single thread does
- `fillMemoryBlocks_ok`: filling the memory has one result, whatever the threads and their order
- `fillMemoryBlocksMt_ends`, `fillMemoryBlocksMt_separate`, `fillMemoryBlocksMt_inBounds`: no run goes
  on for ever, is stuck, races or leaves the memory
- `exists_stuck_iff`: but with fewer threads than lanes, the creation of a thread must not fail
-/

namespace Argon2id

open SharedMemory Threads

section Fill

variable {inst : Instance} {pos : Position} {r s l : Nat}

/-! ## The footprint of a segment -/

/-- What the thread of a segment may write, and what it may read. -/
def segmentFootprint (inst : Instance) (pos : Position) : Footprint Nat where
  writes := segmentWords inst pos
  reads := readableWords inst pos (startingIndex pos).toNat ∪ segmentWords inst pos
  writes_subset := Set.subset_union_right

theorem uses_fillSegment (hinst : inst.Laid) (h : InRange inst r s l) :
    Uses (fillSegment inst (positionAt r s l)) (segmentFootprint inst (positionAt r s l)) := by
  have hlane : (positionAt r s l).lane.toNat < inst.lanes.toNat := h.toNat_lane.symm ▸ h.lane
  have hslice : (positionAt r s l).slice.toNat < 4 := h.toNat_slice.symm ▸ h.slice
  exact (within_fillSegment hinst hlane hslice).mono (Set.Subset.refl _) Set.subset_union_left
    (Set.empty_subset _) fun _ _ => trivial

/-- Blocks of the matrix that share a word are the same. -/
theorem block_unique {lane column lane' column' a : Nat} (h : column < inst.laneLength.toNat)
    (h' : column' < inst.laneLength.toNat) (ha : a ∈ words (blockIndex inst lane column))
    (ha' : a ∈ words (blockIndex inst lane' column')) : lane = lane' ∧ column = column' :=
  blockIndex_inj h h' (Eq.trans (Eq.symm ha) ha')

/-- What a segment writes, another lane of the same slice does not use. -/
theorem not_mem_reads (hinst : inst.Laid) {l' : Nat} (h : InRange inst r s l) (h' : InRange inst r s l')
    (hne : l ≠ l') {a : Nat} (ha : a ∈ (segmentFootprint inst (positionAt r s l)).writes) :
    a ∉ (segmentFootprint inst (positionAt r s l')).reads := by
  rcases ha with ⟨i, hi, ha⟩
  have hcolumn := columnAt_lt hinst hi
  have hslice := columnAt_div hi
  rw [h.toNat_slice] at hslice
  rw [h.toNat_lane] at ha
  rintro (⟨lane', column', hread, ha'⟩ | ⟨i', hi', ha'⟩)
  · rcases block_unique hcolumn hread.column_lt ha ha' with ⟨rfl, rfl⟩
    have hown := hread.own (hslice.trans h'.toNat_slice.symm)
    exact hne (hown.trans h'.toNat_lane)
  · rcases block_unique hcolumn (columnAt_lt hinst hi') ha ha' with ⟨heq, _⟩
    exact hne (heq.trans h'.toNat_lane)

theorem independent_segments (hinst : inst.Laid) {l' : Nat} (h : InRange inst r s l)
    (h' : InRange inst r s l') (hne : l ≠ l') :
    (segmentFootprint inst (positionAt r s l)).Independent
      (segmentFootprint inst (positionAt r s l')) :=
  ⟨fun _ ha => not_mem_reads hinst h h' hne ha, fun _ ha => not_mem_reads hinst h' h hne.symm ha⟩

/-! ## The threads of all slices -/

/-- The threads are independent and properly joined.  With fewer threads than lanes, no creation of a
thread may fail. -/
theorem wellForked_fillMemoryBlocksMt (hinst : inst.Laid) {fallible : Prop}
    (hfallible : fallible → inst.threads = inst.lanes) :
    WellForked fallible [] (fillMemoryBlocksMt inst) := by
  refine WellForked.flatMap fun r hr => WellForked.flatMap fun s hs => ?_
  have hin : ∀ l < inst.lanes.toNat, InRange inst r s l :=
    fun l hl => ⟨List.mem_range.1 hr, List.mem_range.1 hs, hl⟩
  refine wellForked_throttled (f := fun l => segmentFootprint inst (positionAt r s l)) hinst.threads
    hinst.threads_le (fun l hl => uses_fillSegment hinst (hin l hl)) (fun j k hjk hk => ?_) ?_
  · exact independent_segments hinst (hin j (hjk.trans hk)) (hin k hk) hjk.ne
  · intro hf
    rw [hfallible hf]

/-- One after the other, the threads do what the single thread does. -/
theorem sequential_fillMemoryBlocksMt (inst : Instance) (m : Memory) :
    sequential (fillMemoryBlocksMt inst) m = ((fillMemoryBlocksSt inst).run m).2 := by
  have hslice : ∀ r s m, sequential (throttled inst.threads.toNat inst.lanes.toNat fun l =>
      fillSegment inst (positionAt r s l)) m = ((fillSlice inst r s).run m).2 := by
    intro r s m
    rw [sequential_throttled, fillSlice, run_loop_eq_foldl, runJobs, List.range_eq_range']
  have hpass : ∀ r m, sequential ((List.range syncPoints.toNat).flatMap fun s =>
      throttled inst.threads.toNat inst.lanes.toNat fun l => fillSegment inst (positionAt r s l)) m =
        ((fillPass inst r).run m).2 := by
    intro r m
    rw [sequential_flatMap, fillPass, run_loop_eq_foldl, List.range_eq_range']
    simp only [hslice]
  rw [fillMemoryBlocksMt, sequential_flatMap, fillMemoryBlocksSt_eq, run_loop_eq_foldl,
    List.range_eq_range' (n := inst.passes.toNat)]
  simp only [hpass]

/-! ## Words of the matrix -/

/-- The words of the memory that `allocate_memory` allocates. -/
def matrixWords (inst : Instance) : Set Nat :=
  {a | a < inst.memoryBlocks.toNat * 128}

theorem words_subset_matrix (hinst : inst.Laid) {lane column : Nat} (hlane : lane < inst.lanes.toNat)
    (hcolumn : column < inst.laneLength.toNat) :
    words (blockIndex inst lane column) ⊆ matrixWords inst := by
  intro a ha
  have hdiv : a / 128 = blockIndex inst lane column := ha
  exact (Nat.div_lt_iff_lt_mul (by decide)).1 (hdiv.trans_lt (blockIndex_lt hinst hlane hcolumn))

theorem segmentWords_subset (hinst : inst.Laid) : segmentWords inst pos ⊆ matrixWords inst := by
  rintro a ⟨i, hi, ha⟩
  exact words_subset_matrix hinst hi.lane (columnAt_lt hinst hi) ha

theorem readableWords_subset (hinst : inst.Laid) (i : Nat) :
    readableWords inst pos i ⊆ matrixWords inst := by
  rintro a ⟨lane, column, hread, ha⟩
  exact words_subset_matrix hinst hread.lane_lt hread.column_lt ha

/-! ## Any order of the steps -/

section Runs

variable {fallible : Prop} {m m' : Memory} {state : State Nat UInt64}

theorem fillMemoryBlocksMt_memory (hinst : inst.Laid)
    (hreaches : Reaches fallible (.start (fillMemoryBlocksMt inst) m) state)
    (hdone : state.commands = []) (hfailed : state.failed = false) :
    state.memory = ((fillMemoryBlocksSt inst).run m).2 := by
  have hstart := Safe.start (wellForked_fillMemoryBlocksMt hinst False.elim) m
  have hrun := hreaches.of_not_failed hfailed
  rcases hstart.reaches hrun with ⟨running, hsafe⟩
  calc state.memory = outcome state := (hsafe.done hdone).2.symm
    _ = outcome (.start (fillMemoryBlocksMt inst) m) := hstart.outcome_reaches hrun hfailed
    _ = ((fillMemoryBlocksSt inst).run m).2 := sequential_fillMemoryBlocksMt inst m

/-- Whatever the number of threads and the order of their accesses, the memory that is filled is the one
that a single thread fills. -/
theorem fillMemoryBlocks_ok (hinst : inst.Laid) (h : FillMemoryBlocks fallible inst m .ok m') :
    m' = ((fillMemoryBlocksSt inst).run m).2 := by
  generalize hcode : ErrorCode.ok = code at h
  cases h with
  | noLanes _ => cases hcode
  | single _ _ => rfl
  | noArrays _ _ _ => cases hcode
  | @threads _ _ state hreaches hdone =>
      refine fillMemoryBlocksMt_memory hinst hreaches hdone ?_
      cases hfailed : state.failed with
      | false => rfl
      | true =>
          rw [hfailed] at hcode
          cases hcode

theorem Instance.Laid.lanes_ne (hinst : inst.Laid) : inst.lanes ≠ 0 := fun h => by
  have hlanes := hinst.lanes
  rw [h] at hlanes
  exact Nat.not_succ_le_zero 0 hlanes

/-- Where nothing fails, the memory is filled. -/
theorem exists_fillMemoryBlocks (hinst : inst.Laid) (m : Memory) :
    ∃ m', FillMemoryBlocks False inst m .ok m' := by
  by_cases hthreads : inst.threads = 1
  · exact ⟨_, .single hinst.lanes_ne hthreads⟩
  · have hstart := Safe.start (wellForked_fillMemoryBlocksMt hinst False.elim) m
    rcases hstart.exists_done with ⟨state, hreaches, hdone⟩
    have hfill := FillMemoryBlocks.threads hinst.lanes_ne hthreads hreaches hdone
    rw [if_neg (fun hfailed => hreaches.fallible rfl hfailed)] at hfill
    exact ⟨_, hfill⟩

theorem fillMemoryBlocks_ok_sample :
    ∃ m', FillMemoryBlocks False (Instance.sample 3 2 .id) (fun _ => 0) .ok m' ∧
      m' = ((fillMemoryBlocksSt (Instance.sample 3 2 .id)).run fun _ => 0).2 := by
  have hinst : (Instance.sample 3 2 .id).Laid :=
    Instance.laid_sample .id (by decide) (by decide) (by decide)
  rcases exists_fillMemoryBlocks hinst fun _ => 0 with ⟨m', h⟩
  exact ⟨m', h, fillMemoryBlocks_ok hinst h⟩

/-- Filling the memory fails only where threads or their arrays cannot be created. -/
theorem fillMemoryBlocks_error {code : ErrorCode} (hinst : inst.Laid)
    (h : FillMemoryBlocks fallible inst m code m') (hcode : code ≠ .ok) :
    fallible ∧ inst.threads ≠ 1 ∧ (code = .memoryAllocationError ∨ code = .threadFail) := by
  cases h with
  | noLanes hlanes => exact absurd hlanes hinst.lanes_ne
  | single _ _ => exact absurd rfl hcode
  | noArrays _ hthreads hfallible => exact ⟨hfallible, hthreads, Or.inl rfl⟩
  | @threads _ hthreads state hreaches _ =>
      by_cases hfailed : state.failed = true
      · rw [if_pos hfailed]
        exact ⟨hreaches.fallible rfl hfailed, hthreads, Or.inr rfl⟩
      · rw [if_neg hfailed] at hcode
        exact absurd rfl hcode

/-- The commands start with the first slice of the first pass. -/
theorem fillMemoryBlocksMt_first (hpasses : 0 < inst.passes.toNat) :
    ∃ commands, fillMemoryBlocksMt inst =
      throttled inst.threads.toNat inst.lanes.toNat (fun l => fillSegment inst (positionAt 0 0 l)) ++
        commands := by
  obtain ⟨passes, hsucc⟩ := Nat.exists_eq_add_of_le' hpasses
  have hfirst : ∀ (f : Nat → List (Command Nat UInt64)) (n : Nat),
      ∃ rest, (List.range (n + 1)).flatMap f = f 0 ++ rest :=
    fun f n => ⟨_, by rw [List.range_succ_eq_map, List.flatMap_cons]⟩
  rcases hfirst (fun s => throttled inst.threads.toNat inst.lanes.toNat fun l =>
    fillSegment inst (positionAt 0 s l)) 3 with ⟨slices, hslices⟩
  rcases hfirst (fun r => (List.range syncPoints.toNat).flatMap fun s =>
    throttled inst.threads.toNat inst.lanes.toNat fun l => fillSegment inst (positionAt r s l))
    passes with ⟨commands, hcommands⟩
  refine ⟨slices ++ commands, ?_⟩
  rw [fillMemoryBlocksMt, hsucc, ← List.append_assoc, ← hslices]
  exact hcommands

/-- As many threads run at the same time as there may be. -/
theorem exists_reaches_threads (hinst : inst.Laid) (hpasses : 0 < inst.passes.toNat) (m : Memory) :
    ∃ state, Reaches fallible (.start (fillMemoryBlocksMt inst) m) state ∧
      state.threads = (List.range' 0 inst.threads.toNat).map fun l =>
        (l, fillSegment inst (positionAt 0 0 l)) := by
  rcases fillMemoryBlocksMt_first hpasses with ⟨commands, heq⟩
  obtain ⟨others, hothers⟩ := Nat.exists_eq_add_of_le hinst.threads_le
  rw [heq, throttled, hothers, List.append_assoc]
  exact ⟨_, reaches_create fallible inst.threads.toNat _ _ m (Nat.le_of_eq (Nat.zero_add _)) others [],
    rfl⟩

/-- No run goes on for ever, and none gets stuck before the main thread is done. -/
theorem fillMemoryBlocksMt_ends (hinst : inst.Laid) (hfallible : fallible → inst.threads = inst.lanes)
    (hreaches : Reaches fallible (.start (fillMemoryBlocksMt inst) m) state) :
    Acc (fun s' s => Step fallible s s') state ∧
      (state.commands ≠ [] → ∃ s', Step fallible state s') ∧
        (state.commands = [] → state.threads = []) := by
  have hstart := Safe.start (wellForked_fillMemoryBlocksMt hinst hfallible) m
  rcases hstart.reaches hreaches with ⟨running, hsafe⟩
  exact ⟨(wellFounded_step fallible).apply state, hsafe.progress, fun hdone => (hsafe.done hdone).1⟩

theorem fillMemoryBlocksMt_ends_sample : ∃ state,
    Reaches True (.start (fillMemoryBlocksMt (Instance.sample 2 2 .d)) fun _ => 0) state ∧
      state.threads.length = 2 ∧ (state.commands ≠ [] → ∃ s', Step True state s') := by
  have hinst : (Instance.sample 2 2 .d).Laid :=
    Instance.laid_sample .d (by decide) (by decide) (by decide)
  rcases exists_reaches_threads hinst (by decide) fun _ => 0 with ⟨state, hreaches, hthreads⟩
  exact ⟨state, hreaches, by rw [hthreads]; rfl,
    (fillMemoryBlocksMt_ends hinst (fun _ => rfl) hreaches).2.1⟩

/-- Whatever fails, no two threads race. -/
theorem fillMemoryBlocksMt_separate (hinst : inst.Laid)
    (hreaches : Reaches fallible (.start (fillMemoryBlocksMt inst) m) state) :
    state.threads.Pairwise fun t u => t.1 ≠ u.1 ∧ ¬ Race t.2 u.2 := by
  rcases separate_reaches (wellForked_fillMemoryBlocksMt hinst False.elim) hreaches with
    ⟨running, hseparate⟩
  exact hseparate.pairwise_not_race

theorem fillMemoryBlocksMt_separate_sample : ∃ state,
    Reaches True (.start (fillMemoryBlocksMt (Instance.sample 3 2 .d)) fun _ => 0) state ∧
      state.threads.length = 2 ∧ state.threads.Pairwise fun t u => t.1 ≠ u.1 ∧ ¬ Race t.2 u.2 := by
  have hinst : (Instance.sample 3 2 .d).Laid :=
    Instance.laid_sample .d (by decide) (by decide) (by decide)
  rcases exists_reaches_threads hinst (by decide) fun _ => 0 with ⟨state, hreaches, hthreads⟩
  exact ⟨state, hreaches, by rw [hthreads]; rfl, fillMemoryBlocksMt_separate hinst hreaches⟩

/-- Whatever fails, no access leaves the memory. -/
theorem fillMemoryBlocksMt_inBounds (hinst : inst.Laid)
    (hreaches : Reaches fallible (.start (fillMemoryBlocksMt inst) m) state)
    {t : Nat × Prog Nat UInt64 Unit} (ht : t ∈ state.threads) {a : Nat} {w : Bool}
    (hnext : next t.2 = some (a, w)) : a < inst.memoryBlocks.toNat * 128 := by
  have hstart : Confined (matrixWords inst) (.start (fillMemoryBlocksMt inst) m) := by
    refine ⟨fun handle thread onFail hmem => ?_, fun t ht => nomatch ht⟩
    rcases List.mem_flatMap.1 hmem with ⟨r, hr, hmem⟩
    rcases List.mem_flatMap.1 hmem with ⟨s, hs, hmem⟩
    rcases mem_throttled hmem with ⟨l, hl, rfl⟩
    have huses := uses_fillSegment hinst ⟨List.mem_range.1 hr, List.mem_range.1 hs, hl⟩
    exact huses.mono (segmentWords_subset hinst)
      (Set.union_subset (readableWords_subset hinst _) (segmentWords_subset hinst))
      (Set.Subset.refl _) fun _ _ => trivial
  exact (hstart.reaches hreaches).next_mem ht hnext

theorem fillMemoryBlocksMt_inBounds_sample : ∃ state,
    Reaches True (.start (fillMemoryBlocksMt (Instance.sample 3 2 .d)) fun _ => 0) state ∧
      (∃ t ∈ state.threads, next t.2 = some (128, false)) ∧
        128 < (Instance.sample 3 2 .d).memoryBlocks.toNat * 128 := by
  have hinst : (Instance.sample 3 2 .d).Laid :=
    Instance.laid_sample .d (by decide) (by decide) (by decide)
  rcases exists_reaches_threads hinst (by decide) fun _ => 0 with ⟨state, hreaches, hthreads⟩
  have hmem : (0, fillSegment (Instance.sample 3 2 .d) (positionAt 0 0 0)) ∈ state.threads := by
    rw [hthreads]
    exact List.mem_cons_self ..
  -- the segment starts with the block before block 2
  have hnext : next (fillSegment (Instance.sample 3 2 .d) (positionAt 0 0 0)) = some (128, false) := rfl
  exact ⟨state, hreaches, ⟨_, hmem, hnext⟩, fillMemoryBlocksMt_inBounds hinst hreaches hmem hnext⟩

theorem joinsKnown_fillMemoryBlocksMt (hinst : inst.Laid) : JoinsKnown [] (fillMemoryBlocksMt inst) :=
  JoinsKnown.flatMap fun _ _ => JoinsKnown.flatMap fun _ _ =>
    joinsKnown_throttled hinst.threads hinst.threads_le _

/-- If the creation of a thread may fail, the main thread may join a thread that is not running, exactly
when there are fewer threads than lanes; and then it has joined this thread before. -/
theorem exists_stuck_iff (hinst : inst.Laid) (hpasses : 0 < inst.passes.toNat) (m : Memory) :
    ((∃ state, Reaches True (.start (fillMemoryBlocksMt inst) m) state ∧ state.Stuck) ↔
      inst.threads < inst.lanes) ∧
    ∀ state, Reaches True (.start (fillMemoryBlocksMt inst) m) state → state.Stuck →
      ∃ handle commands, state.commands = .join handle :: commands ∧
        JoinedBefore True (.start (fillMemoryBlocksMt inst) m) state handle := by
  refine ⟨⟨?_, ?_⟩, fun state hreaches hstuck =>
    (joinsKnown_fillMemoryBlocksMt hinst).joinedBefore hreaches hstuck⟩
  · rintro ⟨state, hreaches, hstuck⟩
    by_contra hlt
    have hle := UInt32.le_iff_toNat_le.2 hinst.threads_le
    have heq : inst.threads = inst.lanes := UInt32.le_antisymm hle (UInt32.not_lt.1 hlt)
    rcases (Safe.start (wellForked_fillMemoryBlocksMt hinst fun _ => heq) m).reaches hreaches with
      ⟨running, hsafe⟩
    exact hsafe.not_stuck hstuck
  · intro hlt
    rcases fillMemoryBlocksMt_first hpasses with ⟨commands, heq⟩
    rw [heq]
    exact exists_stuck trivial hinst.threads (UInt32.lt_iff_toNat_lt.1 hlt) _ commands m

theorem exists_stuck_iff_sample : ∃ state handle commands,
    Reaches True (.start (fillMemoryBlocksMt (Instance.sample 3 2 .id)) fun _ => 0) state ∧
      state.commands = .join handle :: commands ∧ (∀ t ∈ state.threads, t.1 ≠ handle) ∧
        JoinedBefore True (.start (fillMemoryBlocksMt (Instance.sample 3 2 .id)) fun _ => 0) state
          handle := by
  have hresult := exists_stuck_iff (Instance.laid_sample .id (by decide) (by decide) (by decide) :
    (Instance.sample 3 2 .id).Laid) (by decide) fun _ => 0
  rcases hresult.1.2 (by decide) with ⟨state, hreaches, hstuck⟩
  rcases hresult.2 state hreaches hstuck with ⟨handle, commands, hcommands, hjoined⟩
  rcases hstuck with ⟨handle', commands', hcommands', hnone⟩
  cases hcommands.symm.trans hcommands'
  exact ⟨state, handle, commands, hreaches, hcommands, hnone, hjoined⟩

end Runs

end Fill

end Argon2id
