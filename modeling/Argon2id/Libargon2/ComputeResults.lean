import Argon2id.Libargon2.FillResults
import Argon2id.Libargon2.Tag

/-!
# Libargon2.ComputeResults — the computation computes the tag

- `setupInstance_laid`: validated parameters give a layout, without any overflow
- `run_fillFirstBlocks`, `run_finalizeTag`: what the parts of the computation compute
- `argon2Ctx_ok`: so the tag is that of the inputs, whatever the memory contained and the threads did
- `exists_leak_iff`: when the memory may be left allocated
-/

namespace Argon2id

open LittleEndian SharedMemory

/-! ## The layout -/

/-- What the validation guarantees to the computation. -/
structure Context.Validated (plat : Platform) (context : Context) : Prop where
  out : context.out.isSome = true
  outlen : 4 ≤ context.outlen.toNat
  memory : context.mCost.toNat ≤ maxMemory plat
  memory_lanes : 8 * context.lanes.toNat ≤ context.mCost.toNat
  time : 1 ≤ context.tCost.toNat
  lanes : 1 ≤ context.lanes.toNat
  threads : 1 ≤ context.threads.toNat

theorem validated_of_ok {plat : Platform} {context : Context} (h : validateInputs plat context = .ok) :
    context.Validated plat := by
  have hmul : (8 * context.lanes).toNat = 8 * context.lanes.toNat % 2 ^ 32 :=
    UInt32.toNat_mul 8 context.lanes
  have hlanes := context.lanes.toNat_lt
  simp only [validateInputs, check_eq_ok_iff, ne_eq, reduceCtorEq, not_false_eq_true, gt_iff_lt,
    UInt32.lt_iff_toNat_lt, hmul] at h
  simp only [minOutlen, minTime, minLanes, maxLanes, minThreads, UInt32.reduceToNat] at h
  rcases h with ⟨hout, houtlen, _, _, _, _, _, _, _, _, _, _, _, _, _, _, hmemory, hmemoryLanes, htime,
    _, hlanesMin, hlanesMax, hthreads, _⟩
  refine ⟨?_, Nat.le_of_not_lt houtlen, Nat.le_of_not_lt hmemory, ?_, Nat.le_of_not_lt htime,
    Nat.le_of_not_lt hlanesMin, Nat.le_of_not_lt hthreads⟩
  · cases hcase : context.out with
    | none => exact absurd (congrArg Option.isNone hcase) hout
    | some out => rfl
  · omega

section Layout

variable {plat : Platform} {context : Context}

/-- The layout is that of the inputs. -/
theorem setupInstance_eq (type : Argon2Type) (h : context.Validated plat) :
    setupInstance context type =
      { (context.inputs type).layout with
        threads := if context.threads > context.lanes then context.lanes else context.threads } := by
  have hmemory := h.memory_lanes
  have hlt := context.mCost.toNat_lt
  have hmin : ¬ context.mCost < 2 * syncPoints * context.lanes := by
    rw [UInt32.lt_iff_toNat_lt, UInt32.toNat_mul, show (2 * syncPoints).toNat = 8 from rfl]
    omega
  unfold setupInstance
  dsimp only
  rw [if_neg hmin]
  rfl

/-- Every block has a lane and a column, and no multiplication overflows. -/
theorem setupInstance_laid (type : Argon2Type) (h : context.Validated plat) : (setupInstance context type).Laid := by
  have hmemory := h.memory_lanes
  have hlanes := h.lanes
  have hthreads := h.threads
  have hlt := context.mCost.toNat_lt
  have hcolumns : (context.lanes * syncPoints).toNat = 4 * context.lanes.toNat := by
    rw [UInt32.toNat_mul, show syncPoints.toNat = 4 from rfl]
    omega
  have hsegment : (context.mCost / (context.lanes * syncPoints)).toNat =
      context.mCost.toNat / (4 * context.lanes.toNat) := by
    rw [UInt32.toNat_div, hcolumns]
  have hle := Nat.div_mul_le_self context.mCost.toNat (4 * context.lanes.toNat)
  have htwo : 2 ≤ context.mCost.toNat / (4 * context.lanes.toNat) :=
    (Nat.le_div_iff_mul_le (by omega)).2 (by omega)
  have hlength : (context.mCost / (context.lanes * syncPoints) * syncPoints).toNat =
      4 * (context.mCost.toNat / (4 * context.lanes.toNat)) := by
    have hone := Nat.le_mul_of_pos_right (context.mCost.toNat / (4 * context.lanes.toNat) * 4) hlanes
    rw [Nat.mul_assoc] at hone
    rw [UInt32.toNat_mul, hsegment, show syncPoints.toNat = 4 from rfl, Nat.mul_comm]
    exact Nat.mod_eq_of_lt (by omega)
  rw [setupInstance_eq type h]
  refine ⟨?_, ?_, ?_, hlanes, ?_, ?_⟩
  · exact hlength.trans (congrArg (4 * ·) hsegment.symm)
  · change (context.mCost / (context.lanes * syncPoints) * (context.lanes * syncPoints)).toNat =
      context.lanes.toNat * (context.mCost / (context.lanes * syncPoints) * syncPoints).toNat
    rw [hlength, UInt32.toNat_mul, hsegment, hcolumns, Nat.mod_eq_of_lt (by omega)]
    ring
  · exact htwo.trans_eq hsegment.symm
  · change 1 ≤ (if context.threads > context.lanes then context.lanes else context.threads).toNat
    split_ifs
    · exact hlanes
    · exact hthreads
  · change (if context.threads > context.lanes then context.lanes else context.threads).toNat ≤
      context.lanes.toNat
    split_ifs with hgt
    · exact Nat.le_refl _
    · exact UInt32.le_iff_toNat_le.1 (UInt32.not_lt.1 hgt)

theorem setupInstance_laid_sample : (setupInstance Context.sample .id).Laid :=
  setupInstance_laid .id (validated_of_ok (show validateInputs .armLinux Context.sample = .ok by decide))

/-- The size of the memory always fits `size_t`: allocating it fails only where `malloc` does. -/
theorem allocateMemory_eq (type : Argon2Type) (h : context.Validated plat) (malloc : Nat → Bool) :
    allocateMemory plat (setupInstance context type).memoryBlocks.toNat blockSize malloc =
      if malloc ((setupInstance context type).memoryBlocks.toNat * 1024) then .ok
      else .memoryAllocationError := by
  have hle : (setupInstance context type).memoryBlocks.toNat ≤ context.mCost.toNat := by
    rw [setupInstance_eq type h]
    change (context.mCost / (context.lanes * syncPoints) * (context.lanes * syncPoints)).toNat ≤ _
    rw [UInt32.toNat_mul, UInt32.toNat_div]
    exact (Nat.mod_le _ _).trans (Nat.div_mul_le_self _ _)
  have hmax := h.memory
  have hfits : (setupInstance context type).memoryBlocks.toNat * 1024 < 2 ^ plat.size.bits := by
    rw [maxMemory_eq] at hmax
    cases hsize : plat.size with
    | w32 =>
        rw [hsize] at hmax
        change _ < 2 ^ 32
        dsimp only at hmax
        omega
    | w64 =>
        have hlt := context.mCost.toNat_lt
        change _ < 2 ^ 64
        omega
  rw [allocateMemory, blockSize, Nat.mod_eq_of_lt hfits, Nat.mul_div_cancel _ (by decide), if_neg (fun hc => hc.2 rfl)]

end Layout

/-! ## The first blocks -/

section FirstBlocks

variable {inst : Instance}

theorem storeAt_append {pre old rest src : Bytes} {n : Nat} (hn : pre.length = n)
    (h : src.length = old.length) :
    storeAt (pre ++ (old ++ rest)) n src = pre ++ (src ++ rest) := by
  subst hn
  rw [storeAt, h, List.take_left, ← List.append_assoc pre old rest, ← List.length_append,
    List.drop_left, List.append_assoc]

/-- The offset of a block, in the 32 bits of the source. -/
theorem toNat_offset (hinst : inst.Laid) {l : Nat} (hl : l < inst.lanes.toNat) (column : UInt32)
    (h : column.toNat < inst.laneLength.toNat) :
    (UInt32.ofNat l * inst.laneLength + column).toNat = blockIndex inst l column.toNat := by
  have hindex := (blockIndex_lt hinst hl h).trans inst.memoryBlocks.toNat_lt
  rw [blockIndex] at hindex ⊢
  rw [UInt32.toNat_add, UInt32.toNat_mul, toNat_ofNat_of_lt (hl.trans inst.lanes.toNat_lt),
    Nat.mod_eq_of_lt (by omega : l * inst.laneLength.toNat < 2 ^ 32), Nat.mod_eq_of_lt hindex]

theorem blake2bLong_seed {seed : Bytes} (h : seed.length = 72) (old : Bytes) :
    unchecked old (blake2bLong blockSize (some seed) 72) = variableHash blockSize seed := by
  have hlong := blake2bLong_eq blockSize seed
  rw [h, if_pos ⟨by decide, by decide⟩] at hlong
  rw [hlong]
  rfl

/-- One lane: the number of the block and the lane stand behind the digest. -/
theorem run_fillFirstBlocksBody (hinst : inst.Laid) {l : Nat} (hl : l < inst.lanes.toNat)
    {digest a b : Bytes} (hdigest : digest.length = 64) (ha : a.length = 4) (hb : b.length = 4)
    (bytes : Bytes) (m : Memory) :
    ((fillFirstBlocksBody inst l (digest ++ (a ++ b), bytes)).run m).1.1 =
        digest ++ (toBytes 4 1 ++ toBytes 4 l) ∧
      ((fillFirstBlocksBody inst l (digest ++ (a ++ b), bytes)).run m).2 =
        setBlock (setBlock m (blockIndex inst l 0) (firstBlock digest l 0)) (blockIndex inst l 1)
          (firstBlock digest l 1) := by
  have hlane : (UInt32.ofNat l).toNat = l := toNat_ofNat_of_lt (hl.trans inst.lanes.toNat_lt)
  have hlength := hinst.laneLength
  have hsegment := hinst.segmentLength
  have hblock : storeAt (digest ++ (a ++ b)) 64 (store32 0) = digest ++ (store32 0 ++ b) :=
    storeAt_append hdigest ha.symm
  have hlaneBytes : storeAt (digest ++ (store32 0 ++ b)) 68 (store32 (UInt32.ofNat l)) =
      digest ++ (store32 0 ++ store32 (UInt32.ofNat l)) := by
    have hpre : (digest ++ store32 0).length = 68 := by
      rw [List.length_append, hdigest]
      rfl
    have hstore : storeAt (digest ++ store32 0 ++ (b ++ [])) 68 (store32 (UInt32.ofNat l)) =
        digest ++ store32 0 ++ (store32 (UInt32.ofNat l) ++ []) :=
      storeAt_append hpre hb.symm
    rwa [List.append_nil, List.append_nil, List.append_assoc, List.append_assoc] at hstore
  have hnext : storeAt (digest ++ (store32 0 ++ store32 (UInt32.ofNat l))) 64 (store32 1) =
      digest ++ (store32 1 ++ store32 (UInt32.ofNat l)) :=
    storeAt_append hdigest rfl
  have hseed : ∀ w : UInt32, (digest ++ (store32 w ++ store32 (UInt32.ofNat l))).length = 72 := by
    intro w
    rw [List.length_append, hdigest]
    rfl
  have hfirst : ∀ w : UInt32, loadBlock (variableHash blockSize
      (digest ++ (store32 w ++ store32 (UInt32.ofNat l)))) = firstBlock digest l w.toNat := by
    intro w
    rw [firstBlock, store32_eq, store32_eq, hlane, List.append_assoc]
  have hzero := toNat_offset hinst hl 0 (hinst.laneLength_pos)
  have hone := toNat_offset hinst hl 1 (show 1 < inst.laneLength.toNat by omega)
  unfold fillFirstBlocksBody
  dsimp only
  rw [hblock, hlaneBytes, hnext, blake2bLong_seed (hseed 0), blake2bLong_seed (hseed 1), run_bind,
    run_bind, run_loadBlockTo, run_loadBlockTo, run_pure, hzero, hone, hfirst, hfirst]
  refine ⟨?_, rfl⟩
  dsimp only
  rw [store32_eq, store32_eq, hlane]
  rfl

/-- What holds before lane `l`. -/
structure FirstBlocks (inst : Instance) (digest : Bytes) (l : Nat) (s : Bytes × Bytes) (m : Memory) :
    Prop where
  blockhash : ∃ a b, s.1 = digest ++ (a ++ b) ∧ a.length = 4 ∧ b.length = 4
  blocks : ∀ lane column, lane < l → column < 2 →
    blocksOf inst m lane column = firstBlock digest lane column

theorem FirstBlocks.step (hinst : inst.Laid) {l : Nat} (hl : l < inst.lanes.toNat) {digest : Bytes}
    (hdigest : digest.length = 64) {s : Bytes × Bytes} {m : Memory} (h : FirstBlocks inst digest l s m) :
    FirstBlocks inst digest (l + 1) ((fillFirstBlocksBody inst l s).run m).1
      ((fillFirstBlocksBody inst l s).run m).2 := by
  rcases s with ⟨blockhash, bytes⟩
  rcases h.blockhash with ⟨a, b, rfl, ha, hb⟩
  rcases run_fillFirstBlocksBody hinst hl hdigest ha hb bytes m with ⟨hhash, hmemory⟩
  refine ⟨⟨_, _, hhash, length_toBytes 4 1, length_toBytes 4 l⟩, fun lane column hlane hcolumn => ?_⟩
  have hlength := hinst.laneLength
  have hsegment := hinst.segmentLength
  rw [hmemory, blocksOf_setBlock _ _ (by omega) (by omega), blocksOf_setBlock _ _ (by omega) (by omega)]
  split_ifs with hone hzero
  · rw [hone.1, hone.2]
  · rw [hzero.1, hzero.2]
  · exact h.blocks lane column (by omega) hcolumn

/-- The first two blocks of every lane; `digest` stands in front of 8 cleared bytes. -/
theorem run_fillFirstBlocks (hinst : inst.Laid) {digest : Bytes} (hdigest : digest.length = 64)
    (m : Memory) {lane column : Nat} (hlane : lane < inst.lanes.toNat) (hcolumn : column < 2) :
    blocksOf inst ((fillFirstBlocks inst (digest ++ zeros 8)).run m).2 lane column =
      firstBlock digest lane column := by
  have hstart : FirstBlocks inst digest 0 (digest ++ zeros 8, zeros blockSize) m :=
    ⟨⟨zeros 4, zeros 4, rfl, rfl, rfl⟩, fun lane _ h => absurd h (Nat.not_lt_zero lane)⟩
  have hloop := run_loop (n := inst.lanes.toNat) (I := FirstBlocks inst digest)
    (fun l s m' _ hl h => h.step hinst (by omega) hdigest) hstart
  rw [Nat.zero_add] at hloop
  rw [fillFirstBlocks, run_bind, run_pure]
  exact hloop.blocks lane column hlane hcolumn

end FirstBlocks

/-! ## Finalization -/

section Finalize

variable {inst : Instance}

theorem run_finalizeBody (hinst : inst.Laid) {l : Nat} (hl : l < inst.lanes.toNat) (b : Block)
    (m : Memory) :
    (finalizeBody inst l b).run m =
      (xorBlock b (blocksOf inst m l (inst.laneLength.toNat - 1)), m) := by
  have hlast := toNat_pred hinst.laneLength_pos
  have hlt := Nat.sub_lt hinst.laneLength_pos Nat.one_pos
  rw [finalizeBody, run_xorBlockFrom, toNat_offset hinst hl _ (hlast.trans_lt hlt), hlast]
  rfl

theorem run_finalizeLoop (hinst : inst.Laid) (m : Memory) (b : Block) :
    (loop (finalizeBody inst) 1 (inst.lanes.toNat - 1) b).run m =
      ((List.range' 1 (inst.lanes.toNat - 1)).foldl
        (fun b lane => xorBlock b (blocksOf inst m lane (inst.laneLength.toNat - 1))) b, m) :=
  run_loop_of_run fun l b _ hl => run_finalizeBody hinst (by have := hinst.lanes; omega) b m

/-- The tag is the hash of the last blocks. -/
theorem run_finalizeTag (hinst : inst.Laid) {outlen : UInt32} (houtlen : 0 < outlen.toNat) (out : Bytes)
    (m : Memory) :
    ((finalizeTag inst outlen out).run m).1 =
      storeAt out 0 (variableHash outlen.toNat (storeBlock (lastBlock inst (blocksOf inst m)))) := by
  have hlast := toNat_pred hinst.laneLength_pos
  have hfirst : blockAt m (inst.laneLength - 1).toNat =
      blocksOf inst m 0 (inst.laneLength.toNat - 1) := by
    rw [blocksOf, blockIndex, hlast, Nat.zero_mul, Nat.zero_add]
  have hlong := blake2bLong_eq outlen.toNat (storeBlock (lastBlock inst (blocksOf inst m)))
  rw [length_storeBlock, if_pos ⟨houtlen, Nat.le_of_lt_succ outlen.toNat_lt⟩] at hlong
  rw [finalizeTag, run_bind, run_copyBlockFrom, run_bind, run_finalizeLoop hinst, hfirst, run_pure]
  rw [lastBlock] at hlong ⊢
  rw [hlong]
  rfl

theorem lastBlock_congr (hinst : inst.Laid) {blocks blocks' : Nat → Nat → Block}
    (h : ∀ lane, lane < inst.lanes.toNat →
      blocks lane (inst.laneLength.toNat - 1) = blocks' lane (inst.laneLength.toNat - 1)) :
    lastBlock inst blocks = lastBlock inst blocks' := by
  have hlanes := hinst.lanes
  rw [lastBlock, lastBlock, h 0 hlanes]
  refine List.foldl_ext _ _ _ fun b lane hlane => ?_
  have hrange := List.mem_range'_1.1 hlane
  rw [h lane (by omega)]

end Finalize

/-! ## `argon2_ctx` -/

section Ctx

variable {plat : Platform} {fallible : Prop} {context : Context} {type : Argon2Type} {m : Memory}
  {result : CtxResult}

/-- The last blocks when the memory has been filled. -/
theorem lastBlock_filled (hsized : context.Sized) (hvalidated : context.Validated plat) (m : Memory) :
    lastBlock (setupInstance context type) (blocksOf (setupInstance context type)
      ((fillMemoryBlocksSt (setupInstance context type)).run
        ((fillFirstBlocks (setupInstance context type) (blockhash context type)).run m).2).2) =
      lastBlock (context.inputs type).layout
        (matrix (context.inputs type).layout (firstBlock (context.inputs type).digest)
          context.tCost.toNat) := by
  have hinst := setupInstance_laid type hvalidated
  have hdigest : (context.inputs type).digest.length = 64 := length_blake2bHash (by decide) 0 _
  have hpasses : (setupInstance context type).passes = context.tCost := rfl
  obtain ⟨r, hr⟩ := Nat.exists_eq_add_of_le' hvalidated.time
  rw [blockhash, initialHash_eq hsized, ← matrix_threads (context.inputs type).layout
    (if context.threads > context.lanes then context.lanes else context.threads),
    ← setupInstance_eq type hvalidated]
  have hlast := Nat.sub_lt hinst.laneLength_pos Nat.one_pos
  have hlayout : lastBlock (context.inputs type).layout = lastBlock (setupInstance context type) := by
    rw [setupInstance_eq type hvalidated]
    rfl
  rw [hlayout]
  refine lastBlock_congr hinst fun lane hlane => ?_
  rw [blockAt_fillMemoryBlocksSt hinst _ hlane hlast, hpasses, hr]
  refine matrix_congr hinst (fun lane column hlane hcolumn => ?_) (by rw [hpasses]; omega) hlane hlast
  exact run_fillFirstBlocks hinst hdigest m hlane hcolumn

/-- Where `argon2_ctx` succeeds, the tag is that of the inputs, and the memory has been freed: whatever
the memory contained, however many threads there were and in whatever order they worked. -/
theorem argon2Ctx_ok (hsized : context.Sized) (h : Argon2Ctx plat fallible context type m result)
    (hok : result.code = .ok) :
    result.context.out =
        some (storeAt (context.out.getD []) 0 (argon2Tag (context.inputs type))) ∧
      result.memory = none := by
  cases h with
  | invalid h => exact absurd hok h
  | noMemory _ _ _ _ => cases hok
  | notFilled _ _ _ _ hcode => exact absurd hok hcode
  | filled h malloc halloc hfill =>
      have hvalidated := validated_of_ok h
      have hinst := setupInstance_laid type hvalidated
      have houtlen := hvalidated.outlen
      refine ⟨?_, rfl⟩
      dsimp only
      rw [fillMemoryBlocks_ok hinst hfill, run_finalizeTag hinst (by omega),
        lastBlock_filled hsized hvalidated]
      rfl

/-- Where nothing fails, valid inputs give a tag. -/
theorem exists_argon2Ctx (plat : Platform) (context : Context) (type : Argon2Type) (m : Memory) :
    ∃ result, Argon2Ctx plat False context type m result ∧
      result.code = validateInputs plat context := by
  by_cases h : validateInputs plat context = .ok
  · have hvalidated := validated_of_ok h
    have halloc := allocateMemory_eq type hvalidated fun _ => true
    rw [if_pos rfl] at halloc
    rcases exists_fillMemoryBlocks (setupInstance_laid type hvalidated)
      ((fillFirstBlocks (setupInstance context type) (blockhash context type)).run m).2 with
      ⟨filled, hfill⟩
    exact ⟨_, .filled h _ halloc hfill, h.symm⟩
  · exact ⟨_, .invalid h, rfl⟩

/-- Where nothing fails, `argon2_ctx` ends, and returns what the checks of its inputs return. -/
theorem argon2Ctx_code (plat : Platform) (context : Context) (type : Argon2Type) (m : Memory) :
    (∃ result, Argon2Ctx plat False context type m result) ∧
      ∀ result, Argon2Ctx plat False context type m result →
        result.code = validateInputs plat context := by
  rcases exists_argon2Ctx plat context type m with ⟨result, hresult, _⟩
  refine ⟨⟨result, hresult⟩, fun result h => ?_⟩
  cases h with
  | invalid _ => rfl
  | noMemory h malloc hmalloc halloc =>
      rw [allocateMemory_eq type (validated_of_ok h)] at halloc
      split_ifs at halloc with hsuccess
      · exact absurd rfl halloc
      · exact (hmalloc _ (Bool.eq_false_iff.2 hsuccess)).elim
  | notFilled h _ _ hfill hcode =>
      have hinst := setupInstance_laid type (validated_of_ok h)
      exact (fillMemoryBlocks_error hinst hfill hcode).1.elim
  | filled h _ _ _ => exact h.symm

theorem argon2Ctx_ok_sample : ∃ result,
    Argon2Ctx .x8664Linux False Context.sample .id (fun _ => 0) result ∧
      result.context.out = some (storeAt (zeros 4) 0 (argon2Tag (Context.sample.inputs .id))) ∧
        result.memory = none := by
  rcases exists_argon2Ctx .x8664Linux Context.sample .id fun _ => 0 with ⟨result, h, hcode⟩
  exact ⟨result, h, argon2Ctx_ok Context.sized_sample h (hcode.trans (by decide))⟩

theorem setupInstance_threads (type : Argon2Type) (hvalidated : context.Validated plat) :
    (setupInstance context type).threads ≠ 1 ↔ 1 < context.threads ∧ 1 < context.lanes := by
  have hthreads := hvalidated.threads
  have hlanes := hvalidated.lanes
  have hone : (1 : UInt32).toNat = 1 := rfl
  change (if context.threads > context.lanes then context.lanes else context.threads) ≠ 1 ↔ _
  split_ifs with hgt
  · rw [ne_eq, ← UInt32.toNat_inj, UInt32.lt_iff_toNat_lt, UInt32.lt_iff_toNat_lt]
    have hgt' := UInt32.lt_iff_toNat_lt.1 hgt
    omega
  · rw [ne_eq, ← UInt32.toNat_inj, UInt32.lt_iff_toNat_lt, UInt32.lt_iff_toNat_lt]
    have hle := UInt32.le_iff_toNat_le.1 (UInt32.not_lt.1 hgt)
    omega

/-- If allocations and the creation of threads may fail, `argon2_ctx` may fail without freeing the
working memory, exactly for valid inputs with several threads. -/
theorem exists_leak_iff :
    (∃ result, Argon2Ctx plat True context type m result ∧ result.code ≠ .ok ∧
      result.memory.isSome = true) ↔
      validateInputs plat context = .ok ∧ 1 < context.threads ∧ 1 < context.lanes := by
  constructor
  · rintro ⟨result, h, hcode, hmemory⟩
    cases h with
    | invalid _ => cases hmemory
    | noMemory _ _ _ _ => cases hmemory
    | filled _ _ _ _ => cases hmemory
    | notFilled h malloc halloc hfill hne =>
        have hvalidated := validated_of_ok h
        rcases fillMemoryBlocks_error (setupInstance_laid type hvalidated) hfill hne with
          ⟨_, hthreads, _⟩
        exact ⟨h, (setupInstance_threads type hvalidated).1 hthreads⟩
  · rintro ⟨h, hthreads⟩
    have hvalidated := validated_of_ok h
    have halloc := allocateMemory_eq type hvalidated fun _ => true
    rw [if_pos rfl] at halloc
    exact ⟨_, .notFilled h _ halloc
      (.noArrays (setupInstance_laid type hvalidated).lanes_ne
        ((setupInstance_threads type hvalidated).2 hthreads) trivial) ErrorCode.noConfusion,
      ErrorCode.noConfusion, rfl⟩

end Ctx

end Argon2id
