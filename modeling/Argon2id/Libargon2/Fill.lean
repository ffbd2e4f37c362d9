import Argon2id.Lib.Throttle
import Argon2id.Libargon2.Segment

/-!
# Libargon2.Fill — `core.c`: filling the memory

`fill_memory_blocks` with one thread and with several.  With several, the main thread creates a thread
for every lane of a slice and joins them all before it goes on with the next slice.
-/

namespace Argon2id

open SharedMemory Threads

/-- The position of a segment. -/
def positionAt (r s l : Nat) : Position :=
  { pass := UInt32.ofNat r, lane := UInt32.ofNat l, slice := UInt8.ofNat s, index := 0 }

/-- `fill_memory_blocks_st` -/
def fillMemoryBlocksSt (inst : Instance) : Prog Nat UInt64 Unit :=
  loop (fun r _ =>
    loop (fun s _ =>
      loop (fun l _ => fillSegment inst (positionAt r s l)) 0 inst.lanes.toNat ())
      0 syncPoints.toNat ())
    0 inst.passes.toNat ()

/-- The commands of the main thread in `fill_memory_blocks_mt`: `throttled` is its loop over the lanes
of a slice, a thread runs `fill_segment_thr`, and its handle is its lane. -/
def fillMemoryBlocksMt (inst : Instance) : List (Command Nat UInt64) :=
  (List.range inst.passes.toNat).flatMap fun r =>
    (List.range syncPoints.toNat).flatMap fun s =>
      throttled inst.threads.toNat inst.lanes.toNat fun l => fillSegment inst (positionAt r s l)

/-- What `fill_memory_blocks` may return, and leave in the memory: `fallible` is whether the creation of
threads may fail. -/
inductive FillMemoryBlocks (fallible : Prop) (inst : Instance) (m : Memory) :
    ErrorCode → Memory → Prop
  | noLanes (hlanes : inst.lanes = 0) :
      FillMemoryBlocks fallible inst m .incorrectParameter m
  | single (hlanes : inst.lanes ≠ 0) (h : inst.threads = 1) :
      FillMemoryBlocks fallible inst m .ok ((fillMemoryBlocksSt inst).run m).2
  -- the arrays of handles and thread inputs cannot be allocated
  | noArrays (hlanes : inst.lanes ≠ 0) (h : inst.threads ≠ 1) (hfallible : fallible) :
      FillMemoryBlocks fallible inst m .memoryAllocationError m
  | threads (hlanes : inst.lanes ≠ 0) (h : inst.threads ≠ 1) {s : State Nat UInt64}
      (hreaches : Reaches fallible (.start (fillMemoryBlocksMt inst) m) s) (hdone : s.commands = []) :
      FillMemoryBlocks fallible inst m (if s.failed then .threadFail else .ok) s.memory

end Argon2id
