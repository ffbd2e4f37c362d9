import Argon2id.Libargon2.InitialHash
import Argon2id.Libargon2.Matrix

/-!
# Libargon2.Tag — the tag as a function of the inputs

What Argon2 computes, without memory, threads or buffers.

- `argon2Tag`: the tag of the inputs
- `matrix_threads`: the number of threads does not matter
-/

namespace Argon2id

open LittleEndian

/-! ## The tag -/

/-- The blocks that the first pass starts from: the first two of every lane. -/
def firstBlock (digest : Bytes) (lane column : Nat) : Block :=
  loadBlock (variableHash blockSize (digest ++ toBytes 4 column ++ toBytes 4 lane))

/-- The last blocks of all lanes together. -/
def lastBlock (inst : Instance) (blocks : Nat → Nat → Block) : Block :=
  (List.range' 1 (inst.lanes.toNat - 1)).foldl
    (fun b lane => xorBlock b (blocks lane (inst.laneLength.toNat - 1)))
    (blocks 0 (inst.laneLength.toNat - 1))

/-- The layout of the memory for the inputs. -/
def Inputs.layout (x : Inputs) : Instance :=
  let segmentLength := x.mCost / (x.lanes * syncPoints)
  { version := x.version
    passes := x.tCost
    memoryBlocks := segmentLength * (x.lanes * syncPoints)
    segmentLength := segmentLength
    laneLength := segmentLength * syncPoints
    lanes := x.lanes
    threads := 1
    type := x.type }

/-- The Argon2 tag. -/
def argon2Tag (x : Inputs) : Bytes :=
  variableHash x.outlen.toNat
    (storeBlock (lastBlock x.layout
      (matrix x.layout (firstBlock x.digest) x.tCost.toNat)))

theorem length_argon2Tag (x : Inputs) : (argon2Tag x).length = x.outlen.toNat :=
  length_variableHash _ _

/-! ## Threads do not matter -/

section Threads

variable (inst : Instance) (threads : UInt32)

theorem newBlock_threads (pos : Position) (i : Nat) (view : Nat → Nat → Block) (old : Block) :
    newBlock { inst with threads := threads } pos i view old = newBlock inst pos i view old :=
  rfl

theorem passBlock_threads (r : Nat) (previous : Nat → Nat → Block) (lane column : Nat) :
    passBlock { inst with threads := threads } r previous lane column =
      passBlock inst r previous lane column := by
  induction column using Nat.strong_induction_on generalizing lane with
  | h column ih =>
      rw [passBlock, passBlock]
      split_ifs with hgiven
      · rfl
      · rw [newBlock_threads]
        refine congrArg (newBlock inst _ _ · _) (funext fun lane' => funext fun column' => ?_)
        split_ifs with hbefore
        · exact ih column' hbefore lane'
        · rfl

theorem matrix_threads (first : Nat → Nat → Block) (r : Nat) :
    matrix { inst with threads := threads } first r = matrix inst first r := by
  induction r with
  | zero => rfl
  | succ r ih =>
      funext lane column
      rw [matrix, matrix, passBlock_threads, ih]

end Threads

end Argon2id
