import Argon2id.Libargon2.Blake2b
import Argon2id.Libargon2.Core
import Argon2id.Libargon2.Fill

/-!
# Libargon2.Compute — `core.c` and `argon2.c`: the memory-hard computation

`initial_hash`, `fill_first_blocks`, `initialize`, `finalize` and `argon2_ctx`.  The source does not look
at what the hash functions return; where one fails, what it should have changed stays as it was.
-/

namespace Argon2id

open SharedMemory

/-! ## Initial hashing -/

/-- The result of a call that is not checked. -/
def unchecked {α : Type} (old : α) (result : Except Blake2bError α) : α :=
  match result with
  | .ok new => new
  | .error _ => old

/-- `blake2b_update`, unchecked. -/
def uncheckedUpdate (S : Blake2bState) (input : Bytes) (inlen : Nat) : Blake2bState :=
  unchecked S (blake2bUpdate S (some input) inlen)

/-- A store into a buffer. -/
def storeAt (dst : Bytes) (offset : Nat) (src : Bytes) : Bytes :=
  dst.take offset ++ src ++ dst.drop (offset + src.length)

/-- `secure_wipe_memory` -/
def secureWipeMemory (v : Bytes) (n : Nat) : Bytes :=
  storeAt v 0 (zeros n)

def flagClearPassword : UInt32 := 1
def flagClearSecret : UInt32 := 2

/-- A field of the context, behind its length. -/
def updateField (S : Blake2bState) (field : Option Bytes) (len : UInt32) : Blake2bState :=
  let S := uncheckedUpdate S (store32 len) 4
  match field with
  | some bytes => uncheckedUpdate S bytes len.toNat
  | none => S

/-- The password is wiped when a flag says so. -/
def clearPassword (context : Context) : Context :=
  if context.pwd.isSome ∧ context.flags &&& flagClearPassword ≠ 0 then
    { context with
      pwd := context.pwd.map (secureWipeMemory · context.pwdlen.toNat)
      pwdlen := 0 }
  else context

/-- So is the secret. -/
def clearSecret (context : Context) : Context :=
  if context.secret.isSome ∧ context.flags &&& flagClearSecret ≠ 0 then
    { context with
      secret := context.secret.map (secureWipeMemory · context.secretlen.toNat)
      secretlen := 0 }
  else context

/-- `initial_hash`: the digest, and the context afterwards. -/
def initialHash (context : Context) (type : Argon2Type) : Bytes × Context :=
  let S := unchecked blake2bInit0 (blake2bInit 64)
  let S := uncheckedUpdate S (store32 context.lanes) 4
  let S := uncheckedUpdate S (store32 context.outlen) 4
  let S := uncheckedUpdate S (store32 context.mCost) 4
  let S := uncheckedUpdate S (store32 context.tCost) 4
  let S := uncheckedUpdate S (store32 context.version) 4
  let S := uncheckedUpdate S (store32 type.value.toUInt32) 4
  let S := updateField S context.pwd context.pwdlen
  let context := clearPassword context
  let S := updateField S context.salt context.saltlen
  let S := updateField S context.secret context.secretlen
  let context := clearSecret context
  let S := updateField S context.ad context.adlen
  ((unchecked (zeros 64, S) (blake2bFinal S 64)).1, context)

/-! ## The first blocks -/

/-- The first two blocks of a lane, in `fill_first_blocks`.  The last 8 bytes of `blockhash` are the
number of the block and the lane. -/
def fillFirstBlocksBody (inst : Instance) (l : Nat) (s : Bytes × Bytes) :
    Prog Nat UInt64 (Bytes × Bytes) := do
  let l := UInt32.ofNat l
  let blockhash := storeAt s.1 64 (store32 0)
  let blockhash := storeAt blockhash 68 (store32 l)
  let bytes := unchecked s.2 (blake2bLong blockSize (some blockhash) 72)
  loadBlockTo (l * inst.laneLength + 0).toNat bytes
  let blockhash := storeAt blockhash 64 (store32 1)
  let bytes := unchecked bytes (blake2bLong blockSize (some blockhash) 72)
  loadBlockTo (l * inst.laneLength + 1).toNat bytes
  pure (blockhash, bytes)

def fillFirstBlocks (inst : Instance) (blockhash : Bytes) : Prog Nat UInt64 Unit := do
  let _ ← loop (fillFirstBlocksBody inst) 0 inst.lanes.toNat (blockhash, zeros blockSize)
  pure ()

/-! ## Finalization -/

/-- `finalize` combines the last blocks of all lanes. -/
def finalizeBody (inst : Instance) (l : Nat) (blockhash : Block) : Prog Nat UInt64 Block :=
  xorBlockFrom blockhash (UInt32.ofNat l * inst.laneLength + (inst.laneLength - 1)).toNat

/-- The output buffer after `finalize`. -/
def finalizeTag (inst : Instance) (outlen : UInt32) (out : Bytes) : Prog Nat UInt64 Bytes := do
  let blockhash ← copyBlockFrom (inst.laneLength - 1).toNat
  let blockhash ← loop (finalizeBody inst) 1 (inst.lanes.toNat - 1) blockhash
  let tag := blake2bLong outlen.toNat (some (storeBlock blockhash)) blockSize
  pure (unchecked out (storeAt out 0 <$> tag))

/-! ## `argon2_ctx` -/

/-- `allocate_memory`, in the width of `size_t`; `malloc` says whether it succeeds. -/
def allocateMemory (plat : Platform) (num size : Nat) (malloc : Nat → Bool) : ErrorCode :=
  let memorySize := num * size % 2 ^ plat.size.bits
  if size ≠ 0 ∧ memorySize / size ≠ num then .memoryAllocationError
  else if malloc memorySize then .ok
  else .memoryAllocationError

/-- The instance that `argon2_ctx` sets up. -/
def setupInstance (context : Context) (type : Argon2Type) : Instance :=
  let memoryBlocks := context.mCost
  let memoryBlocks :=
    if memoryBlocks < 2 * syncPoints * context.lanes then 2 * syncPoints * context.lanes
    else memoryBlocks
  let segmentLength := memoryBlocks / (context.lanes * syncPoints)
  let memoryBlocks := segmentLength * (context.lanes * syncPoints)
  { version := context.version
    passes := context.tCost
    memoryBlocks := memoryBlocks
    segmentLength := segmentLength
    laneLength := segmentLength * syncPoints
    lanes := context.lanes
    threads := if context.threads > context.lanes then context.lanes else context.threads
    type := type }

/-- The `blockhash` that `initialize` hands on: the digest, and 8 cleared bytes. -/
def blockhash (context : Context) (type : Argon2Type) : Bytes :=
  (initialHash context type).1 ++ zeros 8

/-- What `argon2_ctx` leaves behind: the context, and the working memory if it is still allocated. -/
structure CtxResult where
  code : ErrorCode
  context : Context
  memory : Option Memory

/-- The results that `argon2_ctx` may have.  `fallible` is whether allocations and the creation of
threads may fail; `m` is what `malloc` left in the working memory. -/
inductive Argon2Ctx (plat : Platform) (fallible : Prop) (context : Context) (type : Argon2Type)
    (m : Memory) : CtxResult → Prop
  | invalid (h : validateInputs plat context ≠ .ok) :
      Argon2Ctx plat fallible context type m ⟨validateInputs plat context, context, none⟩
  | noMemory (h : validateInputs plat context = .ok) (malloc : Nat → Bool)
      (hmalloc : ∀ size, malloc size = false → fallible)
      (halloc : allocateMemory plat (setupInstance context type).memoryBlocks.toNat blockSize malloc ≠
        .ok) :
      Argon2Ctx plat fallible context type m ⟨.memoryAllocationError, context, none⟩
  -- the working memory stays allocated
  | notFilled (h : validateInputs plat context = .ok) (malloc : Nat → Bool)
      (halloc : allocateMemory plat (setupInstance context type).memoryBlocks.toNat blockSize malloc =
        .ok)
      {code : ErrorCode} {filled : Memory}
      (hfill : FillMemoryBlocks fallible (setupInstance context type)
        ((fillFirstBlocks (setupInstance context type) (blockhash context type)).run m).2 code filled)
      (hcode : code ≠ .ok) :
      Argon2Ctx plat fallible context type m
        ⟨code, (initialHash context type).2, some filled⟩
  | filled (h : validateInputs plat context = .ok) (malloc : Nat → Bool)
      (halloc : allocateMemory plat (setupInstance context type).memoryBlocks.toNat blockSize malloc =
        .ok)
      {filled : Memory}
      (hfill : FillMemoryBlocks fallible (setupInstance context type)
        ((fillFirstBlocks (setupInstance context type) (blockhash context type)).run m).2 .ok filled) :
      Argon2Ctx plat fallible context type m
        ⟨.ok, { (initialHash context type).2 with
          out := some ((finalizeTag (setupInstance context type) context.outlen
            (context.out.getD [])).run filled).1 }, none⟩

/-- The whole computation in one thread, on the working memory. -/
def computeTag (inst : Instance) (blockhash : Bytes) (outlen : UInt32) (out : Bytes) :
    Prog Nat UInt64 Bytes := do
  fillFirstBlocks inst blockhash
  fillMemoryBlocksSt inst
  finalizeTag inst outlen out

end Argon2id
