import Argon2id.Lib.Streaming
import Argon2id.Libargon2.Blake2Impl
import Mathlib.Data.Vector.Defs

/-!
# Libargon2.Blake2b — `blake2b.c`: the hash function

`blake2b_state` with its buffer and counters, and the functions on it in the words of the source.  A
function either fails as in the source, where it returns -1, or would leave a buffer.

- `blake2bUpdate`, `blake2bFinal`: the streaming interface
- `blake2b`: one call, with or without a key
- `blake2bLong`: the variable-length hash of Argon2
-/

namespace Argon2id

open Streaming

/-! ## Buffers -/

inductive Blake2bError
  /-- The function returns -1. -/
  | failure
  /-- An access out of the bounds of a buffer, which the source does not notice. -/
  | overrun
  deriving DecidableEq, Repr

/-- `memcpy` into a buffer at an offset. -/
def memcpy (dst : Bytes) (offset : Nat) (src : Bytes) : Except Blake2bError Bytes :=
  if offset + src.length ≤ dst.length then
    .ok (dst.take offset ++ src ++ dst.drop (offset + src.length))
  else .error .overrun

/-- The first bytes of an input. -/
def readBytes (src : Bytes) (n : Nat) : Except Blake2bError Bytes :=
  if n ≤ src.length then .ok (src.take n) else .error .overrun

def zeros (n : Nat) : Bytes :=
  List.replicate n 0

/-! ## Constants and types -/

/-- `BLAKE2B_BLOCKBYTES` -/
def blake2bBlockbytes : Nat := 128
/-- `BLAKE2B_OUTBYTES` -/
def blake2bOutbytes : Nat := 64
/-- `BLAKE2B_KEYBYTES` -/
def blake2bKeybytes : Nat := 64

def blake2bIV : Vector UInt64 8 :=
  #v[0x6a09e667f3bcc908, 0xbb67ae8584caa73b, 0x3c6ef372fe94f82b, 0xa54ff53a5f1d36f1,
    0x510e527fade682d1, 0x9b05688c2b3e6c1f, 0x1f83d9abfb41bd6b, 0x5be0cd19137e2179]

def blake2bSigma : Vector (Vector (Fin 16) 16) 12 :=
  #v[#v[0, 1, 2, 3, 4, 5, 6, 7, 8, 9, 10, 11, 12, 13, 14, 15],
    #v[14, 10, 4, 8, 9, 15, 13, 6, 1, 12, 0, 2, 11, 7, 5, 3],
    #v[11, 8, 12, 0, 5, 2, 15, 13, 10, 14, 3, 6, 7, 1, 9, 4],
    #v[7, 9, 3, 1, 13, 12, 11, 14, 2, 6, 5, 10, 4, 0, 15, 8],
    #v[9, 0, 5, 7, 2, 4, 10, 15, 14, 1, 11, 12, 6, 8, 3, 13],
    #v[2, 12, 6, 10, 0, 11, 8, 3, 4, 13, 7, 5, 15, 14, 1, 9],
    #v[12, 5, 1, 15, 14, 13, 4, 10, 0, 7, 6, 3, 9, 2, 8, 11],
    #v[13, 11, 7, 14, 12, 1, 3, 9, 5, 0, 15, 4, 8, 6, 2, 10],
    #v[6, 15, 14, 9, 11, 3, 0, 8, 12, 2, 13, 7, 1, 4, 10, 5],
    #v[10, 2, 8, 4, 7, 6, 1, 5, 15, 11, 9, 14, 3, 12, 13, 0],
    #v[0, 1, 2, 3, 4, 5, 6, 7, 8, 9, 10, 11, 12, 13, 14, 15],
    #v[14, 10, 4, 8, 9, 15, 13, 6, 1, 12, 0, 2, 11, 7, 5, 3]]

/-- `blake2b_param` -/
structure Blake2bParam where
  digestLength : UInt8
  keyLength : UInt8
  fanout : UInt8
  depth : UInt8
  leafLength : UInt32
  nodeOffset : UInt64
  nodeDepth : UInt8
  innerLength : UInt8
  reserved : Bytes
  salt : Bytes
  personal : Bytes

/-- The packed bytes of a parameter block. -/
def Blake2bParam.bytes (P : Blake2bParam) : Bytes :=
  [P.digestLength, P.keyLength, P.fanout, P.depth] ++ store32 P.leafLength ++ store64 P.nodeOffset ++
    [P.nodeDepth, P.innerLength] ++ P.reserved ++ P.salt ++ P.personal

/-- `blake2b_state` -/
structure Blake2bState where
  h : Vector UInt64 8
  t0 : UInt64
  t1 : UInt64
  f0 : UInt64
  f1 : UInt64
  buf : Bytes
  buflen : Nat
  outlen : Nat
  lastNode : Bool

/-! ## State changes -/

def blake2bSetLastnode (S : Blake2bState) : Blake2bState :=
  { S with f1 := -1 }

def blake2bSetLastblock (S : Blake2bState) : Blake2bState :=
  let S := if S.lastNode then blake2bSetLastnode S else S
  { S with f0 := -1 }

def blake2bIncrementCounter (S : Blake2bState) (inc : UInt64) : Blake2bState :=
  let t0 := S.t0 + inc
  { S with t0 := t0, t1 := S.t1 + if t0 < inc then 1 else 0 }

def blake2bInit0 : Blake2bState :=
  { h := blake2bIV, t0 := 0, t1 := 0, f0 := 0, f1 := 0, buf := zeros blake2bBlockbytes, buflen := 0,
    outlen := 0, lastNode := false }

def blake2bInitParam (P : Blake2bParam) : Blake2bState :=
  let p := P.bytes
  let S := blake2bInit0
  { S with
    h := Vector.ofFn fun i : Fin 8 => S.h[i] ^^^ load64 (p.drop (i.val * 8))
    outlen := P.digestLength.toNat }

/-- The parameter block of unkeyed and keyed sequential hashing. -/
def sequentialParam (outlen keylen : Nat) : Blake2bParam where
  digestLength := UInt8.ofNat outlen
  keyLength := UInt8.ofNat keylen
  fanout := 1
  depth := 1
  leafLength := 0
  nodeOffset := 0
  nodeDepth := 0
  innerLength := 0
  reserved := zeros 14
  salt := zeros 16
  personal := zeros 16

def blake2bInit (outlen : Nat) : Except Blake2bError Blake2bState :=
  if outlen = 0 ∨ outlen > blake2bOutbytes then .error .failure
  else .ok (blake2bInitParam (sequentialParam outlen 0))

/-! ## Compression -/

/-- The macro `G`. -/
def blake2bG (m : Vector UInt64 16) (r : Fin 12) (i : Fin 8) (a b c d : Fin 16)
    (v : Vector UInt64 16) : Vector UInt64 16 :=
  let even : Fin 16 := ⟨2 * i.val, by omega⟩
  let odd : Fin 16 := ⟨2 * i.val + 1, by omega⟩
  let v := v.set a (v[a] + v[b] + m[blake2bSigma[r][even]])
  let v := v.set d (rotr64 (v[d] ^^^ v[a]) 32)
  let v := v.set c (v[c] + v[d])
  let v := v.set b (rotr64 (v[b] ^^^ v[c]) 24)
  let v := v.set a (v[a] + v[b] + m[blake2bSigma[r][odd]])
  let v := v.set d (rotr64 (v[d] ^^^ v[a]) 16)
  let v := v.set c (v[c] + v[d])
  v.set b (rotr64 (v[b] ^^^ v[c]) 63)

/-- The macro `ROUND`. -/
def blake2bRound (m : Vector UInt64 16) (v : Vector UInt64 16) (r : Fin 12) : Vector UInt64 16 :=
  let v := blake2bG m r 0 0 4 8 12 v
  let v := blake2bG m r 1 1 5 9 13 v
  let v := blake2bG m r 2 2 6 10 14 v
  let v := blake2bG m r 3 3 7 11 15 v
  let v := blake2bG m r 4 0 5 10 15 v
  let v := blake2bG m r 5 1 6 11 12 v
  let v := blake2bG m r 6 2 7 8 13 v
  blake2bG m r 7 3 4 9 14 v

def blake2bCompress (S : Blake2bState) (block : Bytes) : Blake2bState :=
  let m : Vector UInt64 16 := Vector.ofFn fun i => load64 (block.drop (i.val * 8))
  let v : Vector UInt64 16 :=
    #v[S.h[0], S.h[1], S.h[2], S.h[3], S.h[4], S.h[5], S.h[6], S.h[7],
      blake2bIV[0], blake2bIV[1], blake2bIV[2], blake2bIV[3],
      blake2bIV[4] ^^^ S.t0, blake2bIV[5] ^^^ S.t1, blake2bIV[6] ^^^ S.f0, blake2bIV[7] ^^^ S.f1]
  let v := (List.finRange 12).foldl (blake2bRound m) v
  { S with h := Vector.ofFn fun i : Fin 8 => S.h[i] ^^^ v[i.val] ^^^ v[i.val + 8] }

/-! ## The streaming interface -/

/-- A full block goes into the hash. -/
def blake2bBlock (S : Blake2bState) (block : Bytes) : Blake2bState :=
  blake2bCompress (blake2bIncrementCounter S 128) block

/-- `memcpy(&S->buf[S->buflen], pin, inlen)`, and the new length. -/
def blake2bBuffer (S : Blake2bState) (pin : Bytes) : Except Blake2bError Blake2bState := do
  let buf ← memcpy S.buf S.buflen pin
  pure { S with buf := buf, buflen := S.buflen + pin.length }

/-- The current block is completed.  Then the loop hashes the input in place, while more than one block
is left of it. -/
def blake2bFill (S : Blake2bState) (pin : Bytes) :
    Except Blake2bError (Blake2bState × Bytes) := do
  let left := S.buflen
  let fill := blake2bBlockbytes - left
  let buf ← memcpy S.buf left (pin.take fill)
  let S := blake2bBlock { S with buf := buf } buf
  pure (absorb blake2bBlockbytes blake2bBlock { S with buflen := 0 } (pin.drop fill))

def blake2bUpdate (S : Blake2bState) (input : Option Bytes) (inlen : Nat) :
    Except Blake2bError Blake2bState :=
  if inlen = 0 then .ok S
  else
    match input with
    | none => .error .failure
    | some pin =>
        -- a finished state is not used again
        if S.f0 ≠ 0 then .error .failure
        else do
          let pin ← readBytes pin inlen
          if S.buflen + inlen > blake2bBlockbytes then do
            let (S, pin) ← blake2bFill S pin
            blake2bBuffer S pin
          else blake2bBuffer S pin

/-- The last block is padded and hashed, and the hash is given out.  Then the buffer and the hash are
wiped. -/
def blake2bOutput (S : Blake2bState) : Except Blake2bError (Bytes × Blake2bState) := do
  let buf ← memcpy S.buf S.buflen (zeros (blake2bBlockbytes - S.buflen))
  let S := blake2bCompress { S with buf := buf } buf
  let out ← readBytes (S.h.toList.flatMap store64) S.outlen
  pure (out, { S with buf := zeros blake2bBlockbytes, h := Vector.replicate 8 0 })

def blake2bFinal (S : Blake2bState) (outlen : Nat) :
    Except Blake2bError (Bytes × Blake2bState) :=
  if outlen < S.outlen then .error .failure
  -- a finished state is not used again
  else if S.f0 ≠ 0 then .error .failure
  else
    let S := blake2bIncrementCounter S (UInt64.ofNat S.buflen)
    blake2bOutput (blake2bSetLastblock S)

def blake2bInitKey (outlen : Nat) (key : Option Bytes) (keylen : Nat) :
    Except Blake2bError Blake2bState :=
  if outlen = 0 ∨ outlen > blake2bOutbytes then .error .failure
  else
    match key with
    | none => .error .failure
    | some key =>
        if keylen = 0 ∨ keylen > blake2bKeybytes then .error .failure
        else do
          let S := blake2bInitParam (sequentialParam outlen keylen)
          let key ← readBytes key keylen
          let block ← memcpy (zeros blake2bBlockbytes) 0 key
          blake2bUpdate S (some block) blake2bBlockbytes

/-! ## One call -/

def blake2b (outlen : Nat) (input : Option Bytes) (inlen : Nat) (key : Option Bytes) (keylen : Nat) :
    Except Blake2bError Bytes :=
  if input.isNone ∧ inlen > 0 then .error .failure
  else if outlen = 0 ∨ outlen > blake2bOutbytes then .error .failure
  else if (key.isNone ∧ keylen > 0) ∨ keylen > blake2bKeybytes then .error .failure
  else do
    let S ← if keylen > 0 then blake2bInitKey outlen key keylen else blake2bInit outlen
    let S ← blake2bUpdate S input inlen
    let (out, _) ← blake2bFinal S outlen
    pure out

/-- The loop of `blake2b_long`: each digest is the input of the next one, and gives half of itself to
the output. -/
def blake2bLongLoop (toproduce : Nat) (outBuffer out : Bytes) : Except Blake2bError Bytes :=
  if toproduce > blake2bOutbytes then do
    let outBuffer ← blake2b blake2bOutbytes (some outBuffer) blake2bOutbytes none 0
    blake2bLongLoop (toproduce - blake2bOutbytes / 2) outBuffer
      (out ++ outBuffer.take (blake2bOutbytes / 2))
  else do
    let outBuffer ← blake2b toproduce (some outBuffer) blake2bOutbytes none 0
    pure (out ++ outBuffer.take toproduce)
termination_by toproduce
decreasing_by
  rw [blake2bOutbytes] at *
  omega

def blake2bLong (outlen : Nat) (input : Option Bytes) (inlen : Nat) : Except Blake2bError Bytes :=
  if outlen > uint32Max then .error .failure
  else do
    let outlenBytes := store32 (UInt32.ofNat outlen)
    if outlen ≤ blake2bOutbytes then
      let S ← blake2bInit outlen
      let S ← blake2bUpdate S (some outlenBytes) 4
      let S ← blake2bUpdate S input inlen
      let (out, _) ← blake2bFinal S outlen
      pure out
    else
      let S ← blake2bInit blake2bOutbytes
      let S ← blake2bUpdate S (some outlenBytes) 4
      let S ← blake2bUpdate S input inlen
      let (outBuffer, _) ← blake2bFinal S blake2bOutbytes
      blake2bLongLoop (outlen - blake2bOutbytes / 2) outBuffer
        (outBuffer.take (blake2bOutbytes / 2))

end Argon2id
