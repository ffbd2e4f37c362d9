import Argon2id.Lib.Fallible
import Argon2id.Libargon2.Blake2b

/-!
# Libargon2.Blake2bResults — the streaming interface computes BLAKE2b

`blake2bHash` hashes a whole message block by block, with the number of bytes so far as a counter.
`Represents` relates a state to the message that has been streamed into it; `blake2bUpdate` keeps the
relation however the message is cut, and no access leaves a buffer.

- `update_represents`, `final_represents`: one step each
- `blake2b_keyed`, `blake2bLong_eq`: the two functions built on them
-/

namespace Argon2id

open Streaming
open Fallible

/-! ## BLAKE2b on a whole message -/

/-- The compression function after `t` bytes. -/
def compressAt (h : Vector UInt64 8) (block : Bytes) (t : Nat) (last : Bool) : Vector UInt64 8 :=
  (blake2bCompress
    { blake2bInit0 with
      h := h
      t0 := UInt64.ofNat t
      t1 := UInt64.ofNat (t / 2 ^ 64)
      f0 := if last then -1 else 0 } block).h

/-- The hash of a message: all blocks but the last, then the last one, padded. -/
def blake2bHash (outlen keylen : Nat) (message : Bytes) : Bytes :=
  let n := blocks 128 message.length
  let h := (List.range n).foldl
    (fun h i => compressAt h (block 128 message i) (128 * (i + 1)) false)
    (blake2bInitParam (sequentialParam outlen keylen)).h
  let rest := message.drop (128 * n)
  let h := compressAt h (rest ++ zeros (128 - rest.length)) message.length true
  (h.toList.flatMap store64).take outlen

/-- A key is a first block of its own. -/
def keyBlock (key : Bytes) : Bytes :=
  key ++ zeros (128 - key.length)

/-! ## The counter -/

/-- The two words of the counter hold the number of bytes, up to overflow. -/
structure Counts (S : Blake2bState) (t : Nat) : Prop where
  t0 : S.t0 = UInt64.ofNat t
  t1 : S.t1 = UInt64.ofNat (t / 2 ^ 64)

theorem Counts.increment {S : Blake2bState} {t : Nat} (h : Counts S t) {k : Nat} (hk : k < 2 ^ 64) :
    Counts (blake2bIncrementCounter S (UInt64.ofNat k)) (t + k) := by
  have hsum : UInt64.ofNat t + UInt64.ofNat k = UInt64.ofNat (t + k) :=
    (UInt64.ofNat_add t k).symm
  have hlt : UInt64.ofNat (t + k) < UInt64.ofNat k ↔ 2 ^ 64 ≤ t % 2 ^ 64 + k := by
    rw [UInt64.lt_iff_toNat_lt, UInt64.toNat_ofNat', UInt64.toNat_ofNat']
    omega
  refine ⟨?_, ?_⟩
  · rw [blake2bIncrementCounter, h.t0, hsum]
  · rw [blake2bIncrementCounter, h.t0, h.t1, hsum]
    by_cases hcarry : 2 ^ 64 ≤ t % 2 ^ 64 + k
    · have hdiv : (t + k) / 2 ^ 64 = t / 2 ^ 64 + 1 := by omega
      rw [if_pos (hlt.2 hcarry), hdiv]
      exact (UInt64.ofNat_add _ 1).symm
    · have hdiv : (t + k) / 2 ^ 64 = t / 2 ^ 64 := by omega
      rw [if_neg fun hc => hcarry (hlt.1 hc), hdiv, UInt64.add_zero]

/-! ## The state that has seen a message -/

/-- The hash and the counter after some full blocks. -/
abbrev Core := Vector UInt64 8 × Nat

def coreBlock (core : Core) (block : Bytes) : Core :=
  (compressAt core.1 block (core.2 + 128) false, core.2 + 128)

/-- A state in which the full blocks of a message have been hashed. -/
structure Hashed (outlen : Nat) (S : Blake2bState) (core : Core) : Prop where
  h : S.h = core.1
  counts : Counts S core.2
  f0 : S.f0 = 0
  f1 : S.f1 = 0
  buf : S.buf.length = 128
  outlen : S.outlen = outlen
  lastNode : S.lastNode = false

/-- The rest of the message waits in the buffer. -/
structure Buffered (S : Blake2bState) (rest : Bytes) : Prop where
  buflen : S.buflen = rest.length
  take : S.buf.take S.buflen = rest
  le : rest.length ≤ 128

/-- What has been hashed of a message, and what waits. -/
def streamed (outlen keylen : Nat) (message : Bytes) : Core × Bytes :=
  absorb 128 coreBlock ((blake2bInitParam (sequentialParam outlen keylen)).h, 0) message

/-- The message has been streamed into the state. -/
def Represents (outlen keylen : Nat) (S : Blake2bState) (message : Bytes) : Prop :=
  Hashed outlen S (streamed outlen keylen message).1 ∧
    Buffered S (streamed outlen keylen message).2

theorem streamed_append (outlen keylen : Nat) (message more : Bytes) :
    streamed outlen keylen (message ++ more) =
      absorb 128 coreBlock (streamed outlen keylen message).1
        ((streamed outlen keylen message).2 ++ more) :=
  absorb_append _ message more

section Steps

variable {outlen keylen : Nat} {S : Blake2bState} {core : Core} {message : Bytes}

theorem compress_h (S : Blake2bState) (block : Bytes) (last : Bool) {t : Nat} (hcounts : Counts S t)
    (hf0 : S.f0 = if last then -1 else 0) (hf1 : S.f1 = 0) :
    (blake2bCompress S block).h = compressAt S.h block t last := by
  simp only [blake2bCompress, compressAt, hcounts.t0, hcounts.t1, hf0, hf1, blake2bInit0]

theorem Hashed.block (h : Hashed outlen S core) (block : Bytes) :
    Hashed outlen (blake2bBlock S block) (coreBlock core block) := by
  have hcounts := h.counts.increment (k := 128) (by decide)
  refine ⟨?_, ⟨hcounts.t0, hcounts.t1⟩, h.f0, h.f1, h.buf, h.outlen, h.lastNode⟩
  have hcompress := compress_h (blake2bIncrementCounter S 128) block false hcounts h.f0 h.f1
  rw [blake2bBlock, hcompress, coreBlock]
  exact congrArg (compressAt · _ _ _) h.h

theorem length_memcpy {dst src buf : Bytes} {offset : Nat} (h : memcpy dst offset src = .ok buf) :
    buf.length = dst.length := by
  unfold memcpy at h
  split at h
  · rename_i hle
    cases h
    simp only [List.length_append, List.length_take, List.length_drop]
    omega
  · cases h

theorem memcpy_eq (dst : Bytes) (offset : Nat) (src : Bytes) (h : offset + src.length ≤ dst.length) :
    memcpy dst offset src = .ok (dst.take offset ++ src ++ dst.drop (offset + src.length)) :=
  if_pos h

theorem readBytes_length (src : Bytes) : readBytes src src.length = .ok src := by
  rw [readBytes, if_pos (Nat.le_refl _), List.take_length]

/-- Bytes behind the buffered ones. -/
theorem Buffered.append {rest : Bytes} (h : Buffered S rest) (hS : Hashed outlen S core)
    {more : Bytes} (hle : rest.length + more.length ≤ 128) :
    ∃ S', blake2bBuffer S more = .ok S' ∧ Hashed outlen S' core ∧ Buffered S' (rest ++ more) := by
  have hcopy := memcpy_eq S.buf S.buflen more
    (by rw [h.buflen, hS.buf]; exact hle)
  refine ⟨_, congrArg (· >>= _) hcopy, ?_, ?_, ?_, ?_⟩
  · exact ⟨hS.h, ⟨hS.counts.t0, hS.counts.t1⟩, hS.f0, hS.f1, (length_memcpy hcopy).trans hS.buf,
      hS.outlen, hS.lastNode⟩
  · rw [List.length_append, ← h.buflen]
  · rw [h.take]
    refine List.take_left' ?_
    rw [List.length_append, ← h.buflen]
  · rw [List.length_append]
    exact hle

/-- More than the buffer holds: all but the last block of it is hashed. -/
theorem Buffered.fill {rest : Bytes} (h : Buffered S rest) (hS : Hashed outlen S core)
    {more : Bytes} (hlt : 128 < rest.length + more.length) :
    ∃ S', blake2bFill S more = .ok (S', (absorb 128 coreBlock core (rest ++ more)).2) ∧
      Hashed outlen S' (absorb 128 coreBlock core (rest ++ more)).1 ∧ Buffered S' [] := by
  have hle := h.le
  have hlength : (more.take (128 - rest.length)).length = 128 - rest.length :=
    List.length_take_of_le (by omega)
  have hcopy := memcpy_eq S.buf S.buflen (more.take (128 - rest.length))
    (by rw [h.buflen, hS.buf, hlength]; omega)
  have hbuf : S.buf.take S.buflen ++ more.take (128 - rest.length) ++
      S.buf.drop (S.buflen + (more.take (128 - rest.length)).length) =
      (rest ++ more).take 128 := by
    have hdrop : S.buf.drop (S.buflen + (more.take (128 - rest.length)).length) = [] := by
      refine List.drop_eq_nil_of_le ?_
      rw [h.buflen, hS.buf, hlength]
      omega
    rw [hdrop, h.take, List.append_nil, List.take_append, List.take_of_length_le hle]
  rw [hbuf] at hcopy
  have hblock : Hashed outlen { S with buf := (rest ++ more).take 128 } core :=
    ⟨hS.h, ⟨hS.counts.t0, hS.counts.t1⟩, hS.f0, hS.f1, (length_memcpy hcopy).trans hS.buf, hS.outlen,
      hS.lastNode⟩
  have hfirst := hblock.block ((rest ++ more).take 128)
  -- the loop keeps the relation, and the buffer empty
  have hstart : Hashed outlen { blake2bBlock { S with buf := (rest ++ more).take 128 }
      ((rest ++ more).take 128) with buflen := 0 } (coreBlock core ((rest ++ more).take 128)) :=
    ⟨hfirst.h, ⟨hfirst.counts.t0, hfirst.counts.t1⟩, hfirst.f0, hfirst.f1, hfirst.buf, hfirst.outlen,
      hfirst.lastNode⟩
  have hloop := absorb_rel (B := 128) (fun S core => Hashed outlen S core ∧ S.buflen = 0)
    (fun S core block _ hR => ⟨hR.1.block block, hR.2⟩) ⟨hstart, rfl⟩
    (more.drop (128 - rest.length))
  have habsorb : absorb 128 coreBlock core (rest ++ more) =
      absorb 128 coreBlock (coreBlock core ((rest ++ more).take 128))
        (more.drop (128 - rest.length)) := by
    rw [absorb_of_lt (by decide) (by rw [List.length_append]; exact hlt), List.drop_append,
      List.drop_eq_nil_of_le hle, List.nil_append]
  rw [habsorb]
  refine ⟨_, ?_, hloop.1.1, hloop.1.2, ?_, Nat.zero_le 128⟩
  · rw [blake2bFill, blake2bBlockbytes, h.buflen]
    rw [h.buflen] at hcopy
    refine (congrArg (· >>= _) hcopy).trans ?_
    refine congrArg Except.ok (Prod.ext rfl hloop.2)
  · rw [hloop.1.2]
    rfl

theorem init_represents (keylen : Nat) (h0 : 0 < outlen) (hle : outlen ≤ 64) :
    Represents outlen keylen (blake2bInitParam (sequentialParam outlen keylen)) [] := by
  rw [Represents, streamed, absorb_of_le (Nat.zero_le 128)]
  refine ⟨⟨rfl, ⟨rfl, ?_⟩, rfl, rfl, rfl, ?_, rfl⟩, rfl, rfl, Nat.zero_le 128⟩
  · rw [Nat.zero_div]
    rfl
  · change (UInt8.ofNat outlen).toNat = outlen
    rw [UInt8.toNat_ofNat']
    omega

theorem update_some {more : Bytes} (hmore : more.length ≠ 0) (hf0 : S.f0 = 0) :
    blake2bUpdate S (some more) more.length =
      if 128 < S.buflen + more.length then
        blake2bFill S more >>= fun r => blake2bBuffer r.1 r.2
      else blake2bBuffer S more := by
  rw [blake2bUpdate, if_neg hmore, if_neg (not_not.2 hf0), readBytes_length]
  rfl

/-- Streaming some bytes: the state represents the longer message. -/
theorem update_represents (h : Represents outlen keylen S message) (more : Bytes) :
    ∃ S', blake2bUpdate S (some more) more.length = .ok S' ∧
      Represents outlen keylen S' (message ++ more) := by
  by_cases hmore : more.length = 0
  · refine ⟨S, if_pos hmore, ?_⟩
    rw [List.eq_nil_of_length_eq_zero hmore, List.append_nil]
    exact h
  simp only [Represents, streamed_append]
  rcases h with ⟨hS, hrest⟩
  generalize streamed outlen keylen message = before at hS hrest ⊢
  rcases before with ⟨core, rest⟩
  dsimp only at hS hrest ⊢
  by_cases hlt : 128 < rest.length + more.length
  · rcases hrest.fill hS hlt with ⟨S', hfill, hS', hempty⟩
    have hle : (absorb 128 coreBlock core (rest ++ more)).2.length ≤ 128 :=
      length_absorb_le (by decide) core (rest ++ more)
    rcases hempty.append hS' (by rwa [List.length_nil, Nat.zero_add] : [].length +
      (absorb 128 coreBlock core (rest ++ more)).2.length ≤ 128) with ⟨S'', hbuffer, hrep⟩
    refine ⟨S'', ?_, hrep⟩
    rw [update_some hmore hS.f0, hrest.buflen, if_pos hlt, hfill]
    exact hbuffer
  · rw [absorb_of_le (by rw [List.length_append]; omega)]
    rcases hrest.append hS (Nat.le_of_not_lt hlt) with ⟨S', hbuffer, hrep⟩
    refine ⟨S', ?_, hrep⟩
    rw [update_some hmore hS.f0, hrest.buflen, if_neg hlt]
    exact hbuffer

/-- The full blocks of a message, counted. -/
theorem foldl_coreBlock (data : Bytes) (h : Vector UInt64 8) (n : Nat) :
    (List.range n).foldl (fun core i => coreBlock core (block 128 data i)) (h, 0) =
      ((List.range n).foldl
        (fun h i => compressAt h (block 128 data i) (128 * (i + 1)) false) h, 128 * n) := by
  induction n with
  | zero => rfl
  | succ n ih => rw [List.range_succ, List.foldl_append, List.foldl_append, ih]; rfl

theorem length_store64s (h : Vector UInt64 8) : (h.toList.flatMap store64).length = 64 := by
  rw [length_flatMap_store64, Vector.length_toList]

/-- The state is marked for its last block, which ends the message. -/
theorem Hashed.last (h : Hashed outlen S core) {k : Nat} (hk : k < 2 ^ 64) {S' : Blake2bState}
    (hS' : S' = blake2bSetLastblock (blake2bIncrementCounter S (UInt64.ofNat k))) :
    S'.h = core.1 ∧ Counts S' (core.2 + k) ∧ S'.f0 = -1 ∧ S'.f1 = 0 ∧ S'.buf = S.buf ∧
      S'.buflen = S.buflen ∧ S'.outlen = outlen := by
  have hcounts := h.counts.increment hk
  have hnode : ¬ (blake2bIncrementCounter S (UInt64.ofNat k)).lastNode = true := by
    rw [show (blake2bIncrementCounter S (UInt64.ofNat k)).lastNode = S.lastNode from rfl, h.lastNode]
    exact Bool.false_ne_true
  rw [hS', blake2bSetLastblock, if_neg hnode]
  exact ⟨h.h, ⟨hcounts.t0, hcounts.t1⟩, rfl, h.f1, rfl, rfl, h.outlen⟩

/-- The digest of what has been streamed; the state is not used again. -/
theorem final_represents (h : Represents outlen keylen S message) (hle : outlen ≤ 64) :
    ∃ S', blake2bFinal S outlen = .ok (blake2bHash outlen keylen message, S') ∧ S'.f0 ≠ 0 := by
  rcases h with ⟨hS, hrest⟩
  rw [streamed, absorb_eq_foldl (by decide), foldl_coreBlock] at hS hrest
  dsimp only at hS hrest
  have hmessage : 128 * blocks 128 message.length +
      (message.drop (128 * blocks 128 message.length)).length = message.length := by
    rw [List.length_drop, blocks]
    omega
  have hbuflen : S.buflen < 2 ^ 64 := hrest.buflen.trans_lt (hrest.le.trans_lt (by decide))
  generalize hS' : blake2bSetLastblock (blake2bIncrementCounter S (UInt64.ofNat S.buflen)) = S'
  rcases hS.last hbuflen hS'.symm with ⟨hh, hcounts, hf0, hf1, hbuf, hlen, hout⟩
  dsimp only at hh hcounts
  rw [hrest.buflen, hmessage] at hcounts
  -- the rest of the message fills the last block together with zeros
  have hpad := memcpy_eq S'.buf S'.buflen (zeros (blake2bBlockbytes - S'.buflen)) (by
    rw [hbuf, hS.buf, zeros, List.length_replicate, hlen, hrest.buflen, blake2bBlockbytes]
    exact Nat.le_of_eq (Nat.add_sub_cancel' hrest.le))
  have hdrop : S'.buf.drop (S'.buflen + (zeros (blake2bBlockbytes - S'.buflen)).length) = [] := by
    refine List.drop_eq_nil_of_le ?_
    rw [hbuf, hS.buf, zeros, List.length_replicate, blake2bBlockbytes]
    omega
  rw [hdrop, List.append_nil, hbuf, hlen, hrest.take, hrest.buflen] at hpad
  have hread : ∀ h : Vector UInt64 8,
      readBytes (h.toList.flatMap store64) outlen = .ok ((h.toList.flatMap store64).take outlen) :=
    fun h => if_pos (by rw [length_store64s]; exact hle)
  generalize hblock : message.drop (128 * blocks 128 message.length) ++ zeros _ = buf at hpad
  have hcompress := (compress_h { S' with buf := buf } buf true ⟨hcounts.t0, hcounts.t1⟩ hf0
    hf1).trans (congrArg (compressAt · buf message.length true) hh)
  refine ⟨{ S' with buf := zeros blake2bBlockbytes, h := Vector.replicate 8 0 }, ?_, ?_⟩
  · rw [blake2bFinal, if_neg (by rw [hS.outlen]; exact Nat.lt_irrefl outlen),
      if_neg (not_not.2 hS.f0)]
    dsimp only
    rw [hS', blake2bOutput, hbuf, hlen, hrest.buflen, hpad]
    change readBytes ((blake2bCompress { S' with buf := buf } buf).h.toList.flatMap store64)
      S'.outlen >>= _ = _
    rw [hcompress, hout, hread, blake2bHash, ← hblock]
    rfl
  · rw [hf0]
    decide

end Steps

/-! ## Whole computations -/

theorem length_blake2bHash {outlen : Nat} (h : outlen ≤ 64) (keylen : Nat) (message : Bytes) :
    (blake2bHash outlen keylen message).length = outlen := by
  rw [blake2bHash, List.length_take, length_store64s]
  exact Nat.min_eq_left h

theorem blake2bInit_eq {outlen : Nat} (h : 0 < outlen ∧ outlen ≤ 64) :
    blake2bInit outlen = .ok (blake2bInitParam (sequentialParam outlen 0)) :=
  if_neg (by rw [blake2bOutbytes]; omega)

theorem blake2bInit_error {outlen : Nat} (h : ¬ (0 < outlen ∧ outlen ≤ 64)) :
    blake2bInit outlen = .error .failure :=
  if_pos (by rw [blake2bOutbytes]; omega)

/-- The streaming interface on a message that arrives in pieces. -/
def blake2bStream (outlen : Nat) (pieces : List Bytes) : Except Blake2bError Bytes := do
  let S ← blake2bInit outlen
  let S ← pieces.foldlM (fun S piece => blake2bUpdate S (some piece) piece.length) S
  let (out, _) ← blake2bFinal S outlen
  pure out

theorem foldlM_update_represents {outlen keylen : Nat} {S : Blake2bState} {message : Bytes}
    (h : Represents outlen keylen S message) (pieces : List Bytes) :
    ∃ S', pieces.foldlM (fun S piece => blake2bUpdate S (some piece) piece.length) S = .ok S' ∧
      Represents outlen keylen S' (message ++ pieces.flatten) := by
  induction pieces generalizing S message with
  | nil =>
      refine ⟨S, rfl, ?_⟩
      rw [List.flatten_nil, List.append_nil]
      exact h
  | cons piece pieces ih =>
      rcases update_represents h piece with ⟨S', hupdate, hS'⟩
      rcases ih hS' with ⟨S'', hrest, hS''⟩
      refine ⟨S'', ?_, ?_⟩
      · rw [List.foldlM_cons, hupdate]
        exact hrest
      · rw [List.flatten_cons, ← List.append_assoc]
        exact hS''

/-- However the message is cut into pieces, the streaming interface computes its hash. -/
theorem blake2bStream_eq (outlen : Nat) (pieces : List Bytes) :
    blake2bStream outlen pieces =
      if 0 < outlen ∧ outlen ≤ 64 then .ok (blake2bHash outlen 0 pieces.flatten)
      else .error .failure := by
  by_cases h : 0 < outlen ∧ outlen ≤ 64
  · rcases foldlM_update_represents (init_represents 0 h.1 h.2) pieces with
      ⟨S, hrun, hS⟩
    rcases final_represents hS h.2 with ⟨S', hfinal, _⟩
    rw [if_pos h]
    exact bind_eq_ok_iff.2 ⟨_, blake2bInit_eq h, bind_eq_ok_iff.2 ⟨S, hrun,
      bind_eq_ok_iff.2 ⟨_, hfinal, rfl⟩⟩⟩
  · rw [if_neg h, blake2bStream, blake2bInit_error h]
    rfl

/-- More input and then the digest. -/
theorem update_final {outlen keylen : Nat} {S : Blake2bState} {message : Bytes}
    (h : Represents outlen keylen S message) (hle : outlen ≤ 64) (input : Bytes) :
    (blake2bUpdate S (some input) input.length >>= fun S =>
      blake2bFinal S outlen >>= fun r => pure r.1) =
      .ok (blake2bHash outlen keylen (message ++ input)) := by
  rcases update_represents h input with ⟨S', hupdate, hS'⟩
  rcases final_represents hS' hle with ⟨S'', hfinal, _⟩
  exact bind_eq_ok_iff.2 ⟨S', hupdate, bind_eq_ok_iff.2 ⟨_, hfinal, rfl⟩⟩

/-- One call without a key. -/
theorem blake2b_eq {outlen : Nat} (h : 0 < outlen ∧ outlen ≤ 64) (input : Bytes) :
    blake2b outlen (some input) input.length none 0 = .ok (blake2bHash outlen 0 input) := by
  rw [blake2b, if_neg (fun hnone => Bool.false_ne_true hnone.1), if_neg (by rw [blake2bOutbytes]; omega),
    if_neg (by rw [blake2bKeybytes]; omega), if_neg (Nat.lt_irrefl 0)]
  exact bind_eq_ok_iff.2 ⟨_, blake2bInit_eq h,
    update_final (init_represents 0 h.1 h.2) h.2 input⟩

/-- A key is hashed as a block in front of the message. -/
theorem initKey_represents {outlen : Nat} (h : 0 < outlen ∧ outlen ≤ 64) {key : Bytes}
    (hkey : 0 < key.length ∧ key.length ≤ 64) :
    ∃ S, blake2bInitKey outlen (some key) key.length = .ok S ∧
      Represents outlen key.length S (keyBlock key) := by
  have hcopy := memcpy_eq (zeros blake2bBlockbytes) 0 key (by
    rw [zeros, List.length_replicate, blake2bBlockbytes]
    omega)
  have hblock : (zeros blake2bBlockbytes).take 0 ++ key ++
      (zeros blake2bBlockbytes).drop (0 + key.length) = keyBlock key := by
    rw [List.take_zero, List.nil_append, zeros, List.drop_replicate, Nat.zero_add]
    rfl
  have hlength : (keyBlock key).length = blake2bBlockbytes := by
    rw [keyBlock, zeros, List.length_append, List.length_replicate, blake2bBlockbytes]
    omega
  rcases update_represents (init_represents key.length h.1 h.2) (keyBlock key) with
    ⟨S, hupdate, hS⟩
  rw [hlength] at hupdate
  rw [hblock] at hcopy
  refine ⟨S, ?_, hS⟩
  rw [blake2bInitKey, if_neg (by rw [blake2bOutbytes]; omega)]
  dsimp only
  rw [if_neg (by rw [blake2bKeybytes]; omega)]
  exact bind_eq_ok_iff.2 ⟨key, readBytes_length key, bind_eq_ok_iff.2 ⟨_, hcopy, hupdate⟩⟩

theorem blake2b_key_eq {outlen : Nat} (h : 0 < outlen ∧ outlen ≤ 64) (input : Bytes) {key : Bytes}
    (hkey : 0 < key.length ∧ key.length ≤ 64) :
    blake2b outlen (some input) input.length (some key) key.length =
      .ok (blake2bHash outlen key.length (keyBlock key ++ input)) := by
  rcases initKey_represents h hkey with ⟨S, hinit, hS⟩
  rw [blake2b, if_neg (fun hnone => Bool.false_ne_true hnone.1), if_neg (by rw [blake2bOutbytes]; omega),
    if_neg (by simpa [blake2bKeybytes] using hkey.2), if_pos hkey.1]
  exact bind_eq_ok_iff.2 ⟨S, hinit, update_final hS h.2 input⟩

/-- What is hashed in front of the message. -/
def keyPrefix (key : Bytes) : Bytes :=
  if key.length = 0 then [] else keyBlock key

/-- One call with a key, which may be empty. -/
theorem blake2b_keyed (outlen : Nat) (input key : Bytes) :
    blake2b outlen (some input) input.length (some key) key.length =
      if (0 < outlen ∧ outlen ≤ 64) ∧ key.length ≤ 64 then
        .ok (blake2bHash outlen key.length (keyPrefix key ++ input))
      else .error .failure := by
  by_cases h : 0 < outlen ∧ outlen ≤ 64
  · by_cases hle : key.length ≤ 64
    · rw [if_pos ⟨h, hle⟩, keyPrefix]
      rcases Nat.eq_zero_or_pos key.length with h0 | hpos
      · -- the key is not looked at
        have hcall : blake2b outlen (some input) input.length (some key) 0 =
            blake2b outlen (some input) input.length none 0 := by
          rw [blake2b, blake2b]
          simp only [Nat.lt_irrefl, gt_iff_lt, and_false, false_or, if_false]
        rw [if_pos h0, h0, List.nil_append, hcall]
        exact blake2b_eq h input
      · rw [if_neg hpos.ne']
        exact blake2b_key_eq h input ⟨hpos, hle⟩
    · rw [if_neg fun hall => hle hall.2, blake2b, if_neg fun hnone => Bool.false_ne_true hnone.1,
        if_neg (by rw [blake2bOutbytes]; omega), if_pos (.inr (Nat.lt_of_not_le hle))]
  · rw [if_neg fun hall => h hall.1, blake2b, if_neg fun hnone => Bool.false_ne_true hnone.1,
      if_pos (by rw [blake2bOutbytes]; omega)]

/-! ## The variable-length hash -/

/-- The hash of any length: a chain of digests, of which all but the last give their first half. -/
def variableHash (outlen : Nat) (input : Bytes) : Bytes :=
  let first : Nat → Bytes := fun n => blake2bHash n 0 (store32 (UInt32.ofNat outlen) ++ input)
  if outlen ≤ 64 then first outlen
  else
    let r := (outlen + 31) / 32 - 2
    let digest : Nat → Bytes := fun i => (blake2bHash 64 0)^[i] (first 64)
    (List.range r).flatMap (fun i => (digest i).take 32) ++
      blake2bHash (outlen - 32 * r) 0 (digest (r - 1))

/-- The halves of a chain of digests, the first one apart. -/
theorem flatMap_take_succ (digest : Bytes → Bytes) (buffer : Bytes) (k : Nat) :
    ((List.range (k + 1)).flatMap fun i => (digest^[i] buffer).take 32) =
      buffer.take 32 ++ (List.range k).flatMap fun i => (digest^[i] (digest buffer)).take 32 := by
  rw [List.range_succ_eq_map, List.flatMap_cons, List.flatMap_map]
  rfl

/-- The loop produces the rest of the chain. -/
theorem blake2bLongLoop_eq (toproduce : Nat) (h : 0 < toproduce) {buffer : Bytes}
    (hbuffer : buffer.length = 64) (out : Bytes) :
    blake2bLongLoop toproduce buffer out =
      .ok (out ++ ((List.range ((toproduce + 31) / 32 - 2)).flatMap
        fun i => ((blake2bHash 64 0)^[i] (blake2bHash 64 0 buffer)).take 32) ++
          blake2bHash (toproduce - 32 * ((toproduce + 31) / 32 - 2)) 0
            ((blake2bHash 64 0)^[(toproduce + 31) / 32 - 2] buffer)) := by
  induction toproduce using Nat.strongRecOn generalizing buffer out with
  | _ toproduce ih =>
      rw [blake2bLongLoop]
      by_cases hlt : toproduce > blake2bOutbytes
      · have hlt' : 64 < toproduce := hlt
        have hdigest := blake2b_eq (by decide : 0 < 64 ∧ 64 ≤ 64) buffer
        have hrest := ih (toproduce - 32) (by omega) (by omega)
          (length_blake2bHash (Nat.le_refl 64) 0 buffer) (out ++ (blake2bHash 64 0 buffer).take 32)
        have hk : (toproduce + 31) / 32 - 2 = (toproduce - 32 + 31) / 32 - 2 + 1 := by omega
        rw [hbuffer] at hdigest
        rw [if_pos hlt]
        refine bind_eq_ok_iff.2 ⟨_, hdigest, ?_⟩
        rw [show blake2bOutbytes / 2 = 32 from rfl, hrest, hk]
        rw [flatMap_take_succ, Function.iterate_succ_apply, List.append_assoc out,
          show toproduce - 32 - 32 * ((toproduce - 32 + 31) / 32 - 2) =
            toproduce - 32 * ((toproduce - 32 + 31) / 32 - 2 + 1) by omega]
      · have hle : toproduce ≤ 64 := Nat.le_of_not_lt hlt
        have hk : (toproduce + 31) / 32 - 2 = 0 := by omega
        have hdigest := blake2b_eq (⟨h, hle⟩ : 0 < toproduce ∧ toproduce ≤ 64) buffer
        rw [hbuffer] at hdigest
        rw [if_neg hlt, hk, List.range_zero, List.flatMap_nil, List.append_nil, Nat.mul_zero,
          Nat.sub_zero, Function.iterate_zero_apply]
        refine bind_eq_ok_iff.2 ⟨_, hdigest, congrArg (fun b => Except.ok (out ++ b)) ?_⟩
        exact List.take_of_length_le (Nat.le_of_eq (length_blake2bHash (by omega) 0 buffer))

/-- The length of the output is hashed in front of the input. -/
theorem prefix_final {n : Nat} (h : 0 < n ∧ n ≤ 64) (outlen : Nat) (input : Bytes) :
    ∃ S S' S'' r, blake2bInit n = .ok S ∧
      blake2bUpdate S (some (store32 (UInt32.ofNat outlen))) 4 = .ok S' ∧
      blake2bUpdate S' (some input) input.length = .ok S'' ∧
      blake2bFinal S'' n =
        .ok (blake2bHash n 0 (store32 (UInt32.ofNat outlen) ++ input), r) := by
  rcases update_represents (init_represents 0 h.1 h.2) (store32 (UInt32.ofNat outlen))
    with ⟨S', hprefix, hS'⟩
  rcases update_represents hS' input with ⟨S'', hinput, hS''⟩
  rcases final_represents hS'' h.2 with ⟨r, hfinal, _⟩
  exact ⟨_, S', S'', r, blake2bInit_eq h, hprefix, hinput, hfinal⟩

theorem blake2bLong_eq (outlen : Nat) (input : Bytes) :
    blake2bLong outlen (some input) input.length =
      if 0 < outlen ∧ outlen ≤ uint32Max then .ok (variableHash outlen input)
      else .error .failure := by
  by_cases h : 0 < outlen ∧ outlen ≤ uint32Max
  · rw [if_pos h, blake2bLong, if_neg (Nat.not_lt.2 h.2)]
    by_cases hle : outlen ≤ 64
    · rcases prefix_final ⟨h.1, hle⟩ outlen input with
        ⟨S, S', S'', r, hinit, hprefix, hinput, hfinal⟩
      have hspec : variableHash outlen input =
          blake2bHash outlen 0 (store32 (UInt32.ofNat outlen) ++ input) := if_pos hle
      rw [hspec, if_pos (show outlen ≤ blake2bOutbytes from hle)]
      exact bind_eq_ok_iff.2 ⟨S, hinit, bind_eq_ok_iff.2 ⟨S', hprefix,
        bind_eq_ok_iff.2 ⟨S'', hinput, bind_eq_ok_iff.2 ⟨_, hfinal, rfl⟩⟩⟩⟩
    · rcases prefix_final (n := 64) (by decide) outlen input with
        ⟨S, S', S'', r, hinit, hprefix, hinput, hfinal⟩
      have hloop := blake2bLongLoop_eq (outlen - 32) (by omega)
        (length_blake2bHash (Nat.le_refl 64) 0 (store32 (UInt32.ofNat outlen) ++ input))
        ((blake2bHash 64 0 (store32 (UInt32.ofNat outlen) ++ input)).take 32)
      have hk : (outlen + 31) / 32 - 2 = (outlen - 32 + 31) / 32 - 2 + 1 := by omega
      rw [variableHash, if_neg hle, if_neg (show ¬ outlen ≤ blake2bOutbytes from hle)]
      refine bind_eq_ok_iff.2 ⟨S, hinit, bind_eq_ok_iff.2 ⟨S', hprefix,
        bind_eq_ok_iff.2 ⟨S'', hinput, bind_eq_ok_iff.2 ⟨_, hfinal, ?_⟩⟩⟩⟩
      dsimp only
      rw [show blake2bOutbytes / 2 = 32 from rfl, hloop, hk]
      rw [flatMap_take_succ, Nat.add_sub_cancel,
        show outlen - 32 - 32 * ((outlen - 32 + 31) / 32 - 2) =
          outlen - 32 * ((outlen - 32 + 31) / 32 - 2 + 1) by omega]
  · rw [if_neg h, blake2bLong]
    by_cases hmax : outlen > uint32Max
    · rw [if_pos hmax]
    · have herror := blake2bInit_error fun hle => h ⟨hle.1, Nat.le_of_not_lt hmax⟩
      have hle : outlen ≤ blake2bOutbytes := by
        rw [blake2bOutbytes]
        omega
      rw [if_neg hmax, if_pos hle, herror]
      rfl

theorem length_variableHash (outlen : Nat) (input : Bytes) :
    (variableHash outlen input).length = outlen := by
  rw [variableHash]
  by_cases hle : outlen ≤ 64
  · rw [if_pos hle]
    exact length_blake2bHash hle 0 _
  · have hhalf : ∀ f : Nat → Bytes, (∀ i, (f i).length = 64) → ∀ r,
        ((List.range r).flatMap fun i => (f i).take 32).length = 32 * r := by
      intro f hf r
      induction r with
      | zero => rfl
      | succ r ih =>
          rw [List.range_succ, List.flatMap_append, List.length_append, ih, List.flatMap_singleton,
            List.length_take, hf]
          omega
    have hdigest : ∀ message i, ((blake2bHash 64 0)^[i] (blake2bHash 64 0 message)).length = 64 := by
      intro message i
      rw [← Function.iterate_succ_apply, Function.iterate_succ_apply']
      exact length_blake2bHash (Nat.le_refl 64) 0 _
    rw [if_neg hle]
    dsimp only
    rw [List.length_append, hhalf _ (hdigest _), length_blake2bHash (by omega)]
    omega

end Argon2id
