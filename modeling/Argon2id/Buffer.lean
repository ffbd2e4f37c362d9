import Argon2id.HashEncoded

/-!
# Buffer — the block for the encoded hash

`rb_argon2id_hash_encoded` predicts the size of the encoded hash with `argon2_encodedlen` and hands a
block of this size to the library.  With 64-bit `size_t` the prediction is exact: the encoder fills
the block and never leaves it.
-/

namespace Argon2id

/-- What `argon2_hash` passes to the encoder is the context that `argon2_ctx` returns. -/
theorem argon2idHashEncoded_of_argon2Ctx {host : Host} {tCost mCost parallelism outlen : UInt32}
    {pwd salt : Bytes} {ctx : Context} (hpwd : pwd.length ≤ uint32Max)
    (hsalt : salt.length ≤ uint32Max)
    (hctx : argon2Ctx host (requestContext (host.malloc outlen.toNat) tCost mCost parallelism pwd
      salt outlen) .id = .ok ctx) :
    validateInputs host.platform ctx = .ok ∧
      ctx.hash = nativeHash host tCost mCost parallelism pwd salt outlen ∧
      ∀ (encoded : Bytes) (encodedlen : Nat), encodedlen ≠ 0 →
        argon2idHashEncoded host tCost mCost parallelism pwd salt outlen encoded encodedlen =
          encodingResult (encodeString host.platform encoded encodedlen ctx .id) := by
  have hlimits : WithinLimits host.platform mCost.toNat tCost.toNat parallelism.toNat salt.length
      outlen.toNat := by
    rw [← validateInputs_requestContext host.platform (host.malloc outlen.toNat) pwd hsalt]
    rw [argon2Ctx] at hctx
    split at hctx
    · assumption
    · cases hctx
  have hrequest := argon2Ctx_requestContext (host.malloc outlen.toNat) hpwd hsalt hlimits
  rw [hrequest] at hctx
  obtain rfl := Except.ok.inj hctx
  refine ⟨(validateInputs_requestContext host.platform _ pwd hsalt).2 hlimits,
    hash_requestContext host tCost mCost parallelism outlen pwd hsalt, ?_⟩
  intro encoded encodedlen hne
  rw [argon2idHashEncoded_eq hpwd hsalt hlimits, if_neg hne]

/-- With 64-bit `size_t` the prediction does not wrap around. -/
theorem argon2Encodedlen_eq_encodedSize (host : Host) (hsize : host.platform.size = .w64)
    (tCost mCost parallelism saltlen outlen : UInt32) :
    argon2Encodedlen host.platform tCost mCost parallelism saltlen outlen .id =
      encodedSize mCost.toNat tCost.toNat parallelism.toNat saltlen.toNat outlen.toNat := by
  have hwrap := encodedSize_lt hsize mCost.toNat_lt tCost.toNat_lt parallelism.toNat_lt
    saltlen.toNat_lt outlen.toNat_lt
  -- the prediction for some salt of this length
  have hsalt : (List.replicate saltlen.toNat (0 : UInt8)).length ≤ uint32Max := by
    rw [List.length_replicate]
    exact Nat.le_of_lt_succ saltlen.toNat_lt
  have hrequest := argon2Encodedlen_request host tCost mCost parallelism outlen hsalt
  rw [List.length_replicate, UInt32.ofNat_toNat, Nat.mod_eq_of_lt hwrap] at hrequest
  exact hrequest

section Reached

variable {host : Host} {tCost mCost parallelism outlen : UInt32} {pwd salt : Bytes} {ctx : Context}
  {block : Bytes}

/-- The encoder fills a block of the size of the text and its `NUL`, and writes nothing behind it. -/
theorem encodeString_of_argon2Ctx (hpwd : pwd.length ≤ uint32Max)
    (hsalt : salt.length ≤ uint32Max)
    (hctx : argon2Ctx host (requestContext (host.malloc outlen.toNat) tCost mCost parallelism pwd
      salt outlen) .id = .ok ctx)
    (hlt : block.length < 2 ^ host.platform.size.bits)
    (hblock : block.length =
      (nativeHash host tCost mCost parallelism pwd salt outlen).write.length + 1)
    (beyond : Bytes) :
    encodeString host.platform (block ++ beyond) block.length ctx .id =
      .ok ((nativeHash host tCost mCost parallelism pwd salt outlen).write ++ [0] ++ beyond) := by
  rcases argon2idHashEncoded_of_argon2Ctx hpwd hsalt hctx with ⟨hvalid, hhash, _⟩
  rw [← hhash] at hblock ⊢
  exact encodeString_exact hvalid hlt hblock beyond

theorem argon2idHashEncoded_block (hpwd : pwd.length ≤ uint32Max)
    (hsalt : salt.length ≤ uint32Max)
    (hctx : argon2Ctx host (requestContext (host.malloc outlen.toNat) tCost mCost parallelism pwd
      salt outlen) .id = .ok ctx)
    (hlt : block.length < 2 ^ host.platform.size.bits)
    (hblock : block.length =
      (nativeHash host tCost mCost parallelism pwd salt outlen).write.length + 1) :
    argon2idHashEncoded host tCost mCost parallelism pwd salt outlen block block.length =
      .ok ((nativeHash host tCost mCost parallelism pwd salt outlen).write ++ [0]) := by
  rcases argon2idHashEncoded_of_argon2Ctx hpwd hsalt hctx with ⟨_, _, hreaches⟩
  have hrun := encodeString_of_argon2Ctx hpwd hsalt hctx hlt hblock []
  rw [List.append_nil, List.append_nil] at hrun
  rw [hreaches block block.length (by omega), hrun, encodingResult]

end Reached

/-- With 64-bit `size_t` the allocated size does not wrap around, and it is the size of the encoded
hash with its `NUL`: whenever the validation passes and the encoder is reached, it fills the block
with the text of the hash and the `NUL` and writes nothing behind the block. -/
theorem hashEncoded_block_exact (host : Host) (hsize : host.platform.size = .w64)
    (tCost mCost parallelism saltlen outlen : UInt32) {encodedlen : Nat}
    (hlen : encodedlen =
      argon2Encodedlen host.platform tCost mCost parallelism saltlen outlen .id) :
    encodedlen =
        encodedSize mCost.toNat tCost.toNat parallelism.toNat saltlen.toNat outlen.toNat ∧
      ∀ (pwd salt : Bytes) (ctx : Context), pwd.length ≤ uint32Max → salt.length = saltlen.toNat →
        argon2Ctx host (requestContext (host.malloc outlen.toNat) tCost mCost parallelism pwd salt
          outlen) .id = .ok ctx →
        let text := (nativeHash host tCost mCost parallelism pwd salt outlen).write
        (0 : UInt8) ∉ text ∧ text.length + 1 = encodedlen ∧
          (∀ block beyond : Bytes, block.length = encodedlen →
            encodeString host.platform (block ++ beyond) encodedlen ctx .id =
              .ok (text ++ [0] ++ beyond)) ∧
          (∀ block : Bytes, block.length = encodedlen →
            argon2idHashEncoded host tCost mCost parallelism pwd salt outlen block encodedlen =
              .ok (text ++ [0])) ∧
          rbStrNewCstr (text ++ [0]) = .ok text ∧
          rbArgon2idHashEncoded host tCost.toNat mCost.toNat parallelism.toNat pwd salt
            outlen.toNat = .ok text := by
  have hexact := argon2Encodedlen_eq_encodedSize host hsize tCost mCost parallelism saltlen outlen
  rw [← hlen] at hexact
  refine ⟨hexact, ?_⟩
  intro pwd salt ctx hpwd hsaltlen hctx text
  have hsalt : salt.length ≤ uint32Max := hsaltlen ▸ Nat.le_of_lt_succ saltlen.toNat_lt
  have hlt := encodedSize_lt hsize mCost.toNat_lt tCost.toNat_lt parallelism.toNat_lt
    saltlen.toNat_lt outlen.toNat_lt
  rw [← hexact] at hlt
  have hlength := length_write_nativeHash host tCost mCost parallelism pwd salt outlen
  rw [hsaltlen, ← hexact] at hlength
  have hnul := not_mem_of_isAscii
    (nativeHash host tCost mCost parallelism pwd salt outlen).isAscii_write
  have hcstr := rbStrNewCstr_eq hnul (List.prefix_refl _)
  have hlibrary : ∀ block : Bytes, block.length = encodedlen →
      argon2idHashEncoded host tCost mCost parallelism pwd salt outlen block encodedlen =
        .ok (text ++ [0]) := by
    rintro block rfl
    exact argon2idHashEncoded_block hpwd hsalt hctx hlt hlength.symm
  refine ⟨hnul, hlength, ?_, hlibrary, hcstr, ?_⟩
  · rintro block beyond rfl
    exact encodeString_of_argon2Ctx hpwd hsalt hctx hlt hlength.symm beyond
  -- the method allocates a block of this size
  · rcases rbArgon2idHashEncoded_of_num2uint host (num2uint_toNat tCost) (num2uint_toNat mCost)
      (num2uint_toNat parallelism) (num2uint_toNat outlen) hpwd hsalt with ⟨block, hblock, hmethod⟩
    rw [hsaltlen, ← hexact, Nat.mod_eq_of_lt hlt] at hblock
    calc
      rbArgon2idHashEncoded host tCost.toNat mCost.toNat parallelism.toNat pwd salt outlen.toNat =
          hashEncodedBody (argon2idHashEncoded host tCost mCost parallelism pwd salt outlen block
            block.length) := hmethod
      _ = hashEncodedBody (.ok (text ++ [0])) := by rw [hblock, hlibrary block hblock]
      _ = .ok text := hcstr

theorem hashEncoded_block_exact_sample :
    let text := ascii "$argon2id$v=19$m=8,t=1,p=1$AAAAAAAAAAA$AAAAAA"
    (0 : UInt8) ∉ text ∧ text.length + 1 = 46 ∧
      (∀ block : Bytes, block.length = 46 →
        argon2idHashEncoded (Host.zero .x8664Linux) 1 8 1 [] (List.replicate 8 0) 4 block 46 =
          .ok (text ++ [0])) ∧
      rbArgon2idHashEncoded (Host.zero .x8664Linux) 1 8 1 [] (List.replicate 8 0) 4 = .ok text := by
  have htext : (nativeHash (Host.zero .x8664Linux) 1 8 1 [] (List.replicate 8 0) 4).write =
      ascii "$argon2id$v=19$m=8,t=1,p=1$AAAAAAAAAAA$AAAAAA" := by decide +kernel
  have hsize : 46 = argon2Encodedlen Platform.x8664Linux 1 8 1 8 4 .id := by decide +kernel
  have hexact := (hashEncoded_block_exact (Host.zero .x8664Linux) rfl 1 8 1 8 4 hsize).2 []
    (List.replicate 8 0) _ (by decide) rfl
    (argon2Ctx_requestContext _ (by decide) (by decide) (by decide))
  rw [htext] at hexact
  rcases hexact with ⟨hnul, hlength, _, hlibrary, _, hmethod⟩
  exact ⟨hnul, hlength, hlibrary, hmethod⟩

end Argon2id
