import Argon2id.Libargon2.Argon2
import Argon2id.Libargon2.ComputeResults

/-!
# Libargon2.Computed — the host that computes

`argon2Ctx` takes the tag from its host.  `Host.computed` is the host that computes it: what
`argon2_ctx` does with threads and memory is what `argon2Ctx` does on this host
(`argon2Ctx_refines`).
-/

namespace Argon2id

/-- The tag of parameters without secret and associated data; longer inputs do not exist. -/
def computedTag (type : Argon2Type) (version mCost tCost lanes : Nat) (salt pwd : Bytes)
    (outlen : Nat) : Bytes :=
  if h : outlen < 2 ^ 32 ∧ pwd.length < 2 ^ 32 ∧ salt.length < 2 ^ 32 then
    argon2Tag
      { type := type
        version := UInt32.ofNat version
        lanes := UInt32.ofNat lanes
        outlen := UInt32.ofNat outlen
        mCost := UInt32.ofNat mCost
        tCost := UInt32.ofNat tCost
        pwd := pwd
        salt := salt
        secret := []
        ad := []
        pwd_lt := h.2.1
        salt_lt := h.2.2
        secret_lt := by decide
        ad_lt := by decide }
  else zeros outlen

theorem length_computedTag (type : Argon2Type) (version mCost tCost lanes : Nat) (salt pwd : Bytes)
    (outlen : Nat) : (computedTag type version mCost tCost lanes salt pwd outlen).length = outlen := by
  rw [computedTag]
  split_ifs with h
  · rw [length_argon2Tag]
    exact toNat_ofNat_of_lt h.1
  · exact List.length_replicate ..

/-- The host that computes its tags. -/
def Host.computed (host : Host) : Host :=
  { host with
    tag := computedTag
    tag_length := length_computedTag }

section Refinement

variable {context : Context} {type : Argon2Type}

theorem computedTag_eq (hplain : context.Plain) :
    computedTag type context.version.toNat context.mCost.toNat context.tCost.toNat context.lanes.toNat
      (readField context.salt context.saltlen) (readField context.pwd context.pwdlen)
      context.outlen.toNat = argon2Tag (context.inputs type) := by
  rw [computedTag, dif_pos ⟨context.outlen.toNat_lt, length_readField_lt _ _, length_readField_lt _ _⟩]
  have hnone : ∀ len : UInt32, readField none len = [] := fun len => List.take_nil
  refine congrArg argon2Tag (Inputs.ext rfl ?_ ?_ ?_ ?_ ?_ rfl rfl ?_ ?_)
  · exact UInt32.ofNat_toNat
  · exact UInt32.ofNat_toNat
  · exact UInt32.ofNat_toNat
  · exact UInt32.ofNat_toNat
  · exact UInt32.ofNat_toNat
  · exact ((congrArg (readField · context.secretlen) hplain.secret).trans (hnone _)).symm
  · exact ((congrArg (readField · context.adlen) hplain.ad).trans (hnone _)).symm

/-- Without a flag, nothing of the context is wiped. -/
theorem initialHash_context (hplain : context.Plain)
    (hflags : context.flags &&& flagClearPassword = 0) (type : Argon2Type) :
    (initialHash context type).2 = context := by
  have hpassword : clearPassword context = context := if_neg fun h => h.2 hflags
  have hsecret : clearSecret context = context := if_neg fun h => by
    rw [hplain.secret] at h
    exact Bool.false_ne_true h.1
  change clearSecret (clearPassword context) = context
  rw [hpassword, hsecret]

theorem storeAt_full {dst src : Bytes} (h : src.length = dst.length) : storeAt dst 0 src = src := by
  rw [storeAt, List.take_zero, List.nil_append, Nat.zero_add, h, List.drop_length, List.append_nil]

/-- On a context as the wrappers build it (plain, the password kept, a whole output buffer), what
`argon2_ctx` does is what `argon2Ctx` does on the host that computes, unless memory or threads run
out. -/
theorem argon2Ctx_refines (host : Host) (hplain : context.Plain) (hsized : context.Sized)
    (hflags : context.flags &&& flagClearPassword = 0)
    (hout : (context.out.getD []).length = context.outlen.toNat) {fallible : Prop} {m : Memory}
    {result : CtxResult} (h : Argon2Ctx host.platform fallible context type m result) :
    argon2Ctx host.computed context type =
        (if result.code = .ok then .ok result.context else .error result.code) ∨
      fallible ∧ (result.code = .memoryAllocationError ∨ result.code = .threadFail) := by
  have hhost : host.computed.platform = host.platform := rfl
  cases h with
  | invalid h =>
      refine Or.inl ?_
      rw [if_neg h, argon2Ctx, hhost]
      split
      · rename_i hok
        exact absurd hok h
      · rfl
  | noMemory h malloc hmalloc halloc =>
      rw [allocateMemory_eq type (validated_of_ok h)] at halloc
      split_ifs at halloc with hsuccess
      · exact absurd rfl halloc
      · exact Or.inr ⟨hmalloc _ (Bool.eq_false_iff.2 hsuccess), Or.inl rfl⟩
  | notFilled h _ _ hfill hcode =>
      rcases fillMemoryBlocks_error (setupInstance_laid type (validated_of_ok h)) hfill hcode with ⟨hfallible, _, hcodes⟩
      exact Or.inr ⟨hfallible, hcodes⟩
  | filled h malloc halloc hfill =>
      have hresult := (argon2Ctx_ok hsized (.filled h malloc halloc hfill) rfl).1
      have hlength : (argon2Tag (context.inputs type)).length = (context.out.getD []).length :=
        (length_argon2Tag _).trans hout.symm
      rw [storeAt_full hlength] at hresult
      refine Or.inl ?_
      rw [if_pos rfl, argon2Ctx, hhost, h]
      dsimp only at hresult ⊢
      rw [hresult, initialHash_context hplain hflags, ← computedTag_eq hplain]
      rfl

theorem argon2Ctx_refines_sample : ∃ result,
    Argon2Ctx .x8664Linux False Context.sample .id (fun _ => 0) result ∧
      argon2Ctx (Host.zero .x8664Linux).computed Context.sample .id = .ok result.context := by
  rcases exists_argon2Ctx .x8664Linux Context.sample .id fun _ => 0 with ⟨result, h, hcode⟩
  have hplain : Context.sample.Plain :=
    ⟨rfl, rfl, rfl, rfl, rfl, rfl, rfl, rfl, rfl, rfl⟩
  have hok : result.code = .ok := hcode.trans (by decide)
  rcases argon2Ctx_refines (Host.zero .x8664Linux) hplain Context.sized_sample rfl rfl h with
    heq | ⟨hfallible, _⟩
  · rw [if_pos hok] at heq
    exact ⟨result, h, heq⟩
  · exact hfallible.elim

end Refinement

end Argon2id
