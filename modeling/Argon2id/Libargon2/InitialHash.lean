import Argon2id.Libargon2.Blake2bResults
import Argon2id.Libargon2.Compute

/-!
# Libargon2.InitialHash — all inputs in one digest

- `Inputs`: all that a tag depends on
- `Inputs.preimage_injective`: different inputs are hashed as different byte strings
- `initialHash_eq`: the digest that `initial_hash` computes
-/

namespace Argon2id

open LittleEndian

/-! ## Inputs -/

@[ext]
structure Inputs where
  type : Argon2Type
  version : UInt32
  lanes : UInt32
  outlen : UInt32
  mCost : UInt32
  tCost : UInt32
  pwd : Bytes
  salt : Bytes
  secret : Bytes
  ad : Bytes
  pwd_lt : pwd.length < 2 ^ 32
  salt_lt : salt.length < 2 ^ 32
  secret_lt : secret.length < 2 ^ 32
  ad_lt : ad.length < 2 ^ 32

/-- The bytes that `initial_hash` hashes. -/
def Inputs.preimage (x : Inputs) : Bytes :=
  toBytes 4 x.lanes.toNat ++ (toBytes 4 x.outlen.toNat ++ (toBytes 4 x.mCost.toNat ++
    (toBytes 4 x.tCost.toNat ++ (toBytes 4 x.version.toNat ++ (toBytes 4 x.type.value.toNat ++
      (prefixed 4 x.pwd ++ (prefixed 4 x.salt ++ (prefixed 4 x.secret ++ prefixed 4 x.ad))))))))

theorem Argon2Type.value_lt (type : Argon2Type) : type.value.toNat < 256 ^ 4 := by
  cases type
  all_goals decide

theorem Argon2Type.value_inj {type type' : Argon2Type} (h : type.value.toNat = type'.value.toNat) :
    type = type' := by
  revert h
  cases type
  all_goals cases type'
  all_goals decide

/-- Different inputs have different preimages. -/
theorem Inputs.preimage_injective : Function.Injective Inputs.preimage := by
  intro x y h
  have hlt : ∀ w : UInt32, w.toNat < 256 ^ 4 := fun w => w.toNat_lt
  rcases toBytes_append_inj (hlt x.lanes) (hlt y.lanes) h with ⟨hlanes, h⟩
  rcases toBytes_append_inj (hlt x.outlen) (hlt y.outlen) h with ⟨houtlen, h⟩
  rcases toBytes_append_inj (hlt x.mCost) (hlt y.mCost) h with ⟨hmCost, h⟩
  rcases toBytes_append_inj (hlt x.tCost) (hlt y.tCost) h with ⟨htCost, h⟩
  rcases toBytes_append_inj (hlt x.version) (hlt y.version) h with ⟨hversion, h⟩
  rcases toBytes_append_inj x.type.value_lt y.type.value_lt h with ⟨htype, h⟩
  rcases prefixed_append_inj x.pwd_lt y.pwd_lt h with ⟨hpwd, h⟩
  rcases prefixed_append_inj x.salt_lt y.salt_lt h with ⟨hsalt, h⟩
  rcases prefixed_append_inj x.secret_lt y.secret_lt h with ⟨hsecret, h⟩
  rw [← List.append_nil (prefixed 4 x.ad), ← List.append_nil (prefixed 4 y.ad)] at h
  have had := (prefixed_append_inj x.ad_lt y.ad_lt h).1
  exact Inputs.ext (Argon2Type.value_inj htype) (UInt32.toNat_inj.1 hversion)
    (UInt32.toNat_inj.1 hlanes) (UInt32.toNat_inj.1 houtlen) (UInt32.toNat_inj.1 hmCost)
    (UInt32.toNat_inj.1 htCost) hpwd hsalt hsecret had

/-- The digest of all inputs. -/
def Inputs.digest (x : Inputs) : Bytes :=
  blake2bHash 64 0 x.preimage

/-! ## The inputs of a context -/

/-- The buffers of a context are at least as long as it says; no buffer is an empty one. -/
structure Context.Sized (context : Context) : Prop where
  pwd : context.pwdlen.toNat ≤ (context.pwd.getD []).length
  salt : context.saltlen.toNat ≤ (context.salt.getD []).length
  secret : context.secretlen.toNat ≤ (context.secret.getD []).length
  ad : context.adlen.toNat ≤ (context.ad.getD []).length

/-- The bytes of a field. -/
def readField (field : Option Bytes) (len : UInt32) : Bytes :=
  (field.getD []).take len.toNat

theorem length_readField_lt (field : Option Bytes) (len : UInt32) :
    (readField field len).length < 2 ^ 32 :=
  (List.length_take_le _ _).trans_lt len.toNat_lt

def Context.inputs (context : Context) (type : Argon2Type) : Inputs where
  type := type
  version := context.version
  lanes := context.lanes
  outlen := context.outlen
  mCost := context.mCost
  tCost := context.tCost
  pwd := readField context.pwd context.pwdlen
  salt := readField context.salt context.saltlen
  secret := readField context.secret context.secretlen
  ad := readField context.ad context.adlen
  pwd_lt := length_readField_lt _ _
  salt_lt := length_readField_lt _ _
  secret_lt := length_readField_lt _ _
  ad_lt := length_readField_lt _ _

/-! ## Initial hashing -/

section InitialHash

variable {S : Blake2bState} {message : Bytes}

theorem update_represents_unchecked (h : Represents 64 0 S message) (more : Bytes) :
    Represents 64 0 (uncheckedUpdate S more more.length) (message ++ more) := by
  rcases update_represents h more with ⟨S', hupdate, hS'⟩
  rw [uncheckedUpdate, hupdate]
  exact hS'

theorem update_store32 (h : Represents 64 0 S message) (w : UInt32) :
    Represents 64 0 (uncheckedUpdate S (store32 w) 4) (message ++ toBytes 4 w.toNat) := by
  have hupdate := update_represents_unchecked h (store32 w)
  rw [length_store32, store32_eq] at hupdate
  rw [store32_eq]
  exact hupdate

/-- Only the first bytes of a buffer are hashed. -/
theorem update_take (S : Blake2bState) {bytes : Bytes} {n : Nat} (h : n ≤ bytes.length) :
    uncheckedUpdate S bytes n = uncheckedUpdate S (bytes.take n) (bytes.take n).length := by
  have hlength : (bytes.take n).length = n := List.length_take_of_le h
  have hread : readBytes bytes n = readBytes (bytes.take n) n := by
    rw [readBytes, readBytes, if_pos h, if_pos hlength.ge, List.take_take, Nat.min_self]
  rw [hlength, uncheckedUpdate, uncheckedUpdate, blake2bUpdate, blake2bUpdate]
  simp only [hread]

theorem updateField_represents (h : Represents 64 0 S message) {field : Option Bytes} {len : UInt32}
    (hlen : len.toNat ≤ (field.getD []).length) :
    Represents 64 0 (updateField S field len) (message ++ prefixed 4 (readField field len)) := by
  have hlength : (readField field len).length = len.toNat := List.length_take_of_le hlen
  have hprefix := update_store32 h len
  rw [prefixed, hlength, ← List.append_assoc]
  unfold updateField
  cases field with
  | none =>
      rw [List.eq_nil_of_length_eq_zero (hlength.trans (Nat.eq_zero_of_le_zero hlen)), List.append_nil]
      exact hprefix
  | some bytes =>
      have hbytes : len.toNat ≤ bytes.length := hlen
      dsimp only
      rw [update_take _ hbytes]
      exact update_represents_unchecked hprefix _

theorem clearPassword_fields (context : Context) :
    (clearPassword context).salt = context.salt ∧ (clearPassword context).saltlen = context.saltlen ∧
      (clearPassword context).secret = context.secret ∧
        (clearPassword context).secretlen = context.secretlen ∧
          (clearPassword context).ad = context.ad ∧ (clearPassword context).adlen = context.adlen := by
  rw [clearPassword]
  split_ifs
  · exact ⟨rfl, rfl, rfl, rfl, rfl, rfl⟩
  · exact ⟨rfl, rfl, rfl, rfl, rfl, rfl⟩

theorem clearSecret_fields (context : Context) :
    (clearSecret context).ad = context.ad ∧ (clearSecret context).adlen = context.adlen := by
  rw [clearSecret]
  split_ifs
  · exact ⟨rfl, rfl⟩
  · exact ⟨rfl, rfl⟩

/-- The initial hash is the digest of all inputs, each field behind its length. -/
theorem initialHash_eq {context : Context} (h : context.Sized) (type : Argon2Type) :
    (initialHash context type).1 = (context.inputs type).digest := by
  have hinit : Represents 64 0 (unchecked blake2bInit0 (blake2bInit 64)) [] := by
    rw [blake2bInit_eq ⟨by decide, by decide⟩]
    exact init_represents 0 (by decide) (by decide)
  have hlanes := update_store32 hinit context.lanes
  have houtlen := update_store32 hlanes context.outlen
  have hmCost := update_store32 houtlen context.mCost
  have htCost := update_store32 hmCost context.tCost
  have hversion := update_store32 htCost context.version
  have htype := update_store32 hversion type.value.toUInt32
  have hpwd := updateField_represents htype h.pwd
  have hsalt := updateField_represents hpwd h.salt
  have hsecret := updateField_represents hsalt h.secret
  have had := updateField_represents hsecret h.ad
  rcases final_represents had (by decide) with ⟨S', hfinal, _⟩
  rcases clearPassword_fields context with ⟨h1, h2, h3, h4, h5, h6⟩
  rcases clearSecret_fields (clearPassword context) with ⟨h7, h8⟩
  have htypeValue : type.value.toUInt32.toNat = type.value.toNat := by
    cases type
    all_goals rfl
  unfold initialHash
  dsimp only
  rw [h7, h8, h1, h2, h3, h4, h5, h6, hfinal]
  rw [Inputs.digest, Inputs.preimage, unchecked]
  simp only [List.append_assoc, List.nil_append, htypeValue]
  rfl

/-- A context with two lanes and two threads. -/
def Context.sample : Context where
  out := some (zeros 4)
  outlen := 4
  pwd := some (ascii "password")
  pwdlen := 8
  salt := some (ascii "somesalt")
  saltlen := 8
  secret := none
  secretlen := 0
  ad := none
  adlen := 0
  tCost := 1
  mCost := 16
  lanes := 2
  threads := 2
  version := versionNumber
  allocateCbk := false
  freeCbk := false
  flags := 0

theorem Context.sized_sample : Context.sample.Sized :=
  ⟨by decide, by decide, by decide, by decide⟩

/-- The same with a secret and associated data, and with the flags that wipe password and secret. -/
def Context.wiping : Context :=
  { Context.sample with
    secret := some (ascii "pepper")
    secretlen := 6
    ad := some (ascii "data")
    adlen := 4
    flags := flagClearPassword ||| flagClearSecret }

theorem initialHash_eq_sample :
    (initialHash Context.wiping .id).1 = (Context.wiping.inputs .id).digest ∧
      (Context.wiping.inputs .id).pwd = ascii "password" ∧
      (Context.wiping.inputs .id).secret = ascii "pepper" ∧
      (initialHash Context.wiping .id).2.pwd = some (zeros 8) ∧
      (initialHash Context.wiping .id).2.secret = some (zeros 6) := by
  have hsized : Context.wiping.Sized := ⟨by decide, by decide, by decide, by decide⟩
  have hcleared : (initialHash Context.wiping .id).2 = clearSecret (clearPassword Context.wiping) := rfl
  refine ⟨initialHash_eq hsized .id, by decide, by decide, ?_, ?_⟩
  · rw [hcleared]
    decide
  · rw [hcleared]
    decide

end InitialHash

end Argon2id
