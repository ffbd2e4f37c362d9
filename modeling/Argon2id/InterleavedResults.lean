import Argon2id.Snapshot

/-!
# InterleavedResults — the native methods work on one snapshot of their strings

Whatever other code does at the coercions and while the GVL is released, a run of a native method
comes to what the method on byte strings (`Ext`) comes to on the strings that it froze, and each of
these has the content that the object of its own argument had at that moment.
-/

namespace Argon2id

namespace Interleaved

open Interference

/-! ## The heaps in which strings are frozen -/

/-- The heap in which the first string argument of a method is frozen. -/
def firstHeap (first : StringArg) (heap : Heap) (turns : List (List Action)) : Heap :=
  first.heapAt (turns.headD []) heap

/-- The heap in which the second one is frozen, when the content of the first one was `s`. -/
def secondHeap (first : StringArg) (s : RString) (second : StringArg) (heap : Heap)
    (turns : List (List Action)) : Heap :=
  second.heapAt (turns.tail.headD []) (withFrozen (firstHeap first heap turns) s)

/-! ## Hashing -/

/-- The method on bytes, once its integers are converted. -/
theorem rbArgon2idHashEncoded_converted (host : Host) {iterations memory threads hashlen : Int}
    {tCost mCost parallelism outlen : UInt32} (ht : Argon2id.num2uint iterations = .ok tCost)
    (hm : Argon2id.num2uint memory = .ok mCost) (hp : Argon2id.num2uint threads = .ok parallelism)
    (ho : Argon2id.num2uint hashlen = .ok outlen) (pwd salt : Bytes) :
    Argon2id.rbArgon2idHashEncoded host iterations memory threads pwd salt hashlen =
      if uint32Max < pwd.length then .error (.rangeError "password too long")
      else if uint32Max < salt.length then .error (.rangeError "salt too long")
      else
        let encodedlen := argon2Encodedlen host.platform tCost mCost parallelism
          (UInt32.ofNat salt.length) outlen .id
        hashEncodedBody (Argon2id.argon2idHashEncoded host tCost mCost parallelism pwd salt outlen
          (host.malloc encodedlen) encodedlen) := by
  rw [Argon2id.rbArgon2idHashEncoded, ht, hm, hp, ho]
  rfl

/-- The method on the bytes of two strings, once its integers have been converted. -/
def hashBytes (host : Host) (iterations memory threads hashlen : IntArg) (pwd salt : Bytes) :
    Except Raised Bytes := do
  let _ ← iterations.convert
  let _ ← memory.convert
  let _ ← threads.convert
  let _ ← hashlen.convert
  (Argon2id.rbArgon2idHashEncoded host iterations.value memory.value threads.value pwd salt
    hashlen.value).mapError .ruby

/-- What a run of `rb_argon2id_hash_encoded` comes to, and its snapshot: of each string the content
that the object of its own argument has when it is frozen. -/
inductive HashOutcome (host : Host) (iterations memory threads : IntArg) (pwd salt : StringArg)
    (hashlen : IntArg) (heap : Heap) (turns : List (List Action)) :
    Snapshot → Except Raised Bytes → Prop
  | pwdRaises {e : Raised} (hpwd : pwd.content (firstHeap pwd heap turns) = .error e) :
      HashOutcome host iterations memory threads pwd salt hashlen heap turns
        (fun _ => none) (.error e)
  | saltRaises {p : RString} {e : Raised} (hpwd : pwd.content (firstHeap pwd heap turns) = .ok p)
      (hsalt : salt.content (secondHeap pwd p salt heap turns) = .error e) :
      HashOutcome host iterations memory threads pwd salt hashlen heap turns
        (Snapshot.add (fun _ => none) .pwd { p with frozen := true }) (.error e)
  | hashed {p q : RString} (hpwd : pwd.content (firstHeap pwd heap turns) = .ok p)
      (hsalt : salt.content (secondHeap pwd p salt heap turns) = .ok q) :
      HashOutcome host iterations memory threads pwd salt hashlen heap turns
        (Snapshot.add (Snapshot.add (fun _ => none) .pwd { p with frozen := true })
          .salt { q with frozen := true })
        (hashBytes host iterations memory threads hashlen p.bytes q.bytes)

section Hashing

variable {snapshot : Snapshot} {pwd salt : Local} {p q : RString}

theorem ensures_hashConverted (host : Host) (tCost mCost parallelism outlen : UInt32)
    (hpwd : snapshot pwd.param = some p) (hsalt : snapshot salt.param = some q) :
    Ensures (Inv snapshot [salt, pwd]) (hashConverted host tCost mCost parallelism outlen pwd salt)
      (fun r _ trace => Consistent snapshot trace ∧
        ∀ iterations memory threads hashlen : Int, Argon2id.num2uint iterations = .ok tCost →
          Argon2id.num2uint memory = .ok mCost → Argon2id.num2uint threads = .ok parallelism →
          Argon2id.num2uint hashlen = .ok outlen →
          r = (Argon2id.rbArgon2idHashEncoded host iterations memory threads p.bytes q.bytes
            hashlen).mapError .ruby) := by
  have hpwd' : pwd ∈ [salt, pwd] := by simp
  have hsalt' : salt ∈ [salt, pwd] := by simp
  refine (keeps_rstringLen hpwd' hpwd).step ?_
  by_cases hpwdmax : uint32Max < p.bytes.length
  · simp only [hpwdmax, if_true]
    refine Ensures.raise fun _ _ h => ⟨h.consistent, fun _ _ _ _ ht hm hp ho => ?_⟩
    rw [rbArgon2idHashEncoded_converted host ht hm hp ho, if_pos hpwdmax]
    rfl
  simp only [hpwdmax, if_false]
  refine (keeps_rstringLen hsalt' hsalt).step ?_
  by_cases hsaltmax : uint32Max < q.bytes.length
  · simp only [hsaltmax, if_true]
    refine Ensures.raise fun _ _ h => ⟨h.consistent, fun _ _ _ _ ht hm hp ho => ?_⟩
    rw [rbArgon2idHashEncoded_converted host ht hm hp ho, if_neg hpwdmax, if_pos hsaltmax]
    rfl
  simp only [hsaltmax, if_false]
  -- the cast to 32 bits does not change the length that passed the check
  have hcast := toNat_ofNat_of_le (Nat.le_of_not_lt hsaltmax)
  refine (keeps_record hsalt (.sized salt.param (UInt32.ofNat q.bytes.length)) rfl hcast).step ?_
  refine (keeps_rstringLen hpwd' hpwd).step ?_
  refine (keeps_rstringLen hsalt' hsalt).step ?_
  refine (keeps_rbThreadCallWithoutGvl
    (keeps_argon2idHashEncoded host hpwd' hpwd rfl hsalt' hsalt rfl)).step ?_
  refine Ensures.lift fun _ _ h => ⟨h.consistent, fun _ _ _ _ ht hm hp ho => ?_⟩
  rw [rbArgon2idHashEncoded_converted host ht hm hp ho, if_neg hpwdmax, if_neg hsaltmax]

/-- An integer is converted, and the program goes on with the number. -/
theorem ensures_convert {vs : List Local} {α : Type} {result : UInt32 → Except Raised α}
    (arg : IntArg) {f : UInt32 → Call α}
    (hok : ∀ u, arg.convert = .ok u → Ensures (Inv snapshot vs) (f u) fun r _ trace =>
      Consistent snapshot trace ∧ r = result u) :
    Ensures (Inv snapshot vs) (num2uint arg >>= f) fun r _ trace =>
      Consistent snapshot trace ∧ r = arg.convert >>= result := by
  refine (ensures_num2uint arg).bind (fun u => ?_) ?_
  · refine Ensures.assume fun hu => (hok u hu.symm).weaken (fun _ _ h => h) ?_
    rintro r _ trace ⟨h, hr⟩
    refine ⟨h, hr.trans ?_⟩
    rw [← hu]
    rfl
  · rintro e _ trace ⟨he, h⟩
    refine ⟨h.consistent, ?_⟩
    rw [← he]
    rfl

/-- After the strings have been frozen, the result is that of the method on their bytes. -/
theorem ensures_hashFrozen (host : Host) (iterations memory threads hashlen : IntArg)
    (hpwd : snapshot pwd.param = some p) (hsalt : snapshot salt.param = some q) :
    Ensures (Inv snapshot [salt, pwd])
      (do
        let tCost ← num2uint iterations
        let mCost ← num2uint memory
        let parallelism ← num2uint threads
        let outlen ← num2uint hashlen
        hashConverted host tCost mCost parallelism outlen pwd salt)
      (fun r _ trace => Consistent snapshot trace ∧
        r = hashBytes host iterations memory threads hashlen p.bytes q.bytes) := by
  refine ensures_convert iterations fun tCost ht => ?_
  refine ensures_convert memory fun mCost hm => ?_
  refine ensures_convert threads fun parallelism hl => ?_
  refine ensures_convert hashlen fun outlen ho => ?_
  refine (ensures_hashConverted host tCost mCost parallelism outlen hpwd hsalt).weaken
    (fun _ _ h => h) ?_
  rintro r _ trace ⟨h, hr⟩
  exact ⟨h, hr _ _ _ _ (IntArg.num2uint_value ht) (IntArg.num2uint_value hm)
    (IntArg.num2uint_value hl) (IntArg.num2uint_value ho)⟩

end Hashing

theorem rbArgon2idHashEncoded_outcome (host : Host) (heap : Heap) (turns : List (List Action))
    (iterations memory threads : IntArg) (pwd salt : StringArg) (hashlen : IntArg) :
    ∃ snapshot,
      Consistent snapshot (rbArgon2idHashEncoded host iterations memory threads pwd salt hashlen
        ⟨heap, turns, []⟩).2.trace ∧
      HashOutcome host iterations memory threads pwd salt hashlen heap turns snapshot
        (rbArgon2idHashEncoded host iterations memory threads pwd salt hashlen ⟨heap, turns, []⟩).1 := by
  rw [rbArgon2idHashEncoded]
  rcases (inv_start heap).coerce_freeze rfl pwd turns _ with
    ⟨e, hpwd, hrun⟩ | ⟨p, heap', trace', v, hpwd, hv, hheap, hinv, hrun⟩
  · rw [hrun]
    exact ⟨_, consistent_nil, .pwdRaises hpwd⟩
  rw [hrun]
  have hnew : Snapshot.add (fun _ => none) .pwd { p with frozen := true } .salt = none := rfl
  rcases hinv.coerce_freeze hnew salt turns.tail _ with
    ⟨e, hsalt, hrun'⟩ | ⟨q, heap'', trace'', w, hsalt, hw, _, hinv', hrun'⟩
  · rw [hrun']
    rw [hheap] at hsalt
    exact ⟨_, hinv.consistent, .saltRaises hpwd hsalt⟩
  rw [hrun']
  rw [hheap] at hsalt
  have hp := Snapshot.add_of_some hnew { q with frozen := true } (Snapshot.add_of_param _ hv)
  have hfrozen := ensures_hashFrozen host iterations memory threads hashlen hp
    (Snapshot.add_of_param _ hw) ⟨heap'', turns.tail.tail, trace''⟩ hinv'
  rw [hfrozen.2]
  exact ⟨_, hfrozen.1, .hashed hpwd hsalt⟩

/-! ## Verifying -/

/-- What a run of `rb_argon2id_verify` comes to, and its snapshot.  Where `@encoded` has a `NUL`
character, the library is not called; where characters may be single bytes, the method is the one on
bytes. -/
inductive VerifyOutcome (host : Host) (encoded pwd : StringArg) (heap : Heap)
    (turns : List (List Action)) : Snapshot → Except Raised Bool → Prop
  | encodedRaises {e : Raised} (hencoded : encoded.content (firstHeap encoded heap turns) = .error e) :
      VerifyOutcome host encoded pwd heap turns (fun _ => none) (.error e)
  | nulCharacter {s : RString} (hencoded : encoded.content (firstHeap encoded heap turns) = .ok s)
      (hnul : s.strNullChar = true) :
      VerifyOutcome host encoded pwd heap turns (fun _ => none)
        (.error (.ruby (.argumentError (if s.minlen = .one then "string contains null byte"
          else "string contains null char"))))
  | pwdRaises {s : RString} {e : Raised}
      (hencoded : encoded.content (firstHeap encoded heap turns) = .ok s)
      (hnul : s.strNullChar = false)
      (hpwd : pwd.content (secondHeap encoded s pwd heap turns) = .error e) :
      VerifyOutcome host encoded pwd heap turns
        (Snapshot.add (fun _ => none) .encoded { s with frozen := true }) (.error e)
  | verified {s p : RString} (hencoded : encoded.content (firstHeap encoded heap turns) = .ok s)
      (hnul : s.strNullChar = false)
      (hpwd : pwd.content (secondHeap encoded s pwd heap turns) = .ok p)
      (hone : s.minlen = .one → (0 : UInt8) ∉ s.bytes ∧
        verifyResult (Argon2id.argon2idVerify host (cString s.bytes) p.bytes) =
          Argon2id.rbArgon2idVerify host s.bytes p.bytes) :
      VerifyOutcome host encoded pwd heap turns
        (Snapshot.add (Snapshot.add (fun _ => none) .encoded { s with frozen := true })
          .pwd { p with frozen := true })
        ((verifyResult (Argon2id.argon2idVerify host (cString s.bytes) p.bytes)).mapError .ruby)

/-- Without a `NUL` byte the C string is the whole string. -/
theorem cString_of_not_mem {bytes : Bytes} (hnul : (0 : UInt8) ∉ bytes) : cString bytes = bytes := by
  refine List.takeWhile_eq_self_iff.2 fun c hc => ?_
  simp only [decide_eq_true_eq]
  rintro rfl
  exact hnul hc

theorem rbArgon2idVerify_of_not_mem (host : Host) {encoded : Bytes} (hnul : (0 : UInt8) ∉ encoded)
    (pwd : Bytes) : Argon2id.rbArgon2idVerify host encoded pwd =
      verifyResult (Argon2id.argon2idVerify host encoded pwd) := by
  rw [Argon2id.rbArgon2idVerify, if_neg hnul]
  rfl

/-- After the strings have been frozen, the library answers on their bytes. -/
theorem ensures_verifyFrozen (host : Host) {snapshot : Snapshot} {encoded pwd : Local} {s p : RString}
    (hencoded : snapshot encoded.param = some s) (hpwd : snapshot pwd.param = some p) :
    Ensures (Inv snapshot [pwd, encoded])
      (do
        let pwdlen ← rstringLen pwd
        let result ← rbThreadCallWithoutGvl
          (argon2idVerify host { encoded := encoded, pwd := pwd, pwdlen := pwdlen })
        lift ((verifyResult result).mapError .ruby))
      (fun r _ trace => Consistent snapshot trace ∧
        r = (verifyResult (Argon2id.argon2idVerify host (cString s.bytes) p.bytes)).mapError .ruby) := by
  have hencoded' : encoded ∈ [pwd, encoded] := by simp
  have hpwd' : pwd ∈ [pwd, encoded] := by simp
  refine (keeps_rstringLen hpwd' hpwd).step ?_
  refine (keeps_rbThreadCallWithoutGvl
    (keeps_argon2idVerify host hencoded' hencoded hpwd' hpwd rfl)).step ?_
  exact Ensures.lift fun _ _ h => ⟨h.consistent, rfl⟩

/-- Where characters may be single bytes, the library gets the whole string. -/
theorem verifyResult_of_one (host : Host) {s : RString} (hnul : s.strNullChar = false) (pwd : Bytes)
    (hone : s.minlen = .one) : (0 : UInt8) ∉ s.bytes ∧
      verifyResult (Argon2id.argon2idVerify host (cString s.bytes) pwd) =
        Argon2id.rbArgon2idVerify host s.bytes pwd := by
  have hbytes : (0 : UInt8) ∉ s.bytes := by
    intro hmem
    have hchar := (RString.strNullChar_of_one hone).2 hmem
    cases hchar.symm.trans hnul
  refine ⟨hbytes, ?_⟩
  rw [rbArgon2idVerify_of_not_mem host hbytes, cString_of_not_mem hbytes]

/-- `StringValueCStr` ends with the object that the argument coerces to, which has no `NUL` character,
or raises. -/
theorem stringValueCStr_cases (arg : StringArg) (heap : Heap) (turns : List (List Action))
    (trace : List Use) :
    (∃ e, arg.content (firstHeap arg heap turns) = .error e ∧
      stringValueCStr arg ⟨heap, turns, trace⟩ =
        (.error e, ⟨firstHeap arg heap turns, turns.tail, trace⟩)) ∨
    (∃ s, arg.content (firstHeap arg heap turns) = .ok s ∧ s.strNullChar = true ∧
      stringValueCStr arg ⟨heap, turns, trace⟩ =
        (.error (.ruby (.argumentError (if s.minlen = .one then "string contains null byte"
          else "string contains null char"))), ⟨firstHeap arg heap turns, turns.tail, trace⟩)) ∨
    ∃ ref s, arg.content (firstHeap arg heap turns) = .ok s ∧ s.strNullChar = false ∧
      (firstHeap arg heap turns)[ref]? = some s ∧
      stringValueCStr arg ⟨heap, turns, trace⟩ =
        (.ok ref, ⟨firstHeap arg heap turns, turns.tail, trace⟩) := by
  rcases stringValue_cases arg heap turns trace with
    ⟨e, hcontent, hrun⟩ | ⟨ref, s, hcontent, hget, hrun⟩
  · exact Or.inl ⟨e, hcontent, Prog.bind_error hrun⟩
  rw [← firstHeap] at hcontent hget hrun
  have hlookup : string ref ⟨firstHeap arg heap turns, turns.tail, trace⟩ =
      (.ok s, ⟨firstHeap arg heap turns, turns.tail, trace⟩) := by
    simp only [string, bind, Prog.bind, shared, hget]
    rfl
  rw [stringValueCStr, Prog.bind_ok hrun, Prog.bind_ok hlookup]
  cases hnul : s.strNullChar with
  | true =>
      refine Or.inr (Or.inl ⟨s, hcontent, hnul, ?_⟩)
      rw [if_pos rfl]
      cases s.minlen with
      | one => rfl
      | two => rfl
      | four => rfl
  | false =>
      refine Or.inr (Or.inr ⟨ref, s, hcontent, hnul, hget, ?_⟩)
      rw [if_neg Bool.false_ne_true]
      rfl

theorem rbArgon2idVerify_outcome (host : Host) (heap : Heap) (turns : List (List Action))
    (encoded pwd : StringArg) :
    ∃ snapshot,
      Consistent snapshot (rbArgon2idVerify host encoded pwd ⟨heap, turns, []⟩).2.trace ∧
      VerifyOutcome host encoded pwd heap turns snapshot
        (rbArgon2idVerify host encoded pwd ⟨heap, turns, []⟩).1 := by
  rw [rbArgon2idVerify]
  rcases stringValueCStr_cases encoded heap turns [] with
    ⟨e, hencoded, hrun⟩ | ⟨s, hencoded, hnul, hrun⟩ | ⟨ref, s, hencoded, hnul, hget, hrun⟩
  · rw [Prog.bind_error hrun]
    exact ⟨_, consistent_nil, .encodedRaises hencoded⟩
  · rw [Prog.bind_error hrun]
    exact ⟨_, consistent_nil, .nulCharacter hencoded hnul⟩
  -- no other code runs between the check for `NUL` and the freezing
  have hstart : Inv (fun _ => none) [] (firstHeap encoded heap turns) [] :=
    (inv_start heap).heapAt encoded _
  rcases hstart.freeze (show (fun _ => none : Snapshot) .encoded = none from rfl) hget turns.tail with
    ⟨v, hv, hfreeze, hinv⟩
  rw [Prog.bind_ok hrun, Prog.bind_ok hfreeze]
  have hnew : Snapshot.add (fun _ => none) .encoded { s with frozen := true } .pwd = none := rfl
  rcases hinv.coerce_freeze hnew pwd turns.tail _ with
    ⟨e, hpwd, hrun'⟩ | ⟨p, heap', trace', w, hpwd, hw, _, hinv', hrun'⟩
  · rw [hrun']
    exact ⟨_, hinv.consistent, .pwdRaises hencoded hnul hpwd⟩
  rw [hrun']
  have hs := Snapshot.add_of_some hnew { p with frozen := true } (Snapshot.add_of_param _ hv)
  have hverified := ensures_verifyFrozen host hs (Snapshot.add_of_param _ hw)
    ⟨heap', turns.tail.tail, trace'⟩ hinv'
  rw [hverified.2]
  exact ⟨_, hverified.1, .verified hencoded hnul hpwd (verifyResult_of_one host hnul p.bytes)⟩

/-! ## All runs -/

/-- From any heap and for any schedule: everything that a native method sees of its strings belongs to
one snapshot of them, which has the content of the object of each argument in the heap in which it was
frozen, and the result is that of the method on the bytes of the snapshot. -/
theorem inputs_are_snapshots (host : Host) (heap : Heap) (turns : List (List Action)) :
    (∀ (iterations memory threads : IntArg) (pwd salt : StringArg) (hashlen : IntArg),
      let run := rbArgon2idHashEncoded host iterations memory threads pwd salt hashlen
        ⟨heap, turns, []⟩
      ∃ snapshot, Consistent snapshot run.2.trace ∧
        HashOutcome host iterations memory threads pwd salt hashlen heap turns snapshot run.1) ∧
    (∀ encoded pwd : StringArg,
      let run := rbArgon2idVerify host encoded pwd ⟨heap, turns, []⟩
      ∃ snapshot, Consistent snapshot run.2.trace ∧
        VerifyOutcome host encoded pwd heap turns snapshot run.1) :=
  ⟨rbArgon2idHashEncoded_outcome host heap turns, rbArgon2idVerify_outcome host heap turns⟩

/-- The `to_str` of the second argument changes both strings, and others clear them when both are
frozen. -/
theorem inputs_are_snapshots_sample :
    let host := Host.zero .x8664Linux
    let hash := ascii "$argon2id$v=19$m=8,t=1,p=1$AAAAAAAAAAA$AAAAAA"
    let heap : Heap := [⟨hash, .one, false⟩, ⟨ascii "secret", .one, false⟩]
    let changes : StringArg :=
      .object [.mutate 0 (ascii "changed") .one, .mutate 1 (ascii "somesalt") .one] (.ok 1)
    let turns : List (List Action) := [[], [], [.mutate 0 [] .one, .mutate 1 [] .one]]
    (let run := rbArgon2idHashEncoded host (.integer 1) (.integer 8) (.integer 1) (.string 0) changes
        (.integer 4) ⟨heap, turns, []⟩
      ∃ snapshot, Consistent snapshot run.2.trace ∧
        snapshot .pwd = some ⟨hash, .one, true⟩ ∧
        snapshot .salt = some ⟨ascii "somesalt", .one, true⟩ ∧
        run.1 = (Argon2id.rbArgon2idHashEncoded host 1 8 1 hash (ascii "somesalt") 4).mapError .ruby) ∧
    (let run := rbArgon2idVerify host (.string 0) changes ⟨heap, turns, []⟩
      ∃ snapshot, Consistent snapshot run.2.trace ∧
        snapshot .encoded = some ⟨hash, .one, true⟩ ∧
        snapshot .pwd = some ⟨ascii "somesalt", .one, true⟩ ∧
        run.1 = (Argon2id.rbArgon2idVerify host hash (ascii "somesalt")).mapError .ruby) := by
  intro host hash heap changes turns
  have hfirst : (StringArg.string 0).content (firstHeap (.string 0) heap turns) =
      .ok ⟨hash, .one, false⟩ := rfl
  have hsecond : changes.content
      (secondHeap (.string 0) ⟨hash, .one, false⟩ changes heap turns) =
      .ok ⟨ascii "somesalt", .one, false⟩ := rfl
  refine ⟨?_, ?_⟩
  · rcases (inputs_are_snapshots host heap turns).1 (.integer 1) (.integer 8) (.integer 1) (.string 0)
      changes (.integer 4) with ⟨snapshot, hconsistent, houtcome⟩
    refine ⟨snapshot, hconsistent, ?_⟩
    revert houtcome
    generalize (rbArgon2idHashEncoded _ _ _ _ _ _ _ _).1 = result
    intro houtcome
    cases houtcome with
    | pwdRaises hpwd => cases hfirst.symm.trans hpwd
    | saltRaises hpwd hsalt =>
        cases hfirst.symm.trans hpwd
        cases hsecond.symm.trans hsalt
    | hashed hpwd hsalt =>
        cases hfirst.symm.trans hpwd
        cases hsecond.symm.trans hsalt
        exact ⟨rfl, rfl, rfl⟩
  · rcases (inputs_are_snapshots host heap turns).2 (.string 0) changes with
      ⟨snapshot, hconsistent, houtcome⟩
    refine ⟨snapshot, hconsistent, ?_⟩
    revert houtcome
    generalize (rbArgon2idVerify _ _ _ _).1 = result
    intro houtcome
    cases houtcome with
    | encodedRaises hencoded => cases hfirst.symm.trans hencoded
    | nulCharacter hencoded hnul =>
        cases hfirst.symm.trans hencoded
        exact absurd hnul (by decide)
    | pwdRaises hencoded hnul hpwd =>
        cases hfirst.symm.trans hencoded
        cases hsecond.symm.trans hpwd
    | verified hencoded hnul hpwd hone =>
        cases hfirst.symm.trans hencoded
        cases hsecond.symm.trans hpwd
        exact ⟨rfl, rfl, congrArg _ (hone rfl).2⟩

/-- A string in UTF-16 whose single `NUL` byte is not a `NUL` character is let through, and the library
verifies the part before that byte. -/
theorem wide_string_with_nul_byte :
    let text := ascii "$argon2id$v=19$m=8,t=1,p=1$AAAAAAAAAAA$AAAAAA"
    let encoded : RString := { bytes := text ++ [0], minlen := .two, frozen := false }
    let heap : Heap := [encoded, { bytes := [], minlen := .one, frozen := false }]
    let run := rbArgon2idVerify (Host.zero .x8664Linux) (.string 0) (.string 1) ⟨heap, [], []⟩
    run.1 = .ok true ∧ .frozen .encoded { encoded with frozen := true } ∈ run.2.trace ∧
      (0 : UInt8) ∈ encoded.bytes := by
  decide +kernel

end Interleaved

end Argon2id
