import Mathlib.Data.List.TakeWhile
import Argon2id.HashEncoded
import Argon2id.Interleaved
import Argon2id.Libargon2.Decoder

/-!
# Snapshot — what the native methods see of their strings

Everything a native method sees of a string belongs to the string it got from `rb_str_new_frozen`
(`Consistent`).  The invariant of its runs is `Inv`: the record is consistent so far, and the
variables hold frozen strings.  No action of other code destroys it (`stable_inv`), and every step of
the methods keeps it.
-/

namespace Argon2id

namespace Interleaved

open Interference

/-! ## Snapshots -/

def Use.param : Use → Param
  | .frozen param _ => param
  | .length param _ => param
  | .sized param _ => param
  | .byte param _ _ => param

/-- What has been seen belongs to the string `s`. -/
def Use.Agrees (s : RString) : Use → Prop
  | .frozen _ s' => s' = s
  | .length _ len => len = s.bytes.length
  | .sized _ len => len.toNat = s.bytes.length
  | .byte _ offset c => (s.bytes ++ [0])[offset]? = some c

/-- The strings that were returned by `rb_str_new_frozen`, at the moment when they were. -/
abbrev Snapshot := Param → Option RString

/-- The snapshot is what `rb_str_new_frozen` has returned, and everything that has been seen of a
string belongs to it. -/
structure Consistent (snapshot : Snapshot) (trace : List Use) : Prop where
  frozen : ∀ param s, snapshot param = some s → .frozen param s ∈ trace
  agrees : ∀ use ∈ trace, ∃ s, snapshot use.param = some s ∧ use.Agrees s

/-- The invariant of a run whose variables are `vs`: the record is consistent, and each variable
holds its frozen string. -/
structure Inv (snapshot : Snapshot) (vs : List Local) (heap : Heap) (trace : List Use) : Prop where
  consistent : Consistent snapshot trace
  holds : ∀ v ∈ vs, ∃ s, snapshot v.param = some s ∧ heap.Frozen v.ref s

theorem consistent_nil : Consistent (fun _ => none) [] where
  frozen := by simp
  agrees := by simp

theorem inv_start (heap : Heap) : Inv (fun _ => none) [] heap [] :=
  ⟨consistent_nil, fun _ hv => nomatch hv⟩

section Steps

variable {snapshot : Snapshot} {vs : List Local} {v : Local} {s : RString} {heap : Heap}
  {trace : List Use}

theorem Consistent.append (h : Consistent snapshot trace) (use : Use)
    (hs : snapshot use.param = some s) (hagrees : use.Agrees s) :
    Consistent snapshot (trace ++ [use]) where
  frozen := fun param s' hs' => List.mem_append_left _ (h.frozen param s' hs')
  agrees := by
    intro use' huse'
    rcases List.mem_append.1 huse' with hold | hnew
    · exact h.agrees use' hold
    · rw [List.mem_singleton.1 hnew]
      exact ⟨s, hs, hagrees⟩

/-- No action destroys the invariant. -/
theorem stable_inv (snapshot : Snapshot) (vs : List Local) : Stable Action (Inv snapshot vs) := by
  intro a heap trace h
  refine ⟨h.consistent, fun v hv => ?_⟩
  rcases h.holds v hv with ⟨s, hs, hfrozen⟩
  exact ⟨s, hs, hfrozen.act a⟩

theorem Inv.frozen (h : Inv snapshot vs heap trace) (hv : v ∈ vs)
    (hs : snapshot v.param = some s) : heap.Frozen v.ref s := by
  rcases h.holds v hv with ⟨s', hs', hfrozen⟩
  obtain rfl := Option.some.inj (hs'.symm.trans hs)
  exact hfrozen

/-! ## Steps on a frozen string -/

theorem keeps_string_of {P : Heap → List Use → Prop} {ref : Ref}
    (h : ∀ heap trace, P heap trace → heap[ref]? = some s) : Keeps P (string ref) s := by
  intro w hw
  have hget := h _ _ hw
  simp only [string, bind, Prog.bind, shared, hget]
  exact ⟨rfl, hw⟩

theorem keeps_string (hv : v ∈ vs) (hs : snapshot v.param = some s) :
    Keeps (Inv snapshot vs) (string v.ref) s :=
  keeps_string_of fun _ _ h => (h.frozen hv hs).get

theorem keeps_record (hs : snapshot v.param = some s) (use : Use)
    (hparam : use.param = v.param) (hagrees : use.Agrees s) :
    Keeps (Inv snapshot vs) (record use : Call Unit) () := by
  intro w hw
  rw [← hparam] at hs
  exact ⟨rfl, hw.consistent.append use hs hagrees, hw.holds⟩

theorem keeps_rstringLen (hv : v ∈ vs) (hs : snapshot v.param = some s) :
    Keeps (Inv snapshot vs) (rstringLen v) s.bytes.length := by
  refine (keeps_string hv hs).bind ?_
  refine (keeps_record hs (.length v.param s.bytes.length) rfl rfl).bind ?_
  exact Keeps.pure _

/-- The library reads the bytes of the snapshot, and never behind the terminator. -/
theorem keeps_readByte (hv : v ∈ vs) (hs : snapshot v.param = some s) {offset : Nat} {c : UInt8}
    (hget : (s.bytes ++ [0])[offset]? = some c) :
    Keeps (Inv snapshot vs) (readByte v offset) c := by
  refine (Keeps.interfere (stable_inv snapshot vs)).bind ?_
  refine (keeps_string hv hs).bind ?_
  simp only [hget]
  refine (keeps_record hs (.byte v.param offset c) rfl hget).bind ?_
  exact Keeps.pure c

theorem keeps_readBytes (hv : v ∈ vs) (hs : snapshot v.param = some s) (offset n : Nat)
    (hn : offset + n ≤ s.bytes.length) :
    Keeps (Inv snapshot vs) (readBytes v offset n) ((s.bytes.drop offset).take n) := by
  induction n generalizing offset with
  | zero => exact Keeps.pure _
  | succ n ih =>
      have hlt : offset < s.bytes.length := by omega
      have hget : (s.bytes ++ [0])[offset]? = some s.bytes[offset] := by
        rw [List.getElem?_append_left hlt, List.getElem?_eq_getElem hlt]
      rw [List.drop_eq_getElem_cons hlt, List.take_succ_cons]
      refine (keeps_readByte hv hs hget).bind ?_
      refine (ih (offset + 1) (by omega)).bind ?_
      exact Keeps.pure _

/-- All bytes of the string, as the library reads them. -/
theorem keeps_readAll (hv : v ∈ vs) (hs : snapshot v.param = some s) :
    Keeps (Inv snapshot vs) (readBytes v 0 s.bytes.length) s.bytes := by
  have hread := keeps_readBytes hv hs 0 s.bytes.length (by simp)
  rwa [List.drop_zero, List.take_length] at hread

/-- The C string at the pointer of a string: its bytes up to the first `NUL`. -/
def cString (bytes : Bytes) : Bytes :=
  bytes.takeWhile fun c => c ≠ 0

theorem cString_cons (c : UInt8) (cs : Bytes) :
    cString (c :: cs) = if c = 0 then [] else c :: cString cs := by
  by_cases hzero : c = 0
  · rw [if_pos hzero, cString, List.takeWhile_cons_of_neg (by simpa using hzero)]
  · rw [if_neg hzero, cString, List.takeWhile_cons_of_pos (by simpa using hzero), cString]

theorem keeps_readUntilNul (hv : v ∈ vs) (hs : snapshot v.param = some s) (offset n : Nat)
    (hoffset : offset ≤ s.bytes.length) (hn : offset + n = s.bytes.length + 1) :
    Keeps (Inv snapshot vs) (readUntilNul v offset n) (cString (s.bytes.drop offset)) := by
  induction n generalizing offset with
  | zero => omega
  | succ n ih =>
      rcases Nat.lt_or_eq_of_le hoffset with hlt | rfl
      · have hget : (s.bytes ++ [0])[offset]? = some s.bytes[offset] := by
          rw [List.getElem?_append_left hlt, List.getElem?_eq_getElem hlt]
        rw [List.drop_eq_getElem_cons hlt, cString_cons]
        refine (keeps_readByte hv hs hget).bind ?_
        refine Keeps.ite (fun _ => Keeps.pure []) fun _ => ?_
        refine (ih (offset + 1) hlt (by omega)).bind ?_
        exact Keeps.pure _
      -- behind the last byte stands the terminator
      · have hget : (s.bytes ++ [0])[s.bytes.length]? = some 0 := by simp
        rw [List.drop_length]
        refine (keeps_readByte hv hs hget).bind ?_
        rw [if_pos rfl]
        exact Keeps.pure []

theorem keeps_readCString (hv : v ∈ vs) (hs : snapshot v.param = some s) :
    Keeps (Inv snapshot vs) (readCString v) (cString s.bytes) := by
  refine (keeps_string hv hs).bind ?_
  exact keeps_readUntilNul hv hs 0 (s.bytes.length + 1) (Nat.zero_le _) (Nat.zero_add _)

/-! ## Coercions -/

/-- What the `to_str` of an argument does. -/
def StringArg.script : StringArg → List Action
  | .string _ => []
  | .object script _ => script

/-- The object that an argument coerces to. -/
def StringArg.target : StringArg → Except Raised Ref
  | .string ref => .ok ref
  | .object _ (.ok ref) => .ok ref
  | .object _ (.error exception) => .error (.callback exception)

/-- The heap in which an argument is frozen: others have had their turn, and then its `to_str` has
run. -/
def StringArg.heapAt (arg : StringArg) (turn : List Action) (heap : Heap) : Heap :=
  actAll arg.script (actAll turn heap)

/-- The content that the object has to which an argument coerces. -/
def StringArg.content (arg : StringArg) (heap : Heap) : Except Raised RString :=
  match arg.target with
  | .error e => .error e
  | .ok ref =>
      match heap[ref]? with
      | some s => .ok s
      | none => .error .typeError

/-- `StringValue` ends with the object that the argument coerces to, or raises. -/
theorem stringValue_cases (arg : StringArg) (heap : Heap) (turns : List (List Action))
    (trace : List Use) :
    (∃ e, arg.content (arg.heapAt (turns.headD []) heap) = .error e ∧
      stringValue arg ⟨heap, turns, trace⟩ =
        (.error e, ⟨arg.heapAt (turns.headD []) heap, turns.tail, trace⟩)) ∨
    ∃ ref s, arg.content (arg.heapAt (turns.headD []) heap) = .ok s ∧
      (arg.heapAt (turns.headD []) heap)[ref]? = some s ∧
      stringValue arg ⟨heap, turns, trace⟩ =
        (.ok ref, ⟨arg.heapAt (turns.headD []) heap, turns.tail, trace⟩) := by
  -- the last step looks the object up
  have hlookup : ∀ (ref : Ref) (heap' : Heap), arg.target = .ok ref →
      stringValue arg ⟨heap, turns, trace⟩ =
        (do let _ ← string ref; pure ref : Call Ref) ⟨heap', turns.tail, trace⟩ →
      (∃ e, arg.content heap' = .error e ∧
        stringValue arg ⟨heap, turns, trace⟩ = (.error e, ⟨heap', turns.tail, trace⟩)) ∨
      ∃ ref s, arg.content heap' = .ok s ∧ heap'[ref]? = some s ∧
        stringValue arg ⟨heap, turns, trace⟩ = (.ok ref, ⟨heap', turns.tail, trace⟩) := by
    intro ref heap' htarget hrun
    simp only [string, bind, Prog.bind, shared] at hrun
    cases hget : heap'[ref]? with
    | none =>
        simp only [hget] at hrun
        exact Or.inl ⟨.typeError, by simp only [StringArg.content, htarget, hget], hrun⟩
    | some s =>
        simp only [hget] at hrun
        exact Or.inr ⟨ref, s, by simp only [StringArg.content, htarget, hget], hget, hrun⟩
  have hturn : stringValue arg ⟨heap, turns, trace⟩ = _ :=
    Prog.bind_ok (interfere_run heap turns trace)
  cases arg with
  | string ref => exact hlookup ref _ rfl hturn
  | object script result =>
      cases result with
      | ok ref => exact hlookup ref _ rfl (hturn.trans (Prog.bind_ok rfl))
      | error exception => exact Or.inl ⟨_, rfl, hturn.trans (Prog.bind_ok rfl)⟩

/-- The integer that an argument stands for, when it stands for one. -/
def IntArg.value : IntArg → Int
  | .integer n => n
  | .object _ (.ok (some n)) => n
  | .object _ _ => 0

/-- What `NUM2UINT` makes of an argument, whatever the heap is. -/
def IntArg.convert : IntArg → Except Raised UInt32
  | .integer n => (Argon2id.num2uint n).mapError .ruby
  | .object _ (.ok (some n)) => (Argon2id.num2uint n).mapError .ruby
  | .object _ (.ok none) => .error .typeError
  | .object _ (.error exception) => .error (.callback exception)

theorem IntArg.num2uint_value {arg : IntArg} {u : UInt32} (h : arg.convert = .ok u) :
    Argon2id.num2uint arg.value = .ok u := by
  have hmap : ∀ n : Int, (Argon2id.num2uint n).mapError Raised.ruby = .ok u →
      Argon2id.num2uint n = .ok u := by
    intro n hn
    cases hnum : Argon2id.num2uint n with
    | ok u' =>
        rw [hnum] at hn
        exact congrArg Except.ok (Except.ok.inj hn)
    | error e =>
        rw [hnum] at hn
        cases hn
  match arg, h with
  | .integer n, h => exact hmap n h
  | .object _ (.ok (some n)), h => exact hmap n h

/-- `NUM2UINT` converts the integer, or raises. -/
theorem ensures_num2uint (arg : IntArg) :
    Ensures (Inv snapshot vs) (num2uint arg)
      (fun r heap trace => r = arg.convert ∧ Inv snapshot vs heap trace) := by
  refine (Keeps.interfere (stable_inv snapshot vs)).step ?_
  cases arg with
  | integer n => exact Ensures.lift fun _ _ h => ⟨rfl, h⟩
  | object script result =>
      refine (Keeps.perform (stable_inv snapshot vs) script).step ?_
      match result with
      | .ok (some n) => exact Ensures.lift fun _ _ h => ⟨rfl, h⟩
      | .ok none => exact Ensures.raise fun _ _ h => ⟨rfl, h⟩
      | .error exception => exact Ensures.raise fun _ _ h => ⟨rfl, h⟩

/-! ## Freezing -/

/-- The heap after `rb_str_new_frozen` of a string with the content `s`. -/
def withFrozen (heap : Heap) (s : RString) : Heap :=
  if s.frozen then heap else heap ++ [{ s with frozen := true }]

/-- Adding a string to the snapshot. -/
def Snapshot.add (snapshot : Snapshot) (param : Param) (s : RString) : Snapshot :=
  fun param' => if param' = param then some s else snapshot param'

theorem Snapshot.add_self (snapshot : Snapshot) (param : Param) (s : RString) :
    snapshot.add param s param = some s :=
  if_pos rfl

/-- The variable that holds the new string. -/
theorem Snapshot.add_of_param {param : Param} (s : RString) (hv : v.param = param) :
    snapshot.add param s v.param = some s := by
  rw [hv]
  exact snapshot.add_self param s

theorem Snapshot.add_of_some {param : Param} (hnew : snapshot param = none) (s' : RString)
    {param' : Param} (hs : snapshot param' = some s) : snapshot.add param s' param' = some s := by
  have hne : param' ≠ param := by
    rintro rfl
    rw [hnew] at hs
    cases hs
  rw [Snapshot.add, if_neg hne, hs]

/-- Seeing a string for the first time. -/
theorem Consistent.add (h : Consistent snapshot trace) {param : Param}
    (hnew : snapshot param = none) (s : RString) :
    Consistent (snapshot.add param s) (trace ++ [.frozen param s]) where
  frozen := by
    intro param' s' hs'
    by_cases heq : param' = param
    · rw [heq, snapshot.add_self] at hs'
      simp [heq, Option.some.inj hs']
    · rw [Snapshot.add, if_neg heq] at hs'
      exact List.mem_append_left _ (h.frozen param' s' hs')
  agrees := by
    intro use huse
    rcases List.mem_append.1 huse with hold | hmem
    · rcases h.agrees use hold with ⟨s', hs', hagrees⟩
      exact ⟨s', Snapshot.add_of_some hnew s hs', hagrees⟩
    · rw [List.mem_singleton.1 hmem]
      exact ⟨s, snapshot.add_self param s, rfl⟩

/-- A variable that holds its string from now on. -/
theorem Inv.add (h : Inv snapshot vs heap trace) (hnew : snapshot v.param = none)
    (hfrozen : heap.Frozen v.ref s) :
    Inv (snapshot.add v.param s) (v :: vs) heap (trace ++ [.frozen v.param s]) := by
  refine ⟨h.consistent.add hnew s, fun v' hv' => ?_⟩
  rcases List.mem_cons.1 hv' with rfl | hmem
  · exact ⟨s, snapshot.add_self v'.param s, hfrozen⟩
  · rcases h.holds v' hmem with ⟨s', hs', hfrozen'⟩
    exact ⟨s', Snapshot.add_of_some hnew s hs', hfrozen'⟩

/-- A string that is frozen joins the snapshot with the bytes it has at this moment. -/
theorem Inv.freeze (h : Inv snapshot vs heap trace) {param : Param} (hnew : snapshot param = none)
    {ref : Ref} (hget : heap[ref]? = some s) (turns : List (List Action)) :
    ∃ v : Local, v.param = param ∧
      rbStrNewFrozen param ref ⟨heap, turns, trace⟩ =
        (.ok v, ⟨withFrozen heap s, turns, trace ++ [.frozen param { s with frozen := true }]⟩) ∧
      Inv (snapshot.add param { s with frozen := true }) (v :: vs) (withFrozen heap s)
        (trace ++ [.frozen param { s with frozen := true }]) := by
  by_cases hfrozen : s.frozen = true
  -- a frozen string is returned itself
  · have hs : { s with frozen := true } = s := by rw [← hfrozen]
    refine ⟨{ param := param, ref := ref }, rfl, ?_, ?_⟩
    · simp only [rbStrNewFrozen, string, bind, Prog.bind, shared, hget, record, hfrozen, if_true, pure,
        Prog.pure, withFrozen]
    · rw [withFrozen, if_pos hfrozen]
      exact h.add (v := { param := param, ref := ref }) hnew ⟨by rw [hget, hs], rfl⟩
  · have hadded := stable_inv _ vs (.alloc { s with frozen := true }) heap trace h
    refine ⟨{ param := param, ref := heap.length }, rfl, ?_, ?_⟩
    · simp only [rbStrNewFrozen, string, bind, Prog.bind, shared, hget, record, hfrozen, if_false, pure,
        Prog.pure, update, withFrozen, Bool.false_eq_true]
    · rw [withFrozen, if_neg hfrozen]
      exact hadded.add (v := { param := param, ref := heap.length }) hnew
        (Heap.frozen_append heap rfl)

/-- No coercion destroys the invariant. -/
theorem Inv.heapAt (h : Inv snapshot vs heap trace) (arg : StringArg) (turn : List Action) :
    Inv snapshot vs (arg.heapAt turn heap) trace :=
  (stable_inv snapshot vs).actAll _ ((stable_inv snapshot vs).actAll _ h)

/-- A string is coerced and frozen, and the program goes on with the frozen string. -/
theorem Inv.coerce_freeze {α : Type} (h : Inv snapshot vs heap trace) {param : Param}
    (hnew : snapshot param = none) (arg : StringArg) (turns : List (List Action))
    (f : Local → Call α) :
    (∃ e, arg.content (arg.heapAt (turns.headD []) heap) = .error e ∧
      (stringValue arg >>= fun ref => rbStrNewFrozen param ref >>= f) ⟨heap, turns, trace⟩ =
        (.error e, ⟨arg.heapAt (turns.headD []) heap, turns.tail, trace⟩)) ∨
    ∃ s heap' trace', ∃ v : Local, arg.content (arg.heapAt (turns.headD []) heap) = .ok s ∧
      v.param = param ∧ heap' = withFrozen (arg.heapAt (turns.headD []) heap) s ∧
      Inv (snapshot.add param { s with frozen := true }) (v :: vs) heap' trace' ∧
      (stringValue arg >>= fun ref => rbStrNewFrozen param ref >>= f) ⟨heap, turns, trace⟩ =
        f v ⟨heap', turns.tail, trace'⟩ := by
  rcases stringValue_cases arg heap turns trace with
    ⟨e, hcontent, hrun⟩ | ⟨ref, s, hcontent, hget, hrun⟩
  · exact Or.inl ⟨e, hcontent, Prog.bind_error hrun⟩
  · rcases (h.heapAt arg _).freeze hnew hget turns.tail with ⟨v, hv, hfreeze, hinv⟩
    exact Or.inr ⟨s, _, _, v, hcontent, hv, rfl, hinv,
      (Prog.bind_ok hrun).trans (Prog.bind_ok hfreeze)⟩

/-! ## The library, while the GVL is released -/

theorem keeps_rbThreadCallWithoutGvl {α : Type} {call : Call α} {a : α}
    (h : Keeps (Inv snapshot vs) call a) :
    Keeps (Inv snapshot vs) (rbThreadCallWithoutGvl call) a := by
  refine (Keeps.interfere (stable_inv snapshot vs)).bind ?_
  refine h.bind ?_
  refine (Keeps.interfere (stable_inv snapshot vs)).bind ?_
  exact Keeps.pure a

/-- `argon2_ctx` only writes the output. -/
theorem argon2Ctx_salt {host : Host} {ctx ctx' : Context}
    (h : argon2Ctx host ctx .id = .ok ctx') : { ctx' with salt := ctx.salt } = ctx' := by
  rw [argon2Ctx] at h
  split at h
  · rw [← Except.ok.inj h]
  · cases h

/-- Hashing while others act gives what hashing the bytes of the snapshot gives. -/
theorem keeps_argon2idHashEncoded (host : Host) {args : HashEncodedArgs} {pwd salt : RString}
    (hpwd : args.pwd ∈ vs) (hp : snapshot args.pwd.param = some pwd)
    (hpwdlen : args.pwdlen = pwd.bytes.length) (hsalt : args.salt ∈ vs)
    (hs : snapshot args.salt.param = some salt) (hsaltlen : args.saltlen = salt.bytes.length) :
    Keeps (Inv snapshot vs) (argon2idHashEncoded host args)
      (Argon2id.argon2idHashEncoded host args.tCost args.mCost args.parallelism pwd.bytes salt.bytes
        args.outlen args.encoded args.encodedlen) := by
  rw [argon2idHashEncoded, Argon2id.argon2idHashEncoded, argon2Hash, hpwdlen, hsaltlen]
  -- the four checks of the lengths
  refine Keeps.ite (fun _ => Keeps.pure _) fun _ => ?_
  refine Keeps.ite (fun _ => Keeps.pure _) fun _ => ?_
  refine Keeps.ite (fun _ => Keeps.pure _) fun _ => ?_
  refine Keeps.ite (fun _ => Keeps.pure _) fun _ => ?_
  refine (keeps_readAll hpwd hp).bind ?_
  refine (keeps_readAll hsalt hs).bind ?_
  cases hctx : argon2Ctx host (requestContext (host.malloc args.outlen.toNat) args.tCost args.mCost
    args.parallelism pwd.bytes salt.bytes args.outlen) .id with
  | error code =>
      rw [requestContext] at hctx
      simp only [hctx]
      exact Keeps.pure _
  | ok ctx =>
      have hresalt : { ctx with salt := some salt.bytes } = ctx := argon2Ctx_salt hctx
      rw [requestContext] at hctx
      simp only [hctx]
      refine Keeps.ite (fun _ => Keeps.pure _) fun _ => ?_
      -- the salt that is read for the encoding is the one that has been hashed
      refine (keeps_readAll hsalt hs).bind ?_
      rw [hresalt]
      exact Keeps.pure _

theorem strlen_cString (bytes : Bytes) : strlen (cString bytes) = (cString bytes).length := by
  rw [strlen, cString, List.takeWhile_idem]

/-- Verifying while others act gives what verifying the bytes of the snapshot gives. -/
theorem keeps_argon2idVerify (host : Host) {args : VerifyArgs} {encoded pwd : RString}
    (hencoded : args.encoded ∈ vs) (he : snapshot args.encoded.param = some encoded)
    (hpwd : args.pwd ∈ vs) (hp : snapshot args.pwd.param = some pwd)
    (hpwdlen : args.pwdlen = pwd.bytes.length) :
    Keeps (Inv snapshot vs) (argon2idVerify host args)
      (Argon2id.argon2idVerify host (cString encoded.bytes) pwd.bytes) := by
  rw [argon2idVerify, Argon2id.argon2idVerify, argon2Verify, hpwdlen, strlen_cString]
  refine Keeps.ite (fun _ => Keeps.pure _) fun _ => ?_
  refine (keeps_readCString hencoded he).bind ?_
  refine Keeps.ite (fun _ => Keeps.pure _) fun _ => ?_
  refine (keeps_readCString hencoded he).bind ?_
  -- the context of the library has the password from the start
  have hdec := decodeString_pwd host.platform
    { verifyContext host (UInt32.ofNat (cString encoded.bytes).length) [] with
      pwdlen := UInt32.ofNat pwd.bytes.length } [] pwd.bytes (cString encoded.bytes)
  simp only [verifyContext] at hdec ⊢
  rw [hdec]
  split
  · rename_i code hcode
    simp only [hcode, Except.map]
    exact Keeps.pure code
  · rename_i ctx hctx
    simp only [hctx, Except.map]
    refine (keeps_readAll hpwd hp).bind ?_
    exact Keeps.pure _

end Steps

end Interleaved

end Argon2id
