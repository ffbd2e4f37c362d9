import Argon2id.Lib.Interference
import Argon2id.Libargon2.Types

/-!
# Heap — Ruby strings as objects

Ruby code can change a string object until it is frozen.  `Action` is what code outside the extension
can do to the strings of a heap: change a string that is not frozen, freeze a string, make a new one.
Whatever it does, a frozen string stays as it is (`Heap.Frozen.stable`).
-/

namespace Argon2id

open Interference

/-! ## Objects -/

/-- `rb_enc_mbminlen`: the number of bytes of the shortest character of an encoding.  It is `two` for
UTF-16, `four` for UTF-32 and `one` for all others. -/
inductive MinLen
  | one
  | two
  | four
  deriving DecidableEq, Repr

def MinLen.bytes : MinLen → Nat
  | .one => 1
  | .two => 2
  | .four => 4

/-- A string object.  Of its encoding only `mbminlen` is kept. -/
structure RString where
  bytes : Bytes
  minlen : MinLen
  frozen : Bool
  deriving DecidableEq, Repr

/-- `str_null_char`: some character of the string is all zero bytes.  A character of UTF-16 and
UTF-32 stands at a multiple of the minimal length, and the second half of a surrogate pair is not
zero. -/
def RString.strNullChar (s : RString) : Bool :=
  (List.range (s.bytes.length / s.minlen.bytes)).any fun i =>
    ((s.bytes.drop (i * s.minlen.bytes)).take s.minlen.bytes).all fun c => c = 0

/-- Where characters may be single bytes, a `NUL` character is a `NUL` byte. -/
theorem RString.strNullChar_of_one {s : RString} (hone : s.minlen = .one) :
    s.strNullChar = true ↔ (0 : UInt8) ∈ s.bytes := by
  have hchar : ∀ (i : Nat) (hi : i < s.bytes.length),
      (s.bytes.drop (i * 1)).take 1 = [s.bytes[i]] := by
    intro i hi
    rw [Nat.mul_one, List.drop_eq_getElem_cons hi, List.take_succ_cons, List.take_zero]
  rw [strNullChar, hone, List.any_eq_true, List.mem_iff_getElem]
  simp only [MinLen.bytes, Nat.div_one, List.mem_range]
  constructor
  · rintro ⟨i, hi, hzero⟩
    rw [hchar i hi] at hzero
    exact ⟨i, hi, by simpa using hzero⟩
  · rintro ⟨i, hi, hget⟩
    refine ⟨i, hi, ?_⟩
    rw [hchar i hi]
    simpa using hget

/-- An object is known by its place in the heap. -/
abbrev Ref := Nat

abbrev Heap := List RString

/-! ## What other code can do -/

inductive Action
  /-- Give a string that is not frozen another content, and maybe another encoding. -/
  | mutate (ref : Ref) (bytes : Bytes) (minlen : MinLen)
  | freeze (ref : Ref)
  | alloc (s : RString)
  deriving DecidableEq, Repr

instance : Acts Action Heap where
  act a heap :=
    match a with
    | .mutate ref bytes minlen =>
        heap.modify ref fun s =>
          if s.frozen then s else { bytes := bytes, minlen := minlen, frozen := false }
    | .freeze ref => heap.modify ref fun s => { s with frozen := true }
    | .alloc s => heap ++ [s]

/-- The object at `ref` is the frozen string `s`. -/
structure Heap.Frozen (heap : Heap) (ref : Ref) (s : RString) : Prop where
  get : heap[ref]? = some s
  frozen : s.frozen = true

/-- No action changes a frozen string. -/
theorem Heap.Frozen.act {heap : Heap} {ref : Ref} {s : RString} (h : heap.Frozen ref s)
    (a : Action) : Heap.Frozen (Acts.act a heap) ref s := by
  refine ⟨?_, h.frozen⟩
  cases a with
  | mutate ref' bytes minlen =>
      simp only [Acts.act, List.getElem?_modify, h.get]
      by_cases href : ref' = ref
      · simp [href, h.frozen]
      · simp [href]
  | freeze ref' =>
      simp only [Acts.act, List.getElem?_modify, h.get]
      by_cases href : ref' = ref
      · simp [href, ← h.frozen]
      · simp [href]
  | alloc s' =>
      have hlt : ref < heap.length := (List.getElem?_eq_some_iff.1 h.get).1
      simp only [Acts.act, List.getElem?_append_left hlt, h.get]

/-- A new object is at the end of the heap. -/
theorem Heap.frozen_append (heap : Heap) {s : RString} (hs : s.frozen = true) :
    Heap.Frozen (heap ++ [s]) heap.length s := by
  refine ⟨?_, hs⟩
  simp

end Argon2id
