import Mathlib.Algebra.Group.Nat.Defs
import Mathlib.Data.List.Basic

/-!
# Libargon2.Types — `argon2.h`: contexts, limits and result codes

The C types of the bundled reference implementation.  The code is portable C, so what depends on the
build is collected in `Platform`: whether plain `char` is signed, and how wide `unsigned long` and
`size_t` (and pointers) are.

A pointer to a buffer is an `Option Bytes` (`none` is `NULL`); `uint32_t` fields are `UInt32`, so
arithmetic on them wraps as in C.
-/

namespace Argon2id

abbrev Bytes := List UInt8

/-- The bytes of an ASCII literal. -/
def ascii (s : String) : Bytes :=
  s.toList.map fun c => UInt8.ofNat c.toNat

/-! ## Platforms -/

inductive Width
  | w32
  | w64
  deriving DecidableEq, Repr

def Width.bits : Width → Nat
  | .w32 => 32
  | .w64 => 64

/-- The largest value of an unsigned type of this width. -/
def Width.max (w : Width) : Nat :=
  2 ^ w.bits - 1

structure Platform where
  charSigned : Bool
  ulong : Width
  size : Width
  deriving DecidableEq, Repr

/-- `x86_64-linux`: signed `char`, 64-bit `unsigned long` and pointers. -/
def Platform.x8664Linux : Platform :=
  { charSigned := true, ulong := .w64, size := .w64 }

/-- `aarch64-linux`: unsigned `char`, 64-bit `unsigned long` and pointers. -/
def Platform.aarch64Linux : Platform :=
  { charSigned := false, ulong := .w64, size := .w64 }

/-- `arm-linux`: unsigned `char`, 32-bit `unsigned long` and pointers. -/
def Platform.armLinux : Platform :=
  { charSigned := false, ulong := .w32, size := .w32 }

/-- A plain `char` promoted to `int`. -/
def charToInt (plat : Platform) (c : UInt8) : Int :=
  if plat.charSigned = true ∧ 128 ≤ c.toNat then (c.toNat : Int) - 256 else (c.toNat : Int)

/-! ## Limits -/

/-- `UINT32_MAX` -/
def uint32Max : Nat := 4294967295

/-- A number that fits `uint32_t` is not changed by the conversion. -/
theorem toNat_ofNat_of_lt {n : Nat} (h : n < 2 ^ 32) : (UInt32.ofNat n).toNat = n := by
  rw [UInt32.toNat_ofNat']
  omega

theorem toNat_ofNat_of_le {n : Nat} (h : n ≤ uint32Max) : (UInt32.ofNat n).toNat = n :=
  toNat_ofNat_of_lt (Nat.lt_succ_of_le h)

def minLanes : UInt32 := 1
def maxLanes : UInt32 := 0xFFFFFF
def minThreads : UInt32 := 1
def maxThreads : UInt32 := 0xFFFFFF
def syncPoints : UInt32 := 4
def minOutlen : UInt32 := 4
def maxOutlen : UInt32 := 0xFFFFFFFF
def minMemory : UInt32 := 2 * syncPoints
def minTime : UInt32 := 1
def maxTime : UInt32 := 0xFFFFFFFF
def minPwdLength : UInt32 := 0
def maxPwdLength : UInt32 := 0xFFFFFFFF
def minAdLength : UInt32 := 0
def maxAdLength : UInt32 := 0xFFFFFFFF
def minSaltLength : UInt32 := 8
def maxSaltLength : UInt32 := 0xFFFFFFFF
def minSecret : UInt32 := 0
def maxSecret : UInt32 := 0xFFFFFFFF
def defaultFlags : UInt32 := 0

/-- `ARGON2_MAX_MEMORY_BITS`: half the address space, counted in 1 KiB blocks, at most 32. -/
def maxMemoryBits (plat : Platform) : Nat :=
  min 32 (plat.size.bits - 10 - 1)

/-- `ARGON2_MAX_MEMORY` -/
def maxMemory (plat : Platform) : Nat :=
  min 0xFFFFFFFF (1 <<< maxMemoryBits plat)

theorem maxMemory_eq (plat : Platform) :
    maxMemory plat = match plat.size with
      | .w32 => 2 ^ 21
      | .w64 => uint32Max := by
  cases h : plat.size <;> simp [maxMemory, maxMemoryBits, h, Width.bits, uint32Max]

/-! ## Result codes -/

inductive ErrorCode
  | ok
  | outputPtrNull
  | outputTooShort
  | outputTooLong
  | pwdTooShort
  | pwdTooLong
  | saltTooShort
  | saltTooLong
  | adTooShort
  | adTooLong
  | secretTooShort
  | secretTooLong
  | timeTooSmall
  | timeTooLarge
  | memoryTooLittle
  | memoryTooMuch
  | lanesTooFew
  | lanesTooMany
  | pwdPtrMismatch
  | saltPtrMismatch
  | secretPtrMismatch
  | adPtrMismatch
  | memoryAllocationError
  | freeMemoryCbkNull
  | allocateMemoryCbkNull
  | incorrectParameter
  | incorrectType
  | outPtrMismatch
  | threadsTooFew
  | threadsTooMany
  | missingArgs
  | encodingFail
  | decodingFail
  | threadFail
  | decodingLengthFail
  | verifyMismatch
  deriving DecidableEq, Repr

/-- `argon2_error_message` -/
def argon2ErrorMessage : ErrorCode → String
  | .ok => "OK"
  | .outputPtrNull => "Output pointer is NULL"
  | .outputTooShort => "Output is too short"
  | .outputTooLong => "Output is too long"
  | .pwdTooShort => "Password is too short"
  | .pwdTooLong => "Password is too long"
  | .saltTooShort => "Salt is too short"
  | .saltTooLong => "Salt is too long"
  | .adTooShort => "Associated data is too short"
  | .adTooLong => "Associated data is too long"
  | .secretTooShort => "Secret is too short"
  | .secretTooLong => "Secret is too long"
  | .timeTooSmall => "Time cost is too small"
  | .timeTooLarge => "Time cost is too large"
  | .memoryTooLittle => "Memory cost is too small"
  | .memoryTooMuch => "Memory cost is too large"
  | .lanesTooFew => "Too few lanes"
  | .lanesTooMany => "Too many lanes"
  | .pwdPtrMismatch => "Password pointer is NULL, but password length is not 0"
  | .saltPtrMismatch => "Salt pointer is NULL, but salt length is not 0"
  | .secretPtrMismatch => "Secret pointer is NULL, but secret length is not 0"
  | .adPtrMismatch => "Associated data pointer is NULL, but ad length is not 0"
  | .memoryAllocationError => "Memory allocation error"
  | .freeMemoryCbkNull => "The free memory callback is NULL"
  | .allocateMemoryCbkNull => "The allocate memory callback is NULL"
  | .incorrectParameter => "Argon2_Context context is NULL"
  | .incorrectType => "There is no such version of Argon2"
  | .outPtrMismatch => "Output pointer mismatch"
  | .threadsTooFew => "Not enough threads"
  | .threadsTooMany => "Too many threads"
  | .missingArgs => "Missing arguments"
  | .encodingFail => "Encoding failed"
  | .decodingFail => "Decoding failed"
  | .threadFail => "Threading failure"
  | .decodingLengthFail => "Some of encoded parameters are too long or too short"
  | .verifyMismatch => "The password does not match the supplied hash"

/-! ## Types, versions and contexts -/

inductive Argon2Type
  | d
  | i
  | id
  deriving DecidableEq, Repr

/-- `argon2_type2string`; the gem only ever asks for the lowercase name. -/
def argon2Type2string (type : Argon2Type) (uppercase : Bool) : Bytes :=
  match type with
  | .d => if uppercase then ascii "Argon2d" else ascii "argon2d"
  | .i => if uppercase then ascii "Argon2i" else ascii "argon2i"
  | .id => if uppercase then ascii "Argon2id" else ascii "argon2id"

/-- `ARGON2_VERSION_10` -/
def version10 : UInt32 := 0x10

/-- `ARGON2_VERSION_13`, the `ARGON2_VERSION_NUMBER` of new hashes. -/
def versionNumber : UInt32 := 0x13

/-- `argon2_context`.  The two callbacks are kept as "is not `NULL`". -/
structure Context where
  out : Option Bytes
  outlen : UInt32
  pwd : Option Bytes
  pwdlen : UInt32
  salt : Option Bytes
  saltlen : UInt32
  secret : Option Bytes
  secretlen : UInt32
  ad : Option Bytes
  adlen : UInt32
  tCost : UInt32
  mCost : UInt32
  lanes : UInt32
  threads : UInt32
  version : UInt32
  allocateCbk : Bool
  freeCbk : Bool
  flags : UInt32
  deriving DecidableEq, Repr

end Argon2id
