import Argon2id.Lib.Numeral
import Argon2id.Libargon2.Core

/-!
# Libargon2.Encoding — `encoding.c`: the encoder and decoder of hash strings

A C string is the list of its bytes up to the terminating `NUL`, so reading `*str` at the end of the
list gives `0`.  Pointers into the string are its suffixes.

The encoder writes through a pointer into a block obtained from `malloc`.  `Dst` keeps the block and
the offset of the pointer, and a write at or past the end of the block ends the run with
`Stop.heapOverflow`; an early `return` of a result code is `Stop.ret`.
-/

namespace Argon2id

/-! ## Constant-time comparisons

The macros work over `unsigned`, returning `0x00` for false and `0xFF` for true; they are meant for
values in `0..255`. -/

/-- `EQ(x, y)` -/
def maskEQ (x y : UInt32) : UInt32 :=
  (((0 - (x ^^^ y)) >>> 8) &&& 0xFF) ^^^ 0xFF

/-- `GT(x, y)` -/
def maskGT (x y : UInt32) : UInt32 :=
  ((y - x) >>> 8) &&& 0xFF

/-- `GE(x, y)` -/
def maskGE (x y : UInt32) : UInt32 :=
  maskGT y x ^^^ 0xFF

/-- `LT(x, y)` -/
def maskLT (x y : UInt32) : UInt32 :=
  maskGT y x

/-- `LE(x, y)` -/
def maskLE (x y : UInt32) : UInt32 :=
  maskGE y x

/-- `b64_byte_to_char`: the character of a value in `0..63`. -/
def b64ByteToChar (x : UInt32) : UInt32 :=
  (maskLT x 26 &&& (x + 65)) |||
    (maskGE x 26 &&& maskLT x 52 &&& (x + (97 - 26))) |||
    (maskGE x 52 &&& maskLT x 62 &&& (x + (48 - 52))) ||| (maskEQ x 62 &&& 43) |||
    (maskEQ x 63 &&& 47)

/-- `b64_char_to_byte`: the six-bit value of a character given as `int`, `0xFF` for no value. -/
def b64CharToByte (c : Int) : UInt32 :=
  let u := UInt32.ofInt c
  let x := (maskGE u 65 &&& maskLE u 90 &&& (u - 65)) |||
    (maskGE u 97 &&& maskLE u 122 &&& (u - (97 - 26))) |||
    (maskGE u 48 &&& maskLE u 57 &&& (u - (48 - 52))) ||| (maskEQ u 43 &&& 62) |||
    (maskEQ u 47 &&& 63)
  x ||| (maskEQ x 0 &&& (maskEQ u 65 ^^^ 0xFF))

/-! ## Writing into a block -/

/-- How a run of the encoder ends early. -/
inductive Stop
  | ret (code : ErrorCode)
  | heapOverflow
  deriving DecidableEq, Repr

/-- The pointer `dst`: a block of memory and an offset into it. -/
structure Dst where
  block : Bytes
  pos : Nat
  deriving DecidableEq, Repr

/-- `*dst++ = c` -/
def Dst.put (dst : Dst) (c : UInt8) : Except Stop Dst :=
  if dst.pos < dst.block.length then
    .ok { block := dst.block.set dst.pos c, pos := dst.pos + 1 }
  else
    .error .heapOverflow

/-- `memcpy(dst, src, n)` for the `n` bytes of `src`; the pointer stays where it is. -/
def Dst.memcpy (dst : Dst) (src : Bytes) : Except Stop Dst :=
  if dst.pos + src.length ≤ dst.block.length then
    .ok { dst with
      block := dst.block.take dst.pos ++ src ++ dst.block.drop (dst.pos + src.length) }
  else
    .error .heapOverflow

/-! ## Base64 -/

/-- The number of Base64 characters of `len` bytes, computed in `size_t`. -/
def base64Length (plat : Platform) (len : Nat) : Nat :=
  let olen := ((len / 3) <<< 2) % 2 ^ plat.size.bits
  match len % 3 with
  | 2 => (olen + 1 + 2) % 2 ^ plat.size.bits
  | 1 => (olen + 2) % 2 ^ plat.size.bits
  | _ => olen

/-- The inner loop of `to_base64`: write characters while six bits are buffered. -/
def emitChars (acc : Nat) : Nat → Dst → Except Stop (Nat × Dst)
  | accLen + 6, dst => do
      let dst ← dst.put (b64ByteToChar (UInt32.ofNat ((acc >>> accLen) &&& 0x3F))).toUInt8
      emitChars acc accLen dst
  | accLen, dst => .ok (accLen, dst)

/-- The outer loop of `to_base64`; the accumulator is a 32-bit `unsigned`. -/
def toBase64Loop : Bytes → Nat → Nat → Dst → Except Stop (Nat × Nat × Dst)
  | [], acc, accLen, dst => .ok (acc, accLen, dst)
  | b :: buf, acc, accLen, dst => do
      let acc := ((acc <<< 8) + b.toNat) % 2 ^ 32
      let (accLen, dst) ← emitChars acc (accLen + 8) dst
      toBase64Loop buf acc accLen dst

/-- `to_base64`: the output length without the terminator, `none` for `(size_t)-1`. -/
def toBase64 (plat : Platform) (dst : Dst) (dstLen : Nat) (src : Bytes) :
    Except Stop (Option (Nat × Dst)) :=
  let olen := base64Length plat src.length
  if dstLen ≤ olen then
    .ok none
  else do
    let (acc, accLen, dst) ← toBase64Loop src 0 0 dst
    let dst ←
      if 0 < accLen then
        dst.put (b64ByteToChar (UInt32.ofNat ((acc <<< (6 - accLen)) % 2 ^ 32 &&& 0x3F))).toUInt8
      else
        .ok dst
    let dst ← dst.put 0
    .ok (some (olen, dst))

/-- The loop of `from_base64`, up to the first character without a value (the terminating `NUL` has
none).  Running out of room in the output buffer is `none`. -/
def fromBase64Loop (plat : Platform) (dstLen : Nat) :
    Bytes → Nat → Nat → Bytes → Option (Nat × Nat × Bytes × Bytes)
  | [], acc, accLen, buf => some (acc, accLen, buf, [])
  | c :: src, acc, accLen, buf =>
      let d := b64CharToByte (charToInt plat c)
      if d = 0xFF then
        some (acc, accLen, buf, c :: src)
      else
        let acc := ((acc <<< 6) + d.toNat) % 2 ^ 32
        let accLen := accLen + 6
        if 8 ≤ accLen then
          let accLen := accLen - 8
          if dstLen ≤ buf.length then
            none
          else
            fromBase64Loop plat dstLen src acc accLen
              (buf ++ [UInt8.ofNat ((acc >>> accLen) &&& 0xFF)])
        else
          fromBase64Loop plat dstLen src acc accLen buf

/-- `from_base64`: the decoded bytes and the rest of the string. -/
def fromBase64 (plat : Platform) (dstLen : Nat) (src : Bytes) : Option (Bytes × Bytes) :=
  match fromBase64Loop plat dstLen src 0 0 [] with
  | none => none
  | some (acc, accLen, buf, src) =>
      if 4 < accLen ∨ acc &&& ((1 <<< accLen) - 1) ≠ 0 then none else some (buf, src)

/-! ## Decimal numbers -/

/-- The loop of `decode_decimal`; the accumulator is an `unsigned long`. -/
def decodeDecimalLoop (plat : Platform) : Bytes → Nat → Option (Nat × Bytes)
  | [], acc => some (acc, [])
  | ch :: str, acc =>
      let c := charToInt plat ch
      if c < 48 ∨ 57 < c then
        some (acc, ch :: str)
      else
        let c := (c - 48).toNat
        if plat.ulong.max / 10 < acc then
          none
        else
          let acc := acc * 10
          if plat.ulong.max - acc < c then none else decodeDecimalLoop plat str (acc + c)

/-- `decode_decimal`: the value and the rest of the string. -/
def decodeDecimal (plat : Platform) (str : Bytes) : Option (Nat × Bytes) :=
  match decodeDecimalLoop plat str 0 with
  | none => none
  | some (acc, rest) =>
      -- no digit at all, or a leading zero in front of another digit
      if rest.length = str.length ∨ (str.head? = some 48 ∧ rest.length + 1 ≠ str.length) then
        none
      else
        some (acc, rest)

/-! ## The decoder of hash strings -/

/-- `CC(prefix)`: the string must go on with `pre`. -/
def cc (pre str : Bytes) : Except ErrorCode Bytes :=
  if pre.isPrefixOf str then .ok (str.drop pre.length) else .error .decodingFail

/-- `DECIMAL_U32(x)` -/
def decimalU32 (plat : Platform) (str : Bytes) : Except ErrorCode (UInt32 × Bytes) :=
  match decodeDecimal plat str with
  | none => .error .decodingFail
  | some (decX, rest) =>
      if uint32Max < decX then .error .decodingFail else .ok (UInt32.ofNat decX, rest)

/-- `CC_opt(prefix, DECIMAL_U32(x))`, where `x` has been set to `dflt` before. -/
def ccOptDecimalU32 (plat : Platform) (pre : Bytes) (dflt : UInt32) (str : Bytes) :
    Except ErrorCode (UInt32 × Bytes) :=
  if pre.isPrefixOf str then decimalU32 plat (str.drop pre.length) else .ok (dflt, str)

/-- `BIN(buf, max_len, len)` -/
def bin (plat : Platform) (maxLen : Nat) (str : Bytes) : Except ErrorCode (Bytes × Bytes) :=
  match fromBase64 plat maxLen str with
  | none => .error .decodingFail
  | some (buf, rest) => if uint32Max < buf.length then .error .decodingFail else .ok (buf, rest)

/-- `decode_string`: the context it fills in when it returns `ARGON2_OK`, else its result code.
On entry `ctx.saltlen` and `ctx.outlen` are the capacities of the two buffers. -/
def decodeString (plat : Platform) (ctx : Context) (str : Bytes) (type : Argon2Type) :
    Except ErrorCode Context := do
  let maxsaltlen := ctx.saltlen.toNat
  let maxoutlen := ctx.outlen.toNat
  let str ← cc (ascii "$") str
  let str ← cc (argon2Type2string type false) str
  -- the version number, when it is not the suppressed default
  let (version, str) ← ccOptDecimalU32 plat (ascii "$v=") version10 str
  let str ← cc (ascii "$m=") str
  let (mCost, str) ← decimalU32 plat str
  let str ← cc (ascii ",t=") str
  let (tCost, str) ← decimalU32 plat str
  let str ← cc (ascii ",p=") str
  let (lanes, str) ← decimalU32 plat str
  let str ← cc (ascii "$") str
  let (salt, str) ← bin plat maxsaltlen str
  let str ← cc (ascii "$") str
  let (out, str) ← bin plat maxoutlen str
  let ctx : Context :=
    { ctx with
      version := version, mCost := mCost, tCost := tCost, lanes := lanes, threads := lanes,
      salt := some salt, saltlen := UInt32.ofNat salt.length,
      out := some out, outlen := UInt32.ofNat out.length,
      secret := none, secretlen := 0, ad := none, adlen := 0,
      allocateCbk := false, freeCbk := false, flags := defaultFlags }
  -- on return the context must be valid, and no character may be left
  match validateInputs plat ctx with
  | .ok => if str.headD 0 = 0 then .ok ctx else .error .decodingFail
  | code => .error code

/-! ## The encoder of hash strings -/

/-- The local variables of `encode_string`. -/
structure Enc where
  dst : Dst
  dstLen : Nat
  deriving DecidableEq, Repr

/-- `SS(str)` -/
def ss (str : Bytes) (e : Enc) : Except Stop Enc :=
  let ppLen := str.length
  if e.dstLen ≤ ppLen then
    .error (.ret .encodingFail)
  else do
    let dst ← e.dst.memcpy (str ++ [0])
    .ok { dst := { dst with pos := dst.pos + ppLen }, dstLen := e.dstLen - ppLen }

/-- `SX(x)`: `sprintf` with `%lu`, then `SS`. -/
def sx (x : UInt32) (e : Enc) : Except Stop Enc :=
  ss (Numeral.print x.toNat) e

/-- `SB(buf, len)` -/
def sb (plat : Platform) (buf : Bytes) (e : Enc) : Except Stop Enc := do
  match ← toBase64 plat e.dst e.dstLen buf with
  | none => .error (.ret .encodingFail)
  | some (sbLen, dst) =>
      .ok { dst := { block := dst.block, pos := e.dst.pos + sbLen }, dstLen := e.dstLen - sbLen }

/-- `encode_string`: the block when it returns `ARGON2_OK`. -/
def encodeString (plat : Platform) (block : Bytes) (dstLen : Nat) (ctx : Context)
    (type : Argon2Type) : Except Stop Bytes :=
  match validateInputs plat ctx with
  | .ok => do
      let e : Enc := { dst := { block := block, pos := 0 }, dstLen := dstLen }
      let e ← ss (ascii "$") e
      let e ← ss (argon2Type2string type false) e
      let e ← ss (ascii "$v=") e
      let e ← sx ctx.version e
      let e ← ss (ascii "$m=") e
      let e ← sx ctx.mCost e
      let e ← ss (ascii ",t=") e
      let e ← sx ctx.tCost e
      let e ← ss (ascii ",p=") e
      let e ← sx ctx.lanes e
      let e ← ss (ascii "$") e
      let e ← sb plat ((ctx.salt.getD []).take ctx.saltlen.toNat) e
      let e ← ss (ascii "$") e
      let e ← sb plat ((ctx.out.getD []).take ctx.outlen.toNat) e
      .ok e.dst.block
  | code => .error (.ret code)

/-- `b64len` -/
def b64len (plat : Platform) (len : UInt32) : Nat :=
  base64Length plat len.toNat

/-- The loop of `numlen`. -/
def numlenLoop (num len : Nat) : Nat :=
  if 10 ≤ num then numlenLoop (num / 10) (len + 1) else len

/-- `numlen` -/
def numlen (num : UInt32) : Nat :=
  numlenLoop num.toNat 1

end Argon2id
