import Argon2id.Format
import Argon2id.Lib.Fallible
import Argon2id.Libargon2.Argon2
import Argon2id.Libargon2.Base64Codec
import Argon2id.Libargon2.Decimal

/-!
# Libargon2.Encoder — `encode_string` writes the canonical text

Each macro of `encode_string` is a step of a bounded writer (`Fallible.Appends`): `SS` appends its
string, `SX` a numeral, `SB` the Base64 text of its bytes.  Chained together they write the
canonical text of the context and its `NUL` exactly when the block has room for them
(`encodeString_sound`, `encodeString_complete`), and nothing behind the block
(`encodeString_exact`).
-/

namespace Argon2id

open Fallible

/-! ## Writing

`Wrote dst size text`: into a block of `size` bytes the text has been written, and the pointer
stands behind it. -/

structure Dst.Wrote (dst : Dst) (size : Nat) (text : Bytes) : Prop where
  length_block : dst.block.length = size
  pos : dst.pos = text.length
  written : text <+: dst.block

theorem Dst.Wrote.length_le {dst : Dst} {size : Nat} {text : Bytes} (h : dst.Wrote size text) :
    text.length ≤ size := by
  rw [← h.length_block]
  exact h.written.length_le

theorem Dst.Wrote.put {dst : Dst} {size : Nat} {text : Bytes} (h : dst.Wrote size text)
    (hroom : text.length < size) (c : UInt8) :
    ∃ dst', dst.put c = .ok dst' ∧ dst'.Wrote size (text ++ [c]) := by
  have hlt : dst.pos < dst.block.length := by rwa [h.pos, h.length_block]
  refine ⟨_, by rw [Dst.put, if_pos hlt], by simp [h.length_block], by simp [h.pos], ?_⟩
  rcases h.written with ⟨rest, hblock⟩
  cases rest with
  | nil =>
      rw [h.pos, ← hblock] at hlt
      simp at hlt
  | cons a rest =>
      refine ⟨rest, ?_⟩
      simp [← hblock, h.pos]

theorem Dst.Wrote.putAll {dst : Dst} {size : Nat} {text : Bytes} (h : dst.Wrote size text)
    (cs : Bytes) (hroom : text.length + cs.length ≤ size) :
    ∃ dst', dst.putAll cs = .ok dst' ∧ dst'.Wrote size (text ++ cs) := by
  induction cs generalizing dst text with
  | nil => exact ⟨dst, rfl, by simpa using h⟩
  | cons c cs ih =>
      simp only [List.length_cons] at hroom
      rcases h.put (by omega) c with ⟨dst', hput, hwrote⟩
      rcases ih hwrote (by simp; omega) with ⟨dst'', hall, hwrote'⟩
      refine ⟨dst'', ?_, by simpa using hwrote'⟩
      simp [Dst.putAll, hput, hall, bind, Except.bind]

theorem Dst.Wrote.putAll_overflow {dst : Dst} {size : Nat} {text : Bytes} (h : dst.Wrote size text)
    (cs : Bytes) (hroom : size < text.length + cs.length) :
    dst.putAll cs = .error .heapOverflow := by
  induction cs generalizing dst text with
  | nil =>
      have hle := h.length_le
      simp at hroom
      omega
  | cons c cs ih =>
      by_cases hlt : text.length < size
      · rcases h.put hlt c with ⟨dst', hput, hwrote⟩
        have hall := ih hwrote (by simp at hroom ⊢; omega)
        simp [Dst.putAll, hput, hall, bind, Except.bind]
      -- the pointer stands at the end of the block
      · have hfull : ¬ dst.pos < dst.block.length := by rwa [h.pos, h.length_block]
        simp [Dst.putAll, Dst.put, hfull, bind, Except.bind]

/-- A `memcpy` behind what has been written. -/
theorem Dst.Wrote.memcpy {dst : Dst} {size : Nat} {text : Bytes} (h : dst.Wrote size text)
    (src : Bytes) (hroom : text.length + src.length ≤ size) :
    ∃ block, dst.memcpy src = .ok { block := block, pos := dst.pos } ∧ block.length = size ∧
      text ++ src <+: block := by
  rcases h.written with ⟨rest, hblock⟩
  have hfits : dst.pos + src.length ≤ dst.block.length := by rwa [h.pos, h.length_block]
  have htake : dst.block.take dst.pos = text := by
    rw [← hblock, h.pos]
    exact List.take_left
  refine ⟨_, by rw [Dst.memcpy, if_pos hfits], ?_, ?_⟩
  · have hlen := h.length_block
    have hpos := h.pos
    simp only [List.length_append, List.length_drop, htake]
    omega
  · rw [htake]
    exact List.prefix_append _ _

/-! ## The steps of the encoder -/

/-- The encoder has written `text` into a block of `size` bytes, with a `NUL` behind it. -/
structure Enc.Wrote (size : Nat) (e : Enc) (text : Bytes) : Prop where
  dst : e.dst.Wrote size text
  dstLen : e.dstLen + text.length = size
  terminated : text ≠ [] → text ++ [0] <+: e.dst.block

theorem Enc.wrote_nil (block : Bytes) :
    Enc.Wrote block.length { dst := { block := block, pos := 0 }, dstLen := block.length } [] := by
  refine ⟨⟨rfl, rfl, List.nil_prefix⟩, rfl, ?_⟩
  intro h
  exact absurd rfl h

theorem appends_ss (size : Nat) (str : Bytes) : Appends (Enc.Wrote size) size (ss str) str where
  room := by
    intro e text he hroom
    have hlen := he.dstLen
    have hle : ¬ e.dstLen ≤ str.length := by omega
    rcases he.dst.memcpy (str ++ [0]) (by simp; omega) with
      ⟨block, hcpy, hblock, hwritten⟩
    rw [← List.append_assoc] at hwritten
    -- the copied `NUL` stays behind the pointer and is overwritten by the next step
    refine ⟨{ dst := { block := block, pos := e.dst.pos + str.length }, dstLen := e.dstLen - str.length },
      ?_, ⟨hblock, ?_, ?_⟩, ?_, fun _ => hwritten⟩
    · simp [ss, hle, hcpy, bind, Except.bind]
    · simp [he.dst.pos]
    · exact (List.prefix_append _ _).trans hwritten
    · simp only [List.length_append]
      omega
  full := by
    intro e e' text he hfull hok
    have hlen := he.dstLen
    have hle : e.dstLen ≤ str.length := by omega
    simp [ss, hle] at hok

theorem appends_sx (size : Nat) (x : UInt32) :
    Appends (Enc.Wrote size) size (sx x) (Numeral.print x.toNat) :=
  appends_ss size (Numeral.print x.toNat)

/-- In a block that `size_t` can count, `SB` appends Base64 text: a length that wraps around is
caught by the block's end at the latest. -/
theorem appends_sb {plat : Platform} {size : Nat} (hsize : size < 2 ^ plat.size.bits) (buf : Bytes) :
    Appends (Enc.Wrote size) size (sb plat buf) (Base64.encode buf) where
  room := by
    intro e text he hroom
    have hlen := he.dstLen
    -- with room for the text its length has not wrapped around
    have holen : base64Length plat buf.length = (Base64.encode buf).length := by
      rw [base64Length_eq, Nat.mod_eq_of_lt (by omega)]
    have hle : ¬ e.dstLen ≤ (Base64.encode buf).length := by omega
    rcases he.dst.putAll (Base64.encode buf ++ [0]) (by simp; omega) with ⟨dst, hput, hwrote⟩
    have hwritten := hwrote.written
    rw [← List.append_assoc] at hwritten
    refine ⟨{ dst := { block := dst.block, pos := e.dst.pos + (Base64.encode buf).length },
              dstLen := e.dstLen - (Base64.encode buf).length },
      ?_, ⟨hwrote.length_block, ?_, ?_⟩, ?_, fun _ => hwritten⟩
    · simp [sb, toBase64_eq, holen, hle, hput, bind, Except.bind, Except.map]
    · simp [he.dst.pos]
    · exact (List.prefix_append _ _).trans hwritten
    · simp only [List.length_append]
      omega
  full := by
    intro e e' text he hfull hok
    -- the characters themselves reach the end of the block, whatever the computed length says
    have hover : Dst.putAll (Base64.encode buf ++ [0]) e.dst = .error .heapOverflow :=
      he.dst.putAll_overflow _ (by simp; omega)
    by_cases hle : e.dstLen ≤ base64Length plat buf.length
    · simp [sb, toBase64_eq, hle, bind, Except.bind] at hok
    · simp [sb, toBase64_eq, hle, hover, bind, Except.bind, Except.map] at hok

/-! ## The whole encoder -/

/-- What a context says, written with its version. -/
def Context.hash (ctx : Context) : Hash where
  version := some ctx.version.toNat
  mCost := ctx.mCost.toNat
  tCost := ctx.tCost.toNat
  lanes := ctx.lanes.toNat
  salt := (ctx.salt.getD []).take ctx.saltlen.toNat
  output := (ctx.out.getD []).take ctx.outlen.toNat

/-- The steps of the encoder after the validation. -/
def encodeSteps (plat : Platform) (ctx : Context) (e : Enc) : Except Stop Enc := do
  let e ← ss (ascii "$") e
  let e ← ss (argon2Type2string .id false) e
  let e ← ss (ascii "$v=") e
  let e ← sx ctx.version e
  let e ← ss (ascii "$m=") e
  let e ← sx ctx.mCost e
  let e ← ss (ascii ",t=") e
  let e ← sx ctx.tCost e
  let e ← ss (ascii ",p=") e
  let e ← sx ctx.lanes e
  let e ← ss (ascii "$") e
  let e ← sb plat ctx.hash.salt e
  let e ← ss (ascii "$") e
  sb plat ctx.hash.output e

theorem encodeString_eq {plat : Platform} {ctx : Context} (hvalid : validateInputs plat ctx = .ok)
    (block : Bytes) (dstLen : Nat) :
    encodeString plat block dstLen ctx .id =
      (encodeSteps plat ctx { dst := { block := block, pos := 0 }, dstLen := dstLen } >>= fun e =>
        .ok e.dst.block) := by
  simp only [encodeString, hvalid, encodeSteps, bind_assoc]
  rfl

theorem appends_encodeSteps {plat : Platform} {size : Nat} (hsize : size < 2 ^ plat.size.bits)
    (ctx : Context) : Appends (Enc.Wrote size) size (encodeSteps plat ctx) ctx.hash.write := by
  -- one writer for each macro, in the order of the source
  have hsteps :=
    (appends_ss size (ascii "$")).bind <|
    (appends_ss size (argon2Type2string .id false)).bind <|
    (appends_ss size (ascii "$v=")).bind <|
    (appends_sx size ctx.version).bind <|
    (appends_ss size (ascii "$m=")).bind <|
    (appends_sx size ctx.mCost).bind <|
    (appends_ss size (ascii ",t=")).bind <|
    (appends_sx size ctx.tCost).bind <|
    (appends_ss size (ascii ",p=")).bind <|
    (appends_sx size ctx.lanes).bind <|
    (appends_ss size (ascii "$")).bind <|
    (appends_sb hsize ctx.hash.salt).bind <|
    (appends_ss size (ascii "$")).bind <|
    appends_sb hsize ctx.hash.output
  have htext : ctx.hash.write = ascii "$" ++ (argon2Type2string .id false ++ (ascii "$v=" ++
      (Numeral.print ctx.version.toNat ++ (ascii "$m=" ++ (Numeral.print ctx.mCost.toNat ++
        (ascii ",t=" ++ (Numeral.print ctx.tCost.toNat ++ (ascii ",p=" ++
          (Numeral.print ctx.lanes.toNat ++ (ascii "$" ++ (Base64.encode ctx.hash.salt ++
            (ascii "$" ++ Base64.encode ctx.hash.output)))))))))))) := by
    simp only [Hash.write, Parts.text, Hash.parts, Context.hash, Option.map_some, Parts.versionText,
      List.append_assoc]
    rfl
  rw [htext]
  exact hsteps

/-- In a block with room for the text every step of the encoder succeeds. -/
theorem encodeSteps_complete {plat : Platform} {ctx : Context} {block : Bytes}
    (hsize : block.length < 2 ^ plat.size.bits) (hroom : ctx.hash.write.length < block.length) :
    ∃ e, encodeSteps plat ctx { dst := { block := block, pos := 0 }, dstLen := block.length } =
        .ok e ∧
      Enc.Wrote block.length e ctx.hash.write ∧ ctx.hash.write ++ [0] <+: e.dst.block := by
  have hne : ctx.hash.write ≠ [] := by simp [Hash.write, Parts.text, ascii]
  rcases (appends_encodeSteps hsize ctx).room (Enc.wrote_nil block) (by simpa using hroom) with
    ⟨e, hsteps, hwrote⟩
  exact ⟨e, hsteps, hwrote, hwrote.terminated hne⟩

/-- In a block with room for it the encoder writes the canonical text and a `NUL`. -/
theorem encodeString_complete {plat : Platform} {ctx : Context} {block : Bytes}
    (hvalid : validateInputs plat ctx = .ok) (hsize : block.length < 2 ^ plat.size.bits)
    (hroom : ctx.hash.write.length < block.length) :
    ∃ block', encodeString plat block block.length ctx .id = .ok block' ∧
      ctx.hash.write ++ [0] <+: block' := by
  rcases encodeSteps_complete hsize hroom with ⟨e, hsteps, _, hwritten⟩
  refine ⟨e.dst.block, ?_, hwritten⟩
  rw [encodeString_eq hvalid, hsteps]
  rfl

/-- Whenever the encoder returns `ARGON2_OK`, there was room. -/
theorem encodeString_sound {plat : Platform} {ctx : Context} {block block' : Bytes}
    (hvalid : validateInputs plat ctx = .ok) (hsize : block.length < 2 ^ plat.size.bits)
    (hok : encodeString plat block block.length ctx .id = .ok block') :
    ctx.hash.write.length < block.length := by
  rw [encodeString_eq hvalid] at hok
  rcases bind_eq_ok_iff.1 hok with ⟨e, hsteps, _⟩
  simpa using ((appends_encodeSteps hsize ctx).sound (Enc.wrote_nil block) hsteps).1

/-! ## The memory behind the block

A run that succeeds in a block takes the same course when the block is the beginning of a larger
piece of memory, and leaves the bytes behind the block as they are. -/

/-- The block with more memory behind it. -/
def Dst.extend (beyond : Bytes) (dst : Dst) : Dst :=
  { dst with block := dst.block ++ beyond }

def Enc.extend (beyond : Bytes) (e : Enc) : Enc :=
  { e with dst := e.dst.extend beyond }

theorem framed_put (beyond : Bytes) (c : UInt8) :
    Framed (Dst.extend beyond) (fun dst => dst.put c) := by
  intro dst dst' hok
  rcases checked_eq_ok_iff.1 hok with ⟨hlt, hdst⟩
  have hlt' : (dst.extend beyond).pos < (dst.extend beyond).block.length := by
    simp only [Dst.extend, List.length_append]
    omega
  refine checked_eq_ok_iff.2 ⟨hlt', ?_⟩
  rw [← Except.ok.inj hdst]
  simp only [Dst.extend, List.set_append_left dst.pos c hlt]

theorem framed_putAll (beyond cs : Bytes) : Framed (Dst.extend beyond) (Dst.putAll cs) := by
  induction cs with
  | nil =>
      intro dst dst' hok
      rw [← Except.ok.inj hok]
      rfl
  | cons c cs ih => exact (framed_put beyond c).bind ih

theorem framed_memcpy (beyond src : Bytes) :
    Framed (Dst.extend beyond) (fun dst => dst.memcpy src) := by
  intro dst dst' hok
  rcases checked_eq_ok_iff.1 hok with ⟨hle, hdst⟩
  have hle' : (dst.extend beyond).pos + src.length ≤ (dst.extend beyond).block.length := by
    simp only [Dst.extend, List.length_append]
    omega
  refine checked_eq_ok_iff.2 ⟨hle', ?_⟩
  rw [← Except.ok.inj hdst]
  -- both pieces of the old block lie before the extension
  have htake : (dst.block ++ beyond).take dst.pos = dst.block.take dst.pos :=
    List.take_append_of_le_length (Nat.le_trans (Nat.le_add_right dst.pos src.length) hle)
  have hdrop : (dst.block ++ beyond).drop (dst.pos + src.length) =
      dst.block.drop (dst.pos + src.length) ++ beyond :=
    List.drop_append_of_le_length hle
  simp only [Dst.extend, htake, hdrop, List.append_assoc]

theorem framed_ss (beyond str : Bytes) : Framed (Enc.extend beyond) (ss str) := by
  intro e e' hok
  rcases guarded_eq_ok_iff.1 hok with ⟨hroom, hok⟩
  rcases bind_eq_ok_iff.1 hok with ⟨dst, hcpy, hdst⟩
  have hcpy' := framed_memcpy beyond (str ++ [0]) e.dst dst hcpy
  rw [← Except.ok.inj hdst, ss]
  refine guarded_eq_ok_iff.2 ⟨hroom, bind_eq_ok_iff.2 ⟨_, hcpy', rfl⟩⟩

theorem framed_sx (beyond : Bytes) (x : UInt32) : Framed (Enc.extend beyond) (sx x) :=
  framed_ss beyond (Numeral.print x.toNat)

theorem framed_sb (plat : Platform) (beyond buf : Bytes) :
    Framed (Enc.extend beyond) (sb plat buf) := by
  intro e e' hok
  by_cases hfull : e.dstLen ≤ base64Length plat buf.length
  · simp [sb, toBase64_eq, hfull, bind, Except.bind] at hok
  · cases hput : e.dst.putAll (Base64.encode buf ++ [0]) with
    | error stop => simp [sb, toBase64_eq, hfull, hput, bind, Except.bind, Except.map] at hok
    | ok dst =>
        have hput' := framed_putAll beyond _ e.dst dst hput
        simp only [sb, toBase64_eq, hfull, hput, bind, Except.bind, Except.map, if_false,
          Except.ok.injEq] at hok
        rw [Dst.extend] at hput'
        simp [← hok, sb, toBase64_eq, hfull, hput', bind, Except.bind, Except.map, Enc.extend,
          Dst.extend]

theorem framed_encodeSteps (plat : Platform) (ctx : Context) (beyond : Bytes) :
    Framed (Enc.extend beyond) (encodeSteps plat ctx) :=
  (framed_ss beyond (ascii "$")).bind <|
  (framed_ss beyond (argon2Type2string .id false)).bind <|
  (framed_ss beyond (ascii "$v=")).bind <|
  (framed_sx beyond ctx.version).bind <|
  (framed_ss beyond (ascii "$m=")).bind <|
  (framed_sx beyond ctx.mCost).bind <|
  (framed_ss beyond (ascii ",t=")).bind <|
  (framed_sx beyond ctx.tCost).bind <|
  (framed_ss beyond (ascii ",p=")).bind <|
  (framed_sx beyond ctx.lanes).bind <|
  (framed_ss beyond (ascii "$")).bind <|
  (framed_sb plat beyond ctx.hash.salt).bind <|
  (framed_ss beyond (ascii "$")).bind <|
  framed_sb plat beyond ctx.hash.output

/-- In a block of exactly the right size the encoder fills the block with the text and its `NUL`, and
writes nothing behind the block. -/
theorem encodeString_exact {plat : Platform} {ctx : Context} {block : Bytes}
    (hvalid : validateInputs plat ctx = .ok) (hsize : block.length < 2 ^ plat.size.bits)
    (hblock : block.length = ctx.hash.write.length + 1) (beyond : Bytes) :
    encodeString plat (block ++ beyond) block.length ctx .id =
      .ok (ctx.hash.write ++ [0] ++ beyond) := by
  have hroom : ctx.hash.write.length < block.length := by omega
  rcases encodeSteps_complete hsize hroom with ⟨e, hsteps, hwrote, hwritten⟩
  -- the text and its `NUL` are as long as the block
  have hfilled : e.dst.block = ctx.hash.write ++ [0] := by
    refine (hwritten.eq_of_length ?_).symm
    rw [hwrote.dst.length_block, hblock]
    simp
  have hextended := framed_encodeSteps plat ctx beyond _ _ hsteps
  simp only [Enc.extend, Dst.extend] at hextended
  rw [encodeString_eq hvalid, hextended, hfilled]
  rfl

/-! ## The size of the block -/

/-- `argon2_encodedlen` is the length of the canonical text and its `NUL`, in `size_t`. -/
theorem argon2Encodedlen_eq (plat : Platform) (ctx : Context) (hversion : ctx.version = versionNumber)
    (hsalt : ctx.hash.salt.length = ctx.saltlen.toNat)
    (hout : ctx.hash.output.length = ctx.outlen.toNat) :
    argon2Encodedlen plat ctx.tCost ctx.mCost ctx.lanes ctx.saltlen ctx.outlen .id =
      (ctx.hash.write.length + 1) % 2 ^ plat.size.bits := by
  have hlength : ctx.hash.write.length = 23 + numlen ctx.version + numlen ctx.mCost +
      numlen ctx.tCost + numlen ctx.lanes + (Base64.encode ctx.hash.salt).length +
        (Base64.encode ctx.hash.output).length := by
    rw [Hash.write, Parts.length_text]
    simp only [Hash.parts, Context.hash, Option.map_some, Parts.versionText, List.length_append,
      numlen_eq]
    simp [ascii]
    omega
  have hsaltText := base64Length_eq plat ctx.hash.salt
  have houtText := base64Length_eq plat ctx.hash.output
  rw [hsalt] at hsaltText
  rw [hout] at houtText
  have hliterals : (ascii "$$v=$m=,t=,p=$$").length = 15 ∧
      (argon2Type2string .id false).length = 8 := by
    decide
  rw [argon2Encodedlen, hlength, hversion, b64len, b64len, hsaltText, houtText, hliterals.1, hliterals.2]
  cases plat.size with
  | w32 =>
      simp only [Width.bits]
      omega
  | w64 =>
      simp only [Width.bits]
      omega

end Argon2id
