import Mathlib.Data.Option.Basic
import Argon2id.Lib.Base64
import Argon2id.Lib.Numeral
import Argon2id.Lib.Scan
import Argon2id.Libargon2.Core

/-!
# Format — the reference grammar of encoded hashes

The format itself, stated without reference to the code that reads or writes it:

    $argon2id[$v=<num>]$m=<num>,t=<num>,p=<num>$<bin>$<bin>

`Parts` are the variable parts of a text as they stand, `Hash` is what they mean.  `Reads s h` says
that the text `s` is in the grammar and means `h`; it is canonical: every `h` has exactly one text,
`Hash.write h` (`reads_iff`).
-/

namespace Argon2id

/-! ## Texts and their parts -/

structure Parts where
  version : Option Bytes
  mCost : Bytes
  tCost : Bytes
  parallelism : Bytes
  salt : Bytes
  output : Bytes
  deriving DecidableEq, Repr

namespace Parts

/-- The optional version part. -/
def versionText : Option Bytes → Bytes
  | none => []
  | some ds => ascii "$v=" ++ ds

/-- The text with the given parts. -/
def text (p : Parts) : Bytes :=
  ascii "$argon2id" ++ (versionText p.version ++ (ascii "$m=" ++ (p.mCost ++ (ascii ",t=" ++
    (p.tCost ++ (ascii ",p=" ++ (p.parallelism ++ (ascii "$" ++ (p.salt ++ (ascii "$" ++
      p.output))))))))))

end Parts

/-- A nonempty run of decimal digits. -/
def IsDigits (ds : Bytes) : Prop :=
  ds ≠ [] ∧ ∀ c ∈ ds, Numeral.isDigit c = true

/-- A nonempty run of Base64 characters. -/
def IsBase64 (cs : Bytes) : Prop :=
  cs ≠ [] ∧ ∀ c ∈ cs, Base64.isChar c = true

/-- The parts are nonempty runs of their classes: no more than a regular expression can check. -/
structure Parts.WellFormed (p : Parts) : Prop where
  version : ∀ ds ∈ p.version, IsDigits ds
  mCost : IsDigits p.mCost
  tCost : IsDigits p.tCost
  parallelism : IsDigits p.parallelism
  salt : IsBase64 p.salt
  output : IsBase64 p.output

/-- The digit strings of a text, in the order of the text. -/
def Parts.digitStrings (p : Parts) : List Bytes :=
  p.version.toList ++ [p.mCost, p.tCost, p.parallelism]

/-- The parts are runs of their classes, possibly empty ones. -/
structure Parts.Runs (p : Parts) : Prop where
  digits : ∀ ds ∈ p.digitStrings, ∀ c ∈ ds, Numeral.isDigit c = true
  salt : ∀ c ∈ p.salt, Base64.isChar c = true
  output : ∀ c ∈ p.output, Base64.isChar c = true

theorem Parts.WellFormed.isDigits {p : Parts} (h : p.WellFormed) :
    ∀ ds ∈ p.digitStrings, IsDigits ds := by
  intro ds hds
  simp only [digitStrings, List.mem_append, Option.mem_toList, List.mem_cons, List.not_mem_nil,
    or_false] at hds
  rcases hds with hds | rfl | rfl | rfl
  · exact h.version ds hds
  · exact h.mCost
  · exact h.tCost
  · exact h.parallelism

theorem Parts.WellFormed.runs {p : Parts} (h : p.WellFormed) : p.Runs where
  digits := fun ds hds => (h.isDigits ds hds).2
  salt := h.salt.2
  output := h.output.2

namespace Parts.Runs

variable {p : Parts}

theorem version (h : p.Runs) : ∀ ds ∈ p.version, ∀ c ∈ ds, Numeral.isDigit c = true := by
  intro ds hds
  exact h.digits ds (by simp [digitStrings, Option.mem_def.1 hds])

theorem mCost (h : p.Runs) : ∀ c ∈ p.mCost, Numeral.isDigit c = true :=
  h.digits p.mCost (by simp [digitStrings])

theorem tCost (h : p.Runs) : ∀ c ∈ p.tCost, Numeral.isDigit c = true :=
  h.digits p.tCost (by simp [digitStrings])

theorem parallelism (h : p.Runs) : ∀ c ∈ p.parallelism, Numeral.isDigit c = true :=
  h.digits p.parallelism (by simp [digitStrings])

end Parts.Runs

/-! ## The length and the characters of a text -/

theorem Parts.length_text (p : Parts) :
    p.text.length = 20 + (versionText p.version).length + p.mCost.length + p.tCost.length +
      p.parallelism.length + p.salt.length + p.output.length := by
  simp only [text, List.length_append]
  simp [ascii]
  omega

/-- A character of ASCII other than `NUL`. -/
def IsAscii (c : UInt8) : Prop :=
  c ≠ 0 ∧ c.toNat < 128

instance (c : UInt8) : Decidable (IsAscii c) :=
  inferInstanceAs (Decidable (c ≠ 0 ∧ c.toNat < 128))

theorem not_mem_of_isAscii {s : Bytes} (hs : ∀ c ∈ s, IsAscii c) : (0 : UInt8) ∉ s :=
  fun hmem => (hs 0 hmem).1 rfl

theorem isAscii_of_isDigit {c : UInt8} (h : Numeral.isDigit c = true) : IsAscii c := by
  rcases Numeral.isDigit_iff.1 h with ⟨hlow, hhigh⟩
  refine ⟨?_, by omega⟩
  rintro rfl
  exact absurd hlow (by decide)

theorem isAscii_char : ∀ v < 64, IsAscii (Base64.char v) := by
  decide +kernel

theorem isAscii_of_isChar {c : UInt8} (h : Base64.isChar c = true) : IsAscii c := by
  rcases Base64.isChar_iff.1 h with ⟨v, hv, rfl⟩
  exact isAscii_char v hv

/-- A text whose parts are runs of their classes is ASCII, however long they are. -/
theorem Parts.Runs.isAscii {p : Parts} (h : p.Runs) : ∀ c ∈ p.text, IsAscii c := by
  have hversion : ∀ c ∈ versionText p.version, IsAscii c := by
    intro c hc
    cases hv : p.version with
    | none => simp [versionText, hv] at hc
    | some ds =>
        rw [hv, versionText] at hc
        rcases List.mem_append.1 hc with hc | hc
        · exact (by decide +kernel : ∀ c ∈ ascii "$v=", IsAscii c) c hc
        · exact isAscii_of_isDigit (h.version ds hv c hc)
  intro c hc
  simp only [text, List.mem_append] at hc
  -- literals and runs alternate
  rcases hc with hc | hc | hc | hc | hc | hc | hc | hc | hc | hc | hc | hc
  · exact (by decide +kernel : ∀ c ∈ ascii "$argon2id", IsAscii c) c hc
  · exact hversion c hc
  · exact (by decide +kernel : ∀ c ∈ ascii "$m=", IsAscii c) c hc
  · exact isAscii_of_isDigit (h.mCost c hc)
  · exact (by decide +kernel : ∀ c ∈ ascii ",t=", IsAscii c) c hc
  · exact isAscii_of_isDigit (h.tCost c hc)
  · exact (by decide +kernel : ∀ c ∈ ascii ",p=", IsAscii c) c hc
  · exact isAscii_of_isDigit (h.parallelism c hc)
  · exact (by decide +kernel : ∀ c ∈ ascii "$", IsAscii c) c hc
  · exact isAscii_of_isChar (h.salt c hc)
  · exact (by decide +kernel : ∀ c ∈ ascii "$", IsAscii c) c hc
  · exact isAscii_of_isChar (h.output c hc)

theorem Parts.WellFormed.isAscii {p : Parts} (h : p.WellFormed) : ∀ c ∈ p.text, IsAscii c :=
  h.runs.isAscii

/-! ## Cutting a text into its parts -/

section Cutting

open Scan

/-- A literal whose first character is no digit ends a run of digits. -/
theorem stopsAt_digit_ascii {s : String} {c : UInt8} {w : Bytes} (hs : ascii s = c :: w)
    (hc : Numeral.isDigit c = false) (rest : Bytes) :
    StopsAt Numeral.isDigit (ascii s ++ rest) := by
  rw [hs]
  exact stopsAt_cons.2 hc

theorem stopsAt_comma_t (rest : Bytes) : StopsAt Numeral.isDigit (ascii ",t=" ++ rest) :=
  stopsAt_digit_ascii (c := 44) (w := [116, 61]) rfl (by decide) rest

theorem stopsAt_comma_p (rest : Bytes) : StopsAt Numeral.isDigit (ascii ",p=" ++ rest) :=
  stopsAt_digit_ascii (c := 44) (w := [112, 61]) rfl (by decide) rest

theorem stopsAt_dollar_m (rest : Bytes) : StopsAt Numeral.isDigit (ascii "$m=" ++ rest) :=
  stopsAt_digit_ascii (c := 36) (w := [109, 61]) rfl (by decide) rest

theorem stopsAt_dollar (rest : Bytes) : StopsAt Numeral.isDigit (ascii "$" ++ rest) :=
  stopsAt_digit_ascii (c := 36) (w := []) rfl (by decide) rest

theorem stopsAt_base64_dollar (rest : Bytes) : StopsAt Base64.isChar (ascii "$" ++ rest) := by
  rw [show ascii "$" = [36] from rfl]
  exact stopsAt_cons.2 (by decide)

/-- The version part does not start like the memory part. -/
theorem dollar_m_ne_dollar_v (rest rest' : Bytes) : ascii "$m=" ++ rest ≠ ascii "$v=" ++ rest' := by
  simp [ascii]

/-- A text has only one cut into runs, even when something is left over behind the last one. -/
theorem Parts.text_append_inj {p q : Parts} {rest : Bytes} (hp : p.Runs) (hq : q.Runs)
    (hrest : StopsAt Base64.isChar rest) (h : p.text = q.text ++ rest) : p = q ∧ rest = [] := by
  rcases p with ⟨v, m, t, l, s, o⟩
  rcases q with ⟨v', m', t', l', s', o'⟩
  simp only [text, List.append_assoc] at h
  -- the version part is there in both texts or in neither: the memory part starts differently
  have hversion : v = v' ∧ m ++ (ascii ",t=" ++ (t ++ (ascii ",p=" ++ (l ++ (ascii "$" ++ (s ++
      (ascii "$" ++ o))))))) = m' ++ (ascii ",t=" ++ (t' ++ (ascii ",p=" ++ (l' ++ (ascii "$" ++
        (s' ++ (ascii "$" ++ (o' ++ rest)))))))) := by
    have hcut := List.append_cancel_left h
    cases v with
    | none =>
        cases v' with
        | none => exact ⟨rfl, List.append_cancel_left hcut⟩
        | some ds' =>
            simp only [versionText, List.nil_append, List.append_assoc] at hcut
            exact absurd hcut (dollar_m_ne_dollar_v _ _)
    | some ds =>
        cases v' with
        | none =>
            simp only [versionText, List.nil_append, List.append_assoc] at hcut
            exact absurd hcut.symm (dollar_m_ne_dollar_v _ _)
        | some ds' =>
            simp only [versionText, List.append_assoc] at hcut
            rcases munch_unique (hp.version ds rfl) (hq.version ds' rfl) (stopsAt_dollar_m _)
              (stopsAt_dollar_m _) (List.append_cancel_left hcut) with ⟨hds, hrest⟩
            exact ⟨by rw [hds], List.append_cancel_left hrest⟩
  rcases hversion with ⟨rfl, hm⟩
  -- every other part is a longest run of its class, so the cuts agree from left to right
  rcases munch_unique hp.mCost hq.mCost (stopsAt_comma_t _) (stopsAt_comma_t _) hm with ⟨rfl, ht⟩
  rcases munch_unique hp.tCost hq.tCost (stopsAt_comma_p _) (stopsAt_comma_p _)
    (List.append_cancel_left ht) with ⟨rfl, hl⟩
  rcases munch_unique hp.parallelism hq.parallelism (stopsAt_dollar _) (stopsAt_dollar _)
    (List.append_cancel_left hl) with ⟨rfl, hs⟩
  rcases munch_unique hp.salt hq.salt (stopsAt_base64_dollar _) (stopsAt_base64_dollar _)
    (List.append_cancel_left hs) with ⟨rfl, ho⟩
  rcases munch_unique hp.output hq.output (stopsAt_nil _) hrest
    (by simpa using List.append_cancel_left ho) with ⟨rfl, hnil⟩
  exact ⟨rfl, hnil.symm⟩

/-- A text has only one cut into runs. -/
theorem Parts.text_inj {p q : Parts} (hp : p.Runs) (hq : q.Runs) (h : p.text = q.text) : p = q :=
  (text_append_inj hp hq (stopsAt_nil _) (by rw [h, List.append_nil])).1

end Cutting

/-! ## What a text means -/

/-- What an encoded hash says. -/
structure Hash where
  version : Option Nat
  mCost : Nat
  tCost : Nat
  lanes : Nat
  salt : Bytes
  output : Bytes
  deriving DecidableEq, Repr

/-- `ds` is the decimal of `n`, without superfluous leading zeros and below `2 ^ 32`. -/
def Number (ds : Bytes) (n : Nat) : Prop :=
  Numeral.Canonical ds ∧ Numeral.value 10 ds = n ∧ n < 2 ^ 32

structure Parts.Denotes (p : Parts) (h : Hash) : Prop where
  version : Option.Rel Number p.version h.version
  mCost : Number p.mCost h.mCost
  tCost : Number p.tCost h.tCost
  lanes : Number p.parallelism h.lanes
  salt : Base64.Denotes p.salt h.salt
  output : Base64.Denotes p.output h.output

/-- The text `s` is in the grammar and means `h`. -/
def Reads (s : Bytes) (h : Hash) : Prop :=
  ∃ p : Parts, p.text = s ∧ p.Denotes h

/-- The version that is used when the text has none. -/
def Hash.effectiveVersion (h : Hash) : Nat :=
  h.version.getD 0x10

/-- The parameters of a hash are those Argon2 accepts. -/
def Hash.Acceptable (plat : Platform) (h : Hash) : Prop :=
  WithinLimits plat h.mCost h.tCost h.lanes h.salt.length h.output.length

/-! ## The canonical text -/

/-- The numbers of a hash fit 32 bits. -/
structure Hash.Fits (h : Hash) : Prop where
  version : ∀ v ∈ h.version, v < 2 ^ 32
  mCost : h.mCost < 2 ^ 32
  tCost : h.tCost < 2 ^ 32
  lanes : h.lanes < 2 ^ 32

theorem Hash.Fits.effectiveVersion_lt {h : Hash} (hfits : h.Fits) :
    h.effectiveVersion < 2 ^ 32 := by
  rw [Hash.effectiveVersion]
  cases hv : h.version with
  | none => decide
  | some v => exact hfits.version v hv

/-- The parts of the canonical text. -/
def Hash.parts (h : Hash) : Parts where
  version := h.version.map Numeral.print
  mCost := Numeral.print h.mCost
  tCost := Numeral.print h.tCost
  parallelism := Numeral.print h.lanes
  salt := Base64.encode h.salt
  output := Base64.encode h.output

/-- The canonical text. -/
def Hash.write (h : Hash) : Bytes :=
  h.parts.text

theorem number_iff {ds : Bytes} {n : Nat} : Number ds n ↔ n < 2 ^ 32 ∧ ds = Numeral.print n := by
  rw [← Numeral.canonical_iff]
  constructor
  · rintro ⟨hc, hv, hn⟩
    exact ⟨hn, hc, hv⟩
  · rintro ⟨hn, hc, hv⟩
    exact ⟨hc, hv, hn⟩

theorem Hash.denotes_parts {h : Hash} (hfits : h.Fits) : h.parts.Denotes h where
  version := by
    cases hv : h.version with
    | none => simp [Hash.parts, hv]
    | some v =>
        have hnum : Number (Numeral.print v) v := number_iff.2 ⟨hfits.version v hv, rfl⟩
        simpa [Hash.parts, hv] using Option.Rel.some hnum
  mCost := number_iff.2 ⟨hfits.mCost, rfl⟩
  tCost := number_iff.2 ⟨hfits.tCost, rfl⟩
  lanes := number_iff.2 ⟨hfits.lanes, rfl⟩
  salt := Base64.denotes_encode h.salt
  output := Base64.denotes_encode h.output

theorem Parts.Denotes.fits {p : Parts} {h : Hash} (hd : p.Denotes h) : h.Fits where
  version := by
    intro v hv
    have hrel := hd.version
    rw [hv] at hrel
    generalize p.version = ds at hrel
    cases hrel with
    | some hnum => exact (number_iff.1 hnum).1
  mCost := (number_iff.1 hd.mCost).1
  tCost := (number_iff.1 hd.tCost).1
  lanes := (number_iff.1 hd.lanes).1

/-- Parts that mean `h` are the canonical ones. -/
theorem Parts.Denotes.eq_parts {p : Parts} {h : Hash} (hd : p.Denotes h) : p = h.parts := by
  rcases p with ⟨v, m, t, l, s, o⟩
  have hversion : v = h.version.map Numeral.print := by
    have hrel : Option.Rel Number v h.version := hd.version
    generalize h.version = w at hrel
    cases hrel with
    | none => rfl
    | some hnum => rw [(number_iff.1 hnum).2, Option.map_some]
  have hm : m = Numeral.print h.mCost := (number_iff.1 hd.mCost).2
  have ht : t = Numeral.print h.tCost := (number_iff.1 hd.tCost).2
  have hl : l = Numeral.print h.lanes := (number_iff.1 hd.lanes).2
  have hs : s = Base64.encode h.salt := Base64.denotes_iff.1 hd.salt
  have ho : o = Base64.encode h.output := Base64.denotes_iff.1 hd.output
  rw [hversion, hm, ht, hl, hs, ho]
  rfl

/-- The canonical parts are runs of their classes. -/
theorem Hash.runs_parts (h : Hash) : h.parts.Runs where
  digits := by
    intro ds hds
    simp only [Parts.digitStrings, Hash.parts, List.mem_append, Option.mem_toList,
      Option.map_eq_some_iff, List.mem_cons, List.not_mem_nil, or_false] at hds
    rcases hds with ⟨v, _, rfl⟩ | rfl | rfl | rfl
    · exact Numeral.isDigit_of_mem_print v
    · exact Numeral.isDigit_of_mem_print h.mCost
    · exact Numeral.isDigit_of_mem_print h.tCost
    · exact Numeral.isDigit_of_mem_print h.lanes
  salt := Base64.isChar_of_mem_encode
  output := Base64.isChar_of_mem_encode

theorem Parts.Denotes.runs {p : Parts} {h : Hash} (hd : p.Denotes h) : p.Runs := by
  rw [hd.eq_parts]
  exact h.runs_parts

/-- The format is canonical: a hash whose numbers fit has exactly one text. -/
theorem reads_iff {s : Bytes} {h : Hash} : Reads s h ↔ h.Fits ∧ s = h.write := by
  constructor
  · rintro ⟨p, rfl, hd⟩
    refine ⟨hd.fits, ?_⟩
    rw [hd.eq_parts, Hash.write]
  · rintro ⟨hfits, rfl⟩
    exact ⟨h.parts, rfl, Hash.denotes_parts hfits⟩

/-- The canonical parts are well formed as soon as salt and output are not empty. -/
theorem Hash.wellFormed_parts {h : Hash} (hs : h.salt ≠ []) (ho : h.output ≠ []) :
    h.parts.WellFormed := by
  have hdigits : ∀ n, IsDigits (Numeral.print n) := fun n =>
    ⟨Numeral.print_ne_nil n, Numeral.isDigit_of_mem_print n⟩
  -- only the empty byte string has an empty text
  have hbase64 : ∀ bytes : Bytes, bytes ≠ [] → IsBase64 (Base64.encode bytes) := by
    intro bytes hne
    refine ⟨?_, Base64.isChar_of_mem_encode⟩
    intro hnil
    have hlen := Base64.length_encode bytes
    have hpos := List.length_pos_of_ne_nil hne
    rw [hnil] at hlen
    simp only [List.length_nil] at hlen
    split at hlen <;> omega
  refine ⟨?_, hdigits _, hdigits _, hdigits _, hbase64 _ hs, hbase64 _ ho⟩
  intro ds hds
  rcases Option.map_eq_some_iff.1 hds with ⟨v, _, rfl⟩
  exact hdigits v

theorem Hash.parts_inj {h h' : Hash} (heq : h.parts = h'.parts) : h = h' := by
  rcases h with ⟨v, m, t, l, s, o⟩
  rcases h' with ⟨v', m', t', l', s', o'⟩
  simp only [Hash.parts, Parts.mk.injEq] at heq
  rcases heq with ⟨hv, hm, ht, hl, hs, ho⟩
  have hprint : Function.Injective Numeral.print := Function.LeftInverse.injective Numeral.value_print
  have hencode : ∀ {b b' : Bytes}, Base64.encode b = Base64.encode b' → b = b' := by
    intro b b' hb
    exact (Base64.denotes_encode b).unique (hb ▸ Base64.denotes_encode b')
  rw [Option.map_injective hprint hv, hprint hm, hprint ht, hprint hl, hencode hs, hencode ho]

/-- A canonical text is ASCII. -/
theorem Hash.isAscii_write (h : Hash) : ∀ c ∈ h.write, IsAscii c :=
  h.runs_parts.isAscii

theorem Reads.isAscii {s : Bytes} {h : Hash} (hr : Reads s h) : ∀ c ∈ s, IsAscii c := by
  rw [(reads_iff.1 hr).2]
  exact h.isAscii_write

/-- A text has at most one meaning. -/
theorem Reads.unique {s : Bytes} {h h' : Hash} (hr : Reads s h) (hr' : Reads s h') : h = h' := by
  have hw : s = h.write := (reads_iff.1 hr).2
  have hw' : s = h'.write := (reads_iff.1 hr').2
  exact Hash.parts_inj (Parts.text_inj h.runs_parts h'.runs_parts (hw.symm.trans hw'))

end Argon2id
