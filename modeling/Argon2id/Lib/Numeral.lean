import Mathlib.Data.List.Basic
import Mathlib.Data.List.Induction

/-!
# Numeral — ASCII numerals, their values and their canonical spelling

- `valueFrom b acc ds` : Horner evaluation of the digits `ds` in radix `b`, starting from `acc`
- `Canonical ds`       : a decimal numeral without superfluous leading zeros
- `print n`            : the canonical decimal numeral of `n`

Canonical numerals and numbers correspond one to one (`value_print`, `print_value`), and two radices
read the same digits alike only where one digit matters (`value_eq_value_iff`).
-/

namespace Numeral

/-! ## Digits and values -/

def isDigit (c : UInt8) : Bool :=
  decide (48 ≤ c.toNat) && decide (c.toNat ≤ 57)

/-- The value of an ASCII digit. -/
def digit (c : UInt8) : Nat :=
  c.toNat - 48

/-- Horner evaluation in radix `b`, most significant digit first. -/
def valueFrom (b acc : Nat) (ds : List UInt8) : Nat :=
  ds.foldl (fun a c => a * b + digit c) acc

def value (b : Nat) (ds : List UInt8) : Nat :=
  valueFrom b 0 ds

@[simp] theorem valueFrom_nil (b acc : Nat) : valueFrom b acc [] = acc := rfl

@[simp] theorem valueFrom_cons (b acc : Nat) (c : UInt8) (ds : List UInt8) :
    valueFrom b acc (c :: ds) = valueFrom b (acc * b + digit c) ds := by
  simp only [valueFrom, List.foldl_cons]

@[simp] theorem value_nil (b : Nat) : value b [] = 0 := rfl

theorem value_singleton (b : Nat) (c : UInt8) : value b [c] = digit c := by
  simp [value]

theorem value_concat (b : Nat) (ds : List UInt8) (c : UInt8) :
    value b (ds ++ [c]) = value b ds * b + digit c := by
  simp [value, valueFrom]

theorem isDigit_iff {c : UInt8} : isDigit c = true ↔ 48 ≤ c.toNat ∧ c.toNat ≤ 57 := by
  simp [isDigit]

theorem digit_lt_ten {c : UInt8} (h : isDigit c = true) : digit c < 10 := by
  rcases isDigit_iff.1 h with ⟨hlow, hhigh⟩
  simp only [digit]
  omega

/-- Evaluation never goes below its starting value. -/
theorem le_valueFrom {b : Nat} (hb : 1 ≤ b) (acc : Nat) (ds : List UInt8) :
    acc ≤ valueFrom b acc ds := by
  induction ds generalizing acc with
  | nil => exact Nat.le_refl acc
  | cons c ds ih =>
      have hstep : acc ≤ acc * b + digit c :=
        Nat.le_trans (Nat.le_mul_of_pos_right acc hb) (Nat.le_add_right _ _)
      exact Nat.le_trans hstep (ih _)

/-- Every digit is at most the value. -/
theorem digit_le_value {b : Nat} (hb : 1 ≤ b) {c : UInt8} {ds : List UInt8} (hc : c ∈ ds) :
    digit c ≤ value b ds := by
  rcases List.append_of_mem hc with ⟨pre, post, rfl⟩
  have hsplit : value b (pre ++ c :: post) = valueFrom b (value b pre * b + digit c) post := by
    simp [value, valueFrom]
  rw [hsplit]
  exact Nat.le_trans (Nat.le_add_left _ _) (le_valueFrom hb _ post)

/-! ## Canonical decimal numerals -/

/-- A decimal numeral without superfluous leading zeros. -/
structure Canonical (ds : List UInt8) : Prop where
  ne_nil : ds ≠ []
  digits : ∀ c ∈ ds, isDigit c = true
  leading_zero : ds.head? = some 48 → ds = [48]

/-- The canonical decimal numeral of a number. -/
def print (n : Nat) : List UInt8 :=
  (Nat.toDigits 10 n).map fun c => UInt8.ofNat c.toNat

theorem toNat_digitByte {d : Nat} (hd : d < 10) : (UInt8.ofNat (48 + d)).toNat = 48 + d := by
  rw [UInt8.toNat_ofNat']
  omega

theorem isDigit_digitByte {d : Nat} (hd : d < 10) : isDigit (UInt8.ofNat (48 + d)) = true := by
  rw [isDigit_iff, toNat_digitByte hd]
  omega

theorem digit_digitByte {d : Nat} (hd : d < 10) : digit (UInt8.ofNat (48 + d)) = d := by
  rw [digit, toNat_digitByte hd]
  omega

theorem digitByte_digit {c : UInt8} (h : isDigit c = true) : UInt8.ofNat (48 + digit c) = c := by
  apply UInt8.toNat_inj.1
  rw [toNat_digitByte (digit_lt_ten h), digit]
  have hlow := (isDigit_iff.1 h).1
  omega

theorem print_of_lt {n : Nat} (h : n < 10) : print n = [UInt8.ofNat (48 + n)] := by
  have hchar : n.digitChar.toNat = 48 + n := by
    simp [Nat.toNat_digitChar_of_lt_ten h]
  simp [print, Nat.toDigits_of_lt_base h, hchar]

theorem print_of_le {n : Nat} (h : 10 ≤ n) :
    print n = print (n / 10) ++ [UInt8.ofNat (48 + n % 10)] := by
  have hchar : (n % 10).digitChar.toNat = 48 + n % 10 := by
    simp [Nat.toNat_digitChar_of_lt_ten (Nat.mod_lt n (by decide : 10 > 0))]
  simp [print, Nat.toDigits_of_base_le (by decide : 1 < 10) h, hchar]

theorem print_ne_nil (n : Nat) : print n ≠ [] := by
  simp [print]

theorem length_print_le (n : Nat) : (print n).length ≤ n + 1 := by
  induction n using Nat.strongRecOn with
  | ind n ih =>
      by_cases hn : n < 10
      · simp [print_of_lt hn]
      · have hrec := ih (n / 10) (by omega)
        rw [print_of_le (Nat.le_of_not_lt hn)]
        simp only [List.length_append, List.length_singleton]
        omega

theorem isDigit_of_mem_print (n : Nat) : ∀ c ∈ print n, isDigit c = true := by
  induction n using Nat.strongRecOn with
  | ind n ih =>
      by_cases hn : n < 10
      · rw [print_of_lt hn]
        intro c hc
        rw [List.mem_singleton.1 hc]
        exact isDigit_digitByte hn
      · rw [print_of_le (Nat.le_of_not_lt hn)]
        intro c hc
        rcases List.mem_append.1 hc with hc | hc
        · exact ih (n / 10) (by omega) c hc
        · rw [List.mem_singleton.1 hc]
          exact isDigit_digitByte (Nat.mod_lt n (by decide))

theorem value_print (n : Nat) : value 10 (print n) = n := by
  induction n using Nat.strongRecOn with
  | ind n ih =>
      by_cases hn : n < 10
      · rw [print_of_lt hn, value_singleton, digit_digitByte hn]
      · rw [print_of_le (Nat.le_of_not_lt hn), value_concat, ih (n / 10) (by omega),
          digit_digitByte (Nat.mod_lt n (by decide))]
        omega

/-- Only the numeral of zero begins with a zero. -/
theorem head?_print_eq_zero {n : Nat} (h : (print n).head? = some 48) : n = 0 := by
  induction n using Nat.strongRecOn with
  | ind n ih =>
      by_cases hn : n < 10
      · rw [print_of_lt hn] at h
        have hbyte : UInt8.ofNat (48 + n) = 48 := by simpa using h
        have hnat := congrArg UInt8.toNat hbyte
        rw [toNat_digitByte hn] at hnat
        have h48 : (48 : UInt8).toNat = 48 := rfl
        omega
      · rw [print_of_le (Nat.le_of_not_lt hn)] at h
        have hhead : (print (n / 10)).head? = some 48 := by
          cases hp : print (n / 10) with
          | nil => exact absurd hp (print_ne_nil _)
          | cons d ds =>
              rw [hp] at h
              simpa using h
        have hzero := ih (n / 10) (by omega) hhead
        omega

theorem canonical_print (n : Nat) : Canonical (print n) := by
  refine ⟨print_ne_nil n, isDigit_of_mem_print n, ?_⟩
  intro h
  rw [head?_print_eq_zero h]
  decide

/-- A canonical numeral other than `0` has a positive value. -/
theorem value_pos {ds : List UInt8} (h : Canonical ds) (hne : ds ≠ [48]) : 0 < value 10 ds := by
  cases ds with
  | nil => exact absurd rfl h.ne_nil
  | cons c ds =>
      have hdigit : isDigit c = true := h.digits c (by simp)
      have hc : c ≠ 48 := by
        intro heq
        exact hne (h.leading_zero (by simp [heq]))
      have hpos : 0 < digit c := by
        have hlow := (isDigit_iff.1 hdigit).1
        have hnat : c.toNat ≠ 48 := fun heq => hc (UInt8.toNat_inj.1 heq)
        simp only [digit]
        omega
      exact Nat.lt_of_lt_of_le hpos (digit_le_value (by decide) (by simp))

/-- A canonical numeral is the one that is printed for its value. -/
theorem print_value {ds : List UInt8} (h : Canonical ds) : print (value 10 ds) = ds := by
  induction ds using List.reverseRecOn with
  | nil => exact absurd rfl h.ne_nil
  | append_singleton ds c ih =>
      have hc : isDigit c = true := h.digits c (by simp)
      have hlt := digit_lt_ten hc
      cases ds with
      | nil =>
          have hval : value 10 ([] ++ [c]) = digit c := value_singleton 10 c
          rw [hval, print_of_lt hlt, digitByte_digit hc]
          rfl
      | cons d ds =>
          -- a leading zero would make the whole numeral the single digit `0`
          have hd : d ≠ 48 := by
            intro heq
            have hzero := h.leading_zero (by simp [heq])
            simp at hzero
          have hfront : Canonical (d :: ds) := by
            refine ⟨by simp, fun x hx => h.digits x (by simp at hx ⊢; tauto), ?_⟩
            intro hhead
            exact absurd (by simpa using hhead) hd
          have hpos : 0 < value 10 (d :: ds) := by
            apply value_pos hfront
            intro heq
            simp at heq
            exact hd heq.1
          rw [value_concat, print_of_le (by omega)]
          have hdiv : (value 10 (d :: ds) * 10 + digit c) / 10 = value 10 (d :: ds) := by omega
          have hmod : (value 10 (d :: ds) * 10 + digit c) % 10 = digit c := by omega
          rw [hdiv, hmod, ih hfront, digitByte_digit hc]

/-- The canonical numerals are exactly the printed ones. -/
theorem canonical_iff {ds : List UInt8} {n : Nat} :
    (Canonical ds ∧ value 10 ds = n) ↔ ds = print n := by
  constructor
  · rintro ⟨h, rfl⟩
    exact (print_value h).symm
  · rintro rfl
    exact ⟨canonical_print n, value_print n⟩

/-! ## One numeral in two radices -/

theorem value_le_value {b b' : Nat} (hb : b ≤ b') (ds : List UInt8) :
    value b ds ≤ value b' ds := by
  induction ds using List.reverseRecOn with
  | nil => exact Nat.le_refl 0
  | append_singleton ds c ih =>
      rw [value_concat, value_concat]
      exact Nat.add_le_add_right (Nat.mul_le_mul ih hb) _

/-- Digits below `b` mean the same in radix `b` and in a larger radix exactly when only the last
one counts. -/
theorem value_eq_value_iff {b b' : Nat} (hb : b < b') {ds : List UInt8}
    (hds : ∀ c ∈ ds, digit c < b) : value b ds = value b' ds ↔ (ds = [] ∨ value b' ds < b) := by
  induction ds using List.reverseRecOn with
  | nil => simp
  | append_singleton ds c _ =>
      have hc : digit c < b := hds c (by simp)
      have hle := value_le_value (Nat.le_of_lt hb) ds
      rw [value_concat, value_concat]
      constructor
      · intro heq
        -- the front weighs less in the smaller radix, unless it is zero
        have hprod : value b ds * b = value b' ds * b' := by omega
        have hzero : value b' ds = 0 := by
          by_contra hne
          have hlt : value b ds * b < value b' ds * b' :=
            Nat.mul_lt_mul_of_le_of_lt hle hb (Nat.pos_of_ne_zero hne)
          omega
        right
        simpa [hzero] using hc
      · rintro (hnil | hlt)
        · simp at hnil
        · have hzero : value b' ds = 0 := by
            by_contra hne
            have hge : b' ≤ value b' ds * b' :=
              Nat.le_mul_of_pos_left b' (Nat.pos_of_ne_zero hne)
            omega
          have hzero' : value b ds = 0 := by omega
          rw [hzero, hzero']
          omega

end Numeral
