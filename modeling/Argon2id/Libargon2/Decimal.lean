import Argon2id.Lib.Scan
import Argon2id.Libargon2.Encoding

/-!
# Libargon2.Decimal — decimal numbers in `encoding.c`

- `decode_decimal` reads exactly the canonical numerals up to `ULONG_MAX` (`decodeDecimal_eq_some_iff`)
- `DECIMAL_U32` reads exactly the canonical numerals below `2 ^ 32`, whatever the width of
  `unsigned long` (`decimalU32_eq_ok_iff`)
- `numlen` is the length of the numeral that `sprintf` prints (`numlen_eq`)
-/

namespace Argon2id

open Numeral Scan

/-! ## Digits as plain characters -/

theorem charToInt_cases (plat : Platform) (c : UInt8) :
    charToInt plat c = (c.toNat : Int) ∨
      (128 ≤ c.toNat ∧ charToInt plat c = (c.toNat : Int) - 256) := by
  unfold charToInt
  split
  · rename_i h
    exact Or.inr ⟨h.2, rfl⟩
  · exact Or.inl rfl

/-- The range test of `decode_decimal` recognises the ASCII digits for either sign of `char`. -/
theorem not_digit_iff (plat : Platform) (c : UInt8) :
    (charToInt plat c < 48 ∨ 57 < charToInt plat c) ↔ isDigit c = false := by
  have hlt := c.toNat_lt
  rw [Bool.eq_false_iff, Ne, isDigit_iff]
  rcases charToInt_cases plat c with h | ⟨hhigh, h⟩
  · rw [h]
    omega
  · rw [h]
    omega

theorem charToInt_sub_of_digit (plat : Platform) {c : UInt8} (h : isDigit c = true) :
    (charToInt plat c - 48).toNat = digit c := by
  rcases isDigit_iff.1 h with ⟨hlow, hhigh⟩
  rcases charToInt_cases plat c with hc | ⟨hc128, _⟩
  · rw [hc, digit]
    omega
  · omega

/-! ## `decode_decimal` -/

theorem decodeDecimalLoop_stop {plat : Platform} {rest : Bytes} (hrest : StopsAt isDigit rest)
    (acc : Nat) : decodeDecimalLoop plat rest acc = some (acc, rest) := by
  cases rest with
  | nil => rfl
  | cons c rest =>
      have hc := (not_digit_iff plat c).2 (stopsAt_cons.1 hrest)
      simp [decodeDecimalLoop, hc]

/-- One digit: the overflow tests fail exactly when the new value exceeds `ULONG_MAX`. -/
theorem decodeDecimalLoop_digit {plat : Platform} {c : UInt8} (hc : isDigit c = true)
    (str : Bytes) (acc : Nat) :
    decodeDecimalLoop plat (c :: str) acc =
      if plat.ulong.max < acc * 10 + digit c then none
      else decodeDecimalLoop plat str (acc * 10 + digit c) := by
  have hnot : ¬ (charToInt plat c < 48 ∨ 57 < charToInt plat c) := by
    rw [not_digit_iff]
    simp [hc]
  have hlt := digit_lt_ten hc
  rw [decodeDecimalLoop]
  simp only [hnot, if_false, charToInt_sub_of_digit plat hc]
  by_cases hover : plat.ulong.max < acc * 10 + digit c
  · by_cases hdiv : plat.ulong.max / 10 < acc
    · simp [hdiv, hover]
    · have hsub : plat.ulong.max - acc * 10 < digit c := by omega
      simp [hdiv, hsub, hover]
  · have hdiv : ¬ plat.ulong.max / 10 < acc := by omega
    have hsub : ¬ plat.ulong.max - acc * 10 < digit c := by omega
    simp [hdiv, hsub, hover]

theorem decodeDecimalLoop_sound {plat : Platform} {str rest : Bytes} {acc v : Nat}
    (hacc : acc ≤ plat.ulong.max) (h : decodeDecimalLoop plat str acc = some (v, rest)) :
    ∃ ds, str = ds ++ rest ∧ (∀ c ∈ ds, isDigit c = true) ∧ StopsAt isDigit rest ∧
      valueFrom 10 acc ds = v ∧ v ≤ plat.ulong.max := by
  induction str generalizing acc with
  | nil =>
      simp only [decodeDecimalLoop, Option.some.injEq, Prod.mk.injEq] at h
      rcases h with ⟨rfl, rfl⟩
      exact ⟨[], rfl, by simp, stopsAt_nil _, rfl, hacc⟩
  | cons c str ih =>
      by_cases hc : isDigit c = true
      · rw [decodeDecimalLoop_digit hc] at h
        by_cases hover : plat.ulong.max < acc * 10 + digit c
        · simp [hover] at h
        · rw [if_neg hover] at h
          rcases ih (Nat.le_of_not_lt hover) h with ⟨ds, rfl, hds, hstop, hv, hle⟩
          refine ⟨c :: ds, rfl, ?_, hstop, hv, hle⟩
          intro x hx
          rcases List.mem_cons.1 hx with rfl | hx
          · exact hc
          · exact hds x hx
      · have hstop : StopsAt isDigit (c :: str) := stopsAt_cons.2 (by simpa using hc)
        rw [decodeDecimalLoop_stop hstop] at h
        simp only [Option.some.injEq, Prod.mk.injEq] at h
        rcases h with ⟨rfl, rfl⟩
        exact ⟨[], rfl, by simp, hstop, rfl, hacc⟩

theorem decodeDecimalLoop_complete {plat : Platform} {ds rest : Bytes} {acc : Nat}
    (hds : ∀ c ∈ ds, isDigit c = true) (hrest : StopsAt isDigit rest)
    (hle : valueFrom 10 acc ds ≤ plat.ulong.max) :
    decodeDecimalLoop plat (ds ++ rest) acc = some (valueFrom 10 acc ds, rest) := by
  induction ds generalizing acc with
  | nil => simpa using decodeDecimalLoop_stop hrest acc
  | cons c ds ih =>
      have hc : isDigit c = true := hds c (by simp)
      rw [valueFrom_cons] at hle
      have hstep : acc * 10 + digit c ≤ plat.ulong.max :=
        Nat.le_trans (le_valueFrom (by decide) _ ds) hle
      rw [List.cons_append, decodeDecimalLoop_digit hc, if_neg (Nat.not_lt.2 hstep), valueFrom_cons]
      exact ih (fun x hx => hds x (by simp [hx])) hle

/-- The comparison of pointers after the loop rejects exactly the runs that are not canonical: the
empty one, and a leading zero in front of another digit. -/
theorem canonical_iff_pointers {ds : Bytes} (hds : ∀ c ∈ ds, isDigit c = true) (rest : Bytes) :
    Canonical ds ↔ ¬ (rest.length = (ds ++ rest).length ∨
      ((ds ++ rest).head? = some 48 ∧ rest.length + 1 ≠ (ds ++ rest).length)) := by
  cases ds with
  | nil =>
      refine ⟨fun h => absurd rfl h.ne_nil, fun h => ?_⟩
      simp at h
  | cons c ds =>
      have hlen : rest.length ≠ (c :: ds ++ rest).length := by
        simp only [List.length_append, List.length_cons]
        omega
      have hlen' : rest.length + 1 ≠ (c :: ds ++ rest).length ↔ ds ≠ [] := by
        simp only [← List.length_pos_iff, List.length_append, List.length_cons]
        omega
      rw [hlen']
      constructor
      · rintro hcanon (heq | ⟨hhead, hne⟩)
        · exact hlen heq
        · exact hne (List.cons.inj (hcanon.leading_zero (by simpa using hhead))).2
      · intro h
        refine ⟨by simp, hds, fun hhead => ?_⟩
        have hnil : ds = [] := by
          by_contra hne
          exact h (Or.inr ⟨by simpa using hhead, hne⟩)
        rw [hnil, show c = 48 by simpa using hhead]

theorem decodeDecimal_eq_some_iff {plat : Platform} {str rest : Bytes} {v : Nat} :
    decodeDecimal plat str = some (v, rest) ↔
      ∃ ds, str = ds ++ rest ∧ StopsAt isDigit rest ∧ Canonical ds ∧ value 10 ds = v ∧
        v ≤ plat.ulong.max := by
  constructor
  · intro h
    cases hloop : decodeDecimalLoop plat str 0 with
    | none => simp [decodeDecimal, hloop] at h
    | some r =>
        rcases r with ⟨acc, rest'⟩
        rcases decodeDecimalLoop_sound (Nat.zero_le _) hloop with ⟨ds, rfl, hds, hstop, hv, hle⟩
        simp only [decodeDecimal, hloop] at h
        split at h
        · cases h
        · rename_i hpointers
          simp only [Option.some.injEq, Prod.mk.injEq] at h
          rcases h with ⟨rfl, rfl⟩
          exact ⟨ds, rfl, hstop, (canonical_iff_pointers hds _).2 hpointers, hv, hle⟩
  · rintro ⟨ds, rfl, hstop, hcanon, rfl, hle⟩
    have hloop : decodeDecimalLoop plat (ds ++ rest) 0 = some (value 10 ds, rest) :=
      decodeDecimalLoop_complete hcanon.digits hstop hle
    simp only [decodeDecimal, hloop]
    rw [if_neg ((canonical_iff_pointers hcanon.digits rest).1 hcanon)]

/-! ## `DECIMAL_U32` -/

theorem uint32Max_le_ulong (plat : Platform) : uint32Max ≤ plat.ulong.max := by
  cases h : plat.ulong <;> simp [uint32Max, Width.max, Width.bits]

theorem decimalU32_eq_ok_iff {plat : Platform} {str rest : Bytes} {v : UInt32} :
    decimalU32 plat str = .ok (v, rest) ↔
      ∃ ds, str = ds ++ rest ∧ StopsAt isDigit rest ∧ Canonical ds ∧ value 10 ds = v.toNat := by
  have hmax := uint32Max_le_ulong plat
  constructor
  · intro h
    cases hdec : decodeDecimal plat str with
    | none => simp [decimalU32, hdec] at h
    | some r =>
        rcases r with ⟨decX, rest'⟩
        simp only [decimalU32, hdec] at h
        split at h
        · cases h
        · rename_i hle
          simp only [Except.ok.injEq, Prod.mk.injEq] at h
          rcases h with ⟨rfl, rfl⟩
          rcases decodeDecimal_eq_some_iff.1 hdec with ⟨ds, hstr, hstop, hcanon, hv, _⟩
          refine ⟨ds, hstr, hstop, hcanon, ?_⟩
          rw [hv, UInt32.toNat_ofNat']
          simp only [uint32Max] at hle
          omega
  · rintro ⟨ds, rfl, hstop, hcanon, hv⟩
    have hlt := v.toNat_lt
    have hle : ¬ uint32Max < v.toNat := by
      simp only [uint32Max]
      omega
    have hdec : decodeDecimal plat (ds ++ rest) = some (v.toNat, rest) :=
      decodeDecimal_eq_some_iff.2 ⟨ds, rfl, hstop, hcanon, hv, by omega⟩
    simp [decimalU32, hdec, hle]

/-! ## `numlen` -/

theorem numlenLoop_eq (num len : Nat) : numlenLoop num len + 1 = (print num).length + len := by
  induction num using Nat.strongRecOn generalizing len with
  | ind num ih =>
      by_cases h : num < 10
      · rw [numlenLoop, if_neg (Nat.not_le.2 h), print_of_lt h]
        simp
        omega
      · have hle : 10 ≤ num := Nat.le_of_not_lt h
        have hrec := ih (num / 10) (by omega) (len + 1)
        rw [numlenLoop, if_pos hle, hrec, print_of_le hle]
        simp
        omega

/-- `numlen` counts the digits that are printed. -/
theorem numlen_eq (num : UInt32) : numlen num = (print num.toNat).length := by
  have h := numlenLoop_eq num.toNat 1
  rw [numlen]
  omega

end Argon2id
