import Mathlib.Data.List.Basic

/-!
# Scan — maximal munch

A scanner that reads as many characters of a class as it can splits its input into a run of the
class and a rest that does not go on with it.  The split exists (`exists_munch`) and is unique
(`munch_unique`), which is what makes two independent scanners of one format agree.
-/

namespace Scan

variable {α : Type}

/-- `rest` does not begin with a character of the class `p`. -/
def StopsAt (p : α → Bool) (rest : List α) : Prop :=
  ∀ a ∈ rest.head?, p a = false

theorem stopsAt_nil (p : α → Bool) : StopsAt p [] := by
  simp [StopsAt]

theorem stopsAt_cons {p : α → Bool} {a : α} {rest : List α} :
    StopsAt p (a :: rest) ↔ p a = false := by
  simp [StopsAt]

/-- Every input begins with a longest run of a class. -/
theorem exists_munch (p : α → Bool) (i : List α) :
    ∃ u rest, i = u ++ rest ∧ (∀ a ∈ u, p a = true) ∧ StopsAt p rest := by
  induction i with
  | nil => exact ⟨[], [], rfl, by simp, stopsAt_nil p⟩
  | cons a i ih =>
      by_cases ha : p a = true
      · rcases ih with ⟨u, rest, rfl, hu, hrest⟩
        refine ⟨a :: u, rest, rfl, ?_, hrest⟩
        intro x hx
        rcases List.mem_cons.1 hx with rfl | hx
        · exact ha
        · exact hu x hx
      · exact ⟨[], a :: i, rfl, by simp, stopsAt_cons.2 (by simpa using ha)⟩

/-- A run of a class followed by something else can be cut in one place only. -/
theorem munch_unique {p : α → Bool} :
    ∀ {u u' rest rest' : List α},
      (∀ a ∈ u, p a = true) → (∀ a ∈ u', p a = true) → StopsAt p rest → StopsAt p rest' →
        u ++ rest = u' ++ rest' → u = u' ∧ rest = rest'
  | [], [], _, _, _, _, _, _, h => ⟨rfl, by simpa using h⟩
  | [], a :: u', rest, rest', _, hu', hrest, _, h => by
      -- the longer run would begin in the rest of the other one
      have hstop : p a = false := by
        apply hrest
        rw [show rest = a :: (u' ++ rest') by simpa using h]
        simp
      have hgo : p a = true := hu' a (by simp)
      simp [hgo] at hstop
  | a :: u, [], rest, rest', hu, _, _, hrest', h => by
      have hstop : p a = false := by
        apply hrest'
        rw [show rest' = a :: (u ++ rest) by simpa using h.symm]
        simp
      have hgo : p a = true := hu a (by simp)
      simp [hgo] at hstop
  | a :: u, b :: u', rest, rest', hu, hu', hrest, hrest', h => by
      have hcons : a = b ∧ u ++ rest = u' ++ rest' := by simpa using h
      have htail := munch_unique (fun x hx => hu x (by simp [hx])) (fun x hx => hu' x (by simp [hx]))
        hrest hrest' hcons.2
      exact ⟨by rw [hcons.1, htail.1], htail.2⟩

end Scan
