import Mathlib.Data.Finite.Defs
import Mathlib.Data.Fintype.EquivFin
import Mathlib.Data.Vector.Defs

/-!
# Mixing — permutations that are computed in place

A mixing function changes one word at a time, each by a bijection that may depend on another word.  Each
such step is a bijection of the whole state (`bijective_set`), so their composition is one, however many
rounds there are (`bijective_foldl`).
-/

namespace Mixing

variable {α : Type} {n : Nat}

/-- One word changes, in a way that depends on one of the others. -/
theorem bijective_set {i j : Fin n} (hij : i ≠ j) {f : α → α → α}
    (hf : ∀ y, Function.Bijective fun x => f x y) :
    Function.Bijective fun v : Vector α n => v.set i (f v[i] v[j]) := by
  have hne : i.val ≠ j.val := fun h => hij (Fin.ext h)
  constructor
  · intro v w h
    have hat : ∀ k : Nat, (hk : k < n) →
        (v.set i (f v[i] v[j]))[k] = (w.set i (f w[i] w[j]))[k] := fun k hk =>
      congrArg (fun u : Vector α n => u[k]) h
    have hother : ∀ k : Nat, (hk : k < n) → i.val ≠ k → v[k] = w[k] := by
      intro k hk hik
      have hk' := hat k hk
      rwa [Vector.getElem_set_ne i.isLt hk hik, Vector.getElem_set_ne i.isLt hk hik] at hk'
    have hself := hat i i.isLt
    rw [Vector.getElem_set_self, Vector.getElem_set_self] at hself
    have hj : v[j] = w[j] := hother j j.isLt hne
    rw [hj] at hself
    have hi : v[i] = w[i] := (hf w[j]).injective hself
    refine Vector.ext fun k hk => ?_
    by_cases hik : i.val = k
    · subst hik
      exact hi
    · exact hother k hk hik
  · intro w
    rcases (hf w[j]).surjective w[i] with ⟨x, hx⟩
    refine ⟨w.set i x, Vector.ext fun k hk => ?_⟩
    have hself : (w.set i x)[i] = x := Vector.getElem_set_self i.isLt
    have hj : (w.set i x)[j] = w[j] := Vector.getElem_set_ne i.isLt j.isLt hne
    dsimp only
    rw [hself, hj]
    by_cases hik : i.val = k
    · subst hik
      rw [Vector.getElem_set_self]
      exact hx
    · rw [Vector.getElem_set_ne i.isLt hk hik, Vector.getElem_set_ne i.isLt hk hik]

/-- Rounds one after the other. -/
theorem bijective_foldl {σ β : Type} {f : σ → β → σ} {l : List β}
    (h : ∀ b ∈ l, Function.Bijective fun s => f s b) :
    Function.Bijective fun s => l.foldl f s := by
  induction l with
  | nil => exact Function.bijective_id
  | cons b l ih =>
      have hrest := ih fun c hc => h c (List.mem_cons_of_mem b hc)
      exact hrest.comp (h b (List.mem_cons_self ..))

end Mixing
