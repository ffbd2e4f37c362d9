import Mathlib.Data.List.Basic

/-!
# Streaming — block by block, and always one block behind

A hash that treats its last block in a way of its own cannot process a full block before it knows that
more follows.  `absorb` takes blocks of `B` elements as long as something is left behind them.

- `absorb_append`: data may arrive in any pieces
- `absorb_rel`: a relation that every block preserves is preserved
- `absorb_eq_foldl`: it is a fold over the blocks, whose number is `blocks`
-/

namespace Streaming

variable {σ α : Type}

/-- `while (length > B)`: the state after all but the last block, and the last block. -/
def absorb (B : Nat) (step : σ → List α → σ) (s : σ) (data : List α) : σ × List α :=
  if 0 < B ∧ B < data.length then absorb B step (step s (data.take B)) (data.drop B) else (s, data)
termination_by data.length
decreasing_by
  rw [List.length_drop]
  omega

variable {B : Nat} {step : σ → List α → σ}

theorem absorb_of_lt (hB : 0 < B) {s : σ} {data : List α} (h : B < data.length) :
    absorb B step s data = absorb B step (step s (data.take B)) (data.drop B) := by
  rw [absorb, if_pos ⟨hB, h⟩]

theorem absorb_of_le {s : σ} {data : List α} (h : data.length ≤ B) :
    absorb B step s data = (s, data) := by
  rw [absorb, if_neg fun hlt => Nat.not_lt.2 h hlt.2]

/-- What is absorbed later joins what was left. -/
theorem absorb_append (s : σ) (xs ys : List α) :
    absorb B step s (xs ++ ys) =
      absorb B step (absorb B step s xs).1 ((absorb B step s xs).2 ++ ys) := by
  induction s, xs using absorb.induct B step with
  | case1 s xs h ih =>
      have happend : B < (xs ++ ys).length := by
        rw [List.length_append]
        omega
      rw [absorb_of_lt h.1 happend, List.take_append_of_le_length (Nat.le_of_lt h.2),
        List.drop_append_of_le_length (Nat.le_of_lt h.2), ih, absorb_of_lt h.1 h.2]
  | case2 s xs h =>
      have hleft : absorb B step s xs = (s, xs) := by rw [absorb, if_neg h]
      rw [hleft]

theorem length_absorb_le (hB : 0 < B) (s : σ) (data : List α) :
    (absorb B step s data).2.length ≤ B := by
  induction s, data using absorb.induct B step with
  | case1 s data h ih =>
      rw [absorb_of_lt hB h.2]
      exact ih
  | case2 s data h =>
      have hle : data.length ≤ B := Nat.le_of_not_lt fun hlt => h ⟨hB, hlt⟩
      rw [absorb_of_le hle]
      exact hle

theorem absorb_rel {τ : Type} {next : τ → List α → τ} (R : σ → τ → Prop)
    (hstep : ∀ s t (block : List α), block.length = B → R s t → R (step s block) (next t block))
    {s : σ} {t : τ} (h : R s t) (data : List α) :
    R (absorb B step s data).1 (absorb B next t data).1 ∧
      (absorb B step s data).2 = (absorb B next t data).2 := by
  induction s, data using absorb.induct B step generalizing t with
  | case1 s data hlt ih =>
      rw [absorb_of_lt hlt.1 hlt.2, absorb_of_lt hlt.1 hlt.2]
      exact ih (hstep s t _ (List.length_take_of_le (Nat.le_of_lt hlt.2)) h)
  | case2 s data hle =>
      rw [absorb, if_neg hle, absorb, if_neg hle]
      exact ⟨h, rfl⟩

/-! ## The blocks that are absorbed -/

/-- The number of full blocks with something behind them. -/
def blocks (B n : Nat) : Nat :=
  (n - 1) / B

/-- Block `i` of the data. -/
def block (B : Nat) (data : List α) (i : Nat) : List α :=
  (data.drop (B * i)).take B

theorem blocks_of_le {n : Nat} (hB : 0 < B) (h : n ≤ B) : blocks B n = 0 :=
  Nat.div_eq_of_lt (by omega)

theorem blocks_of_lt {n : Nat} (hB : 0 < B) (h : B < n) : blocks B n = blocks B (n - B) + 1 := by
  rw [blocks, blocks, show n - 1 = (n - B - 1) + B by omega, Nat.add_div_right _ hB]

theorem block_drop (data : List α) (i : Nat) : block B (data.drop B) i = block B data (i + 1) := by
  rw [block, block, List.drop_drop, Nat.mul_add, Nat.mul_one, Nat.add_comm]

theorem absorb_eq_foldl (hB : 0 < B) (s : σ) (data : List α) :
    absorb B step s data =
      ((List.range (blocks B data.length)).foldl (fun s i => step s (block B data i)) s,
        data.drop (B * blocks B data.length)) := by
  induction s, data using absorb.induct B step with
  | case1 s data h ih =>
      have hfirst : block B data 0 = data.take B := by rw [block, Nat.mul_zero, List.drop_zero]
      rw [absorb_of_lt hB h.2, ih, List.length_drop, blocks_of_lt hB h.2, List.range_succ_eq_map,
        List.foldl_cons, List.foldl_map, hfirst, List.drop_drop, Nat.mul_add, Nat.mul_one,
        Nat.add_comm B]
      simp only [block_drop, Nat.succ_eq_add_one]
  | case2 s data h =>
      have hle : data.length ≤ B := Nat.le_of_not_lt fun hlt => h ⟨hB, hlt⟩
      rw [absorb_of_le hle, blocks_of_le hB hle]
      rfl

end Streaming
