import Mathlib.Data.List.Basic

/-!
# Fallible — programs that may fail, and bounded writers

A program in `Except ε` succeeds in a chain of steps exactly when every step does
(`bind_eq_ok_iff`).  On top of that, `Appends` is the specification of one step of a writer with a
bounded buffer: the step appends a text, and it succeeds exactly when the text leaves room for one
more unit.  `Framed` says that a step has no effect outside the state it needs to succeed.  Both
compose (`Appends.bind`, `Framed.bind`), so a whole encoder is specified by specifying its steps.
-/

namespace Fallible

variable {α β σ ε : Type}

/-- Inversion of a step: a chain succeeds only through a success of its first part. -/
theorem bind_eq_ok_iff {first : Except ε α} {next : α → Except ε β} {result : β} :
    (first >>= next) = .ok result ↔ ∃ a, first = .ok a ∧ next a = .ok result := by
  constructor
  · intro h
    rcases first with e | a
    · cases h
    · exact ⟨a, rfl, h⟩
  · rintro ⟨a, rfl, hnext⟩
    exact hnext

/-- A check in front of a step. -/
theorem guarded_eq_ok_iff {p : Prop} [Decidable p] {x : Except ε α} {e : ε} {result : α} :
    (if p then .error e else x) = .ok result ↔ ¬ p ∧ x = .ok result := by
  by_cases hp : p
  · simp [hp]
  · simp [hp]

/-- A check whose failure comes last. -/
theorem checked_eq_ok_iff {p : Prop} [Decidable p] {x : Except ε α} {e : ε} {result : α} :
    (if p then x else .error e) = .ok result ↔ p ∧ x = .ok result := by
  by_cases hp : p
  · simp [hp]
  · simp [hp]

/-- Every error of `x` satisfies `P`. -/
def Errors (P : ε → Prop) (x : Except ε α) : Prop :=
  ∀ e, x = .error e → P e

theorem errors_ok (P : ε → Prop) (a : α) : Errors P (.ok a : Except ε α) := by
  intro e h
  cases h

theorem errors_error {P : ε → Prop} {e : ε} (he : P e) : Errors P (.error e : Except ε α) := by
  intro e' h
  cases h
  exact he

theorem Errors.mono {P Q : ε → Prop} {x : Except ε α} (hx : Errors P x) (hPQ : ∀ e, P e → Q e) :
    Errors Q x :=
  fun e h => hPQ e (hx e h)

/-- The errors of a chain are those of its parts. -/
theorem Errors.bind {P : ε → Prop} {first : Except ε α} {next : α → Except ε β}
    (hfirst : Errors P first) (hnext : ∀ a, Errors P (next a)) : Errors P (first >>= next) := by
  intro e h
  cases hx : first with
  | error e' =>
      rw [hx] at h
      cases h
      exact hfirst _ hx
  | ok a =>
      rw [hx] at h
      exact hnext a e h

/-! ## Larger states

`extend` adds something to the state that a step does not know of, such as the memory behind a
buffer. -/

/-- A successful step takes the same course in the extended state, and leaves the extension as it
is. -/
def Framed (extend : σ → σ) (step : σ → Except ε σ) : Prop :=
  ∀ s s', step s = .ok s' → step (extend s) = .ok (extend s')

theorem Framed.bind {extend : σ → σ} {f g : σ → Except ε σ} (hf : Framed extend f)
    (hg : Framed extend g) : Framed extend (fun s => f s >>= g) := by
  intro s s'' hok
  rcases bind_eq_ok_iff.1 hok with ⟨s', hfs, hgs⟩
  exact bind_eq_ok_iff.2 ⟨extend s', hf s s' hfs, hg s' s'' hgs⟩

/-! ## Bounded writers -/

/-- `step` appends `t` to what has been written into a buffer of `size` units, when it leaves room
for one more, and fails otherwise.  `R s text` says that the writer in state `s` has written
`text`. -/
structure Appends (R : σ → List α → Prop) (size : Nat) (step : σ → Except ε σ) (t : List α) :
    Prop where
  room : ∀ {s : σ} {text : List α}, R s text → text.length + t.length < size →
    ∃ s', step s = .ok s' ∧ R s' (text ++ t)
  full : ∀ {s s' : σ} {text : List α}, R s text → size ≤ text.length + t.length → step s ≠ .ok s'

namespace Appends

variable {R : σ → List α → Prop} {size : Nat} {f g : σ → Except ε σ} {t u text : List α} {s s' : σ}

theorem sound (hf : Appends R size f t) (hs : R s text) (hok : f s = .ok s') :
    text.length + t.length < size ∧ R s' (text ++ t) := by
  by_cases hroom : text.length + t.length < size
  · rcases hf.room hs hroom with ⟨s'', hfs, hR⟩
    rw [hfs] at hok
    exact ⟨hroom, Except.ok.inj hok ▸ hR⟩
  · exact absurd hok (hf.full hs (Nat.le_of_not_lt hroom))

/-- Two writers one after the other append both texts. -/
theorem bind (hf : Appends R size f t) (hg : Appends R size g u) :
    Appends R size (fun s => f s >>= g) (t ++ u) where
  room := by
    intro s text hs hroom
    simp only [List.length_append] at hroom
    rcases hf.room hs (by omega) with ⟨s', hfs, hR⟩
    have hroom' : (text ++ t).length + u.length < size := by
      simp only [List.length_append]
      omega
    rcases hg.room hR hroom' with ⟨s'', hgs, hR'⟩
    exact ⟨s'', bind_eq_ok_iff.2 ⟨s', hfs, hgs⟩, by rwa [← List.append_assoc]⟩
  full := by
    intro s s'' text hs hfull hok
    rcases bind_eq_ok_iff.1 hok with ⟨s', hfs, hgs⟩
    have hroom := (hg.sound (hf.sound hs hfs).2 hgs).1
    simp only [List.length_append] at hfull hroom
    omega

end Appends

end Fallible
