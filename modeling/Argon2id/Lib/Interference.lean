import Mathlib.Data.List.Basic

/-!
# Interference — programs on a state that others change

A program in `Prog` works on a shared state.  At the points it marks with `interfere`, others act on
that state: each point takes one turn off a schedule, and a turn is any list of actions.  What holds
for every schedule holds for every interleaving of the program with the others.

`Ensures P x Q` is the triple for these programs: whatever the schedule, a run of `x` from a state
with `P` ends with `Q`, also when it ends with an error.  Assertions do not speak about the schedule,
so a fact survives a turn exactly because no action destroys it (`Stable`, `Keeps.interfere`).
-/

namespace Interference

variable {κ σ τ ε α β : Type}

/-- The actions that others may take on a shared state. -/
class Acts (κ σ : Type) where
  act : κ → σ → σ

/-- The shared state, the turns that others are still going to take, and the record the program
keeps of what it has done. -/
structure World (κ σ τ : Type) where
  shared : σ
  turns : List (List κ)
  trace : List τ

/-- A program: it ends with a value or an error, and either way leaves a world behind. -/
def Prog (κ σ τ ε α : Type) : Type :=
  World κ σ τ → Except ε α × World κ σ τ

namespace Prog

def pure (a : α) : Prog κ σ τ ε α :=
  fun w => (.ok a, w)

def bind (x : Prog κ σ τ ε α) (f : α → Prog κ σ τ ε β) : Prog κ σ τ ε β :=
  fun w =>
    match x w with
    | (.ok a, w') => f a w'
    | (.error e, w') => (.error e, w')

instance : Monad (Prog κ σ τ ε) where
  pure := Prog.pure
  bind := Prog.bind

section Runs

variable {x : Prog κ σ τ ε α} {f : α → Prog κ σ τ ε β} {w w' : World κ σ τ}

/-- A run that goes on after its first part. -/
theorem bind_ok {a : α} (h : x w = (.ok a, w')) : (x >>= f) w = f a w' := by
  change bind x f w = _
  rw [bind, h]

/-- A run that ends with its first part. -/
theorem bind_error {e : ε} (h : x w = (.error e, w')) : (x >>= f) w = (.error e, w') := by
  change bind x f w = _
  rw [bind, h]

end Runs

end Prog

/-! ## Steps -/

def raise (e : ε) : Prog κ σ τ ε α :=
  fun w => (.error e, w)

/-- The result of a computation that does not touch the state. -/
def lift (x : Except ε α) : Prog κ σ τ ε α :=
  fun w => (x, w)

def shared : Prog κ σ τ ε σ :=
  fun w => (.ok w.shared, w)

def update (f : σ → σ) : Prog κ σ τ ε Unit :=
  fun w => (.ok (), { w with shared := f w.shared })

def record (e : τ) : Prog κ σ τ ε Unit :=
  fun w => (.ok (), { w with trace := w.trace ++ [e] })

section Acting

variable [Acts κ σ]

/-- Actions one after the other. -/
def actAll (script : List κ) (s : σ) : σ :=
  script.foldl (fun s a => Acts.act a s) s

/-- The actions of code that the program calls. -/
def perform (script : List κ) : Prog κ σ τ ε Unit :=
  update (actAll script)

/-- A point where others may act: the next turn is theirs. -/
def interfere : Prog κ σ τ ε Unit :=
  fun w =>
    match w.turns with
    | [] => (.ok (), w)
    | turn :: turns => (.ok (), { w with shared := actAll turn w.shared, turns := turns })

theorem interfere_run (s : σ) (turns : List (List κ)) (t : List τ) :
    (interfere : Prog κ σ τ ε Unit) ⟨s, turns, t⟩ =
      (.ok (), ⟨actAll (turns.headD []) s, turns.tail, t⟩) := by
  cases turns with
  | nil => rfl
  | cons turn turns => rfl

end Acting

/-! ## Triples -/

/-- Whatever the schedule, a run of `x` from a state and a record with `P` ends with `Q`. -/
def Ensures (P : σ → List τ → Prop) (x : Prog κ σ τ ε α)
    (Q : Except ε α → σ → List τ → Prop) : Prop :=
  ∀ w : World κ σ τ, P w.shared w.trace → Q (x w).1 (x w).2.shared (x w).2.trace

variable {P P' : σ → List τ → Prop} {Q Q' : Except ε α → σ → List τ → Prop}

theorem Ensures.weaken {x : Prog κ σ τ ε α} (hx : Ensures P x Q) (hP : ∀ s t, P' s t → P s t)
    (hQ : ∀ r s t, Q r s t → Q' r s t) : Ensures P' x Q' :=
  fun w hw => hQ _ _ _ (hx w (hP _ _ hw))

theorem Ensures.pure {a : α} (h : ∀ s t, P s t → Q (.ok a) s t) :
    Ensures P (Pure.pure a : Prog κ σ τ ε α) Q :=
  fun _ hw => h _ _ hw

theorem Ensures.raise {e : ε} (h : ∀ s t, P s t → Q (.error e) s t) :
    Ensures P (raise e : Prog κ σ τ ε α) Q :=
  fun _ hw => h _ _ hw

theorem Ensures.lift {x : Except ε α} (h : ∀ s t, P s t → Q x s t) :
    Ensures P (lift x : Prog κ σ τ ε α) Q :=
  fun _ hw => h _ _ hw

/-- One program after the other: an error of the first is the error of the whole. -/
theorem Ensures.bind {x : Prog κ σ τ ε α} {f : α → Prog κ σ τ ε β}
    {R : Except ε β → σ → List τ → Prop} (hx : Ensures P x Q)
    (hok : ∀ a, Ensures (Q (.ok a)) (f a) R) (herror : ∀ e s t, Q (.error e) s t → R (.error e) s t) :
    Ensures P (x >>= f) R := by
  intro w hw
  have hfirst := hx w hw
  change R (Prog.bind x f w).1 (Prog.bind x f w).2.shared (Prog.bind x f w).2.trace
  rw [Prog.bind]
  rcases hrun : x w with ⟨r, w'⟩
  rw [hrun] at hfirst
  cases r with
  | ok a => exact hok a w' hfirst
  | error e => exact herror e _ _ hfirst

/-- Whatever the schedule, `x` ends with the value `a`, and what held before it holds after it. -/
def Keeps (P : σ → List τ → Prop) (x : Prog κ σ τ ε α) (a : α) : Prop :=
  Ensures P x fun r s t => r = .ok a ∧ P s t

theorem Keeps.pure (a : α) : Keeps P (Pure.pure a : Prog κ σ τ ε α) a :=
  Ensures.pure fun _ _ h => ⟨rfl, h⟩

/-- A step with a known value, and the program after it. -/
theorem Keeps.step {a : α} {x : Prog κ σ τ ε α} {f : α → Prog κ σ τ ε β}
    {R : Except ε β → σ → List τ → Prop} (hx : Keeps P x a) (hf : Ensures P (f a) R) :
    Ensures P (x >>= f) R := by
  refine Ensures.bind hx (fun a' => ?_) ?_
  · rintro w ⟨hr, hw⟩
    obtain rfl := Except.ok.inj hr
    exact hf w hw
  · rintro e s t ⟨hr, _⟩
    cases hr

theorem Keeps.bind {a : α} {b : β} {x : Prog κ σ τ ε α} {f : α → Prog κ σ τ ε β}
    (hx : Keeps P x a) (hf : Keeps P (f a) b) : Keeps P (x >>= f) b :=
  hx.step hf

theorem Keeps.ite {p : Prop} [Decidable p] {a b : α} {x y : Prog κ σ τ ε α}
    (hx : p → Keeps P x a) (hy : ¬ p → Keeps P y b) :
    Keeps P (if p then x else y) (if p then a else b) := by
  by_cases hp : p
  · rw [if_pos hp, if_pos hp]
    exact hx hp
  · rw [if_neg hp, if_neg hp]
    exact hy hp

/-- What does not depend on the state can be used as a hypothesis. -/
theorem Ensures.assume {p : Prop} {x : Prog κ σ τ ε α} (hx : p → Ensures P x Q) :
    Ensures (fun s t => p ∧ P s t) x Q :=
  fun w hw => hx hw.1 w hw.2

section Acting

variable [Acts κ σ]

/-- No action of others destroys the fact. -/
def Stable (κ : Type) [Acts κ σ] (P : σ → List τ → Prop) : Prop :=
  ∀ (a : κ) (s : σ) (t : List τ), P s t → P (Acts.act a s) t

/-- One action preserves a stable fact, and so do any number of them. -/
theorem Stable.actAll (hP : Stable κ P) (script : List κ) {s : σ} {t : List τ} (h : P s t) :
    P (actAll script s) t := by
  induction script generalizing s with
  | nil => exact h
  | cons a script ih => exact ih (hP a s t h)

theorem Keeps.perform (hP : Stable κ P) (script : List κ) :
    Keeps P (perform script : Prog κ σ τ ε Unit) () :=
  fun _ hw => ⟨rfl, hP.actAll script hw⟩

/-- The rule for interference: a stable fact survives every turn. -/
theorem Keeps.interfere (hP : Stable κ P) : Keeps P (interfere : Prog κ σ τ ε Unit) () := by
  intro w hw
  rcases w with ⟨s, turns, t⟩
  cases turns with
  | nil => exact ⟨rfl, hw⟩
  | cons turn turns => exact ⟨rfl, hP.actAll turn hw⟩

end Acting

end Interference
