import Mathlib.Data.Set.Function
import Mathlib.Data.Set.Insert
import Mathlib.Logic.Function.Basic

/-!
# SharedMemory — programs that read and write cells

A program in `Prog` is a tree of single accesses to a memory, so that several programs on one memory
can be interleaved access by access.

- `Prog.run` runs a program alone
- `Within W T Q p S`: whatever it reads, `p` writes only cells of `W`, reads only cells of `S` and those
  it has written before, has written or may read all of `T` in the end, and returns a value in `Q`
- `Oblivious tr Q p`: whatever it reads, `p` makes the accesses `tr`
- `Prog.runArray` runs a program on an array, where an access out of bounds is an error
-/

namespace SharedMemory

variable {ι V α β σ : Type}

/-! ## Programs -/

/-- A program on cells `ι` that hold values `V`. -/
inductive Prog (ι V α : Type) : Type
  | ret (a : α)
  | read (i : ι) (k : V → Prog ι V α)
  | write (i : ι) (v : V) (k : Prog ι V α)

namespace Prog

def bind : Prog ι V α → (α → Prog ι V β) → Prog ι V β
  | ret a, f => f a
  | read i k, f => read i fun v => (k v).bind f
  | write i v k, f => write i v (k.bind f)

instance : Monad (Prog ι V) where
  pure := ret
  bind := bind

end Prog

def get (i : ι) : Prog ι V V :=
  .read i .ret

def set (i : ι) (v : V) : Prog ι V Unit :=
  .write i v (.ret ())

/-- `for (j = i; j < i + n; ++j)`, on the local variables of the loop. -/
def loop (body : Nat → σ → Prog ι V σ) : Nat → Nat → σ → Prog ι V σ
  | _, 0, s => pure s
  | i, n + 1, s => do
      let s ← body i s
      loop body (i + 1) n s

/-! ## Running alone -/

section Run

variable [DecidableEq ι]

def Prog.run : Prog ι V α → (ι → V) → α × (ι → V)
  | .ret a, m => (a, m)
  | .read i k, m => (k (m i)).run m
  | .write i v k, m => k.run (Function.update m i v)

@[simp] theorem run_pure (a : α) (m : ι → V) : (pure a : Prog ι V α).run m = (a, m) := rfl

@[simp] theorem run_get (i : ι) (m : ι → V) : (get i).run m = (m i, m) := rfl

@[simp] theorem run_set (i : ι) (v : V) (m : ι → V) :
    (set i v).run m = ((), Function.update m i v) := rfl

@[simp] theorem run_bind (p : Prog ι V α) (f : α → Prog ι V β) (m : ι → V) :
    (p >>= f).run m = (f (p.run m).1).run (p.run m).2 := by
  change (p.bind f).run m = _
  induction p generalizing m with
  | ret a => rfl
  | read i k ih => exact ih (m i) m
  | write i v k ih => exact ih (Function.update m i v)

/-- What one iteration preserves, the loop preserves. -/
theorem run_loop {body : Nat → σ → Prog ι V σ} {I : Nat → σ → (ι → V) → Prop} {i n : Nat}
    (hbody : ∀ j s m, i ≤ j → j < i + n → I j s m →
      I (j + 1) ((body j s).run m).1 ((body j s).run m).2) {s : σ} {m : ι → V} (h : I i s m) :
    I (i + n) ((loop body i n s).run m).1 ((loop body i n s).run m).2 := by
  induction n generalizing i s m with
  | zero => exact h
  | succ n ih =>
      rw [loop, run_bind]
      have hfirst := hbody i s m (Nat.le_refl i) (by omega) h
      have hrest := ih (fun j s m hij hj => hbody j s m (by omega) (by omega)) hfirst
      rwa [show i + 1 + n = i + (n + 1) by omega] at hrest

/-- A loop that leaves the memory as it is computes its local variables. -/
theorem run_loop_of_run {body : Nat → σ → Prog ι V σ} {f : Nat → σ → σ} {i n : Nat} {m : ι → V}
    (h : ∀ j s, i ≤ j → j < i + n → (body j s).run m = (f j s, m)) {s : σ} :
    (loop body i n s).run m = ((List.range' i n).foldl (fun s j => f j s) s, m) := by
  induction n generalizing i s with
  | zero => rfl
  | succ n ih =>
      rw [loop, run_bind, h i s (Nat.le_refl i) (by omega), List.range'_succ, List.foldl_cons]
      exact ih fun j s hij hj => h j s (by omega) (by omega)

/-- A loop without local variables runs its body for one index after the other. -/
theorem run_loop_eq_foldl (body : Nat → Prog ι V Unit) (i n : Nat) (m : ι → V) :
    ((loop (fun j _ => body j) i n ()).run m).2 =
      (List.range' i n).foldl (fun m j => ((body j).run m).2) m := by
  induction n generalizing i m with
  | zero => rfl
  | succ n ih =>
      rw [loop, run_bind, List.range'_succ, List.foldl_cons]
      exact ih (i + 1) _

end Run

/-! ## What a program accesses -/

/-- Whatever the values it reads, the program writes only `W`, reads only `S` and what it has written
before; in the end all of `T` is in `S` or has been written, and `Q` holds of the result. -/
def Within (W T : Set ι) (Q : α → Prop) : Prog ι V α → Set ι → Prop
  | .ret a, S => T ⊆ S ∧ Q a
  | .read i k, S => i ∈ S ∧ ∀ v, Within W T Q (k v) S
  | .write i _ k, S => i ∈ W ∧ Within W T Q k (insert i S)

section Within

variable {W W' S S' T T' U : Set ι} {Q Q' : α → Prop} {R : β → Prop} {p : Prog ι V α}

theorem Within.mono (h : Within W T Q p S) (hW : W ⊆ W') (hS : S ⊆ S') (hT : T' ⊆ T)
    (hQ : ∀ a, Q a → Q' a) : Within W' T' Q' p S' := by
  induction p generalizing S S' with
  | ret a => exact ⟨hT.trans (h.1.trans hS), hQ a h.2⟩
  | read i k ih => exact ⟨hS h.1, fun v => ih v (h.2 v) hS⟩
  | write i v k ih => exact ⟨hW h.1, ih h.2 (Set.insert_subset_insert hS)⟩

/-- What else could be read before can still be read afterwards. -/
theorem Within.frame (h : Within W T Q p S) (U : Set ι) : Within W (T ∪ U) Q p (S ∪ U) := by
  induction p generalizing S with
  | ret a => exact ⟨Set.union_subset_union_left U h.1, h.2⟩
  | read i k ih => exact ⟨Or.inl h.1, fun v => ih v (h.2 v)⟩
  | write i v k ih =>
      refine ⟨h.1, ?_⟩
      rw [← Set.insert_union]
      exact ih h.2

theorem Within.pure {a : α} (hT : T ⊆ S) (hQ : Q a) :
    Within W T Q (Pure.pure a : Prog ι V α) S :=
  ⟨hT, hQ⟩

theorem Within.get {Q : V → Prop} {i : ι} (h : i ∈ S) (hQ : ∀ v, Q v) :
    Within W S Q (get i : Prog ι V V) S :=
  ⟨h, fun v => ⟨Set.Subset.refl S, hQ v⟩⟩

theorem Within.set {Q : Unit → Prop} {i : ι} (v : V) (h : i ∈ W) (hQ : Q ()) :
    Within W (insert i S) Q (set i v) S :=
  ⟨h, Set.Subset.refl _, hQ⟩

theorem Within.bind {f : α → Prog ι V β} (hp : Within W T Q p S)
    (hf : ∀ a, Q a → Within W U R (f a) T) : Within W U R (p >>= f) S := by
  change Within W U R (p.bind f) S
  induction p generalizing S with
  | ret a => exact (hf a hp.2).mono (Set.Subset.refl W) hp.1 (Set.Subset.refl U) fun _ h => h
  | read i k ih => exact ⟨hp.1, fun v => ih v (hp.2 v)⟩
  | write i v k ih => exact ⟨hp.1, ih hp.2⟩

/-- `K j` is what may be read at the start of iteration `j`, and `I j` holds of the local variables. -/
theorem Within.loop {body : Nat → σ → Prog ι V σ} {K : Nat → Set ι} {I : Nat → σ → Prop} {i n : Nat}
    (hbody : ∀ j s, i ≤ j → j < i + n → I j s → Within W (K (j + 1)) (I (j + 1)) (body j s) (K j))
    {s : σ} (hs : I i s) :
    Within W (K (i + n)) (I (i + n)) (SharedMemory.loop body i n s) (K i) := by
  induction n generalizing i s with
  | zero => exact Within.pure (Set.Subset.refl _) hs
  | succ n ih =>
      have hrest : ∀ s, I (i + 1) s → Within W (K (i + 1 + n)) (I (i + 1 + n))
          (SharedMemory.loop body (i + 1) n s) (K (i + 1)) :=
        fun s => ih fun j s hij hj => hbody j s (by omega) (by omega)
      rw [show i + 1 + n = i + (n + 1) by omega] at hrest
      exact (hbody i s (Nat.le_refl i) (by omega) hs).bind hrest

section Run

variable [DecidableEq ι]

/-- What a program does not write stays. -/
theorem Within.run_of_not_mem (h : Within W T Q p S) (m : ι → V) {i : ι} (hi : i ∉ W) :
    (p.run m).2 i = m i := by
  induction p generalizing S m with
  | ret a => rfl
  | read j k ih => exact ih (m j) (h.2 _) m
  | write j v k ih =>
      have hne : i ≠ j := fun heq => hi (heq ▸ h.1)
      have hrest := ih h.2 (Function.update m j v)
      rwa [Function.update_of_ne hne] at hrest

/-- Writing a cell that a program does not use commutes with the program. -/
theorem Within.run_update (h : Within W T Q p S) {i : ι} (hS : i ∉ S) (hW : i ∉ W) (m : ι → V)
    (v : V) : p.run (Function.update m i v) =
      ((p.run m).1, Function.update (p.run m).2 i v) := by
  induction p generalizing S m with
  | ret a => rfl
  | read j k ih =>
      have hne : j ≠ i := fun heq => hS (heq ▸ h.1)
      rw [Prog.run, Prog.run, Function.update_of_ne hne]
      exact ih (m j) (h.2 _) hS m
  | write j w k ih =>
      have hne : i ≠ j := fun heq => hW (heq ▸ h.1)
      have hS' : i ∉ insert j S := fun hmem => hmem.elim hne hS
      rw [Prog.run, Prog.run, Function.update_comm hne]
      exact ih h.2 hS' (Function.update m j w)

end Run

end Within

/-! ## Accesses that do not depend on the memory -/

/-- The cells that a run accesses, in order, and whether it writes them. -/
def Prog.trace [DecidableEq ι] : Prog ι V α → (ι → V) → List (ι × Bool)
  | .ret _, _ => []
  | .read i k, m => (i, false) :: (k (m i)).trace m
  | .write i v k, m => (i, true) :: k.trace (Function.update m i v)

theorem trace_bind [DecidableEq ι] (p : Prog ι V α) (f : α → Prog ι V β) (m : ι → V) :
    (p >>= f).trace m = p.trace m ++ (f (p.run m).1).trace (p.run m).2 := by
  change (p.bind f).trace m = _
  induction p generalizing m with
  | ret a => rfl
  | read i k ih => exact congrArg (List.cons _) (ih (m i) m)
  | write i v k ih => exact congrArg (List.cons _) (ih (Function.update m i v))

/-- Whatever the values it reads, the program makes the accesses `tr`, and `Q` holds of the result. -/
def Oblivious (Q : α → Prop) : Prog ι V α → List (ι × Bool) → Prop
  | .ret a, tr => tr = [] ∧ Q a
  | .read i k, tr => ∃ tr', tr = (i, false) :: tr' ∧ ∀ v, Oblivious Q (k v) tr'
  | .write i _ k, tr => ∃ tr', tr = (i, true) :: tr' ∧ Oblivious Q k tr'

section Oblivious

variable {Q : α → Prop} {R : β → Prop} {p : Prog ι V α} {tr tr' : List (ι × Bool)}

theorem Oblivious.pure {a : α} (hQ : Q a) : Oblivious Q (Pure.pure a : Prog ι V α) [] :=
  ⟨rfl, hQ⟩

theorem Oblivious.get {Q : V → Prop} (i : ι) (hQ : ∀ v, Q v) :
    Oblivious Q (get i : Prog ι V V) [(i, false)] :=
  ⟨[], rfl, fun v => ⟨rfl, hQ v⟩⟩

theorem Oblivious.set {Q : Unit → Prop} (i : ι) (v : V) (hQ : Q ()) :
    Oblivious Q (set i v) [(i, true)] :=
  ⟨[], rfl, rfl, hQ⟩

theorem Oblivious.bind {f : α → Prog ι V β} (hp : Oblivious Q p tr)
    (hf : ∀ a, Q a → Oblivious R (f a) tr') : Oblivious R (p >>= f) (tr ++ tr') := by
  change Oblivious R (p.bind f) (tr ++ tr')
  induction p generalizing tr with
  | ret a =>
      rw [hp.1]
      exact hf a hp.2
  | read i k ih =>
      rcases hp with ⟨rest, rfl, hrest⟩
      exact ⟨rest ++ tr', rfl, fun v => ih v (hrest v)⟩
  | write i v k ih =>
      rcases hp with ⟨rest, rfl, hrest⟩
      exact ⟨rest ++ tr', rfl, ih hrest⟩

/-- A value is computed without any access. -/
theorem Oblivious.bind_pure {f : α → β} (hp : Oblivious Q p tr) (hf : ∀ a, Q a → R (f a)) :
    Oblivious R (p >>= fun a => Pure.pure (f a)) tr := by
  have hbind := hp.bind fun a ha => (Oblivious.pure (hf a ha) : Oblivious R (Pure.pure (f a)) [])
  rwa [List.append_nil] at hbind

theorem Oblivious.loop {body : Nat → σ → Prog ι V σ} {I : Nat → σ → Prop}
    {access : Nat → List (ι × Bool)} {i n : Nat}
    (hbody : ∀ j s, i ≤ j → j < i + n → I j s → Oblivious (I (j + 1)) (body j s) (access j))
    {s : σ} (hs : I i s) :
    Oblivious (I (i + n)) (SharedMemory.loop body i n s) ((List.range' i n).flatMap access) := by
  induction n generalizing i s with
  | zero => exact Oblivious.pure hs
  | succ n ih =>
      have hrest : ∀ s, I (i + 1) s → Oblivious (I (i + 1 + n))
          (SharedMemory.loop body (i + 1) n s) ((List.range' (i + 1) n).flatMap access) :=
        fun s => ih fun j s hij hj => hbody j s (by omega) (by omega)
      rw [show i + 1 + n = i + (n + 1) by omega] at hrest
      rw [List.range'_succ, List.flatMap_cons]
      exact (hbody i s (Nat.le_refl i) (by omega) hs).bind hrest

theorem Oblivious.trace_eq [DecidableEq ι] (h : Oblivious Q p tr) (m : ι → V) :
    p.trace m = tr := by
  induction p generalizing tr m with
  | ret a => exact h.1.symm
  | read i k ih =>
      rcases h with ⟨rest, rfl, hrest⟩
      exact congrArg _ (ih (m i) (hrest _) m)
  | write i v k ih =>
      rcases h with ⟨rest, rfl, hrest⟩
      exact congrArg _ (ih hrest _)

end Oblivious

/-! ## Running on an array -/

/-- A run on an array: `none` when an access is out of bounds. -/
def Prog.runArray : Prog Nat V α → Array V → Option (α × Array V)
  | .ret a, m => some (a, m)
  | .read i k, m => if h : i < m.size then (k m[i]).runArray m else none
  | .write i v k, m => if h : i < m.size then k.runArray (m.set i v) else none

/-- The array holds the cells of the memory below its size. -/
def Holds (a : Array V) (m : Nat → V) : Prop :=
  ∀ i (h : i < a.size), a[i] = m i

theorem Holds.set {a : Array V} {m : Nat → V} (h : Holds a m) {i : Nat} (hi : i < a.size) (v : V) :
    Holds (a.set i v) (Function.update m i v) := by
  intro j hj
  rw [Array.size_set] at hj
  by_cases hji : j = i
  · subst hji
    rw [Array.getElem_set_self, Function.update_self]
  · rw [Array.getElem_set_ne hi hj (fun heq => hji heq.symm), Function.update_of_ne hji]
    exact h j hj

/-- A program whose cells are all in the array never leaves it. -/
theorem Within.runArray {W T S : Set Nat} {Q : α → Prop} {p : Prog Nat V α} (h : Within W T Q p S)
    {a : Array V} {m : Nat → V} (hW : ∀ i ∈ W, i < a.size) (hS : ∀ i ∈ S, i < a.size) (hm : Holds a m) :
    ∃ a', p.runArray a = some ((p.run m).1, a') ∧ a'.size = a.size ∧ Holds a' (p.run m).2 := by
  induction p generalizing S a m with
  | ret x => exact ⟨a, rfl, rfl, hm⟩
  | read i k ih =>
      have hi := hS i h.1
      rcases ih (m i) (h.2 _) hW hS hm with ⟨a', hrun, hrest⟩
      refine ⟨a', ?_, hrest⟩
      rw [Prog.runArray, dif_pos hi, hm i hi]
      exact hrun
  | write i v k ih =>
      have hi := hW i h.1
      have hW' : ∀ j ∈ W, j < (a.set i v).size := by
        intro j hj
        rw [Array.size_set]
        exact hW j hj
      have hS' : ∀ j ∈ insert i S, j < (a.set i v).size := by
        intro j hj
        rw [Array.size_set]
        rcases hj with rfl | hj
        · exact hi
        · exact hS j hj
      rcases ih h.2 hW' hS' (hm.set hi v) with ⟨a', hrun, hsize, hholds⟩
      refine ⟨a', ?_, hsize.trans (Array.size_set hi), hholds⟩
      rw [Prog.runArray, dif_pos hi]
      exact hrun

end SharedMemory
