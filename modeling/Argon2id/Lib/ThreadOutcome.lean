import Argon2id.Lib.Threads
import Mathlib.Data.Multiset.Basic
import Mathlib.Data.Prod.Lex
import Mathlib.Logic.Hydra
import Mathlib.Tactic.Abel

/-!
# ThreadOutcome — what the threads leave in the memory

- `Safe.outcome_reaches`: the memory in the end is that of running each thread at its creation
- `wellFounded_step`: there are no infinite runs
- `Safe.exists_done`: every run can be continued until the main thread is done
-/

namespace Threads

open SharedMemory

variable {ι V : Type}

/-! ## The memory in the end -/

section Outcome

variable [DecidableEq ι] {fallible : Prop} {s s' : State ι V} {running : List (Running ι V)}

/-- Each thread runs at once when it is created. -/
def sequential : List (Command ι V) → (ι → V) → ι → V
  | [], m => m
  | .create _ thread _ :: commands, m => sequential commands (thread.run m).2
  | .join _ :: commands, m => sequential commands m

/-- The threads run to their ends one after the other. -/
def runAll : List (Nat × Prog ι V Unit) → (ι → V) → ι → V
  | [], m => m
  | (_, p) :: threads, m => runAll threads (p.run m).2

theorem sequential_append (cs ds : List (Command ι V)) (m : ι → V) :
    sequential (cs ++ ds) m = sequential ds (sequential cs m) := by
  induction cs generalizing m with
  | nil => rfl
  | cons c cs ih =>
      cases c with
      | create handle thread onFail => exact ih _
      | join handle => exact ih m

theorem sequential_flatMap {α : Type} (xs : List α) (f : α → List (Command ι V)) (m : ι → V) :
    sequential (xs.flatMap f) m = xs.foldl (fun m x => sequential (f x) m) m := by
  induction xs generalizing m with
  | nil => rfl
  | cons x xs ih =>
      rw [List.flatMap_cons, sequential_append, List.foldl_cons]
      exact ih _

theorem sequential_joins (handles : List Nat) (m : ι → V) :
    sequential (handles.map .join : List (Command ι V)) m = m := by
  induction handles with
  | nil => rfl
  | cons handle handles ih => exact ih

theorem runAll_append (ts us : List (Nat × Prog ι V Unit)) (m : ι → V) :
    runAll (ts ++ us) m = runAll us (runAll ts m) := by
  induction ts generalizing m with
  | nil => rfl
  | cons t ts ih => exact ih _

/-- What the memory will be when every thread runs to its end without any interruption. -/
def outcome (s : State ι V) : ι → V :=
  sequential s.commands (runAll s.threads s.memory)

/-- Threads that do not write a cell leave it as it was. -/
theorem runAll_of_not_mem {rs : List (Running ι V)} {i : ι}
    (h : ∀ r ∈ rs, i ∉ r.footprint.writes) (m : ι → V) :
    runAll (rs.map Running.erase) m i = m i := by
  induction rs generalizing m with
  | nil => rfl
  | cons r rs ih =>
      have hrest := ih (fun t ht => h t (List.mem_cons_of_mem r ht)) (r.thread.run m).2
      exact hrest.trans (r.uses.run_of_not_mem m (h r (List.mem_cons_self ..)))

/-- Threads that do not use a cell commute with a write to it. -/
theorem runAll_update {rs : List (Running ι V)} {i : ι}
    (h : ∀ r ∈ rs, i ∉ r.footprint.reads) (m : ι → V) (v : V) :
    runAll (rs.map Running.erase) (Function.update m i v) =
      Function.update (runAll (rs.map Running.erase) m) i v := by
  induction rs generalizing m with
  | nil => rfl
  | cons r rs ih =>
      have hreads := h r (List.mem_cons_self ..)
      have hrun := r.uses.run_update hreads (fun hw => hreads (r.footprint.writes_subset hw)) m v
      have hrest := ih fun t ht => h t (List.mem_cons_of_mem r ht)
      change runAll (rs.map Running.erase) (r.thread.run (Function.update m i v)).2 = _
      rw [hrun, hrest]
      rfl

/-- Unless a creation fails, a step does not change what the memory will be: an access of a thread
commutes with all that the threads created before it still do. -/
theorem Safe.outcome_step (h : Safe fallible s running) (hstep : Step fallible s s')
    (hfailed : s'.failed = false) : outcome s' = outcome s ∧ s.failed = false := by
  cases hstep with
  | create =>
      refine ⟨?_, hfailed⟩
      rw [outcome, runAll_append]
      rfl
  | createFails => cases hfailed
  | join =>
      refine ⟨?_, hfailed⟩
      rw [outcome, outcome, runAll_append, runAll_append]
      rfl
  | @read commands before handle i k after memory failed =>
      refine ⟨?_, hfailed⟩
      rcases h.split rfl with ⟨rs, f, huses, ss, rfl, rfl, rfl⟩
      have hwrites : ∀ r ∈ rs, i ∉ r.footprint.writes := fun r hr hw =>
        (h.apart_middle.1 r hr).2.1 i hw huses.1
      rw [outcome, outcome, runAll_append, runAll_append, runAll, runAll, Prog.run,
        runAll_of_not_mem hwrites]
  | @write commands before handle i v k after memory failed =>
      refine ⟨?_, hfailed⟩
      rcases h.split rfl with ⟨rs, f, huses, ss, rfl, rfl, rfl⟩
      have hreads : ∀ r ∈ rs, i ∉ r.footprint.reads := fun r hr hw =>
        (h.apart_middle.1 r hr).2.2 i huses.1 hw
      rw [outcome, outcome, runAll_append, runAll_append, runAll_update hreads]
      rfl

theorem Safe.outcome_reaches (h : Safe fallible s running) (hreaches : Reaches fallible s s')
    (hfailed : s'.failed = false) : outcome s' = outcome s := by
  induction hreaches with
  | refl => rfl
  | tail hrun hstep ih =>
      rcases h.reaches hrun with ⟨running', h'⟩
      rcases h'.outcome_step hstep hfailed with ⟨heq, hbefore⟩
      exact heq.trans (ih hbefore)

/-- When the main thread is done, no thread is left and the memory is the sequential one. -/
theorem Safe.done (h : Safe fallible s running) (hcommands : s.commands = []) :
    s.threads = [] ∧ outcome s = s.memory := by
  have hforked := h.forked
  rw [hcommands] at hforked
  have hthreads : s.threads = [] := by
    rw [h.threads, List.map_eq_nil_iff.1 hforked]
    rfl
  refine ⟨hthreads, ?_⟩
  rw [outcome, hcommands, hthreads]
  rfl

end Outcome

/-! ## Termination -/

section Termination

/-- What a program may be after its next access. -/
inductive After : Prog ι V Unit → Prog ι V Unit → Prop
  | read {i : ι} {k : V → Prog ι V Unit} (v : V) : After (k v) (.read i k)
  | write {i : ι} {v : V} {k : Prog ι V Unit} : After k (.write i v k)

theorem wellFounded_after : WellFounded (After : Prog ι V Unit → Prog ι V Unit → Prop) := by
  refine ⟨fun p => ?_⟩
  induction p with
  | ret u => exact ⟨_, fun q hq => nomatch hq⟩
  | read i k ih => exact ⟨_, fun q hq => match hq with | .read v => ih v⟩
  | write i v k ih => exact ⟨_, fun q hq => match hq with | .write => ih⟩

/-- The number of commands that are left, whichever way the creations go. -/
def budget : List (Command ι V) → Nat
  | [] => 0
  | .create _ _ onFail :: commands => onFail.length + 1 + budget commands
  | .join _ :: commands => 1 + budget commands

theorem budget_joins (handles : List Nat) :
    budget (handles.map .join : List (Command ι V)) = handles.length := by
  induction handles with
  | nil => rfl
  | cons handle handles ih =>
      rw [List.map_cons, budget, ih, List.length_cons]
      omega

/-- What the running threads still have to do. -/
def remaining (threads : List (Nat × Prog ι V Unit)) : Multiset (Prog ι V Unit) :=
  ↑(threads.map Prod.snd)

/-- A command uses up budget; an access replaces a program by what comes after it. -/
def State.measure (s : State ι V) : Nat × Multiset (Prog ι V Unit) :=
  (budget s.commands, remaining s.threads)

theorem cutExpand_access {before after : List (Nat × Prog ι V Unit)} {handle : Nat}
    {p q : Prog ι V Unit} (h : After q p) :
    Relation.CutExpand After (remaining (before ++ (handle, q) :: after))
      (remaining (before ++ (handle, p) :: after)) := by
  refine ⟨{q}, p, fun q' hq' => Multiset.mem_singleton.1 hq' ▸ h, ?_⟩
  simp only [remaining, List.map_append, List.map_cons, ← Multiset.coe_add, ← Multiset.cons_coe,
    ← Multiset.singleton_add]
  abel

/-- There are no infinite runs. -/
theorem wellFounded_step [DecidableEq ι] (fallible : Prop) :
    WellFounded fun s' s : State ι V => Step fallible s s' := by
  have hafter : WellFounded (After : Prog ι V Unit → Prog ι V Unit → Prop) := wellFounded_after
  have hlex := WellFounded.prod_lex Nat.lt_wfRel.wf hafter.cutExpand
  refine Subrelation.wf ?_ (InvImage.wf State.measure hlex)
  intro s' s hstep
  cases hstep with
  | @create handle thread onFail commands =>
      have hbudget : budget commands < budget (.create handle thread onFail :: commands) := by
        rw [budget]
        omega
      exact Prod.Lex.left _ _ hbudget
  | @createFails handle thread onFail commands =>
      have hbudget : budget (onFail.map .join : List (Command ι V)) <
          budget (.create handle thread onFail :: commands) := by
        rw [budget_joins, budget]
        omega
      exact Prod.Lex.left _ _ hbudget
  | @join handle commands =>
      have hbudget : budget commands < budget (.join handle :: commands) := by
        rw [budget]
        omega
      exact Prod.Lex.left _ _ hbudget
  | read => exact Prod.Lex.right _ (cutExpand_access (.read _))
  | write => exact Prod.Lex.right _ (cutExpand_access .write)

/-- Every run can be continued until the main thread is done. -/
theorem Safe.exists_done [DecidableEq ι] {fallible : Prop} {s : State ι V}
    {running : List (Running ι V)} (h : Safe fallible s running) :
    ∃ s', Reaches fallible s s' ∧ s'.commands = [] := by
  revert running
  refine (wellFounded_step fallible).induction (C := fun s => ∀ {running}, Safe fallible s running →
    ∃ s', Reaches fallible s s' ∧ s'.commands = []) s fun s ih running h => ?_
  by_cases hdone : s.commands = []
  · exact ⟨s, Relation.ReflTransGen.refl, hdone⟩
  · rcases h.progress hdone with ⟨s', hstep⟩
    rcases h.step hstep with ⟨running', h'⟩
    rcases ih s' hstep h' with ⟨t, hreaches, hcommands⟩
    exact ⟨t, Relation.ReflTransGen.head hstep hreaches, hcommands⟩

end Termination

end Threads
