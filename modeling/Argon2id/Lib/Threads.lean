import Argon2id.Lib.SharedMemory
import Mathlib.Logic.Relation

/-!
# Threads — a main thread that creates and joins threads

The main thread works through a list of commands.  The threads it has created and not yet joined run
programs of `SharedMemory` on one memory: a step of the system is one command of the main thread or
one single access of one thread, in any order.  Where `fallible`, the creation of a thread may fail.

- `WellForked`: threads that may run at the same time do not use what another one writes, and the main
  thread joins exactly what is running
- `Safe` is the invariant of all runs: no step leads out of it, and the main thread is never stuck
- `separate_reaches`: no two threads race, even after a creation has failed
- `Confined`: no thread leaves the cells that all of them are confined to
- `JoinsKnown`: only threads that have been created are joined, so a main thread that is stuck joins
  one that it has joined before (`JoinsKnown.joinedBefore`)
-/

namespace Threads

open SharedMemory

variable {ι V : Type}

/-! ## The system -/

/-- What the main thread does next.  Where a thread cannot be created, it joins the threads of
`onFail` and gives up. -/
inductive Command (ι V : Type)
  | create (handle : Nat) (thread : Prog ι V Unit) (onFail : List Nat)
  | join (handle : Nat)

structure State (ι V : Type) where
  commands : List (Command ι V)
  /-- The threads that have not been joined, in the order of their creation. -/
  threads : List (Nat × Prog ι V Unit)
  memory : ι → V
  /-- Some thread could not be created. -/
  failed : Bool

def State.start (commands : List (Command ι V)) (memory : ι → V) : State ι V where
  commands := commands
  threads := []
  memory := memory
  failed := false

inductive Step [DecidableEq ι] (fallible : Prop) : State ι V → State ι V → Prop
  | create {handle thread onFail commands threads memory failed} :
      Step fallible ⟨.create handle thread onFail :: commands, threads, memory, failed⟩
        ⟨commands, threads ++ [(handle, thread)], memory, failed⟩
  | createFails {handle thread onFail commands threads memory failed} (h : fallible) :
      Step fallible ⟨.create handle thread onFail :: commands, threads, memory, failed⟩
        ⟨onFail.map .join, threads, memory, true⟩
  -- joining waits until the thread has ended
  | join {handle commands before after memory failed} :
      Step fallible ⟨.join handle :: commands, before ++ (handle, .ret ()) :: after, memory, failed⟩
        ⟨commands, before ++ after, memory, failed⟩
  | read {commands before handle i k after memory failed} :
      Step fallible ⟨commands, before ++ (handle, .read i k) :: after, memory, failed⟩
        ⟨commands, before ++ (handle, k (memory i)) :: after, memory, failed⟩
  | write {commands before handle i v k after memory failed} :
      Step fallible ⟨commands, before ++ (handle, .write i v k) :: after, memory, failed⟩
        ⟨commands, before ++ (handle, k) :: after, Function.update memory i v, failed⟩

/-- The states of all runs, whatever the order of the steps. -/
def Reaches [DecidableEq ι] (fallible : Prop) : State ι V → State ι V → Prop :=
  Relation.ReflTransGen (Step fallible)

/-- A run in which no creation has failed is a run where none can fail. -/
theorem Reaches.of_not_failed [DecidableEq ι] {fallible : Prop} {s s' : State ι V}
    (h : Reaches fallible s s') (hfailed : s'.failed = false) : Reaches False s s' := by
  induction h with
  | refl => exact Relation.ReflTransGen.refl
  | tail _ hstep ih =>
      cases hstep with
      | create => exact (ih hfailed).tail .create
      | createFails => cases hfailed
      | join => exact (ih hfailed).tail .join
      | read => exact (ih hfailed).tail .read
      | write => exact (ih hfailed).tail .write

/-- A creation has failed only where it may. -/
theorem Reaches.fallible [DecidableEq ι] {fallible : Prop} {s s' : State ι V}
    (h : Reaches fallible s s') (hstart : s.failed = false) (hfailed : s'.failed = true) : fallible := by
  induction h with
  | refl => exact absurd (hstart.symm.trans hfailed) Bool.false_ne_true
  | tail _ hstep ih =>
      cases hstep with
      | create => exact ih hfailed
      | createFails hfallible => exact hfallible
      | join => exact ih hfailed
      | read => exact ih hfailed
      | write => exact ih hfailed

/-! ## Footprints -/

/-- What a thread may write, and what it may read. -/
structure Footprint (ι : Type) where
  writes : Set ι
  reads : Set ι
  writes_subset : writes ⊆ reads

/-- Neither uses what the other one writes. -/
def Footprint.Independent (f g : Footprint ι) : Prop :=
  (∀ i ∈ f.writes, i ∉ g.reads) ∧ ∀ i ∈ g.writes, i ∉ f.reads

def Uses (p : Prog ι V Unit) (f : Footprint ι) : Prop :=
  Within f.writes ∅ (fun _ => True) p f.reads

theorem Uses.read {f : Footprint ι} {i : ι} {k : V → Prog ι V Unit} (h : Uses (.read i k) f)
    (v : V) : Uses (k v) f :=
  h.2 v

theorem Uses.write {f : Footprint ι} {i : ι} {v : V} {k : Prog ι V Unit}
    (h : Uses (.write i v k) f) : Uses k f := by
  have hrest := h.2
  rwa [Set.insert_eq_of_mem (f.writes_subset h.1)] at hrest

/-- A running thread whose footprint is known. -/
structure Running (ι V : Type) where
  handle : Nat
  thread : Prog ι V Unit
  footprint : Footprint ι
  uses : Uses thread footprint

def Running.erase (r : Running ι V) : Nat × Prog ι V Unit :=
  (r.handle, r.thread)

def Running.sort (r : Running ι V) : Nat × Footprint ι :=
  (r.handle, r.footprint)

/-! ## Commands that fork well -/

/-- The threads that still run when one has been joined. -/
def without (handle : Nat) (running : List (Nat × Footprint ι)) : List (Nat × Footprint ι) :=
  running.filter fun t => t.1 ≠ handle

theorem without_of_ne {handle : Nat} {running : List (Nat × Footprint ι)}
    (h : ∀ t ∈ running, t.1 ≠ handle) : without handle running = running :=
  List.filter_eq_self.2 fun t ht => decide_eq_true (h t ht)

theorem without_middle {handle : Nat} {f : Footprint ι} {rs ss : List (Nat × Footprint ι)}
    (hrs : ∀ t ∈ rs, t.1 ≠ handle) (hss : ∀ t ∈ ss, t.1 ≠ handle) :
    without handle (rs ++ (handle, f) :: ss) = rs ++ ss := by
  have hrest : without handle ((handle, f) :: ss) = ss := by
    rw [without, List.filter_cons_of_neg (by simp)]
    exact without_of_ne hss
  rw [without, List.filter_append]
  exact congrArg₂ (· ++ ·) (without_of_ne hrs) hrest

/-- Joining the handles in this order joins exactly what is running. -/
def Joined : List (Nat × Footprint ι) → List Nat → Prop
  | running, [] => running = []
  | running, handle :: handles =>
      (∃ f, (handle, f) ∈ running) ∧ Joined (without handle running) handles

/-- The commands create only threads that are independent of those that may still be running, and
join exactly what they create. -/
def WellForked (fallible : Prop) : List (Nat × Footprint ι) → List (Command ι V) → Prop
  | running, [] => running = []
  | running, .create handle thread onFail :: commands =>
      (fallible → Joined running onFail) ∧
        ∃ f, Uses thread f ∧ (∀ t ∈ running, t.1 ≠ handle ∧ t.2.Independent f) ∧
          WellForked fallible (running ++ [(handle, f)]) commands
  | running, .join handle :: commands =>
      (∃ f, (handle, f) ∈ running) ∧ WellForked fallible (without handle running) commands

section WellForked

variable {fallible : Prop}

theorem Joined.wellForked {running : List (Nat × Footprint ι)} {handles : List Nat}
    (h : Joined running handles) :
    WellForked fallible running (handles.map .join : List (Command ι V)) := by
  induction handles generalizing running with
  | nil => exact h
  | cons handle handles ih => exact ⟨h.1, ih h.2⟩

/-- What forks well alone forks well in front of commands that start with no thread running. -/
theorem WellForked.append {running : List (Nat × Footprint ι)} {cs ds : List (Command ι V)}
    (hcs : WellForked fallible running cs) (hds : WellForked fallible [] ds) :
    WellForked fallible running (cs ++ ds) := by
  induction cs generalizing running with
  | nil =>
      rw [show running = [] from hcs]
      exact hds
  | cons c cs ih =>
      cases c with
      | create handle thread onFail =>
          rcases hcs with ⟨hfail, f, huses, hapart, hrest⟩
          exact ⟨hfail, f, huses, hapart, ih hrest⟩
      | join handle => exact ⟨hcs.1, ih hcs.2⟩

theorem WellForked.flatMap {α : Type} {xs : List α} {f : α → List (Command ι V)}
    (h : ∀ x ∈ xs, WellForked fallible [] (f x)) : WellForked fallible [] (xs.flatMap f) := by
  induction xs with
  | nil => rfl
  | cons x xs ih =>
      rw [List.flatMap_cons]
      exact (h x (List.mem_cons_self ..)).append (ih fun y hy => h y (List.mem_cons_of_mem x hy))

end WellForked

/-! ## The invariant of all runs -/

/-- Threads with different handles, none of which uses what the other one writes. -/
def Apart (r s : Running ι V) : Prop :=
  r.handle ≠ s.handle ∧ r.footprint.Independent s.footprint

/-- The threads of a state, of which none uses what another one writes. -/
structure Separate (s : State ι V) (running : List (Running ι V)) : Prop where
  threads : s.threads = running.map Running.erase
  apart : running.Pairwise Apart

structure Safe (fallible : Prop) (s : State ι V) (running : List (Running ι V)) : Prop
    extends Separate s running where
  forked : WellForked fallible (running.map Running.sort) s.commands

section Separate

variable {fallible : Prop} {s s' : State ι V} {running : List (Running ι V)}

/-- A thread in the middle of the running ones, and what is known of it and of the others. -/
theorem Separate.split (h : Separate s running) {before after : List (Nat × Prog ι V Unit)}
    {handle : Nat} {p : Prog ι V Unit} (hthreads : s.threads = before ++ (handle, p) :: after) :
    ∃ rs f, ∃ huses : Uses p f, ∃ ss, running = rs ++ ⟨handle, p, f, huses⟩ :: ss ∧
      before = rs.map Running.erase ∧ after = ss.map Running.erase := by
  rw [h.threads, List.map_eq_append_iff] at hthreads
  rcases hthreads with ⟨rs, rest, rfl, hbefore, hrest⟩
  rcases List.map_eq_cons_iff.1 hrest with ⟨r, ss, rfl, hr, hafter⟩
  rcases r with ⟨handle', p', f, huses⟩
  rcases Prod.mk.inj hr with ⟨rfl, rfl⟩
  exact ⟨rs, f, huses, ss, rfl, hbefore.symm, hafter.symm⟩

theorem Separate.apart_middle {rs ss : List (Running ι V)} {r : Running ι V}
    (h : Separate s (rs ++ r :: ss)) : (∀ t ∈ rs, Apart t r) ∧ ∀ t ∈ ss, Apart r t := by
  have happend := List.pairwise_append.1 h.apart
  have hcons := List.pairwise_cons.1 happend.2.1
  exact ⟨fun t ht => happend.2.2 t ht r (List.mem_cons_self ..), hcons.1⟩

/-- A thread can be replaced by what it has become. -/
theorem Separate.advance {rs ss : List (Running ι V)} {handle : Nat} {p p' : Prog ι V Unit}
    {f : Footprint ι} {huses : Uses p f} (h : Separate s (rs ++ ⟨handle, p, f, huses⟩ :: ss))
    (huses' : Uses p' f)
    (hthreads : s'.threads = rs.map Running.erase ++ (handle, p') :: ss.map Running.erase) :
    Separate s' (rs ++ ⟨handle, p', f, huses'⟩ :: ss) := by
  refine ⟨?_, ?_⟩
  · rw [hthreads, List.map_append, List.map_cons]
    rfl
  · have happend := List.pairwise_append.1 h.apart
    have hcons := List.pairwise_cons.1 happend.2.1
    refine List.pairwise_append.2 ⟨happend.1, List.pairwise_cons.2 ⟨hcons.1, hcons.2⟩, ?_⟩
    intro t ht u hu
    rcases List.mem_cons.1 hu with rfl | hu
    · exact h.apart_middle.1 t ht
    · exact happend.2.2 t ht u (List.mem_cons_of_mem _ hu)

/-- One thread less. -/
theorem Separate.remove {rs ss : List (Running ι V)} {r : Running ι V}
    (h : Separate s (rs ++ r :: ss))
    (hthreads : s'.threads = rs.map Running.erase ++ ss.map Running.erase) :
    Separate s' (rs ++ ss) := by
  refine ⟨hthreads.trans (List.map_append ..).symm, ?_⟩
  exact h.apart.sublist ((List.Sublist.refl rs).append (List.sublist_cons_self r ss))

end Separate

section Safe

variable {fallible : Prop} {s s' : State ι V} {running : List (Running ι V)}

theorem Safe.start {commands : List (Command ι V)} (h : WellForked fallible [] commands)
    (m : ι → V) : Safe fallible (.start commands m) [] :=
  ⟨⟨rfl, List.Pairwise.nil⟩, h⟩

theorem Safe.advance {rs ss : List (Running ι V)} {handle : Nat} {p p' : Prog ι V Unit}
    {f : Footprint ι} {huses : Uses p f} (h : Safe fallible s (rs ++ ⟨handle, p, f, huses⟩ :: ss))
    (huses' : Uses p' f)
    (hthreads : s'.threads = rs.map Running.erase ++ (handle, p') :: ss.map Running.erase)
    (hcommands : s'.commands = s.commands) :
    Safe fallible s' (rs ++ ⟨handle, p', f, huses'⟩ :: ss) := by
  refine ⟨h.toSeparate.advance huses' hthreads, ?_⟩
  have hforked := h.forked
  rw [List.map_append, List.map_cons] at hforked ⊢
  rw [hcommands]
  exact hforked

/-- Every step of a safe state leads to a safe state. -/
theorem Safe.step [DecidableEq ι] (h : Safe fallible s running) (hstep : Step fallible s s') :
    ∃ running', Safe fallible s' running' := by
  cases hstep with
  | @create handle thread onFail commands threads memory failed =>
      rcases h.forked with ⟨_, f, huses, hapart, hforked⟩
      have hthreads : threads = running.map Running.erase := h.threads
      refine ⟨running ++ [⟨handle, thread, f, huses⟩], ⟨?_, ?_⟩, ?_⟩
      · rw [List.map_append, ← hthreads]
        rfl
      · refine List.pairwise_append.2 ⟨h.apart, List.pairwise_singleton _ _, ?_⟩
        intro r hr t ht
        rw [List.mem_singleton.1 ht]
        exact hapart r.sort (List.mem_map_of_mem hr)
      · rw [List.map_append]
        exact hforked
  | createFails hfallible =>
      rcases h.forked with ⟨hfail, _⟩
      exact ⟨running, ⟨h.threads, h.apart⟩, (hfail hfallible).wellForked⟩
  | @join handle commands before after memory failed =>
      rcases h.split rfl with ⟨rs, f, huses, ss, rfl, rfl, rfl⟩
      rcases h.forked with ⟨_, hforked⟩
      refine ⟨rs ++ ss, h.toSeparate.remove rfl, ?_⟩
      -- only the joined thread has this handle
      rw [List.map_append, List.map_cons, Running.sort, without_middle, ← List.map_append] at hforked
      · exact hforked
      · intro t ht
        rcases List.mem_map.1 ht with ⟨r, hr, rfl⟩
        exact (h.apart_middle.1 r hr).1
      · intro t ht
        rcases List.mem_map.1 ht with ⟨r, hr, rfl⟩
        exact (h.apart_middle.2 r hr).1.symm
  | @read commands before handle i k after memory failed =>
      rcases h.split rfl with ⟨rs, f, huses, ss, rfl, rfl, rfl⟩
      exact ⟨_, h.advance (huses.read (memory i)) rfl rfl⟩
  | @write commands before handle i v k after memory failed =>
      rcases h.split rfl with ⟨rs, f, huses, ss, rfl, rfl, rfl⟩
      exact ⟨_, h.advance huses.write rfl rfl⟩

theorem Safe.reaches [DecidableEq ι] (h : Safe fallible s running)
    (hreaches : Reaches fallible s s') : ∃ running', Safe fallible s' running' := by
  induction hreaches with
  | refl => exact ⟨running, h⟩
  | tail _ hstep ih =>
      rcases ih with ⟨running', h'⟩
      exact h'.step hstep

/-! ## Progress -/

/-- The main thread joins a thread that is not running. -/
def State.Stuck (s : State ι V) : Prop :=
  ∃ handle commands, s.commands = .join handle :: commands ∧ ∀ t ∈ s.threads, t.1 ≠ handle

/-- What the main thread joins is running. -/
theorem Safe.exists_thread (h : Safe fallible s running) {handle : Nat} {commands : List (Command ι V)}
    (hcommands : s.commands = .join handle :: commands) : ∃ p, (handle, p) ∈ s.threads := by
  have hforked := h.forked
  rw [hcommands] at hforked
  rcases hforked with ⟨⟨f, hmem⟩, _⟩
  rcases List.mem_map.1 hmem with ⟨r, hr, hsort⟩
  refine ⟨r.thread, ?_⟩
  rw [h.threads, ← (Prod.mk.inj hsort).1]
  exact List.mem_map_of_mem hr

theorem Safe.not_stuck (h : Safe fallible s running) : ¬ s.Stuck := by
  rintro ⟨handle, commands, hcommands, hnone⟩
  rcases h.exists_thread hcommands with ⟨p, hmem⟩
  exact hnone (handle, p) hmem rfl

/-- The main thread only waits for threads that can go on. -/
theorem Safe.progress [DecidableEq ι] (h : Safe fallible s running) (hcommands : s.commands ≠ []) :
    ∃ s', Step fallible s s' := by
  rcases s with ⟨commands, threads, memory, failed⟩
  rcases commands with _ | ⟨command, commands⟩
  · exact absurd rfl hcommands
  cases command with
  | create handle thread onFail => exact ⟨_, .create⟩
  | join handle =>
      rcases h.exists_thread rfl with ⟨p, hthread⟩
      rcases List.append_of_mem hthread with ⟨before, after, heq⟩
      have hthreads : threads = before ++ (handle, p) :: after := heq
      subst hthreads
      cases p with
      | ret u => exact ⟨_, .join⟩
      | read i k => exact ⟨_, .read⟩
      | write i v k => exact ⟨_, .write⟩

/-! ## Data races -/

/-- The cell that a program accesses next, and whether it writes it. -/
def next : Prog ι V Unit → Option (ι × Bool)
  | .ret _ => none
  | .read i _ => some (i, false)
  | .write i _ _ => some (i, true)

theorem Uses.next {p : Prog ι V Unit} {f : Footprint ι} (h : Uses p f) {i : ι} {w : Bool}
    (hnext : Threads.next p = some (i, w)) : i ∈ f.reads ∧ (w = true → i ∈ f.writes) := by
  cases p with
  | ret u => cases hnext
  | read j k =>
      rcases Prod.mk.inj (Option.some.inj hnext) with ⟨rfl, rfl⟩
      exact ⟨h.1, fun hw => absurd hw Bool.false_ne_true⟩
  | write j v k =>
      rcases Prod.mk.inj (Option.some.inj hnext) with ⟨rfl, rfl⟩
      exact ⟨f.writes_subset h.1, fun _ => h.1⟩

/-- Two programs race when they may access the same cell next, and one of them writes it. -/
def Race (p q : Prog ι V Unit) : Prop :=
  ∃ i w w', next p = some (i, w) ∧ next q = some (i, w') ∧ (w || w') = true

theorem Apart.not_race {r t : Running ι V} (h : Apart r t) : ¬ Race r.thread t.thread := by
  rintro ⟨i, w, w', hr, ht, hw⟩
  have hr' := r.uses.next hr
  have ht' := t.uses.next ht
  rcases Bool.or_eq_true_iff.1 hw with hw | hw
  · exact h.2.1 i (hr'.2 hw) ht'.1
  · exact h.2.2 i (ht'.2 hw) hr'.1

/-- The threads of a state do not race. -/
theorem Separate.pairwise_not_race {s : State ι V} {running : List (Running ι V)}
    (h : Separate s running) :
    s.threads.Pairwise fun t u => t.1 ≠ u.1 ∧ ¬ Race t.2 u.2 := by
  rw [h.threads, List.pairwise_map]
  exact h.apart.imp fun hapart => ⟨hapart.1, hapart.not_race⟩

end Safe

/-! ## After a failed creation -/

section Failed

variable [DecidableEq ι] {fallible : Prop} {s s' : State ι V} {running : List (Running ι V)}

/-- The main thread creates no more threads. -/
def Joining (s : State ι V) : Prop :=
  ∀ command ∈ s.commands, ∃ handle, command = .join handle

/-- While it only joins, the threads stay separate, whichever it joins. -/
theorem Separate.step (h : Separate s running) (hjoining : Joining s) (hstep : Step fallible s s') :
    (∃ running', Separate s' running') ∧ Joining s' := by
  cases hstep with
  | create =>
      rcases hjoining _ (List.mem_cons_self ..) with ⟨_, heq⟩
      cases heq
  | createFails =>
      rcases hjoining _ (List.mem_cons_self ..) with ⟨_, heq⟩
      cases heq
  | join =>
      rcases h.split rfl with ⟨rs, f, huses, ss, rfl, rfl, rfl⟩
      exact ⟨⟨rs ++ ss, h.remove rfl⟩, fun command hmem => hjoining command (List.mem_cons_of_mem _ hmem)⟩
  | @read commands before handle i k after memory failed =>
      rcases h.split rfl with ⟨rs, f, huses, ss, rfl, rfl, rfl⟩
      exact ⟨⟨_, h.advance (huses.read (memory i)) rfl⟩, hjoining⟩
  | write =>
      rcases h.split rfl with ⟨rs, f, huses, ss, rfl, rfl, rfl⟩
      exact ⟨⟨_, h.advance huses.write rfl⟩, hjoining⟩

/-- Commands that fork well as long as no creation fails keep the threads separate even when one does. -/
theorem separate_reaches {commands : List (Command ι V)} (h : WellForked False [] commands) {m : ι → V}
    (hreaches : Reaches fallible (.start commands m) s) : ∃ running, Separate s running := by
  have hinv : (∃ running, Safe False s running) ∨ (∃ running, Separate s running) ∧ Joining s := by
    induction hreaches with
    | refl => exact Or.inl ⟨[], Safe.start h m⟩
    | tail _ hstep ih =>
        rcases ih with ⟨running, hsafe⟩ | ⟨⟨running, hseparate⟩, hjoining⟩
        · cases hstep with
          | create => exact Or.inl (hsafe.step .create)
          | createFails =>
              refine Or.inr ⟨⟨running, hsafe.threads, hsafe.apart⟩, fun command hmem => ?_⟩
              rcases List.mem_map.1 hmem with ⟨handle, _, heq⟩
              exact ⟨handle, heq.symm⟩
          | join => exact Or.inl (hsafe.step .join)
          | read => exact Or.inl (hsafe.step .read)
          | write => exact Or.inl (hsafe.step .write)
        · exact Or.inr (hseparate.step hjoining hstep)
  rcases hinv with ⟨running, hsafe⟩ | ⟨hseparate, _⟩
  · exact ⟨running, hsafe.toSeparate⟩
  · exact hseparate

end Failed

/-! ## Confinement -/

/-- All threads, those that are still to be created included, access only cells of `U`. -/
structure Confined (U : Set ι) (s : State ι V) : Prop where
  commands : ∀ handle thread onFail, .create handle thread onFail ∈ s.commands →
    Within U ∅ (fun _ => True) thread U
  threads : ∀ t ∈ s.threads, Within U ∅ (fun _ => True) t.2 U

/-- Whether or not creations fail, no step leads out of a confined state. -/
theorem Confined.step [DecidableEq ι] {fallible : Prop} {U : Set ι} {s s' : State ι V}
    (h : Confined U s) (hstep : Step fallible s s') : Confined U s' := by
  cases hstep with
  | @create handle thread onFail commands threads memory failed =>
      refine ⟨fun handle thread onFail hmem =>
        h.commands handle thread onFail (List.mem_cons_of_mem _ hmem), fun t ht => ?_⟩
      rcases List.mem_append.1 ht with ht | ht
      · exact h.threads t ht
      · rw [List.mem_singleton.1 ht]
        exact h.commands handle thread onFail (List.mem_cons_self ..)
  | createFails =>
      refine ⟨fun handle thread onFail hmem => ?_, h.threads⟩
      rcases List.mem_map.1 hmem with ⟨_, _, heq⟩
      cases heq
  | join =>
      refine ⟨fun handle thread onFail hmem =>
        h.commands handle thread onFail (List.mem_cons_of_mem _ hmem), fun t ht => ?_⟩
      refine h.threads t ?_
      rcases List.mem_append.1 ht with ht | ht
      · exact List.mem_append_left _ ht
      · exact List.mem_append_right _ (List.mem_cons_of_mem _ ht)
  | @read commands before handle i k after memory failed =>
      refine ⟨h.commands, fun t ht => ?_⟩
      have hthread := h.threads (handle, .read i k) (List.mem_append_right _ (List.mem_cons_self ..))
      rcases List.mem_append.1 ht with ht | ht
      · exact h.threads t (List.mem_append_left _ ht)
      · rcases List.mem_cons.1 ht with rfl | ht
        · exact hthread.2 (memory i)
        · exact h.threads t (List.mem_append_right _ (List.mem_cons_of_mem _ ht))
  | @write commands before handle i v k after memory failed =>
      refine ⟨h.commands, fun t ht => ?_⟩
      have hthread := h.threads (handle, .write i v k) (List.mem_append_right _ (List.mem_cons_self ..))
      rcases List.mem_append.1 ht with ht | ht
      · exact h.threads t (List.mem_append_left _ ht)
      · rcases List.mem_cons.1 ht with rfl | ht
        · have hrest := hthread.2
          rwa [Set.insert_eq_of_mem hthread.1] at hrest
        · exact h.threads t (List.mem_append_right _ (List.mem_cons_of_mem _ ht))

theorem Confined.reaches [DecidableEq ι] {fallible : Prop} {U : Set ι} {s s' : State ι V}
    (h : Confined U s) (hreaches : Reaches fallible s s') : Confined U s' := by
  induction hreaches with
  | refl => exact h
  | tail _ hstep ih => exact ih.step hstep

/-- The next access of a confined thread is to a cell of `U`. -/
theorem Confined.next_mem {U : Set ι} {s : State ι V} (h : Confined U s)
    {t : Nat × Prog ι V Unit} (ht : t ∈ s.threads) {i : ι} {w : Bool}
    (hnext : next t.2 = some (i, w)) : i ∈ U := by
  have huses : Uses t.2 ⟨U, U, Set.Subset.refl U⟩ := h.threads t ht
  exact (huses.next hnext).1

/-! ## What has been joined -/

/-- The commands join only what they have created before, or what is known before them. -/
def JoinsKnown : List Nat → List (Command ι V) → Prop
  | _, [] => True
  | known, .create handle _ onFail :: commands =>
      (∀ j ∈ onFail, j ∈ known) ∧ JoinsKnown (handle :: known) commands
  | known, .join handle :: commands => handle ∈ known ∧ JoinsKnown known commands

section JoinsKnown

variable {known known' : List Nat} {cs ds : List (Command ι V)}

theorem JoinsKnown.mono (h : JoinsKnown known cs) (hsub : known ⊆ known') : JoinsKnown known' cs := by
  induction cs generalizing known known' with
  | nil => trivial
  | cons c cs ih =>
      cases c with
      | create handle thread onFail =>
          exact ⟨fun j hj => hsub (h.1 j hj), ih h.2 (List.cons_subset_cons handle hsub)⟩
      | join handle => exact ⟨hsub h.1, ih h.2 hsub⟩

theorem JoinsKnown.append (hcs : JoinsKnown known cs) (hds : JoinsKnown [] ds) :
    JoinsKnown known (cs ++ ds) := by
  induction cs generalizing known with
  | nil => exact hds.mono (List.nil_subset known)
  | cons c cs ih =>
      cases c with
      | create handle thread onFail => exact ⟨hcs.1, ih hcs.2⟩
      | join handle => exact ⟨hcs.1, ih hcs.2⟩

theorem JoinsKnown.flatMap {α : Type} {xs : List α} {f : α → List (Command ι V)}
    (h : ∀ x ∈ xs, JoinsKnown [] (f x)) : JoinsKnown [] (xs.flatMap f) := by
  induction xs with
  | nil => trivial
  | cons x xs ih =>
      rw [List.flatMap_cons]
      exact (h x (List.mem_cons_self ..)).append (ih fun y hy => h y (List.mem_cons_of_mem x hy))

theorem joinsKnown_joins {handles : List Nat} (h : ∀ j ∈ handles, j ∈ known) :
    JoinsKnown known (handles.map .join : List (Command ι V)) := by
  induction handles with
  | nil => trivial
  | cons handle handles ih =>
      exact ⟨h handle (List.mem_cons_self ..), ih fun j hj => h j (List.mem_cons_of_mem handle hj)⟩

end JoinsKnown

/-- A thread that takes a step stays in its place. -/
theorem mem_advance {before after : List (Nat × Prog ι V Unit)} {handle handle' : Nat}
    {p p' : Prog ι V Unit} (h : ∃ q, (handle', q) ∈ before ++ (handle, p) :: after) :
    ∃ q, (handle', q) ∈ before ++ (handle, p') :: after := by
  rcases h with ⟨q, hq⟩
  rcases List.mem_append.1 hq with hq | hq
  · exact ⟨q, List.mem_append_left _ hq⟩
  rcases List.mem_cons.1 hq with heq | hq
  · rw [(Prod.mk.inj heq).1]
    exact ⟨p', List.mem_append_right _ (List.mem_cons_self ..)⟩
  · exact ⟨q, List.mem_append_right _ (List.mem_cons_of_mem _ hq)⟩

section Joined

variable [DecidableEq ι] {fallible : Prop} {s₀ s s' : State ι V}

/-- In the run from `s₀` to `s`, a thread with this handle was running and the main thread joined it. -/
def JoinedBefore (fallible : Prop) (s₀ s : State ι V) (handle : Nat) : Prop :=
  ∃ before after, Reaches fallible s₀ before ∧ before.commands = .join handle :: after.commands ∧
    (∃ p, (handle, p) ∈ before.threads) ∧ Step fallible before after ∧ Reaches fallible after s

/-- What is known is running or has been joined. -/
structure Recorded (fallible : Prop) (s₀ s : State ι V) (known : List Nat) : Prop where
  joins : JoinsKnown known s.commands
  known : ∀ handle ∈ known,
    (∃ p, (handle, p) ∈ s.threads) ∨ JoinedBefore fallible s₀ s handle

theorem JoinedBefore.step {handle : Nat} (h : JoinedBefore fallible s₀ s handle)
    (hstep : Step fallible s s') : JoinedBefore fallible s₀ s' handle := by
  rcases h with ⟨before, after, hbefore, hcommands, hrunning, hjoin, hafter⟩
  exact ⟨before, after, hbefore, hcommands, hrunning, hjoin, hafter.tail hstep⟩

theorem Recorded.step {known : List Nat} (h : Recorded fallible s₀ s known)
    (hreaches : Reaches fallible s₀ s) (hstep : Step fallible s s') :
    ∃ known', Recorded fallible s₀ s' known' := by
  have hold : ∀ handle ∈ known,
      (∃ p, (handle, p) ∈ s.threads) ∨ JoinedBefore fallible s₀ s' handle :=
    fun handle hmem => (h.known handle hmem).imp_right fun hjoined => hjoined.step hstep
  cases hstep with
  | @create handle thread onFail commands threads memory failed =>
      refine ⟨handle :: known, h.joins.2, fun handle' hmem => ?_⟩
      rcases List.mem_cons.1 hmem with rfl | hmem
      · exact Or.inl ⟨thread, List.mem_append_right _ (List.mem_cons_self ..)⟩
      · exact (hold handle' hmem).imp_left fun ⟨p, hp⟩ => ⟨p, List.mem_append_left _ hp⟩
  | createFails hfallible => exact ⟨known, joinsKnown_joins h.joins.1, hold⟩
  | @join handle commands before after memory failed =>
      refine ⟨known, h.joins.2, fun handle' hmem => ?_⟩
      rcases hold handle' hmem with ⟨p, hp⟩ | hjoined
      · rcases List.mem_append.1 hp with hp | hp
        · exact Or.inl ⟨p, List.mem_append_left _ hp⟩
        rcases List.mem_cons.1 hp with heq | hp
        -- this is the thread that is joined
        · rw [(Prod.mk.inj heq).1]
          have hrunning : (handle, Prog.ret ()) ∈ before ++ (handle, Prog.ret ()) :: after :=
            List.mem_append_right _ (List.mem_cons_self ..)
          exact Or.inr ⟨_, _, hreaches, rfl, ⟨_, hrunning⟩, .join, Relation.ReflTransGen.refl⟩
        · exact Or.inl ⟨p, List.mem_append_right _ hp⟩
      · exact Or.inr hjoined
  | read => exact ⟨known, h.joins, fun handle' hmem => (hold handle' hmem).imp_left mem_advance⟩
  | write => exact ⟨known, h.joins, fun handle' hmem => (hold handle' hmem).imp_left mem_advance⟩

theorem JoinsKnown.recorded {commands : List (Command ι V)} (h : JoinsKnown [] commands) {m : ι → V}
    (hreaches : Reaches fallible (.start commands m) s) :
    ∃ known, Recorded fallible (.start commands m) s known := by
  induction hreaches with
  | refl => exact ⟨[], h, fun handle hmem => nomatch hmem⟩
  | tail hreaches hstep ih =>
      rcases ih with ⟨known, hrecorded⟩
      exact hrecorded.step hreaches hstep

/-- Where the main thread joins a thread that is not running, it has joined it before. -/
theorem JoinsKnown.joinedBefore {commands : List (Command ι V)} (h : JoinsKnown [] commands) {m : ι → V}
    (hreaches : Reaches fallible (.start commands m) s) (hstuck : s.Stuck) :
    ∃ handle rest, s.commands = .join handle :: rest ∧
      JoinedBefore fallible (.start commands m) s handle := by
  rcases h.recorded hreaches with ⟨known, hrecorded⟩
  rcases hstuck with ⟨handle, rest, hcommands, hnone⟩
  have hjoins := hrecorded.joins
  rw [hcommands] at hjoins
  rcases hrecorded.known handle hjoins.1 with ⟨p, hp⟩ | hjoined
  · exact absurd rfl (hnone (handle, p) hp)
  · exact ⟨handle, rest, hcommands, hjoined⟩

end Joined

end Threads
