import Argon2id.Lib.ThreadOutcome

/-!
# Throttle — a bounded number of threads for any number of jobs

`throttled limit n job` runs `n` jobs, at most `limit` at a time: before it creates a thread beyond the
limit it joins the oldest one, and where a thread cannot be created it joins the threads of all earlier
jobs.

- `wellForked_throttled`: this is well forked for jobs that are independent of each other.  When the
  creation of threads may fail, this needs a limit that is never reached
- `exists_stuck`: otherwise the main thread may get stuck after a failure
- `joinsKnown_throttled`: only threads that have been created are joined
-/

namespace Threads

open SharedMemory

variable {ι V : Type}

/-- The jobs from `l` on. -/
def throttledFrom (limit : Nat) (job : Nat → Prog ι V Unit) : Nat → Nat → List (Command ι V)
  | _, 0 => []
  | l, n + 1 =>
      (if limit ≤ l then [.join (l - limit)] else []) ++
        .create l (job l) (List.range l) :: throttledFrom limit job (l + 1) n

def throttled (limit n : Nat) (job : Nat → Prog ι V Unit) : List (Command ι V) :=
  throttledFrom limit job 0 n ++ (List.range' (n - limit) limit).map .join

theorem mem_throttledFrom {limit : Nat} {job : Nat → Prog ι V Unit} {handle : Nat}
    {thread : Prog ι V Unit} {onFail : List Nat} {l n : Nat}
    (h : Command.create handle thread onFail ∈ throttledFrom limit job l n) :
    ∃ j, j < l + n ∧ thread = job j := by
  induction n generalizing l with
  | zero => cases h
  | succ n ih =>
      rw [throttledFrom] at h
      rcases List.mem_append.1 h with h | h
      · split_ifs at h
        · cases List.mem_singleton.1 h
        · cases h
      rcases List.mem_cons.1 h with h | h
      · injection h with _ heq _
        exact ⟨l, by omega, heq⟩
      · rcases ih h with ⟨j, hj, heq⟩
        exact ⟨j, by omega, heq⟩

/-- All threads that are created run a job. -/
theorem mem_throttled {limit n : Nat} {job : Nat → Prog ι V Unit} {handle : Nat}
    {thread : Prog ι V Unit} {onFail : List Nat}
    (h : Command.create handle thread onFail ∈ throttled limit n job) : ∃ j < n, thread = job j := by
  rcases List.mem_append.1 h with h | h
  · rcases mem_throttledFrom h with ⟨j, hj, heq⟩
    exact ⟨j, by omega, heq⟩
  · rcases List.mem_map.1 h with ⟨_, _, heq⟩
    cases heq

/-! ## The threads that are running -/

/-- The threads `a`, …, `a + n - 1`. -/
def window (f : Nat → Footprint ι) (a n : Nat) : List (Nat × Footprint ι) :=
  (List.range' a n).map fun j => (j, f j)

variable {f : Nat → Footprint ι}

theorem mem_window {a n : Nat} {t : Nat × Footprint ι} (h : t ∈ window f a n) :
    a ≤ t.1 ∧ t.1 < a + n ∧ t.2 = f t.1 := by
  rcases List.mem_map.1 h with ⟨j, hj, rfl⟩
  have hj' := List.mem_range'_1.1 hj
  exact ⟨hj'.1, hj'.2, rfl⟩

theorem window_concat (a n : Nat) : window f a n ++ [(a + n, f (a + n))] = window f a (n + 1) := by
  rw [window, window, List.range'_1_concat, List.map_append]
  rfl

theorem without_window (a n : Nat) : without a (window f a (n + 1)) = window f (a + 1) n := by
  rw [window, List.range'_succ, List.map_cons]
  have hnone : ∀ t ∈ ([] : List (Nat × Footprint ι)), t.1 ≠ a := fun t ht => nomatch ht
  refine without_middle hnone fun t ht => ?_
  have hmem := mem_window ht
  omega

theorem joined_window (a n : Nat) : Joined (window f a n) (List.range' a n) := by
  induction n generalizing a with
  | zero => rfl
  | succ n ih =>
      rw [List.range'_succ]
      refine ⟨⟨f a, ?_⟩, ?_⟩
      · rw [window, List.range'_succ]
        exact List.mem_cons_self ..
      · rw [without_window]
        exact ih (a + 1)

/-! ## Throttled jobs fork well -/

section WellForked

variable {fallible : Prop} {limit N : Nat} {job : Nat → Prog ι V Unit}

/-- Before job `l`, the last `limit` jobs before it are running. -/
theorem wellForked_throttledFrom (hlimit : 0 < limit) (huses : ∀ l < N, Uses (job l) (f l))
    (hindependent : ∀ j k, j < k → k < N → (f j).Independent (f k)) (hfallible : fallible → N ≤ limit)
    {commands : List (Command ι V)} {l n : Nat} (hN : l + n = N)
    (h : WellForked fallible (window f (N - limit) (min N limit)) commands) :
    WellForked fallible (window f (l - limit) (min l limit))
      (throttledFrom limit job l n ++ commands) := by
  induction n generalizing l with
  | zero =>
      rw [show l = N by omega]
      exact h
  | succ n ih =>
      have hrest := ih (l := l + 1) (by omega)
      by_cases hl : limit ≤ l
      · -- the oldest thread makes room for the new one
        rw [throttledFrom, if_pos hl, List.append_assoc, Nat.min_eq_right hl]
        have hwithout : without (l - limit) (window f (l - limit) limit) =
            window f (l - limit + 1) (limit - 1) := by
          obtain ⟨limit, rfl⟩ := Nat.exists_eq_succ_of_ne_zero hlimit.ne'
          exact without_window _ limit
        refine ⟨⟨f (l - limit), ?_⟩, ?_⟩
        · exact List.mem_map.2 ⟨l - limit, List.mem_range'_1.2 ⟨Nat.le_refl _, by omega⟩, rfl⟩
        rw [hwithout]
        refine ⟨fun hf => absurd (hfallible hf) (by omega), f l, huses l (by omega), ?_, ?_⟩
        · intro t ht
          have hmem := mem_window ht
          refine ⟨by omega, ?_⟩
          rw [hmem.2.2]
          exact hindependent _ _ (by omega) (by omega)
        · have hconcat := window_concat (f := f) (l - limit + 1) (limit - 1)
          rw [show l - limit + 1 + (limit - 1) = l by omega] at hconcat
          rw [hconcat, show l - limit + 1 = l + 1 - limit by omega,
            show limit - 1 + 1 = min (l + 1) limit by omega]
          exact hrest
      · have hlt : l < limit := Nat.lt_of_not_le hl
        rw [throttledFrom, if_neg hl, List.nil_append, Nat.min_eq_left hlt.le,
          Nat.sub_eq_zero_of_le hlt.le]
        refine ⟨fun _ => ?_, f l, huses l (by omega), ?_, ?_⟩
        · rw [List.range_eq_range']
          exact joined_window 0 l
        · intro t ht
          have hmem := mem_window ht
          refine ⟨by omega, ?_⟩
          rw [hmem.2.2]
          exact hindependent _ _ (by omega) (by omega)
        · have hconcat := window_concat (f := f) 0 l
          rw [Nat.zero_add] at hconcat
          rw [hconcat]
          rw [Nat.sub_eq_zero_of_le (by omega), Nat.min_eq_left (by omega)] at hrest
          exact hrest

theorem wellForked_throttled (hlimit : 0 < limit) (hle : limit ≤ N)
    (huses : ∀ l < N, Uses (job l) (f l))
    (hindependent : ∀ j k, j < k → k < N → (f j).Independent (f k))
    (hfallible : fallible → N ≤ limit) : WellForked fallible [] (throttled limit N job) := by
  have hjoins : WellForked fallible (window f (N - limit) (min N limit))
      ((List.range' (N - limit) limit).map .join : List (Command ι V)) := by
    rw [Nat.min_eq_right hle]
    exact (joined_window _ _).wellForked
  have h := wellForked_throttledFrom hlimit huses hindependent hfallible (Nat.zero_add N) hjoins
  rwa [Nat.zero_sub, Nat.zero_min] at h

end WellForked

section Outcome

variable [DecidableEq ι]

/-- The jobs one after the other. -/
def runJobs (job : Nat → Prog ι V Unit) (n : Nat) (m : ι → V) : ι → V :=
  (List.range n).foldl (fun m l => ((job l).run m).2) m

theorem sequential_throttledFrom (limit : Nat) (job : Nat → Prog ι V Unit) (l n : Nat) (m : ι → V) :
    sequential (throttledFrom limit job l n) m =
      (List.range' l n).foldl (fun m j => ((job j).run m).2) m := by
  induction n generalizing l m with
  | zero => rfl
  | succ n ih =>
      rw [throttledFrom, sequential_append, List.range'_succ, List.foldl_cons]
      by_cases hl : limit ≤ l
      · rw [if_pos hl]
        exact ih (l + 1) _
      · rw [if_neg hl]
        exact ih (l + 1) _

theorem sequential_throttled (limit n : Nat) (job : Nat → Prog ι V Unit) (m : ι → V) :
    sequential (throttled limit n job) m = runJobs job n m := by
  rw [throttled, sequential_append, sequential_throttledFrom, sequential_joins, runJobs,
    List.range_eq_range']

end Outcome

/-! ## A failure beyond the limit -/

theorem joinsKnown_throttledFrom {limit : Nat} (hlimit : 0 < limit) (job : Nat → Prog ι V Unit)
    {l n : Nat} {known : List Nat} (hknown : ∀ j < l, j ∈ known) {commands : List (Command ι V)}
    (h : ∀ known' : List Nat, (∀ j < l + n, j ∈ known') → JoinsKnown known' commands) :
    JoinsKnown known (throttledFrom limit job l n ++ commands) := by
  induction n generalizing l known with
  | zero => exact h known hknown
  | succ n ih =>
      have hnext : ∀ j < l + 1, j ∈ l :: known := by
        intro j hj
        rcases Nat.lt_succ_iff_lt_or_eq.1 hj with hj | rfl
        · exact List.mem_cons_of_mem l (hknown j hj)
        · exact List.mem_cons_self ..
      have hrest := ih hnext fun known' hknown' => h known' fun j hj => hknown' j (by omega)
      have hcreate : JoinsKnown known
          (.create l (job l) (List.range l) :: (throttledFrom limit job (l + 1) n ++ commands)) :=
        ⟨fun j hj => hknown j (List.mem_range.1 hj), hrest⟩
      rw [throttledFrom]
      by_cases hl : limit ≤ l
      · rw [if_pos hl]
        exact ⟨hknown _ (by omega), hcreate⟩
      · rw [if_neg hl]
        exact hcreate

/-- Only threads that have been created are joined. -/
theorem joinsKnown_throttled {limit n : Nat} (hlimit : 0 < limit) (hle : limit ≤ n)
    (job : Nat → Prog ι V Unit) : JoinsKnown [] (throttled limit n job) := by
  refine joinsKnown_throttledFrom hlimit job (fun j hj => absurd hj (Nat.not_lt_zero j)) ?_
  intro known hknown
  refine joinsKnown_joins fun j hj => hknown j ?_
  have hj' := List.mem_range'_1.1 hj
  omega

section Failure

variable [DecidableEq ι]

/-- A thread can run to its end while the others wait. -/
theorem reaches_run (fallible : Prop) {commands : List (Command ι V)}
    (before after : List (Nat × Prog ι V Unit)) {failed : Bool} (handle : Nat) (p : Prog ι V Unit)
    (m : ι → V) :
    Reaches fallible ⟨commands, before ++ (handle, p) :: after, m, failed⟩
      ⟨commands, before ++ (handle, .ret ()) :: after, (p.run m).2, failed⟩ := by
  induction p generalizing m with
  | ret u => exact Relation.ReflTransGen.refl
  | read i k ih => exact Relation.ReflTransGen.head .read (ih (m i) m)
  | write i v k ih => exact Relation.ReflTransGen.head .write (ih (Function.update m i v))

/-- The first jobs are created without any waiting. -/
theorem reaches_create (fallible : Prop) (limit : Nat) (job : Nat → Prog ι V Unit)
    (commands : List (Command ι V)) (m : ι → V) {l k : Nat} (hl : l + k ≤ limit) (n : Nat)
    (threads : List (Nat × Prog ι V Unit)) :
    Reaches fallible ⟨throttledFrom limit job l (k + n) ++ commands, threads, m, false⟩
      ⟨throttledFrom limit job (l + k) n ++ commands,
        threads ++ (List.range' l k).map (fun j => (j, job j)), m, false⟩ := by
  induction k generalizing l threads with
  | zero =>
      rw [Nat.zero_add, List.range'_zero, List.map_nil, List.append_nil]
      exact Relation.ReflTransGen.refl
  | succ k ih =>
      have hlt : ¬ limit ≤ l := by omega
      rw [show k + 1 + n = (k + n) + 1 by omega, throttledFrom, if_neg hlt, List.nil_append,
        List.range'_succ, List.map_cons, show l + (k + 1) = l + 1 + k by omega]
      refine Relation.ReflTransGen.head .create ?_
      have hrest := ih (l := l + 1) (by omega) (threads ++ [(l, job l)])
      rwa [List.append_assoc] at hrest

/-- With fewer threads than jobs, a failure may be answered by joining the first thread twice. -/
theorem exists_stuck {fallible : Prop} (hf : fallible) {limit n : Nat} (hlimit : 0 < limit)
    (hlt : limit < n) (job : Nat → Prog ι V Unit) (commands : List (Command ι V)) (m : ι → V) :
    ∃ s, Reaches fallible (.start (throttled limit n job ++ commands) m) s ∧ s.Stuck := by
  obtain ⟨rest, rfl⟩ : ∃ rest, n = limit + (rest + 1) := ⟨n - limit - 1, by omega⟩
  obtain ⟨others, rfl⟩ := Nat.exists_eq_succ_of_ne_zero hlimit.ne'
  -- the first threads are created, and the thread of job 0 makes room for one more
  have hcreate := reaches_create fallible (others + 1) job
    ((List.range' (others + 1 + (rest + 1) - (others + 1)) (others + 1)).map .join ++ commands) m
    (Nat.le_of_eq (Nat.zero_add (others + 1))) (rest + 1) []
  rw [← List.append_assoc, Nat.zero_add, throttledFrom, if_pos (Nat.le_refl _), Nat.sub_self]
    at hcreate
  -- job 0 runs to its end and is joined; then a creation fails
  have hjoin := (hcreate.trans (reaches_run fallible [] _ 0 (job 0) m)).tail .join
  have hfail := hjoin.tail (.createFails hf)
  refine ⟨_, hfail, 0, (List.range' 1 others).map .join, ?_, ?_⟩
  · rw [List.range_eq_range', List.range'_succ, List.map_cons]
  · intro t ht
    rcases List.mem_map.1 ht with ⟨j, hj, rfl⟩
    have hj' := List.mem_range'_1.1 hj
    exact Nat.ne_of_gt hj'.1

end Failure

end Threads
