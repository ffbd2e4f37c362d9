import Mathlib.Data.List.Basic

/-!
# Regexp — anchored regular expressions with capture groups

The fragment without alternation: literal texts, greedy `[...]+` runs of a class, capture groups,
optional parts and concatenation.  We give

- `Matches r w cs`  : the relation "`r` matches the whole of `w`, its groups having captured `cs`"
- `run r i k`       : the backtracking matcher, longest choice first, in continuation style
- `fullMatch? r i`  : the matcher anchored at both ends

and prove the matcher sound and complete against the relation.  A group in an optional part that was
skipped captures `none`.
-/

inductive Regexp (α : Type) where
  | text (w : List α)
  | plus (p : α → Bool)
  | group (r : Regexp α)
  | opt (r : Regexp α)
  | seq (r s : Regexp α)

namespace Regexp

variable {α β : Type}

/-- What the groups captured, in the order of their opening parentheses. -/
abbrev Captures (α : Type) := List (Option (List α))

/-- The number of capture groups. -/
def groups : Regexp α → Nat
  | text _ => 0
  | plus _ => 0
  | group r => r.groups + 1
  | opt r => r.groups
  | seq r s => r.groups + s.groups

/-! ## The matching relation -/

inductive Matches : Regexp α → List α → Captures α → Prop where
  | text (w : List α) : Matches (.text w) w []
  | plus {p : α → Bool} {w : List α} :
      w ≠ [] → (∀ a ∈ w, p a = true) → Matches (.plus p) w []
  | group {r : Regexp α} {w : List α} {cs : Captures α} :
      Matches r w cs → Matches (.group r) w (some w :: cs)
  | opt_taken {r : Regexp α} {w : List α} {cs : Captures α} :
      Matches r w cs → Matches (.opt r) w cs
  | opt_skipped (r : Regexp α) : Matches (.opt r) [] (List.replicate r.groups none)
  | seq {r s : Regexp α} {u v : List α} {cs ds : Captures α} :
      Matches r u cs → Matches s v ds → Matches (.seq r s) (u ++ v) (cs ++ ds)

theorem matches_text_iff {w u : List α} {cs : Captures α} :
    Matches (.text w) u cs ↔ u = w ∧ cs = [] := by
  constructor
  · intro h
    cases h with
    | text => exact ⟨rfl, rfl⟩
  · rintro ⟨rfl, rfl⟩
    exact Matches.text _

theorem matches_group_plus_iff {p : α → Bool} {u : List α} {cs : Captures α} :
    Matches (.group (.plus p)) u cs ↔ (u ≠ [] ∧ ∀ a ∈ u, p a = true) ∧ cs = [some u] := by
  constructor
  · intro h
    cases h with
    | group h =>
        cases h with
        | plus hne hall => exact ⟨⟨hne, hall⟩, rfl⟩
  · rintro ⟨⟨hne, hall⟩, rfl⟩
    exact Matches.group (Matches.plus hne hall)

theorem matches_opt_iff {r : Regexp α} {u : List α} {cs : Captures α} :
    Matches (.opt r) u cs ↔ Matches r u cs ∨ (u = [] ∧ cs = List.replicate r.groups none) := by
  constructor
  · intro h
    cases h with
    | opt_taken h => exact Or.inl h
    | opt_skipped => exact Or.inr ⟨rfl, rfl⟩
  · rintro (h | ⟨rfl, rfl⟩)
    · exact Matches.opt_taken h
    · exact Matches.opt_skipped r

theorem matches_seq_iff {r s : Regexp α} {w : List α} {cs : Captures α} :
    Matches (.seq r s) w cs ↔
      ∃ u v cu cv, Matches r u cu ∧ Matches s v cv ∧ w = u ++ v ∧ cs = cu ++ cv := by
  constructor
  · intro h
    cases h with
    | seq hr hs => exact ⟨_, _, _, _, hr, hs, rfl, rfl⟩
  · rintro ⟨u, v, cu, cv, hr, hs, rfl, rfl⟩
    exact Matches.seq hr hs

theorem matches_text_seq_iff {w u : List α} {r : Regexp α} {cs : Captures α} :
    Matches (.seq (.text w) r) u cs ↔ ∃ v, u = w ++ v ∧ Matches r v cs := by
  rw [matches_seq_iff]
  constructor
  · rintro ⟨_, v, _, cv, htext, hr, rfl, rfl⟩
    rcases matches_text_iff.1 htext with ⟨rfl, rfl⟩
    exact ⟨v, rfl, hr⟩
  · rintro ⟨v, rfl, hr⟩
    exact ⟨w, v, [], cs, Matches.text w, hr, rfl, rfl⟩

theorem matches_group_plus_seq_iff {p : α → Bool} {u : List α} {r : Regexp α} {cs : Captures α} :
    Matches (.seq (.group (.plus p)) r) u cs ↔
      ∃ w v ds, (w ≠ [] ∧ ∀ a ∈ w, p a = true) ∧ u = w ++ v ∧ cs = some w :: ds ∧
        Matches r v ds := by
  rw [matches_seq_iff]
  constructor
  · rintro ⟨w, v, _, ds, hgroup, hr, rfl, rfl⟩
    rcases matches_group_plus_iff.1 hgroup with ⟨hw, rfl⟩
    exact ⟨w, v, ds, hw, rfl, rfl, hr⟩
  · rintro ⟨w, v, ds, hw, rfl, rfl, hr⟩
    exact ⟨w, v, [some w], ds, matches_group_plus_iff.2 ⟨hw, rfl⟩, hr, rfl, rfl⟩

/-! ## The backtracking matcher -/

/-- Go on reading `p`-characters as long as possible; give them back one by one when the
continuation fails. -/
def greedy (p : α → Bool) (k : List α → Option β) : List α → Option β
  | [] => k []
  | a :: rest =>
      if p a then
        match greedy p k rest with
        | some b => some b
        | none => k (a :: rest)
      else
        k (a :: rest)

/-- Match `r` at the start of the input and hand captures and rest to the continuation. -/
def run [DecidableEq α] : Regexp α → List α → (Captures α → List α → Option β) → Option β
  | text w, i, k => if w.isPrefixOf i then k [] (i.drop w.length) else none
  | plus p, i, k =>
      match i with
      | [] => none
      | a :: rest => if p a then greedy p (k []) rest else none
  | group r, i, k =>
      run r i fun cs rest => k (some (i.take (i.length - rest.length)) :: cs) rest
  | opt r, i, k =>
      match run r i k with
      | some b => some b
      | none => k (List.replicate r.groups none) i
  | seq r s, i, k => run r i fun cs rest => run s rest fun ds rest' => k (cs ++ ds) rest'

/-- The matcher anchored at both ends (`\A ... \z`). -/
def fullMatch? [DecidableEq α] (r : Regexp α) (i : List α) : Option (Captures α) :=
  run r i fun cs rest => if rest.isEmpty then some cs else none

/-! ## Soundness -/

theorem greedy_sound {p : α → Bool} {k : List α → Option β} {i : List α} {b : β}
    (h : greedy p k i = some b) :
    ∃ w rest, i = w ++ rest ∧ (∀ a ∈ w, p a = true) ∧ k rest = some b := by
  induction i with
  | nil => exact ⟨[], [], rfl, by simp, h⟩
  | cons a i ih =>
      by_cases hp : p a = true
      · cases hrec : greedy p k i with
        | some b' =>
            have hb : b' = b := by simpa [greedy, hp, hrec] using h
            rcases ih (by rw [hrec, hb]) with ⟨w, rest, rfl, hw, hk⟩
            refine ⟨a :: w, rest, rfl, ?_, hk⟩
            intro x hx
            rcases List.mem_cons.1 hx with rfl | hx
            · exact hp
            · exact hw x hx
        | none =>
            have hk : k (a :: i) = some b := by simpa [greedy, hp, hrec] using h
            exact ⟨[], a :: i, rfl, by simp, hk⟩
      · have hk : k (a :: i) = some b := by simpa [greedy, hp] using h
        exact ⟨[], a :: i, rfl, by simp, hk⟩

theorem run_sound [DecidableEq α] {r : Regexp α} {i : List α}
    {k : Captures α → List α → Option β} {b : β} (h : run r i k = some b) :
    ∃ w rest cs, i = w ++ rest ∧ Matches r w cs ∧ k cs rest = some b := by
  induction r generalizing i k b with
  | text w =>
      by_cases hw : w.isPrefixOf i = true
      · have hk : k [] (i.drop w.length) = some b := by simpa [run, hw] using h
        rcases List.isPrefixOf_iff_prefix.1 hw with ⟨rest, rfl⟩
        exact ⟨w, rest, [], rfl, Matches.text w, by simpa using hk⟩
      · simp [run, hw] at h
  | plus p =>
      cases i with
      | nil => simp [run] at h
      | cons a i =>
          by_cases hp : p a = true
          · have hg : greedy p (k []) i = some b := by simpa [run, hp] using h
            rcases greedy_sound hg with ⟨w, rest, rfl, hw, hk⟩
            refine ⟨a :: w, rest, [], rfl, Matches.plus (by simp) ?_, hk⟩
            intro x hx
            rcases List.mem_cons.1 hx with rfl | hx
            · exact hp
            · exact hw x hx
          · simp [run, hp] at h
  | group r ih =>
      rcases ih (by simpa [run] using h) with ⟨w, rest, cs, rfl, hm, hk⟩
      refine ⟨w, rest, some w :: cs, rfl, Matches.group hm, ?_⟩
      simpa using hk
  -- the optional part is skipped only when taking it fails
  | opt r ih =>
      cases hr : run r i k with
      | some b' =>
          have hb : b' = b := by simpa [run, hr] using h
          rcases ih (by rw [hr, hb]) with ⟨w, rest, cs, rfl, hm, hk⟩
          exact ⟨w, rest, cs, rfl, Matches.opt_taken hm, hk⟩
      | none =>
          have hk : k (List.replicate r.groups none) i = some b := by simpa [run, hr] using h
          exact ⟨[], i, _, rfl, Matches.opt_skipped r, hk⟩
  | seq r s ihr ihs =>
      rcases ihr (by simpa [run] using h) with ⟨u, rest, cs, rfl, hr, hk⟩
      rcases ihs hk with ⟨v, rest', ds, rfl, hs, hk'⟩
      exact ⟨u ++ v, rest', cs ++ ds, by simp, Matches.seq hr hs, hk'⟩

/-! ## Completeness -/

theorem greedy_complete {p : α → Bool} {k : List α → Option β} {w rest : List α}
    (hw : ∀ a ∈ w, p a = true) (hk : (k rest).isSome) : (greedy p k (w ++ rest)).isSome := by
  induction w with
  | nil =>
      cases rest with
      | nil => simpa [greedy] using hk
      | cons a rest =>
          by_cases hp : p a = true
          · cases hrec : greedy p k rest with
            | some b => simp [greedy, hp, hrec]
            | none => simpa [greedy, hp, hrec] using hk
          · simpa [greedy, hp] using hk
  | cons a w ih =>
      have hp : p a = true := hw a (by simp)
      have hrec := ih fun x hx => hw x (by simp [hx])
      rcases Option.isSome_iff_exists.1 hrec with ⟨b, hb⟩
      simp [greedy, hp, hb]

theorem run_complete [DecidableEq α] {r : Regexp α} {w : List α} {cs : Captures α}
    (h : Matches r w cs) : ∀ {rest : List α} {k : Captures α → List α → Option β},
      (k cs rest).isSome → (run r (w ++ rest) k).isSome := by
  induction h with
  | text w =>
      intro rest k hk
      have hpre : w.isPrefixOf (w ++ rest) = true :=
        List.isPrefixOf_iff_prefix.2 (List.prefix_append w rest)
      simpa [run, hpre] using hk
  | @plus p w hne hall =>
      intro rest k hk
      cases w with
      | nil => exact absurd rfl hne
      | cons a w =>
          have hp : p a = true := hall a (by simp)
          have htail : ∀ x ∈ w, p x = true := fun x hx => hall x (List.mem_cons_of_mem a hx)
          have hrec := greedy_complete (k := k []) htail hk
          simpa [run, hp] using hrec
  | group _ ih =>
      intro rest k hk
      rw [run]
      apply ih
      -- what the group captured is the input up to the rest
      simpa using hk
  | opt_taken _ ih =>
      intro rest k hk
      rcases Option.isSome_iff_exists.1 (ih hk) with ⟨b, hb⟩
      simp [run, hb]
  | opt_skipped r =>
      intro rest k hk
      cases hr : run r rest k with
      | some b => simp [run, hr]
      | none => simpa [run, hr] using hk
  | seq _ _ ihr ihs =>
      intro rest k hk
      rw [List.append_assoc]
      exact ihr (ihs hk)

/-! ## The anchored matcher -/

theorem fullMatch?_sound [DecidableEq α] {r : Regexp α} {i : List α} {cs : Captures α}
    (h : fullMatch? r i = some cs) : Matches r i cs := by
  rcases run_sound h with ⟨w, rest, ds, rfl, hm, hk⟩
  cases rest with
  | nil =>
      have hcs : ds = cs := by simpa using hk
      simpa [hcs] using hm
  | cons a rest => simp at hk

theorem fullMatch?_isSome_iff [DecidableEq α] {r : Regexp α} {i : List α} :
    (fullMatch? r i).isSome ↔ ∃ cs, Matches r i cs := by
  constructor
  · intro h
    rcases Option.isSome_iff_exists.1 h with ⟨cs, hcs⟩
    exact ⟨cs, fullMatch?_sound hcs⟩
  · rintro ⟨cs, h⟩
    have hend : (if ([] : List α).isEmpty then some cs else none).isSome = true := by simp
    have hrun := run_complete h (k := fun cs rest => if rest.isEmpty then some cs else none) hend
    simpa [fullMatch?] using hrun

/-- Where the groups can capture in one way only, the matcher finds it. -/
theorem fullMatch?_eq_some [DecidableEq α] {r : Regexp α} {i : List α} {cs : Captures α}
    (h : Matches r i cs) (huniq : ∀ ds, Matches r i ds → ds = cs) : fullMatch? r i = some cs := by
  rcases Option.isSome_iff_exists.1 (fullMatch?_isSome_iff.2 ⟨cs, h⟩) with ⟨ds, hds⟩
  rw [hds, huniq ds (fullMatch?_sound hds)]

end Regexp
