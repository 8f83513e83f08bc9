import AptCacher.Spec.Sys
import Mathlib.Data.Nat.Init

/-!
# Fair runs

A run goes on for ever, with moments at which nothing happens. It is fair if a process that can
always move does so at some time.

* `FairRun`: such a run; `mover` tells whose step an action is; `FairRun.keeps`: what stays true.
* `Progress`: a process makes its way to a goal by steps that lower a rank.
* `FairRun.leads`: in a fair run it arrives.
* `FairRun.ofExec`: a finite run that ends where no process can move.
-/

universe u v

namespace AptCacher.Spec

variable {σ : Type u} {α : Type v}

/-- The process `i` can move. -/
def Sys.Enabled (S : Sys σ α) (mover : α → Option Nat) (i : Nat) (s : σ) : Prop :=
  ∃ a, mover a = some i ∧ (S.step s a).isSome = true

/-- A fair run. -/
structure FairRun (S : Sys σ α) (mover : α → Option Nat) where
  state : Nat → σ
  act : Nat → Option α
  init : S.init (state 0)
  next : ∀ n, (act n = none ∧ state (n + 1) = state n) ∨
    ∃ a, act n = some a ∧ S.step (state n) a = some (state (n + 1))
  fair : ∀ i n, (∀ m, n ≤ m → S.Enabled mover i (state m)) →
    ∃ m, n ≤ m ∧ ∃ a, act m = some a ∧ mover a = some i

/-- From `P` the process `i` makes its way to `goal`. -/
structure Progress (S : Sys σ α) (mover : α → Option Nat) (i : Nat) (P goal : σ → Prop)
    (rank : σ → Nat) : Prop where
  enabled : ∀ s, S.Reach s → P s → ¬ goal s → S.Enabled mover i s
  keeps : ∀ s a s', S.Reach s → P s → ¬ goal s → S.step s a = some s' →
    goal s' ∨ P s' ∧ rank s' ≤ rank s ∧ (mover a = some i → rank s' < rank s)

namespace FairRun

variable {S : Sys σ α} {mover : α → Option Nat} (run : FairRun S mover)

theorem reach (n : Nat) : S.Reach (run.state n) := by
  induction n with
  | zero => exact .init run.init
  | succ n ih =>
    rcases run.next n with ⟨-, hs⟩ | ⟨a, -, hs⟩
    · rwa [hs]
    · exact .step a ih hs

variable {i : Nat} {P goal : σ → Prop} {rank : σ → Nat}

/-- What every step keeps stays true. -/
theorem keeps (h : ∀ s a s', P s → S.step s a = some s' → P s') {n m : Nat} (hm : n ≤ m)
    (hn : P (run.state n)) : P (run.state m) := by
  induction m, hm using Nat.le_induction with
  | base => exact hn
  | succ m _ ih =>
    rcases run.next m with ⟨-, hs⟩ | ⟨a, -, hs⟩
    · rwa [hs]
    · exact h _ a _ ih hs

/-- Until the goal is reached, the rank does not rise. -/
theorem stays (h : Progress S mover i P goal rank) {n : Nat} (hn : P (run.state n))
    (hgoal : ∀ m, n ≤ m → ¬ goal (run.state m)) {m : Nat} (hm : n ≤ m) :
    P (run.state m) ∧ rank (run.state m) ≤ rank (run.state n) := by
  induction m, hm using Nat.le_induction with
  | base => exact ⟨hn, Nat.le_refl _⟩
  | succ m hm ih =>
    rcases run.next m with ⟨-, hs⟩ | ⟨a, -, hs⟩
    · rwa [hs]
    · rcases h.keeps _ a _ (run.reach m) ih.1 (hgoal m hm) hs with hg | ⟨hp, hle, -⟩
      · exact absurd hg (hgoal (m + 1) (by omega))
      · exact ⟨hp, Nat.le_trans hle ih.2⟩

theorem leads (h : Progress S mover i P goal rank) {n : Nat} (hn : P (run.state n)) :
    ∃ m, n ≤ m ∧ goal (run.state m) := by
  -- Induction on the rank: a step of `i` that does not reach the goal lowers it.
  suffices H : ∀ r n, rank (run.state n) = r → P (run.state n) →
      ∃ m, n ≤ m ∧ goal (run.state m) from H _ n rfl hn
  intro r
  induction r using Nat.strong_induction_on with
  | _ r ih =>
    intro n hr hn
    by_contra hnone
    have hgoal : ∀ m, n ≤ m → ¬ goal (run.state m) := fun m hm hg => hnone ⟨m, hm, hg⟩
    obtain ⟨m, hm, a, hact, hmover⟩ := run.fair i n fun m hm =>
      h.enabled _ (run.reach m) (run.stays h hn hgoal hm).1 (hgoal m hm)
    obtain ⟨hp, hle⟩ := run.stays h hn hgoal hm
    rcases run.next m with ⟨hnil, -⟩ | ⟨b, hb, hs⟩
    · rw [hact] at hnil
      cases hnil
    · cases hact.symm.trans hb
      rcases h.keeps _ a _ (run.reach m) hp (hgoal m hm) hs with hg | ⟨hp', -, hlt⟩
      · exact hgoal (m + 1) (by omega) hg
      · obtain ⟨k, hk, hg⟩ := ih _ (hr ▸ Nat.lt_of_lt_of_le (hlt hmover) hle) (m + 1) rfl hp'
        exact hgoal k (by omega) hg

variable {s s' : σ} {as : List α}

/-- A run whose actions lead to a state in which no process can move, and which rests there. -/
def ofExec (hs : S.init s) (h : S.exec s as = some s') (hrest : ∀ i, ¬ S.Enabled mover i s') :
    FairRun S mover where
  state n := (S.exec s (as.take n)).getD s
  act n := as[n]?
  init := hs
  next n := by
    cases ha : as[n]? with
    | none =>
      have hn := List.getElem?_eq_none_iff.mp ha
      rw [List.take_of_length_le hn, List.take_of_length_le (by omega)]
      exact .inl ⟨rfl, rfl⟩
    | some a =>
      refine .inr ⟨a, rfl, ?_⟩
      have htake : as.take (n + 1) = as.take n ++ [a] := by rw [List.take_add_one, ha]; rfl
      -- the state after one more action is there, since the whole run is
      rw [← List.take_append_drop (n + 1) as, Sys.exec_append] at h
      obtain ⟨u, hu, -⟩ := Option.bind_eq_some_iff.mp h
      rw [hu]
      rw [htake, Sys.exec_append] at hu
      obtain ⟨t, ht, hstep⟩ := Option.bind_eq_some_iff.mp hu
      rw [ht]
      obtain ⟨u', hu', hlast⟩ := Option.bind_eq_some_iff.mp hstep
      cases hlast
      exact hu'
  fair i n henabled := by
    have hlast := henabled (n + as.length) (by omega)
    rw [List.take_of_length_le (by omega), h] at hlast
    exact absurd hlast (hrest i)

end FairRun

end AptCacher.Spec
