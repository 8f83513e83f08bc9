import Mathlib.Logic.Function.Basic
import Mathlib.Data.Option.Basic

/-!
# Transition systems and their invariants

A system is a type of global states, its initial states, and a partial step function: an action
names who moves and every choice the move makes (which ready channel a `select` takes, what a
read returns), and an action that is not possible in a state has no successor. A statement about
every interleaving is a statement about every list of actions.

* `Sys.Reach`: the reachable states; `Sys.Steps`: the states a given state leads to.
* `Sys.Inductive`: an invariant that holds initially and that every step keeps;
  `Inductive.reach` is the one induction over runs, `Steps.keeps` its form from a given state.
* `Sys.guard C`: the system with only the steps that meet `C`; its runs are the runs of the
  system whose steps all meet `C`.
* `Sys.exec`: a run as a computation, for runs on concrete actions.
-/

universe u v

namespace AptCacher.Spec

/-- A computation that succeeds, by its value: how a concrete run is evaluated. -/
theorem eq_some_getD {α : Type u} {o : Option α} (d : α) (h : o.isSome = true) :
    o = some (o.getD d) := by
  obtain ⟨a, rfl⟩ := Option.isSome_iff_exists.mp h
  rfl

/-- A system with states `σ` and actions `α` (module doc). -/
structure Sys (σ : Type u) (α : Type v) where
  /-- The initial states. -/
  init : σ → Prop
  /-- The successor of a state under an action, if the action is possible there. -/
  step : σ → α → Option σ

namespace Sys

variable {σ : Type u} {α : Type v} (S : Sys σ α)

/-- The states that a run reaches. -/
inductive Reach : σ → Prop
  | init {s : σ} : S.init s → Reach s
  | step {s s' : σ} (a : α) : Reach s → S.step s a = some s' → Reach s'

/-- `S.Steps s s'`: a run leads from `s` to `s'`. -/
inductive Steps : σ → σ → Prop
  | refl (s : σ) : Steps s s
  | tail {s s' s'' : σ} (a : α) : Steps s s' → S.step s' a = some s'' → Steps s s''

/-- An inductive invariant: it holds initially and every step keeps it. -/
structure Inductive (I : σ → Prop) : Prop where
  init : ∀ s, S.init s → I s
  step : ∀ s a s', I s → S.step s a = some s' → I s'

/-- The system with only the steps that meet `C`. -/
def guard (C : σ → α → Prop) [∀ s a, Decidable (C s a)] : Sys σ α where
  init := S.init
  step s a := if C s a then S.step s a else none

/-- The state after the actions `as`, if each is possible. -/
def exec (s : σ) : List α → Option σ
  | [] => some s
  | a :: as => (S.step s a).bind fun s' => exec s' as

variable {S}

theorem Inductive.reach {I : σ → Prop} (h : S.Inductive I) {s : σ} (hs : S.Reach s) : I s := by
  induction hs with
  | init hi => exact h.init _ hi
  | step a _ hst ih => exact h.step _ a _ ih hst

/-- What every step keeps, a run keeps. -/
theorem Steps.keeps {P : σ → Prop} (h : ∀ s a s', P s → S.step s a = some s' → P s')
    {s s' : σ} (hs : S.Steps s s') (hp : P s) : P s' := by
  induction hs with
  | refl => exact hp
  | tail a _ hst ih => exact h _ a _ ih hst

/-- What every step out of a reachable state keeps, a run from a reachable state keeps. -/
theorem Steps.keeps_of_reach {P : σ → Prop}
    (h : ∀ s a s', S.Reach s → P s → S.step s a = some s' → P s')
    {s s' : σ} (hr : S.Reach s) (hs : S.Steps s s') (hp : P s) : P s' := by
  have key : S.Reach s' ∧ P s' :=
    hs.keeps (P := fun t => S.Reach t ∧ P t)
      (fun t a t' ht hst => ⟨.step a ht.1 hst, h t a t' ht.1 ht.2 hst⟩) ⟨hr, hp⟩
  exact key.2

theorem Reach.steps {s s' : σ} (hr : S.Reach s) (hs : S.Steps s s') : S.Reach s' :=
  hs.keeps (fun _ a _ ht hst => .step a ht hst) hr

theorem exec_append {s : σ} (as bs : List α) :
    S.exec s (as ++ bs) = (S.exec s as).bind fun s' => S.exec s' bs := by
  induction as generalizing s with
  | nil => rfl
  | cons a as ih => simp [exec, ih, Option.bind_assoc]

theorem Steps.exec {s s' : σ} {as : List α} (h : S.exec s as = some s') : S.Steps s s' := by
  suffices H : ∀ (t : σ), S.Steps s t → S.exec t as = some s' → S.Steps s s' from H s (.refl s) h
  clear h
  induction as with
  | nil => intro t ht h; cases h; exact ht
  | cons a as ih =>
    intro t ht h
    obtain ⟨t', ht', h'⟩ := Option.bind_eq_some_iff.mp h
    exact ih t' (.tail a ht ht') h'

theorem Reach.exec {s s' : σ} {as : List α} (hs : S.init s) (h : S.exec s as = some s') :
    S.Reach s' :=
  Reach.steps (.init hs) (.exec h)

section Guard

variable {C : σ → α → Prop} [∀ s a, Decidable (C s a)]

theorem guard_step {s s' : σ} {a : α} :
    (S.guard C).step s a = some s' ↔ C s a ∧ S.step s a = some s' := by
  simp only [guard]
  split <;> simp_all

/-- A guard that every step meets changes nothing. -/
theorem Reach.guard {s : σ} (h : S.Reach s) (hC : ∀ s a, C s a) : (S.guard C).Reach s := by
  induction h with
  | init hi => exact .init hi
  | step a _ hst ih => exact .step a ih (guard_step.mpr ⟨hC _ a, hst⟩)

/-- An invariant of the guarded system: each step that meets the guard keeps it. -/
theorem Inductive.of_guard {I : σ → Prop} (h0 : ∀ s, S.init s → I s)
    (h : ∀ s a s', I s → C s a → S.step s a = some s' → I s') : (S.guard C).Inductive I where
  init := h0
  step s a s' hi hs := by
    obtain ⟨hc, hs⟩ := guard_step.mp hs
    exact h s a s' hi hc hs

end Guard

end Sys

end AptCacher.Spec
