import AptCacher.Spec.Prog
import AptCacher.Spec.Sys

/-!
# Programs side by side

Programs run in threads over one store, one effect at a time, in any order; between two effects the
environment can change the store.

* `sys`: the system; a run starts programs, makes steps of threads and steps of the environment.
* `Informed`, `informed`: what each thread knows of the store stays true while the others move.
-/

universe u v w

namespace AptCacher.Spec

namespace Threads

variable {E : Type → Type u} {σ : Type v} {χ : Type w} {ρ η : Type}

/-- The store, and what is left of each program. -/
structure World (E : Type → Type u) (σ : Type v) : Type (max 1 u v) where
  store : σ
  threads : List (Prog E Unit)

/-- What happens. -/
inductive Act (ρ η : Type) (χ : Type w) : Type w
  | start (r : ρ)
  | step (i : Nat) (x : χ)
  | env (a : η)

/-- The next effect of the thread `i`. -/
def stepThread (sem : Prog.Sem E σ χ) (wd : World E σ) (i : Nat) (x : χ) : Option (World E σ) :=
  match wd.threads[i]? with
  | some (.op e k) => (sem e wd.store x).map fun y => ⟨y.2, wd.threads.set i (k y.1)⟩
  | _ => none

/-- The programs `start r` over the effects `sem`, in the environment `env`. -/
def sys (sem : Prog.Sem E σ χ) (start : ρ → Prog E Unit) (env : σ → η → Option σ)
    (init : σ → Prop) : Sys (World E σ) (Act ρ η χ) where
  init wd := init wd.store ∧ wd.threads = []
  step wd
    | .start r => some { wd with threads := wd.threads ++ [start r] }
    | .step i x => stepThread sem wd i x
    | .env a => (env wd.store a).map fun s => { wd with store := s }

section Knowledge

variable {ι : Type w} {wp : Prog.Wp E ι} {K : σ → ι → Prop} {sem : Prog.Sem E σ χ}
  {start : ρ → Prog E Unit} {env : σ → η → Option σ} {init : σ → Prop}
  {C : World E σ → Act ρ η χ → Prop} [∀ wd a, Decidable (C wd a)]

/-- The program meets its specification from something that `K` says of the store. -/
def Informed (wp : Prog.Wp E ι) (K : σ → ι → Prop) (s : σ) (p : Prog E Unit) : Prop :=
  ∃ i, Prog.Sat wp p i (fun _ _ => True) ∧ K s i

/-- In runs of steps in `C`, every thread knows what its program needs, if a step of a thread leaves
it informed and a step of another one does not take away what it knows. -/
theorem informed (hstart : ∀ r s, Informed wp K s (start r))
    (henv : ∀ s a s' p, env s a = some s' → Informed wp K s p → Informed wp K s' p)
    (hself : ∀ {β : Type} (e : E β) (k : β → Prog E Unit) s i x b s', K s i →
      Prog.Sat wp (.op e k) i (fun _ _ => True) → sem e s x = some (b, s') →
        Informed wp K s' (k b))
    (hother : ∀ wd i x wd', C wd (.step i x) → stepThread sem wd i x = some wd' →
      ∀ p ∈ wd.threads, Informed wp K wd.store p → Informed wp K wd'.store p) {wd : World E σ}
    (h : ((sys sem start env init).guard C).Reach wd) :
    ∀ p ∈ wd.threads, Informed wp K wd.store p := by
  refine Sys.Inductive.reach (S := (sys sem start env init).guard C)
    (I := fun wd => ∀ p ∈ wd.threads, Informed wp K wd.store p) (.of_guard ?_ ?_) h
  · rintro wd ⟨-, hnil⟩ p hp
    rw [hnil] at hp
    cases hp
  · intro wd a wd' hall hC hstep
    cases a with
    | start r =>
      cases hstep
      intro p hp
      rcases List.mem_append.mp hp with hp | hp
      · exact hall p hp
      · rw [List.mem_singleton.mp hp]
        exact hstart r _
    | env a =>
      obtain ⟨s, hs, rfl⟩ := Option.map_eq_some_iff.mp hstep
      exact fun p hp => henv _ a _ p hs (hall p hp)
    | step i x =>
      have hothers := hother wd i x wd' hC hstep
      simp only [sys, stepThread] at hstep
      split at hstep
      swap
      · cases hstep
      rename_i β e k hi
      obtain ⟨⟨b, s⟩, hs, rfl⟩ := Option.map_eq_some_iff.mp hstep
      intro p hp
      rcases List.mem_or_eq_of_mem_set hp with hp | rfl
      · exact hothers p hp (hall p hp)
      · obtain ⟨j, hsat, hK⟩ := hall _ (List.mem_of_getElem? hi)
        exact hself e k _ j x b s hK hsat hs

end Knowledge

end Threads
end AptCacher.Spec
