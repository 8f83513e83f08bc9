import Mathlib.Logic.Function.Basic

/-!
# Computations whose effects survive a failure

A computation on a state that can fail, where a failure does not undo what was done before it: a
file that was written stays written.

* `Ends m s Q R`: from `s`, `m` returns a result that meets `Q` or fails with an error that meets
  `R`, each together with the state it leaves. The `ends_*` lemmas compute it step by step.
* `eq_of_ends`: the one result that a computation can have is its result.
* `orElse`, `withError`: what to do with an error.
* `bind_eq_ok`: the result of a sequence without a state.
-/

namespace AptCacher.Spec

/-- Computations on `σ` that can fail with an `ε`. -/
abbrev Fail (ε σ α : Type) := ExceptT ε (StateM σ) α

namespace Fail

variable {ε σ α β : Type}

/-- `m` from `s` returns as `Q` says or fails as `R` says. -/
def Ends (m : Fail ε σ α) (s : σ) (Q : α → σ → Prop) (R : ε → σ → Prop) : Prop :=
  match m s with
  | (.ok a, s') => Q a s'
  | (.error e, s') => R e s'

/-- Go on only if `c` holds. -/
def ensure (c : Prop) [Decidable c] (e : ε) : Fail ε σ PUnit := if c then pure ⟨⟩ else throw e

/-- Go on with the value that is there. -/
def ofExcept (r : Except ε α) : Fail ε σ α := fun s => (r, s)

/-- Fail with the error that `f` makes of `m`'s. -/
def withError (f : ε → ε) (m : Fail ε σ α) : Fail ε σ α := fun s =>
  match m s with
  | (.ok a, s') => (.ok a, s')
  | (.error e, s') => (.error (f e), s')

/-- Run `m`; after an error go on with `f`. -/
def orElse (m : Fail ε σ α) (f : ε → Fail ε σ α) : Fail ε σ α := fun s =>
  match m s with
  | (.ok a, s') => (.ok a, s')
  | (.error e, s') => f e s'

variable {s : σ} {Q : α → σ → Prop} {R : ε → σ → Prop}

variable {m : Fail ε σ α} {a : α} {e : ε}

theorem Ends.mono {Q' : α → σ → Prop} {R' : ε → σ → Prop} (h : Ends m s Q R)
    (hQ : ∀ a s', Q a s' → Q' a s') (hR : ∀ e s', R e s' → R' e s') : Ends m s Q' R' := by
  unfold Ends at h ⊢
  split at h
  · exact hQ _ _ h
  · exact hR _ _ h

theorem Ends.of_ok {s' : σ} (h : Ends m s Q R) (hrun : m s = (.ok a, s')) :
    Q a s' := by
  rw [Ends, hrun] at h
  exact h

theorem Ends.of_error {s' : σ} (h : Ends m s Q R) (hrun : m s = (.error e, s')) : R e s' := by
  rw [Ends, hrun] at h
  exact h

theorem eq_of_ends {t : σ} (h : Ends m s (fun a' s' => a' = a ∧ s' = t) fun _ _ => False) :
    m s = (.ok a, t) := by
  unfold Ends at h
  split at h
  · rename_i a' s' hrun
    obtain ⟨rfl, rfl⟩ := h
    exact hrun
  · exact h.elim

theorem ends_pure : Ends (pure a : Fail ε σ α) s Q R ↔ Q a s := Iff.rfl

theorem ends_throw : Ends (throw e : Fail ε σ α) s Q R ↔ R e s := Iff.rfl

theorem ends_get {Q : σ → σ → Prop} : Ends (get : Fail ε σ σ) s Q R ↔ Q s s := Iff.rfl

theorem ends_modify {f : σ → σ} {Q : PUnit → σ → Prop} :
    Ends (modify f : Fail ε σ PUnit) s Q R ↔ Q ⟨⟩ (f s) := Iff.rfl

theorem ends_bind {f : α → Fail ε σ β} {Q : β → σ → Prop} :
    Ends (m >>= f) s Q R ↔ Ends m s (fun a s' => Ends (f a) s' Q R) R := by
  have hbind : (m >>= f) s = (StateT.bind m (ExceptT.bindCont f) : StateM σ (Except ε β)) s := rfl
  unfold Ends
  rw [hbind]
  unfold StateT.bind
  rcases m s with ⟨a | e, s'⟩ <;> exact Iff.rfl

theorem ends_ensure {c : Prop} [Decidable c] {Q : PUnit → σ → Prop} :
    Ends (ensure c e : Fail ε σ PUnit) s Q R ↔ (c → Q ⟨⟩ s) ∧ (¬ c → R e s) := by
  unfold ensure
  by_cases hc : c
  · simp [hc, ends_pure]
  · simp [hc, ends_throw]

theorem ends_ofExcept {r : Except ε α} :
    Ends (ofExcept r : Fail ε σ α) s Q R ↔ (∀ a, r = .ok a → Q a s) ∧ ∀ e, r = .error e → R e s := by
  cases r with
  | ok a => simp [Ends, ofExcept]
  | error e => simp [Ends, ofExcept]

theorem ends_withError {f : ε → ε} :
    Ends (withError f m) s Q R ↔ Ends m s Q fun e s' => R (f e) s' := by
  unfold Ends withError
  rcases m s with ⟨a | e, s'⟩ <;> exact Iff.rfl

theorem ends_orElse {f : ε → Fail ε σ α} :
    Ends (orElse m f) s Q R ↔ Ends m s Q fun e s' => Ends (f e) s' Q R := by
  unfold Ends orElse
  rcases m s with ⟨a | e, s'⟩ <;> exact Iff.rfl

end Fail

theorem bind_eq_ok {ε α β : Type} {x : Except ε α} {f : α → Except ε β} {b : β} :
    x >>= f = .ok b ↔ ∃ a, x = .ok a ∧ f a = .ok b := by
  constructor
  · intro h
    cases x with
    | error e => cases h
    | ok a => exact ⟨a, rfl, h⟩
  · rintro ⟨a, rfl, h⟩
    exact h

end AptCacher.Spec
