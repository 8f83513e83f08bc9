import Mathlib.Logic.Function.Basic

/-!
# Programs over effects

A program is a tree: it returns, or it performs an effect and goes on with the answer. Who answers
an effect, and what else happens meanwhile, is left to the system the program runs in, so one
program text serves every interleaving.

* `Prog E α`: programs with effects `E`; a monad.
* `Prog.Sat wp p i Q`: what `p` ensures, from what `wp` says of one effect. The index `i` is what
  is known so far (a log of answers).
* `sat_bind`: the specification of a composed program from those of its parts.
* `Sem`: what the effects of a program do, left to the system it runs in.
-/

universe u v w

namespace AptCacher.Spec

/-- Programs with effects `E` and results in `α`. -/
inductive Prog (E : Type → Type u) (α : Type) : Type (max 1 u)
  | ret (a : α)
  | op {β : Type} (e : E β) (k : β → Prog E α)

namespace Prog

variable {E : Type → Type u} {α β : Type}

/-- Run `p`, then `f` on its result. -/
def bind : Prog E α → (α → Prog E β) → Prog E β
  | .ret a, f => f a
  | .op e k, f => .op e fun b => bind (k b) f

instance : Monad (Prog E) where
  pure := .ret
  bind := bind

/-- One effect as a program. -/
def perform (e : E α) : Prog E α := .op e .ret

/-- The program with its effects renamed. -/
def map {E' : Type → Type v} (f : ∀ {γ : Type}, E γ → E' γ) : Prog E α → Prog E' α
  | .ret a => .ret a
  | .op e k => .op (f e) fun b => map f (k b)

/-! ## Specifications -/

/-- What one effect ensures: from what is known, the answer and what is known then. -/
abbrev Wp (E : Type → Type u) (ι : Type w) := ∀ {β : Type}, E β → ι → (β → ι → Prop) → Prop

variable {ι : Type w}

/-- Every run of `p` from the knowledge `i` ends in `Q`. -/
def Sat (wp : Wp E ι) : Prog E α → ι → (α → ι → Prop) → Prop
  | .ret a, i, Q => Q a i
  | .op e k, i, Q => wp e i fun b i' => Sat wp (k b) i' Q

/-- Weaker ends are easier to reach. -/
def Wp.Monotone (wp : Wp E ι) : Prop :=
  ∀ {β : Type} (e : E β) (i : ι) (Q Q' : β → ι → Prop), (∀ b i', Q b i' → Q' b i') →
    wp e i Q → wp e i Q'

variable {wp : Wp E ι}

theorem Sat.mono (hwp : Wp.Monotone wp) {p : Prog E α} {i : ι} {Q Q' : α → ι → Prop}
    (h : Sat wp p i Q) (hq : ∀ a i', Q a i' → Q' a i') : Sat wp p i Q' := by
  induction p generalizing i with
  | ret a => exact hq a i h
  | op e k ih => exact hwp e i _ _ (fun b i' hb => ih b hb) h

/-- The rule of composition. -/
theorem sat_bind {p : Prog E α} {f : α → Prog E β} {i : ι} {Q : β → ι → Prop} :
    Sat wp (p >>= f) i Q ↔ Sat wp p i fun a i' => Sat wp (f a) i' Q := by
  show Sat wp (p.bind f) i Q ↔ _
  induction p generalizing i with
  | ret a => exact Iff.rfl
  | op e k ih =>
    have hk : (fun b i' => Sat wp ((k b).bind f) i' Q) =
        fun b i' => Sat wp (k b) i' fun a i'' => Sat wp (f a) i'' Q := by
      funext b i'
      exact propext (ih b)
    show wp e i _ ↔ wp e i _
    rw [hk]

/-! ## Meanings -/

/-- What an effect does: from what it leaves open, its answer and the state after it. -/
abbrev Sem (E : Type → Type u) (σ : Type w) (κ : Type v) := ∀ {β : Type}, E β → σ → κ → Option (β × σ)

end Prog

end AptCacher.Spec
