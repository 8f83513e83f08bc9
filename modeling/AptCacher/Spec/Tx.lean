import Mathlib.Logic.Relation

/-!
# Transactions

A transaction is a computation that reads and writes a state and can fail. A failed one is
rolled back: `commit` leaves the state as it was.

* `Post m s Q`: if `m` succeeds from `s`, its result and the state after it meet `Q`. The
  `post_*` lemmas compute it statement by statement.
* `Fails m s e`: from `s` the transaction fails with `e`.
* `Within R m`: whatever state `m` starts in, it succeeds only in states `R`-related to it. For a
  reflexive and transitive `R` this is closed under sequencing and loops (`Within.bind`,
  `Within.forM`), and `Within.commit` is what a committed or rolled back transaction leaves.
-/

namespace AptCacher.Spec

/-- A transaction on states `σ` that fails with an `ε`. -/
abbrev Tx (ε σ α : Type) := StateT σ (Except ε) α

namespace Tx

variable {ε σ α β : Type}

/-- What `m` does to the state: it commits, or is rolled back. -/
def commit (m : Tx ε σ α) (s : σ) : σ :=
  match m s with
  | .ok (_, s') => s'
  | .error _ => s

variable {s : σ} {m : Tx ε σ α}

theorem ok_commit {m : Tx ε σ PUnit} (h : (m s).isOk = true) :
    m s = .ok (⟨⟩, m.commit s) := by
  unfold commit
  cases hm : m s with
  | ok r => rfl
  | error e => simp [hm, Except.isOk, Except.toBool] at h

theorem exists_of_isOk (h : (m s).isOk = true) : ∃ a, m s = .ok (a, m.commit s) := by
  unfold commit
  cases hm : m s with
  | ok r => exact ⟨r.1, rfl⟩
  | error e => simp [hm, Except.isOk, Except.toBool] at h

theorem commit_of_ok {s' : σ} {a : α} (h : m s = .ok (a, s')) : m.commit s = s' := by
  simp only [commit, h]

theorem discard_ok {s' : σ} {a : α} (h : m s = .ok (a, s')) :
    Functor.discard m s = .ok (PUnit.unit, s') := by
  simp only [Functor.discard, Functor.mapConst, Function.comp_apply, StateT.map, h]
  rfl

theorem discard_error {e : ε} (h : m s = .error e) :
    Functor.discard m s = .error e := by
  simp only [Functor.discard, Functor.mapConst, Function.comp_apply, StateT.map, h]
  rfl

theorem commit_discard (m : Tx ε σ α) (s : σ) : commit (Functor.discard m) s = m.commit s := by
  unfold commit
  cases hm : m s with
  | ok r => rw [discard_ok hm]
  | error e => rw [discard_error hm]

/-- Go on only if `c` holds. -/
def ensure (c : Prop) [Decidable c] (e : ε) : Tx ε σ PUnit := if c then pure ⟨⟩ else throw e

/-- A statement that runs only if `c` holds. -/
def onlyIf (c : Prop) [Decidable c] (m : Tx ε σ PUnit) : Tx ε σ PUnit := if c then m else pure ⟨⟩

/-- Go on with the value that is there. -/
def getOr (o : Option α) (e : ε) : Tx ε σ α :=
  match o with
  | some a => pure a
  | none => throw e

/-- If `m` succeeds from `s`, `Q` holds of its result and of the state after it. -/
def Post (m : Tx ε σ α) (s : σ) (Q : α → σ → Prop) : Prop :=
  ∀ a s', m s = .ok (a, s') → Q a s'

section Rules

variable {s : σ}

variable {Q : α → σ → Prop} {m : Tx ε σ α} {e : ε} {l : List α}

theorem post_pure {a : α} : Post (pure a : Tx ε σ α) s Q ↔ Q a s := by
  constructor
  · intro h
    exact h a s rfl
  · rintro h a' s' ⟨⟩
    exact h

theorem post_bind {f : α → Tx ε σ β} {Q : β → σ → Prop} :
    Post (m >>= f) s Q ↔ Post m s fun a s' => Post (f a) s' Q := by
  constructor
  · intro h a s' hm b s'' hf
    apply h b s''
    simp only [bind, StateT.bind, Except.bind, hm]
    exact hf
  · intro h b s'' hmf
    simp only [bind, StateT.bind, Except.bind] at hmf
    cases hm : m s with
    | error e => simp [hm] at hmf
    | ok r =>
      rw [hm] at hmf
      exact h r.1 r.2 hm b s'' hmf

theorem post_get {Q : σ → σ → Prop} : Post (get : Tx ε σ σ) s Q ↔ Q s s := post_pure

theorem post_modify {f : σ → σ} {Q : PUnit → σ → Prop} :
    Post (modify f : Tx ε σ PUnit) s Q ↔ Q ⟨⟩ (f s) := by
  constructor
  · intro h
    exact h ⟨⟩ (f s) rfl
  · rintro h ⟨⟩ s' hs
    cases hs
    exact h

theorem post_throw : Post (throw e : Tx ε σ α) s Q ↔ True :=
  iff_true_intro fun _ _ h => nomatch h

theorem post_ite {c : Prop} [Decidable c] {m' : Tx ε σ α} :
    Post (if c then m else m') s Q ↔ (c → Post m s Q) ∧ (¬ c → Post m' s Q) := by
  split <;> simp_all

theorem post_ensure {c : Prop} [Decidable c] {Q : PUnit → σ → Prop} :
    Post (ensure c e : Tx ε σ PUnit) s Q ↔ (c → Q ⟨⟩ s) := by
  simp only [ensure, post_ite, post_pure, post_throw, implies_true, and_true]

theorem post_getOr {o : Option α} :
    Post (getOr o e : Tx ε σ α) s Q ↔ ∀ a, o = some a → Q a s := by
  cases o with
  | none => simp [getOr, post_throw]
  | some a => simp [getOr, post_pure]

theorem Post.mono {Q' : α → σ → Prop} (h : Post m s Q) (hq : ∀ a s', Q a s' → Q' a s') :
    Post m s Q' :=
  fun a s' hm => hq a s' (h a s' hm)

theorem Post.discard {Q : σ → Prop} (h : Post m s fun _ s' => Q s') :
    Post (Functor.discard m) s fun _ s' => Q s' :=
  (post_bind (f := fun _ => Pure.pure PUnit.unit)).mpr (h.mono fun _ _ h' => post_pure.mpr h')

/-- The loop rule: what one round keeps, the loop keeps. -/
theorem Post.forM {I : σ → Prop} {f : α → Tx ε σ PUnit} (hs : I s)
    (h : ∀ a ∈ l, ∀ s, I s → Post (f a) s fun _ s' => I s') :
    Post (l.forM f) s fun _ s' => I s' := by
  induction l generalizing s with
  | nil => exact post_pure.mpr hs
  | cons a l ih =>
    show Post (f a >>= fun _ => l.forM f) s _
    refine post_bind.mpr ((h a List.mem_cons_self s hs).mono fun _ s' hs' => ?_)
    exact ih hs' fun b hb => h b (List.mem_cons_of_mem a hb)

/-- The rule of a loop with an accumulator. -/
theorem Post.foldlM {I : β → σ → Prop} {f : β → α → Tx ε σ β} {b : β} (hs : I b s)
    (h : ∀ b, ∀ a ∈ l, ∀ s, I b s → Post (f b a) s I) : Post (l.foldlM f b) s I := by
  induction l generalizing s b with
  | nil => exact post_pure.mpr hs
  | cons a l ih =>
    rw [List.foldlM_cons]
    refine post_bind.mpr ((h b a List.mem_cons_self s hs).mono fun b' s' hs' => ?_)
    exact ih hs' fun b a ha => h b a (List.mem_cons_of_mem _ ha)

/-- The rule of a loop whose rounds each establish something that later rounds keep. -/
theorem Post.forM_each {R : σ → σ → Prop} [Std.Refl R] [IsTrans σ R] {P : α → σ → Prop}
    {f : α → Tx ε σ PUnit} (h : ∀ a ∈ l, ∀ s, Post (f a) s fun _ s' => R s s' ∧ P a s')
    (hk : ∀ a s s', R s s' → P a s → P a s') :
    Post (l.forM f) s fun _ s' => R s s' ∧ ∀ a ∈ l, P a s' := by
  induction l generalizing s with
  | nil => exact post_pure.mpr ⟨Std.Refl.refl s, fun a ha => absurd ha List.not_mem_nil⟩
  | cons a l ih =>
    show Post (f a >>= fun _ => l.forM f) s _
    refine post_bind.mpr ((h a List.mem_cons_self s).mono fun _ s₁ h₁ => ?_)
    refine (ih fun b hb => h b (List.mem_cons_of_mem a hb)).mono fun _ s₂ h₂ => ?_
    refine ⟨IsTrans.trans _ _ _ h₁.1 h₂.1, fun b hb => ?_⟩
    rcases List.mem_cons.mp hb with rfl | hb
    · exact hk b s₁ s₂ h₂.1 h₁.2
    · exact h₂.2 b hb

end Rules

/-! ## Transactions that succeed -/

section Ok

variable {s : σ}

theorem ensure_ok {c : Prop} [Decidable c] {e : ε} (h : c) :
    (ensure c e : Tx ε σ PUnit) s = .ok (⟨⟩, s) := by
  rw [ensure, if_pos h]
  rfl

theorem ensure_bind {c : Prop} [Decidable c] {e : ε} {f : PUnit → Tx ε σ α} (h : c) :
    (ensure c e >>= f) s = f ⟨⟩ s := by
  rw [ensure, if_pos h]
  rfl

theorem get_bind {f : σ → Tx ε σ α} : (get >>= f) s = f s s := rfl

theorem ok_bind {m : Tx ε σ α} {f : α → Tx ε σ β} {a : α} {s' : σ} (h : m s = .ok (a, s')) :
    (m >>= f) s = f a s' := by
  show StateT.bind m f s = _
  simp only [StateT.bind, h]
  rfl

/-- A loop whose rounds always succeed. -/
theorem forM_run {f : α → Tx ε σ PUnit} {g : σ → α → σ} (h : ∀ a s, f a s = .ok (⟨⟩, g s a))
    (l : List α) (s : σ) : l.forM f s = .ok (⟨⟩, l.foldl g s) := by
  induction l generalizing s with
  | nil => rfl
  | cons a l ih => exact (ok_bind (h a s)).trans (ih (g s a))

/-- A loop whose rounds change nothing. -/
theorem forM_ok {f : α → Tx ε σ PUnit} {l : List α} (h : ∀ a ∈ l, f a s = .ok (⟨⟩, s)) :
    l.forM f s = .ok (⟨⟩, s) := by
  induction l with
  | nil => rfl
  | cons a l ih =>
    have hl := ih fun b hb => h b (List.mem_cons_of_mem a hb)
    show StateT.bind (f a) (fun _ => l.forM f) s = _
    simp only [StateT.bind, h a List.mem_cons_self]
    exact hl

end Ok

/-! ## Transactions that fail -/

/-- From `s` the transaction fails with `e`. -/
def Fails (m : Tx ε σ α) (s : σ) (e : ε) : Prop := m s = .error e

namespace Fails

variable {m : Tx ε σ α} {f : α → Tx ε σ β} {s : σ} {e : ε}

/-- A failed transaction writes nothing. -/
theorem commit (h : Fails m s e) : m.commit s = s := by
  unfold Fails at h
  simp only [Tx.commit, h]

theorem bind (h : Fails m s e) : Fails (m >>= f) s e := by
  unfold Fails at h ⊢
  show StateT.bind m f s = _
  simp only [StateT.bind, h]
  rfl

theorem get {f : σ → Tx ε σ β} (h : Fails (f s) s e) : Fails (get >>= f) s e := h

theorem getOr {a : α} {o : Option α} {e' : ε} (ho : o = some a) (h : Fails (f a) s e) :
    Fails (Tx.getOr o e' >>= f) s e := by
  subst ho
  exact h

theorem ensure {c : Prop} [Decidable c] (h : ¬ c) : Fails (Tx.ensure c e : Tx ε σ PUnit) s e := by
  unfold Tx.ensure Fails
  rw [if_neg h]
  rfl

theorem ensured {c : Prop} [Decidable c] {e' : ε} {f : PUnit → Tx ε σ β} (hc : c)
    (h : Fails (f ⟨⟩) s e) : Fails (Tx.ensure c e' >>= f) s e := by
  unfold Tx.ensure
  rw [if_pos hc]
  exact h

theorem onlyIf {c : Prop} [Decidable c] {m : Tx ε σ PUnit} (hc : c) (h : Fails m s e) :
    Fails (Tx.onlyIf c m) s e := by
  unfold Tx.onlyIf
  rw [if_pos hc]
  exact h

end Fails

/-! ## Outcomes -/

/-- How the transaction ends: in which state, or with which error. -/
def outcome (m : Tx ε σ α) (s : σ) : Except ε σ := (m s).map Prod.snd

section Outcome

variable {s : σ} {e : ε}

theorem outcome_ok_bind {m : Tx ε σ α} {f : α → Tx ε σ β} {a : α} {s' : σ}
    (h : m s = .ok (a, s')) : outcome (m >>= f) s = outcome (f a) s' := by
  rw [outcome, ok_bind h, outcome]

theorem outcome_get_congr {f : σ → Tx ε σ α} {g : σ → Tx ε σ β}
    (h : outcome (f s) s = outcome (g s) s) : outcome (get >>= f) s = outcome (get >>= g) s := h

theorem outcome_ensure_congr {c : Prop} [Decidable c] {f : PUnit → Tx ε σ α}
    {g : PUnit → Tx ε σ β} (h : c → outcome (f ⟨⟩) s = outcome (g ⟨⟩) s) :
    outcome (ensure c e >>= f) s = outcome (ensure c e >>= g) s := by
  unfold ensure
  by_cases hc : c
  · rw [if_pos hc]
    exact h hc
  · rw [if_neg hc]
    rfl

theorem outcome_getOr_congr {γ : Type} {o : Option γ} {f : γ → Tx ε σ α} {g : γ → Tx ε σ β}
    (h : ∀ x, o = some x → outcome (f x) s = outcome (g x) s) :
    outcome (getOr o e >>= f) s = outcome (getOr o e >>= g) s := by
  cases o with
  | none => rfl
  | some x => exact h x rfl

end Outcome

/-! ## Relations that transactions stay within -/

/-- Every success of `m` ends in a state related to the one it started in. -/
def Within (R : σ → σ → Prop) (m : Tx ε σ α) : Prop :=
  ∀ s, Post m s fun _ s' => R s s'

namespace Within

variable {R : σ → σ → Prop} [Std.Refl R] [IsTrans σ R] {m : Tx ε σ α}

omit [Std.Refl R] [IsTrans σ R] in
theorem mono {R' : σ → σ → Prop} (h : Within R m) (hr : ∀ s s', R s s' → R' s s') : Within R' m :=
  fun s => (h s).mono fun _ s' => hr s s'

omit [IsTrans σ R] in
theorem pure (a : α) : Within R (Pure.pure a : Tx ε σ α) :=
  fun s => post_pure.mpr (Std.Refl.refl s)

omit [IsTrans σ R] in
theorem get : Within R (MonadState.get : Tx ε σ σ) := fun s => post_get.mpr (Std.Refl.refl s)

omit [IsTrans σ R] in
theorem ensure (c : Prop) [Decidable c] (e : ε) : Within R (Tx.ensure c e : Tx ε σ PUnit) :=
  fun s => post_ensure.mpr fun _ => Std.Refl.refl s

omit [IsTrans σ R] in
theorem getOr (o : Option α) (e : ε) : Within R (Tx.getOr o e : Tx ε σ α) :=
  fun s => post_getOr.mpr fun _ _ => Std.Refl.refl s

omit [IsTrans σ R] in
theorem onlyIf {c : Prop} [Decidable c] {m : Tx ε σ PUnit} (h : c → Within R m) :
    Within R (Tx.onlyIf c m) := by
  unfold Tx.onlyIf
  split
  · exact h ‹_›
  · exact .pure _

omit [Std.Refl R] [IsTrans σ R] in
theorem modify {f : σ → σ} (h : ∀ s, R s (f s)) : Within R (modify f : Tx ε σ PUnit) :=
  fun s => post_modify.mpr (h s)

omit [Std.Refl R] [IsTrans σ R] in
theorem discard (h : Within R m) : Within R (Functor.discard m) := fun s => (h s).discard

omit [Std.Refl R] in
theorem bind {f : α → Tx ε σ β} (hm : Within R m) (hf : ∀ a, Within R (f a)) :
    Within R (m >>= f) := fun s =>
  post_bind.mpr ((hm s).mono fun a s' h => (hf a s').mono fun _ _ h' => IsTrans.trans _ _ _ h h')

omit [Std.Refl R] [IsTrans σ R] in
theorem ite {c : Prop} [Decidable c] {m' : Tx ε σ α} (h : c → Within R m) (h' : ¬ c → Within R m') :
    Within R (if c then m else m') := by
  split
  · exact h ‹_›
  · exact h' ‹_›

theorem forM {f : α → Tx ε σ PUnit} {l : List α} (h : ∀ a ∈ l, Within R (f a)) :
    Within R (l.forM f) := fun s =>
  Post.forM (Std.Refl.refl s) fun a ha s' hs => (h a ha s').mono fun _ _ h' => IsTrans.trans _ _ _ hs h'

theorem foldlM {f : β → α → Tx ε σ β} {l : List α} {b : β} (h : ∀ b, ∀ a ∈ l, Within R (f b a)) :
    Within R (l.foldlM f b) := fun s =>
  Post.foldlM (I := fun _ s' => R s s') (Std.Refl.refl s) fun b a ha s' hs =>
    (h b a ha s').mono fun _ _ h' => IsTrans.trans _ _ _ hs h'

omit [IsTrans σ R] in
/-- A transaction that is committed or rolled back. -/
theorem commit (h : Within R m) (s : σ) : R s (m.commit s) := by
  unfold Tx.commit
  cases hm : m s with
  | ok r => exact h s r.1 r.2 hm
  | error e => exact Std.Refl.refl s

end Within

end Tx

end AptCacher.Spec
