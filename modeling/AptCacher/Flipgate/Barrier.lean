import AptCacher.Flipgate.Entries

/-!
# The flip barrier: no client straddles a flip

What the barrier is for: when a flip decides to commit inside its hold because the suite is quiet,
no client that received the old anchor is still within its quiet period, except those whose anchor
response took `AnchorTimeout` or longer; and no new anchor is served from the old snapshot
meanwhile, because a request that joins the hold stays unregistered until the hold ends or its own
wait runs out.

* `settled_of_localQuiet`: what `localQuietLocked` says about every token of the entry.
* `Waits`: the life of a request that joined a hold; every step keeps it (`Waits.of_step`).
-/

namespace AptCacher.Flipgate

open Function (update update_self update_of_ne)

variable {κ : Type} {b : Bounds} {g g' : Gate κ}

/-! ## The quiet decision -/

/-- Token `t` no longer binds a flip that decides at `now`: it completed at least the quiet period
ago, it has been in flight for `AnchorTimeout` or longer, or it ran that long and completed inside a
hold of its entry. -/
def Token.Settled (b : Bounds) (now : Time) (t : Token) : Prop :=
  (∃ d, t.done = some d ∧ d + b.quiet ≤ now) ∨
    (t.done = none ∧ t.start + anchorTimeout ≤ now) ∨
      ∃ d, t.done = some d ∧ t.start + anchorTimeout ≤ d ∧ t.doneInHold = true

theorem quietSince_some {t : Time} (h : (quietSince b g (some t)).1 = true) (hq : b.Enabled) :
    t + b.quiet ≤ g.now := by
  unfold Bounds.Enabled at hq
  simp only [quietSince] at h
  split at h
  · cases h
  · unfold Time at *; omega

variable {e : EntryId} {i : ServeId} {h : HoldId} {t₀ : Time}

theorem settled_of_localQuiet (hi : TokInv g) (hq : b.Enabled)
    (h : (localQuietLocked b g e).1 = true) {t : Token} (hs : g.serves i = .registered t)
    (he : t.e = e) : t.Settled b g.now := by
  subst he
  simp only [localQuietLocked] at h
  split at h
  · cases h
  · rename_i hy
    cases hd : t.done with
    | none =>
      -- in flight: a start within `AnchorTimeout` would have been the youngest
      refine .inr (.inl ⟨hd, ?_⟩)
      have hmem := hi.live i t hs hd
      simp only [youngest, List.max?_eq_none_iff, List.filter_eq_nil_iff, List.mem_map,
        decide_eq_true_eq] at hy
      have hst : startOf g i = t.start := by simp [startOf, hs]
      have := hy t.start ⟨i, hmem, hst⟩
      have hpos : 0 < anchorTimeout := by decide
      unfold Time at *; omega
    | some d =>
      obtain ⟨l, hl, hle⟩ | ⟨hh, hlate⟩ := hi.past i t d hs hd
      · rw [hl] at h
        have := quietSince_some h hq
        exact .inl ⟨d, hd, by unfold Time at *; omega⟩
      · exact .inr (.inr ⟨d, hd, hlate, hh⟩)

/-- `runHold`'s loop leaves with the suite quiet only if `localQuietLocked` says so. -/
theorem holdPass_decided {j : FlipId} {h' : HoldId}
    (hd : ((holdPass b g j h).flips j).pc = .decided h' false) :
    (localQuietLocked b g (g.flips j).e).1 = true := by
  simp only [holdPass] at hd
  split at hd
  · simp [abort] at hd
  · split at hd
    · simp [Gate.goto] at hd
    · split at hd
      · simp only [Gate.goto, Gate.onFlip_flips, update_self, FlipPc.decided.injEq,
          Bool.not_eq_false'] at hd
        exact hd.2
      · simp [Gate.goto] at hd

/-! ## A request in the hold -/

/-- A request that joined hold `h` at `t₀` may go on: the hold has ended, or its own wait has run
out. -/
def Free (b : Bounds) (h : HoldId) (t₀ : Time) (g : Gate κ) : Prop :=
  (g.holds h).ended.isSome = true ∨ t₀ + b.holdMax ≤ g.now

/-- The places of a request that joined hold `h` at `t₀`: it waits at that hold, and it is past its
`select` with its client still there, or registered, only if it is free. -/
def HeldAt (b : Bounds) (h : HoldId) (t₀ : Time) (g : Gate κ) : Serve → Prop
  | .joined _ h' => h' = h
  | .waiting _ h' at₀ => h' = h ∧ t₀ ≤ at₀
  | .woken _ _ _ left => left = true ∨ Free b h t₀ g
  | .registered _ => Free b h t₀ g
  | _ => True

/-- Request `i` joined hold `h` at `t₀`. -/
structure Waits (b : Bounds) (i : ServeId) (h : HoldId) (t₀ : Time) (g : Gate κ) : Prop where
  called : i < g.nServe
  started : h < g.nHold
  since : t₀ ≤ g.now
  place : HeldAt b h t₀ g (g.serves i)

theorem Free.later (hf : Free b h t₀ g) (hl : Later g g') (hh : h < g.nHold) : Free b h t₀ g' :=
  hf.imp (hl.ended h hh) fun h => h.trans hl.now

theorem HeldAt.later {s : Serve} (hs : HeldAt b h t₀ g s) (hl : Later g g') (hh : h < g.nHold) :
    HeldAt b h t₀ g' s := by
  cases s with
  | woken e h' at₀ left => exact hs.imp id fun hf => hf.later hl hh
  | registered t => exact Free.later hs hl hh
  | _ => exact hs

theorem registerLocked_later (i : ServeId) (e : EntryId) (held : Time) :
    Later g (registerLocked g i e held) :=
  ⟨le_rfl, le_rfl, le_rfl, fun _ _ h => h⟩

theorem ServeStep.later (hs : ServeStep b g g') : Later g g' := by
  cases hs with
  | keep hf => exact hf.toLater
  | move i s _ _ hf => exact ⟨hf.now, hf.nServe, hf.nHold, hf.ended⟩
  | register i e held _ g₁ hf _ _ hg => exact hg ▸ hf.toLater.trans (registerLocked_later i e held)
  | complete i t _ _ hg => exact hg ▸ ⟨le_rfl, le_rfl, le_rfl, fun _ _ h => h⟩

/-- Where request `i` goes in a step of its own. -/
theorem HeldAt.moves {s : Serve} (hi : i < g.nServe) (ht : t₀ ≤ g.now)
    (hp : HeldAt b h t₀ g (g.serves i)) (hm : Moves b g i s) :
    HeldAt b h t₀ g s := by
  cases hm with
  | disabled hn => exact absurd hn (Nat.ne_of_lt hi)
  | joined e h' hn => exact absurd hn (Nat.ne_of_lt hi)
  | waiting e h' hs =>
    rw [hs] at hp
    exact ⟨hp, ht⟩
  | woken e h' at₀ left hs hw =>
    rw [hs] at hp
    obtain ⟨rfl, hle⟩ := hp
    exact hw.imp id fun hw => hw.imp id fun hw => (Nat.add_le_add_right hle _).trans hw
  | unregistered e h' at₀ held hs => trivial

theorem Waits.of_step (hw : Waits b i h t₀ g) (hs : ServeStep b g g') : Waits b i h t₀ g' := by
  have hl := hs.later
  refine ⟨hw.called.trans_le hl.nServe, hw.started.trans_le hl.nHold, hw.since.trans hl.now, ?_⟩
  cases hs with
  | keep hf =>
    rw [hf.serves]
    exact hw.place.later hl hw.started
  | move i' s hm _ hf =>
    rw [hf.serves, Gate.setServe_serves]
    by_cases hii : i = i'
    · subst hii
      rw [update_self]
      exact (hw.place.moves hw.called hw.since hm).later hl hw.started
    · rw [update_of_ne hii]
      exact hw.place.later hl hw.started
  | register i' e held hi' g₁ hf _ _ hg =>
    subst hg
    have hsv : (registerLocked g₁ i' e held).serves =
        update g.serves i' (.registered ⟨e, g₁.now, held, none, false⟩) := by
      rw [← hf.serves]
      rfl
    rw [hsv]
    by_cases hii : i = i'
    · subst hii
      rw [update_self]
      have hfree : Free b h t₀ g := by
        obtain rfl | ⟨h', at₀, hs⟩ := hi'
        · exact absurd hw.called (lt_irrefl _)
        · have hp := hw.place
          rw [hs] at hp
          exact hp.resolve_left Bool.false_ne_true
      exact hfree.later hl hw.started
    · rw [update_of_ne hii]
      exact hw.place.later hl hw.started
  | complete i' t hs _ hg =>
    subst hg
    have hsv : (completed g i' t).serves = update g.serves i'
        (.registered { t with done := some g.now, doneInHold := (g.ent t.e).hold.isSome }) := rfl
    rw [hsv]
    by_cases hii : i = i'
    · subst hii
      rw [update_self]
      have hfree : Free b h t₀ g := by simpa [hs, HeldAt] using hw.place
      exact hfree.later hl hw.started
    · rw [update_of_ne hii]
      exact hw.place.later hl hw.started

/-! ## The system -/

variable [DecidableEq κ]

/-- The invariant of the gate. -/
structure Inv (g : Gate κ) : Prop where
  tok : TokInv g
  flip : FlipInv g

theorem Inv.serveStep (hi : Inv g) {a : Act κ} (h : step b g a = some g') : ServeStep b g g' :=
  step_serves hi.flip.ent.mapLt hi.tok.ref h

theorem inv_inductive : (sys κ b).Inductive Inv where
  init := by
    rintro g ⟨t, rfl⟩
    refine ⟨.initial t, .initial t, List.nodup_nil, fun _ h => ?_, fun _ _ => rfl⟩
    cases h
  step g a g' hi h := ⟨hi.tok.of_step (hi.serveStep h), hi.flip.of_step h⟩

theorem entryLocked_of_hold (hi : FlipInv g) {k : κ} (now : Time) (hk : (g.ent e).key = some k)
    (hh : (g.ent e).hold = some h) :
    (entryLocked b g k now).2 = e ∧ ((entryLocked b g k now).1.ent e).hold = some h ∧
      (entryLocked b g k now).1.holds = g.holds := by
  obtain ⟨⟨k', hk', hmap⟩, -⟩ := hi.ent.hold e h hh
  rw [hk] at hk'
  cases hk'
  -- the sweep keeps the entry: it has a hold
  have hs : (sweepLocked b g now).entries k = some e := by
    unfold sweepLocked
    split
    · exact hmap
    · refine Option.filter_eq_some_iff.mpr ⟨hmap, decide_eq_true (.inl (.inr (.inl ?_)))⟩
      rw [hh]
      exact Option.some_ne_none h
  have hent : (sweepLocked b g now).ent = g.ent := by unfold sweepLocked; split <;> rfl
  have hholds : (sweepLocked b g now).holds = g.holds := by unfold sweepLocked; split <;> rfl
  have hm : mapped (sweepLocked b g now) k = (sweepLocked b g now, e) := by simp [mapped, hs]
  simp only [entryLocked, hm, true_and]
  exact ⟨by simp [hent, hh], hholds⟩

/-- A request for a suite whose hold is in progress, with room in it, joins that hold. -/
theorem join_waits (hi : Inv g) (hb : b.Enabled) {k : κ} (hk : (g.ent e).key = some k)
    (hh : (g.ent e).hold = some h) (hw : (g.holds h).waiting < maxWaiters)
    (hs : step b g (.anchorStart k) = some g') :
    Waits b g.nServe h g.now g' := by
  have hlt : h < g.nHold := (hi.flip.ent.hold e h hh).2
  have hl : Later g g' := (hi.serveStep hs).later
  cases hs
  simp only [anchorStart, if_pos hb] at hl ⊢
  have h₀ : FlipInv { g with nServe := g.nServe + 1 } :=
    hi.flip.of_eq (.of_eq rfl rfl rfl rfl rfl rfl) rfl rfl
  obtain ⟨he, hhold, hholds⟩ := entryLocked_of_hold (b := b) h₀ g.now hk hh
  have hn : (entryLocked b { g with nServe := g.nServe + 1 } k g.now).1.nServe = g.nServe + 1 := by
    simp only [entryLocked, mapped, sweepLocked]
    split <;> split <;> rfl
  simp only [join] at hl ⊢
  generalize entryLocked b { g with nServe := g.nServe + 1 } k g.now = r at he hhold hholds hn hl ⊢
  obtain ⟨g₁, e'⟩ := r
  dsimp only at he hhold hholds hn hl ⊢
  subst he
  have hj : joinEntry g₁ g.nServe e' = (g₁.onHold h fun x =>
      { x with waiting := x.waiting + 1, heldTotal := x.heldTotal + 1 }).setServe g.nServe
        (.joined e' h) := by
    simp [joinEntry, hhold, hholds, hw]
  rw [hj] at hl ⊢
  refine ⟨?_, hlt.trans_le hl.nHold, hl.now, ?_⟩
  · simp [hn]
  · simp [HeldAt]

/-- A request that joined a hold is not registered before the hold ends or its own wait runs out. -/
theorem waits_steps (hi : Inv g) (hw : Waits b i h t₀ g) (hs : (sys κ b).Steps g g') :
    Waits b i h t₀ g' := by
  have key : Inv g' ∧ Waits b i h t₀ g' :=
    hs.keeps (P := fun x => Inv x ∧ Waits b i h t₀ x)
      (fun x a x' hx h => ⟨inv_inductive.step x a x' hx.1 h, hx.2.of_step (hx.1.serveStep h)⟩)
      ⟨hi, hw⟩
  exact key.2

/-- **The straddle guarantee.** In every reachable state of an enabled gate: if a flip's hold
decides to commit with the suite quiet, every token ever registered on the flip's entry is settled;
and a request for the suite of an entry whose hold is in progress with room in it stays unregistered
in every state that follows, until the hold has ended or the request's own wait has run out. -/
theorem flip_straddle (hb : b.Enabled) (hr : (sys κ b).Reach g) :
    (∀ j h g', (g.flips j).pc = .holding h → step b g (.flipStep j .run) = some g' →
      (g'.flips j).pc = .decided h false →
      ∀ i t, g.serves i = .registered t → t.e = (g.flips j).e → t.Settled b g.now) ∧
    (∀ k e h g', (g.ent e).key = some k → (g.ent e).hold = some h →
      (g.holds h).waiting < maxWaiters → step b g (.anchorStart k) = some g' →
      ∀ g'', (sys κ b).Steps g' g'' → ∀ t, g''.serves g.nServe = .registered t →
        (g''.holds h).ended.isSome = true ∨ g.now + b.holdMax ≤ g''.now) := by
  have hi := inv_inductive.reach hr
  refine ⟨fun j h g' hp hs hd i t ht he => ?_, fun k e h g' hk hh hw hs g'' hss t ht => ?_⟩
  · have hg' : g' = holdPass b g j h := by
      simpa [step, flipStep, hp] using hs.symm
    rw [hg'] at hd
    exact settled_of_localQuiet hi.tok hb (holdPass_decided hd) ht he
  · have hwait := waits_steps ((inv_inductive (b := b)).step g (.anchorStart k) g' hi hs)
      (join_waits hi hb hk hh hw hs) hss
    have hp := hwait.place
    rw [ht] at hp
    exact hp

/-! ## A run -/

/-- A gate with a quiet period of one second. -/
def secondQuiet : Bounds := ⟨second, phaseAMax, tokenWaitMax, holdMax⟩

/-- An anchor is served and completes; a second later a flip of the suite takes the token. -/
def quietRun : List (Act Nat) :=
  [.anchorStart 7, .tick second, .done 0, .tick second, .flip 7 false, .flipStep 0 .run,
    .flipStep 0 .run, .flipStep 0 .run]

/-- The state after `quietRun`: the flip is at the top of its hold's loop. -/
def quietHold : Gate Nat := ((sys Nat secondQuiet).exec (initial Nat 0) quietRun).getD (initial Nat 0)

theorem quietHold_exec : (sys Nat secondQuiet).exec (initial Nat 0) quietRun = some quietHold :=
  Spec.eq_some_getD _ (by decide +kernel)

theorem flip_straddle_quietHold :
    (∃ t, quietHold.serves 0 = .registered t ∧ t.e = (quietHold.flips 0).e ∧
      t.Settled secondQuiet quietHold.now) ∧
    (∃ g', step secondQuiet quietHold (.anchorStart 7) = some g' ∧
      ∀ g'', (sys Nat secondQuiet).Steps g' g'' → ∀ t, g''.serves 1 = .registered t →
        (g''.holds 0).ended.isSome = true ∨ 22 * second ≤ g''.now) := by
  have hr : (sys Nat secondQuiet).Reach quietHold := .exec ⟨0, rfl⟩ quietHold_exec
  obtain ⟨h₁, h₂⟩ := flip_straddle (show secondQuiet.Enabled by decide) hr
  constructor
  · have hs := Spec.eq_some_getD (o := step secondQuiet quietHold (.flipStep 0 .run)) quietHold
      (by decide +kernel)
    have ht : quietHold.serves 0 = .registered ⟨0, 0, 0, some second, false⟩ := by decide +kernel
    have he : (0 : Nat) = (quietHold.flips 0).e := by decide +kernel
    exact ⟨_, ht, he, h₁ 0 0 _ (by decide +kernel) hs (by decide +kernel) 0 _ ht he⟩
  · have hs := Spec.eq_some_getD (o := step secondQuiet quietHold (.anchorStart 7)) quietHold
      (by decide +kernel)
    refine ⟨_, hs, fun g'' hss t ht => ?_⟩
    have hn : (1 : Nat) = quietHold.nServe := by decide +kernel
    rw [hn] at ht
    have hnow : quietHold.now + secondQuiet.holdMax = 22 * second := by decide +kernel
    rw [← hnow]
    exact h₂ 7 0 0 _ (by decide +kernel) (by decide +kernel) (by decide +kernel) hs g'' hss t ht

end AptCacher.Flipgate
