import AptCacher.Flipgate.Holds

/-!
# The flip barrier: how a flip ends

A flip calls its commit at most once, and its result says whether it did. `CallStep` says once what a
step does to the result of a flip; what it does to the flip's hold is in `TokStep`.

* `FlipPc.stage`: before, during and after the commit or the abort.
* `CallStep`, `step_call`: what a step does to the result of a flip.
* `FlipCall.Sound`: what a flip's result says at each stage.
* `flip_outcome`: the result at the return, and what the flip leaves behind.
-/

namespace AptCacher.Flipgate

open Function (update update_self update_of_ne)

variable {κ : Type} {b : Bounds} {g m g' : Gate κ} {a : Act κ}

/-- Where a flip is with respect to its commit. -/
inductive Stage where
  | before | during | after
  deriving DecidableEq

/-- The stage of a place; after an abort it is `after`. -/
def FlipPc.stage : FlipPc → Stage
  | .direct | .committing _ => .during
  | .ending _ | .leaving | .returned => .after
  | _ => .before

/-- The result of a flip whose commit was called. -/
def Result.Ran (r : Result) : Prop := r.committed = true ∧ r.outcome ≠ none ∧ r.outcome ≠ some .aborted

/-- The result and the error of a flip that was abandoned. -/
def FlipCall.Abandoned (c : FlipCall κ) : Prop :=
  c.res.committed = false ∧ c.res.outcome = some .aborted ∧ ∃ cause, c.err = some (.aborted cause)

/-! ## What a step does to a flip's result -/

/-- What a step does to the result of flip `j` (module doc). -/
inductive CallStep (b : Bounds) (g : Gate κ) (a : Act κ) (j : FlipId) (c c' : FlipCall κ) : Prop
  /-- It stays at its stage; at the end of its hold the outcome may become `hold_expired`. -/
  | same (hs : c'.pc.stage = c.pc.stage) (hc : c'.commits = c.commits)
      (he : c.pc.stage = .after → c'.err = c.err) (hr : c.res.Ran → c'.res.Ran)
      (ha : c.Abandoned → c'.Abandoned)
  /-- A new call. -/
  | call (hp : c.pc = .idle) (hs : c'.pc.stage = .before) (hc : c'.commits = 0)
  | abort (hs : c.pc.stage = .before) (hs' : c'.pc.stage = .after) (hc : c.commits = 0 → c'.commits = 0)
      (ha : c'.Abandoned)
  /-- The commit starts: an enabled gate's last stop check was clear. -/
  | start (hs : c.pc.stage = .before) (hs' : c'.pc.stage = .during) (hc : c.commits = 0 → c'.commits = 1)
      (hr : c'.res.Ran) (ho : b.Enabled → g.closed = false)
  | ret (r : Commit) (ha : a = .flipStep j (.commit r)) (hs : c.pc.stage = .during)
      (hs' : c'.pc.stage = .after) (hc : c'.commits = c.commits) (hr : c'.res = c.res)
      (he : c'.err = some (.commit r))

namespace CallStep

variable {j : FlipId} {c c' : FlipCall κ}

/-- A step that leaves the place and the result alone. -/
theorem touch (hp : c'.pc = c.pc) (hc : c'.commits = c.commits) (he : c'.err = c.err)
    (hr : c'.res = c.res) : CallStep b g a j c c' := by
  refine .same (by rw [hp]) hc (fun _ => he) (fun h => by rwa [hr]) fun h => ?_
  obtain ⟨h₁, h₂, cause, h₃⟩ := h
  exact ⟨by rw [hr, h₁], by rw [hr, h₂], cause, by rw [he, h₃]⟩

/-- A step between two places before the commit. -/
theorem before (hs : c.pc.stage = .before) (hs' : c'.pc.stage = .before) (hc : c'.commits = c.commits)
    (hr : c'.res.committed = c.res.committed ∧ c'.res.outcome = c.res.outcome) (he : c'.err = c.err) :
    CallStep b g a j c c' := by
  refine .same (by rw [hs, hs']) hc (fun _ => he) (fun h => ?_) fun h => ?_
  · exact ⟨hr.1.trans h.1, by rw [hr.2]; exact h.2.1, by rw [hr.2]; exact h.2.2⟩
  · obtain ⟨h₁, h₂, cause, h₃⟩ := h
    exact ⟨hr.1.trans h₁, hr.2.trans h₂, cause, he.trans h₃⟩

end CallStep

variable {j : FlipId} {c c' : FlipCall κ} {h : HoldId}

theorem calls_onFlip {f : FlipCall κ → FlipCall κ}
    (h₁ : ∀ i, ∃ y, m.flips i = { g.flips i with granted := y })
    (hj : ∀ y, CallStep b g a j (g.flips j) (f { g.flips j with granted := y })) (i : FlipId) :
    CallStep b g a i (g.flips i) ((m.onFlip j f).flips i) := by
  by_cases hi : i = j
  · subst hi
    obtain ⟨y, hy⟩ := h₁ i
    rw [Gate.onFlip_flips, update_self, hy]
    exact hj y
  · obtain ⟨y, hy⟩ := h₁ i
    rw [Gate.onFlip_flips, update_of_ne hi, hy]
    exact .touch rfl rfl rfl rfl

theorem calls_keep (h : g'.flips = g.flips) (i : FlipId) : CallStep b g a i (g.flips i) (g'.flips i) := by
  rw [h]
  exact .touch rfl rfl rfl rfl

theorem self_flips (g : Gate κ) (i : FlipId) : ∃ y, g.flips i = { g.flips i with granted := y } := ⟨_, rfl⟩

theorem stopErr_clear (h : stopErr g c = none) : g.closed = false := by
  unfold stopErr at h
  split at h
  · cases h
  · rename_i hc
    exact Bool.not_eq_true _ ▸ hc

/-- The end of the hold keeps what the result says of the commit. -/
theorem CallStep.endHold (hp : c.pc = .ending h) (x : Hold) (y : Option HoldId) :
    CallStep b g a j c ((Turn.endHold x).run { c with granted := y }) := by
  refine .same (by rw [hp]; rfl) rfl (fun _ => rfl) (fun hr => ?_) fun ha => ?_
  · obtain ⟨h₁, h₂, h₃⟩ := hr
    refine ⟨h₁, ?_, ?_⟩ <;>
    · simp only [Turn.run, Result.endHold]
      split
      · simp
      · assumption
  · obtain ⟨h₁, h₂, cause, h₃⟩ := ha
    refine ⟨h₁, ?_, cause, h₃⟩
    simp only [Turn.run, Result.endHold, h₂]
    simp

/-- The result over a step of the flip itself. -/
theorem Goes.calls {x : FlipCall κ} {c : Choice} {p : Prior} {t : Turn} (h : Goes b g x x.pc c p t)
    (y : Option HoldId) :
    CallStep b g (.flipStep j c) j x (t.run { x with granted := y }) := by
  generalize hp : x.pc = pc at h
  have starts : ∀ {o : Outcome} {h : Option HoldId} {t : Timer}, x.pc.stage = .before → o ≠ .aborted →
      stopErr g x = none →
      CallStep b g (.flipStep j c) j x ((Turn.commit o h t).run { x with granted := y }) := by
    intro o h t hs ho hclear
    refine .start hs rfl (fun hc => ?_) ⟨rfl, Option.some_ne_none _, fun h => ho (Option.some.inj h)⟩
      fun _ => stopErr_clear hclear
    show x.commits + 1 = 1
    rw [hc]
  cases h with
  | direct | returned | returnedHeld => exact .ret _ rfl (by rw [hp]; rfl) rfl rfl rfl rfl
  | commitUnheld hs => exact starts (by rw [hp]; rfl) (by decide) hs
  | commitExpired _ hs => exact starts (by rw [hp]; rfl) (by decide) hs
  | commitDecided _ cut hs => exact starts (by rw [hp]; rfl) (by cases cut <;> decide) hs
  | ended => exact .endHold hp _ y
  | _ =>
    first
    | exact .before (by rw [hp]; rfl) rfl rfl ⟨rfl, rfl⟩ rfl
    | exact .abort (by rw [hp]; rfl) rfl id ⟨rfl, rfl, _, rfl⟩

section Walk

variable {j : FlipId}

theorem call_calls (hi : FlipInv g) {k : κ} {ctx : Bool} {x : FlipCall κ}
    (hx : NewCall b k g.now ctx x) (i : FlipId) :
    CallStep b g a i (g.flips i) (update g.flips g.nFlip x i) := by
  by_cases hin : i = g.nFlip
  · have hn : (g.flips g.nFlip).pc = .idle := hi.ent.idle g.nFlip le_rfl
    have hs : (g.flips g.nFlip).pc.stage = .before := by rw [hn]; rfl
    subst hin
    rw [update_self]
    cases hx with
    | stopped => exact .abort hs rfl (fun _ => rfl) ⟨rfl, rfl, .ctx, rfl⟩
    | begun => exact .call hn rfl rfl
    | direct hd =>
      exact .start hs rfl (fun _ => rfl) ⟨rfl, Option.some_ne_none _, by simp⟩ fun he => absurd he hd
  · rw [update_of_ne hin]
    exact .touch rfl rfl rfl rfl

variable [DecidableEq κ]

theorem flipEnter_calls (k : κ) {start : Time} (hp : (g.flips j).pc = .begun start) (i : FlipId) :
    CallStep b g a i (g.flips i) ((flipEnter b g j k start).flips i) := by
  have hfl := FlipInv.entryLocked_flips (b := b) (g := g) k start
  simp only [flipEnter]
  generalize entryLocked b g k start = r at hfl ⊢
  obtain ⟨g₁, e⟩ := r
  dsimp only at hfl ⊢
  refine calls_onFlip (m := g₁.onEnt e fun x => { x with flips := x.flips + 1 })
    (fun i => ⟨(g.flips i).granted, congrFun hfl i⟩) (fun _ => ?_) i
  exact .before (by rw [hp]; rfl) rfl rfl ⟨rfl, rfl⟩ rfl

theorem join_flips (k : κ) : (join b g k).flips = g.flips := by
  have hfl := FlipInv.entryLocked_flips (b := b) (g := { g with nServe := g.nServe + 1 }) k g.now
  simp only [join, joinEntry]
  split
  · split <;> exact hfl
  · exact hfl

theorem step_call (hi : FlipInv g) (h : step b g a = some g') (i : FlipId) :
    CallStep b g a i (g.flips i) (g'.flips i) := by
  cases step_move h with
  | join k => exact calls_keep (join_flips k) i
  | call k ctx x hx => exact call_calls hi hx i
  | cancel j => exact calls_onFlip (self_flips g) (fun _ => .touch rfl rfl rfl rfl) i
  | flip j c g' hm =>
    cases hm with
    | goes p t hgo => exact calls_onFlip (p.flips j) hgo.calls i
    | enter k start _ hp => exact flipEnter_calls k hp i
    | leave hp =>
      refine calls_onFlip (m := g.onEnt (g.flips j).e fun x =>
        { x with flips := x.flips - 1, lastUse := g.now }) (f := fun x => { x with pc := .returned })
        (self_flips g) (fun _ => ?_) i
      exact .same (by rw [hp]; rfl) rfl (fun _ => rfl) id id
  | fire j => exact calls_onFlip (self_flips g) (fun _ => .touch rfl rfl rfl rfl) i
  | timer j =>
    exact calls_onFlip (fun i => endHoldLocked_flips _ _ i) (fun _ => .touch rfl rfl rfl rfl) i
  | close _ _ h₁ =>
    obtain ⟨y, hy⟩ := endHoldLocked_flips (g := { g with closed := true }) h₁ false i
    rw [broadcastLocked_flips, hy]
    exact .touch rfl rfl rfl rfl
  | _ => exact calls_keep rfl i

end Walk

/-! ## The result -/

/-- What a flip's result says at each stage. -/
def FlipCall.Sound (c : FlipCall κ) : Prop :=
  match c.pc.stage with
  | .before => c.commits = 0
  | .during => c.commits = 1 ∧ c.res.Ran
  | .after => (c.commits = 1 ∧ c.res.Ran ∧ ∃ r, c.err = some (.commit r)) ∨ (c.commits = 0 ∧ c.Abandoned)

theorem FlipCall.Sound.commits_le (h : c.Sound) : c.commits ≤ 1 := by
  unfold FlipCall.Sound at h
  split at h
  · omega
  · omega
  · rcases h with ⟨h, -⟩ | ⟨h, -⟩ <;> omega

/-- A flip before its commit has not called it. -/
theorem FlipCall.Sound.zero (h : c.Sound) (hs : c.pc.stage = .before) : c.commits = 0 := by
  rwa [FlipCall.Sound, hs] at h

theorem FlipCall.Sound.of_call (h : c.Sound) (hs : CallStep b g a j c c') : c'.Sound := by
  cases hs with
  | same hs hc he hr ha =>
    rw [FlipCall.Sound, hs]
    unfold FlipCall.Sound at h
    split at h
    · rw [hc, h]
    · exact ⟨hc.trans h.1, hr h.2⟩
    · rename_i hst
      rcases h with ⟨h₁, h₂, r, h₃⟩ | ⟨h₁, h₂⟩
      · exact .inl ⟨hc.trans h₁, hr h₂, r, (he hst).trans h₃⟩
      · exact .inr ⟨hc.trans h₁, ha h₂⟩
  | call _ hs hc => rwa [FlipCall.Sound, hs]
  | abort hs hs' hc ha =>
    rw [FlipCall.Sound, hs']
    exact .inr ⟨hc (h.zero hs), ha⟩
  | start hs hs' hc hr _ =>
    rw [FlipCall.Sound, hs']
    exact ⟨hc (h.zero hs), hr⟩
  | ret r _ hs hs' hc hr he =>
    rw [FlipCall.Sound, hs'] 
    rw [FlipCall.Sound, hs] at h
    exact .inl ⟨hc.trans h.1, hr ▸ h.2, r, he⟩

theorem CallStep.err_keeps (hs : CallStep b g a j c c') (hc : c.pc.stage = .after) :
    c'.pc.stage = .after ∧ c'.err = c.err := by
  cases hs with
  | same hs _ he => exact ⟨hs.trans hc, he hc⟩
  | call hp => rw [hp] at hc; cases hc
  | abort hs => rw [hs] at hc; cases hc
  | start hs => rw [hs] at hc; cases hc
  | ret _ _ hs => rw [hs] at hc; cases hc

theorem commit_err [DecidableEq κ] {r : Commit} (h : step b g (.flipStep j (.commit r)) = some g') :
    (g'.flips j).pc.stage = .after ∧ (g'.flips j).err = some (.commit r) := by
  have returned : ∀ pc : FlipPc, pc.stage = .after → g' = commitReturned g j r pc →
      (g'.flips j).pc.stage = .after ∧ (g'.flips j).err = some (.commit r) := by
    rintro pc hpc rfl
    simpa [commitReturned] using hpc
  cases hp : (g.flips j).pc with
  | direct => exact returned .returned rfl (by simpa [step, flipStep, hp] using h.symm)
  | committing o =>
    cases o with
    | none => exact returned .leaving rfl (by simpa [step, flipStep, hp] using h.symm)
    | some h₁ => exact returned (.ending h₁) rfl (by simpa [step, flipStep, hp] using h.symm)
  | _ => simp [step, flipStep, hp] at h

theorem CallStep.commits_closed (hs : CallStep b g a j c c') (hc : c.Sound) (he : b.Enabled)
    (hcl : g.closed = true) : c'.commits = c.commits := by
  cases hs with
  | same _ h => exact h
  | call hp _ h => rw [h, hc.zero (by rw [hp]; rfl)]
  | abort hs _ h => rw [h (hc.zero hs), hc.zero hs]
  | start _ _ _ _ ho =>
    rw [ho he] at hcl
    cases hcl
  | ret _ _ _ _ h => exact h

/-! ## What a flip leaves behind -/

theorem endHoldLocked_closed (h : HoldId) (x : Bool) : (endHoldLocked g h x).closed = g.closed := by
  simp only [endHoldLocked]
  split
  · rfl
  · split
    · unfold passToken
      split
      · split <;> exact closeHold_closed h x
      · exact closeHold_closed h x
    · exact closeHold_closed h x

theorem TokStep.stays_closed (hs : TokStep b g a g') (hc : g.closed = true) : g'.closed = true := by
  have open_of : g.closed = false → g'.closed = true := fun ho => by rw [hc] at ho; cases ho
  cases hs with
  | keep hk | quit _ hk => exact hk.closed.trans hc
  | enqueue _ _ ho | start _ _ ho | close _ ho | closeFree _ ho => exact open_of ho
  | finish j h x f _ hg => exact hg ▸ (endHoldLocked_closed h x).trans hc

theorem TokStep.ended_ne (hs : TokStep b g a g') (hlt : h < g.nHold) (he : (g.holds h).ended ≠ none) :
    (g'.holds h).ended ≠ none := by
  obtain ⟨t, ht⟩ := Option.ne_none_iff_exists'.mp he
  rw [hs.ended hlt ht]
  exact Option.some_ne_none t

/-- A flip keeps the hold that it owns until the hold has ended. -/
theorem TokStep.owned (hs : TokStep b g a g') (hq : QueueInv g) (hlt : h < g.nHold)
    (ho : (g.flips j).owned = some h) :
    (g'.flips j).owned = some h ∨ (g'.holds h).ended ≠ none := by
  have hj := hq.not_mem_of_owned ho
  cases hs with
  | keep hk | enqueue _ _ _ _ hk | quit _ hk => exact .inl ((hk.owned j).trans ho)
  | start j₁ hp _ _ _ hg =>
    subst hg
    have hne : j ≠ j₁ := by
      rintro rfl
      rw [FlipCall.owned, hp] at ho
      cases ho
    refine .inl ?_
    simpa [enterHold, update_of_ne hne] using ho
  | finish j₁ h₁ x f ha hg hf hy ht hw =>
    subst hg
    have hsame := endHoldLocked_flips_of_not_mem h₁ x hj
    by_cases hjj : j = j₁
    · subst hjj
      rw [Gate.onFlip_flips, update_self, hsame]
      rcases hw with hw | ⟨howns, hw⟩
      · exact .inl ((hw _).trans ho)
      · obtain rfl := Option.some.inj (ho.symm.trans howns)
        rcases hw with hon | -
        · exact .inl (hon _)
        · exact .inr (endHoldLocked_ended_self h x hlt)
    · rw [Gate.onFlip_flips, update_of_ne hjj, hsame]
      exact .inl ho
  | close _ _ h₁ _ hg =>
    subst hg
    rw [broadcastLocked_flips,
      endHoldLocked_flips_of_not_mem (g := { g with closed := true }) h₁ false hj]
    exact .inl ho
  | closeFree _ _ _ hg => exact .inl (hg ▸ ho)

variable [DecidableEq κ]

theorem sound_inductive : (sys κ b).Inductive fun g => Inv g ∧ ∀ j, (g.flips j).Sound where
  init := by
    rintro g ⟨t, rfl⟩
    exact ⟨(inv_inductive (b := b)).init _ ⟨t, rfl⟩, fun _ => rfl⟩
  step g a g' hi h := ⟨inv_inductive.step g a g' hi.1 h, fun j =>
    (hi.2 j).of_call (step_call hi.1.flip h j)⟩

theorem sound_steps {P : Gate κ → Prop} (hi : Inv g ∧ ∀ j, (g.flips j).Sound)
    (h : ∀ x a x', Inv x → (∀ j, (x.flips j).Sound) → step b x a = some x' → P x → P x')
    (hs : (sys κ b).Steps g g') (hp : P g) : P g' := by
  have key : (Inv g' ∧ ∀ j, (g'.flips j).Sound) ∧ P g' :=
    hs.keeps (P := fun x => (Inv x ∧ ∀ j, (x.flips j).Sound) ∧ P x) (fun x a x' hx hst =>
      ⟨sound_inductive.step x a x' hx.1 hst, h x a x' hx.1.1 hx.1.2 hst hx.2⟩) ⟨hi, hp⟩
  exact key.2

/-- **The outcome of a flip.** In every reachable state a flip has called its commit at most once; a
flip that returned has a result and an error that say whether it did, and its entry counts only the
other flips; what the commit returned is the flip's error from then on; once an enabled gate is
closed, no flip calls its commit; and when a flip that owned a hold has returned, the hold has ended
for every request that waits in it and the token has passed on. -/
theorem flip_outcome (hr : (sys κ b).Reach g) (j : FlipId) :
    (g.flips j).commits ≤ 1 ∧
    ((g.flips j).pc = .returned →
      ((g.flips j).commits = 1 → (g.flips j).res.Ran ∧ ∃ r, (g.flips j).err = some (.commit r)) ∧
      ((g.flips j).commits = 0 → (g.flips j).Abandoned) ∧
      ∀ e, ¬(g.flips j).On e ∧ (g.ent e).flips = Nat.count (fun i => (g.flips i).On e) g.nFlip) ∧
    (∀ r g₁ g₂, step b g (.flipStep j (.commit r)) = some g₁ → (sys κ b).Steps g₁ g₂ →
      (g₂.flips j).err = some (.commit r)) ∧
    (b.Enabled → g.closed = true → ∀ g₁, (sys κ b).Steps g g₁ →
      (g₁.flips j).commits = (g.flips j).commits) ∧
    (∀ h g₁, (g.flips j).owned = some h → (sys κ b).Steps g g₁ → (g₁.flips j).pc = .returned →
      (g₁.holds h).ended ≠ none ∧ g₁.holder ≠ some h ∧
      (∀ i e at₀, g₁.serves i = .waiting e h at₀ → (step b g₁ (.wake i .released)).isSome = true) ∧
      (g₁.closed = false → g₁.holder = none → g₁.queue = [])) := by
  obtain ⟨hi, hs⟩ := sound_inductive.reach hr
  refine ⟨(hs j).commits_le, fun hp => ?_, fun r g₁ g₂ hst hss => ?_, fun he hc g₁ hss => ?_,
    fun h g₁ ho hss hp => ?_⟩
  · have hsj := hs j
    rw [FlipCall.Sound, hp] at hsj
    refine ⟨fun hc => ?_, fun hc => ?_, fun e => ⟨fun hon => ?_, hi.flip.ent.count e⟩⟩
    · rcases hsj with ⟨-, hran⟩ | ⟨h₀, -⟩
      · exact hran
      · rw [hc] at h₀
        cases h₀
    · rcases hsj with ⟨h₁, -⟩ | ⟨-, hab⟩
      · rw [hc] at h₁
        cases h₁
      · exact hab
    · have := hon.1
      rw [hp] at this
      cases this
  · have hi₁ := (sound_inductive (b := b)).step g (.flipStep j (.commit r)) g₁ ⟨hi, hs⟩ hst
    exact (sound_steps (P := fun x => (x.flips j).pc.stage = .after ∧ (x.flips j).err = some (.commit r)) hi₁
      (fun x a x' hx _ hxs hp => by
        obtain ⟨hst', herr⟩ := (step_call hx.flip hxs j).err_keeps hp.1
        exact ⟨hst', herr.trans hp.2⟩) hss (commit_err hst)).2
  · exact (sound_steps (P := fun x => x.closed = true ∧ (x.flips j).commits = (g.flips j).commits) ⟨hi, hs⟩
      (fun x a x' hx hsx hxs hp => ⟨(step_token hx.flip hxs).stays_closed hp.1,
        ((step_call hx.flip hxs j).commits_closed (hsx j) he hp.1).trans hp.2⟩) hss ⟨hc, rfl⟩).2
  · have hh := (holdInv_inductive.reach hr).2
    have hh₁ := (holdInv_inductive.reach (hr.steps hss)).2
    have kept := (token_steps (P := fun x => h < x.nHold ∧
        ((x.flips j).owned = some h ∨ (x.holds h).ended ≠ none)) hi
      (fun x a x' hq hxs hx => ⟨hx.1.trans_le hxs.nHold_le, hx.2.elim (hxs.owned hq hx.1) fun he =>
        .inr (hxs.ended_ne hx.1 he)⟩) hss ⟨hh.lt j h ho, .inl ho⟩).2.2
    have hend : (g₁.holds h).ended ≠ none := by
      refine kept.resolve_left fun ho₁ => ?_
      have := FlipCall.owned_running ho₁
      rw [hp] at this
      cases this
    refine ⟨hend, fun hx => hend ((hh₁.holder h).mp hx).2, fun i e at₀ hsv => ?_, hh₁.queue⟩
    simp [step, wake, hsv, Option.isSome_iff_ne_none.mpr hend]

/-! ## A run -/

/-- The suite is quiet, so the flip commits inside its hold; the commit panics. -/
def panicRun : List (Act Nat) :=
  [.flipStep 0 .run, .flipStep 0 .run, .flipStep 0 (.commit .panics), .flipStep 0 .run, .flipStep 0 .run]

/-- The gate of `quietHold` after `panicRun`. -/
def panicked : Gate Nat := ((sys Nat secondQuiet).exec quietHold panicRun).getD (initial Nat 0)

/-- The panic is the flip's own, and the hold that it owned has ended. -/
theorem flip_outcome_panicked :
    (quietHold.flips 0).owned = some 0 ∧ (panicked.flips 0).pc = .returned ∧
    (panicked.flips 0).err = some (.commit .panics) ∧ (panicked.flips 0).res.Ran ∧
    (panicked.holds 0).ended ≠ none ∧ (panicked.ent 0).flips = 0 := by
  have hr : (sys Nat secondQuiet).Reach quietHold := .exec ⟨0, rfl⟩ quietHold_exec
  have hs : (sys Nat secondQuiet).Steps quietHold panicked :=
    .exec (Spec.eq_some_getD _ (by decide +kernel))
  have ho : (quietHold.flips 0).owned = some 0 := by decide +kernel
  have hp : (panicked.flips 0).pc = .returned := by decide +kernel
  obtain ⟨-, hret, -⟩ := flip_outcome (hr.steps hs) 0
  obtain ⟨-, -, -, -, hhold⟩ := flip_outcome hr 0
  exact ⟨ho, hp, by decide +kernel, ((hret hp).1 (by decide +kernel)).1, (hhold 0 panicked ho hs hp).1,
    by decide +kernel⟩

end AptCacher.Flipgate
