import AptCacher.Flipgate.Barrier

/-!
# The flip barrier: what a step does to the hold token

A flip owns a hold from its grant until its hold has ended: the token is granted when `acquire`
finds it free, or when a hold ends and the first waiting flip takes over. `TokStep` says once what a
step does to the token, the holds and the queue.

* `FlipCall.owned`: the hold that a flip owns.
* `Keep`: the steps that leave the token and its owners alone.
* `TokStep`, `step_token`: the seven kinds of steps.
-/

namespace AptCacher.Flipgate

open Function (update update_self update_of_ne)

variable {κ : Type} {b : Bounds} {g g₁ g' : Gate κ}

/-- The hold that a flip in `runHold` runs. -/
def FlipPc.hold : FlipPc → Option HoldId
  | .holding h | .holdWait h _ _ | .expiring h | .expired h | .decided h _ | .ending h => some h
  | .committing h => h
  | _ => none

/-- The hold that a flip owns: its grant while it is in `acquire`, the one it runs after that. -/
def FlipCall.owned (c : FlipCall κ) : Option HoldId := if c.pc.waits then c.granted else c.pc.hold

/-! ## What a step does to the token -/

/-- The token, the holds and their owners are as before. -/
structure Keep (g g' : Gate κ) : Prop where
  holder : g'.holder = g.holder
  nHold : g'.nHold = g.nHold
  closed : g'.closed = g.closed
  ended : ∀ h, (g'.holds h).ended = (g.holds h).ended
  on : ∀ h, (g'.holds h).e = (g.holds h).e
  hold : ∀ e h, (g'.ent e).hold = some h ↔ (g.ent e).hold = some h
  owned : ∀ j, (g'.flips j).owned = (g.flips j).owned
  granted : ∀ j, (g'.flips j).granted = (g.flips j).granted
  early : ∀ j, (g'.flips j).pc.early = true → (g.flips j).pc.early = true
  timer : ∀ j h, (g'.flips j).timer = .fired h →
    (g.flips j).timer = .fired h ∨ (g.flips j).owned = some h

namespace Keep

theorem of_eq (h₁ : g'.holder = g.holder) (h₂ : g'.nHold = g.nHold) (h₃ : g'.closed = g.closed)
    (h₄ : g'.holds = g.holds) (h₅ : g'.ent = g.ent) (h₆ : g'.flips = g.flips) : Keep g g' where
  holder := h₁
  nHold := h₂
  closed := h₃
  ended _ := by rw [h₄]
  on _ := by rw [h₄]
  hold _ _ := by rw [h₅]
  owned _ := by rw [h₆]
  granted _ := by rw [h₆]
  early _ h := by rwa [h₆] at h
  timer _ _ h := by rw [h₆] at h; exact .inl h

theorem refl (g : Gate κ) : Keep g g := of_eq rfl rfl rfl rfl rfl rfl

theorem trans (h : Keep g g₁) (h' : Keep g₁ g') : Keep g g' where
  holder := h'.holder.trans h.holder
  nHold := h'.nHold.trans h.nHold
  closed := h'.closed.trans h.closed
  ended x := (h'.ended x).trans (h.ended x)
  on x := (h'.on x).trans (h.on x)
  hold e x := (h'.hold e x).trans (h.hold e x)
  owned j := (h'.owned j).trans (h.owned j)
  granted j := (h'.granted j).trans (h.granted j)
  early j hj := h.early j (h'.early j hj)
  timer j x hx := (h'.timer j x hx).elim (h.timer j x) fun ho => .inr ((h.owned j).symm.trans ho)

theorem onEnt (e : EntryId) (f : Entry κ → Entry κ) (hf : ∀ x, (f x).hold = x.hold) :
    Keep g (g.onEnt e f) := by
  have same : ∀ e', ((g.onEnt e f).ent e').hold = (g.ent e').hold :=
    update_rel (fun x y : Entry κ => x.hold = y.hold) (hf _) fun _ => rfl
  exact { refl g with hold := fun e' h => by rw [same] }

theorem onHold (h : HoldId) (f : Hold → Hold) (hf : ∀ x, (f x).ended = x.ended)
    (he : ∀ x, (f x).e = x.e) : Keep g (g.onHold h f) :=
  { refl g with
    ended := update_rel (fun x y : Hold => x.ended = y.ended) (hf _) fun _ => rfl
    on := update_rel (fun x y : Hold => x.e = y.e) (he _) fun _ => rfl }

/-- A flip moves on with what it owns. -/
theorem onFlip (j : FlipId) (f : FlipCall κ → FlipCall κ)
    (ho : (f (g.flips j)).owned = (g.flips j).owned)
    (hg : (f (g.flips j)).granted = (g.flips j).granted)
    (hy : (f (g.flips j)).pc.early = true → (g.flips j).pc.early = true)
    (ht : ∀ h, (f (g.flips j)).timer = .fired h →
      (g.flips j).timer = .fired h ∨ (g.flips j).owned = some h) : Keep g (g.onFlip j f) :=
  { refl g with
    owned := update_rel (fun x y : FlipCall κ => x.owned = y.owned) ho fun _ => rfl
    granted := update_rel (fun x y : FlipCall κ => x.granted = y.granted) hg fun _ => rfl
    early := update_rel (fun x y : FlipCall κ => x.pc.early = true → y.pc.early = true) hy fun _ => id
    timer := update_rel (fun x y : FlipCall κ => ∀ h, x.timer = .fired h →
      y.timer = .fired h ∨ y.owned = some h) ht fun _ _ => .inl }

/-- A flip moves on outside `acquire`, with its timer as it was. -/
theorem goes {j : FlipId} {f : FlipCall κ → FlipCall κ} (hw : (g.flips j).pc.waits = false)
    (hw' : (f (g.flips j)).pc.waits = false) (hh : (f (g.flips j)).pc.hold = (g.flips j).pc.hold)
    (hg : ∀ x, (f x).granted = x.granted)
    (hy : (f (g.flips j)).pc.early = true → (g.flips j).pc.early = true)
    (ht : ∀ h, (f (g.flips j)).timer = .fired h → (g.flips j).timer = .fired h) :
    Keep g (g.onFlip j f) := by
  refine .onFlip j f ?_ (hg _) hy fun h hf => .inl (ht h hf)
  rw [FlipCall.owned, FlipCall.owned, if_neg (by rw [hw']; exact Bool.false_ne_true),
    if_neg (by rw [hw]; exact Bool.false_ne_true), hh]

theorem sweepLocked (now : Time) : Keep g (sweepLocked b g now) := by
  unfold Flipgate.sweepLocked
  split
  · exact refl g
  · exact of_eq rfl rfl rfl rfl rfl rfl

theorem registerLocked (i : ServeId) (e : EntryId) (held : Time) :
    Keep g (registerLocked g i e held) :=
  trans (onEnt e (fun x => { x with inflight := x.inflight.insert i, lastUse := g.now }) fun _ => rfl)
    (of_eq rfl rfl rfl rfl rfl rfl)

variable [DecidableEq κ]

theorem mapped (hi : EntInv g) (k : κ) : Keep g (mapped g k).1 := by
  unfold Flipgate.mapped
  split
  · exact refl g
  · refine { refl g with hold := fun e h => ?_ }
    by_cases he : e = g.nEnt
    · -- the new entry has no hold, and nothing was there before
      subst he
      refine iff_of_false (by simp) fun hh => ?_
      exact lt_irrefl _ (hi.mapped_lt (hi.hold _ h hh).1)
    · simp [update_of_ne he]

theorem entryLocked (hi : EntInv g) (k : κ) (now : Time) : Keep g (entryLocked b g k now).1 := by
  have hs : Keep g (Flipgate.sweepLocked b g now) := sweepLocked now
  have hm := mapped (EntInv.sweepLocked (b := b) hi now) k
  exact (hs.trans hm).trans (onEnt _ (fun x => { x with lastUse := now }) fun _ => rfl)

end Keep

/-- What a step does to the token (module doc). -/
inductive TokStep (b : Bounds) (g : Gate κ) (a : Act κ) (g' : Gate κ) : Prop
  | keep (hk : Keep g g') (hq : g'.queue = g.queue)
  /-- A flip finds the token taken. -/
  | enqueue (j : FlipId) (hp : (g.flips j).pc = .asking) (ho : g.closed = false)
      (hb : ¬(g.holder = none ∧ g.queue = [])) (hk : Keep g g') (hq : g'.queue = g.queue ++ [j])
  /-- A flip without a grant gives up. -/
  | quit (j : FlipId) (hk : Keep g g') (hg : (g.flips j).granted = none) (hw : (g.flips j).pc.waits = true)
      (hq : g'.queue = g.queue.erase j)
  /-- A flip finds the token free. -/
  | start (j : FlipId) (hp : (g.flips j).pc = .asking) (ho : g.closed = false) (hh : g.holder = none)
      (hq : g.queue = []) (hg : g' = enterHold (startHoldLocked g (g.flips j).e) j g.nHold)
  /-- Hold `h` ends, if it has not, and its owner moves on or the expiry timer's function returns. -/
  | finish (j : FlipId) (h : HoldId) (x : Bool) (f : FlipCall κ → FlipCall κ)
      (ha : (∃ c, a = .flipStep j c) ∧ (g.flips j).owned = some h ∨
        a = .timerRun j ∧ (g.flips j).timer = .fired h)
      (hg : g' = (endHoldLocked g h x).onFlip j f) (hf : ∀ c, (f c).granted = c.granted)
      (hy : ∀ c, (f c).pc.early = true → c.pc.early = true)
      (ht : ∀ c h', (f c).timer = .fired h' → c.timer = .fired h')
      (hw : (∀ c, (f c).owned = c.owned) ∨ (g.flips j).owned = some h ∧
        ((∀ c, (f c).owned = some h) ∨ ∀ c, (f c).owned = none))
  /-- `Close` ends the hold in progress. -/
  | close (ha : a = .close) (ho : g.closed = false) (h : HoldId) (hh : g.holder = some h)
      (hg : g' = broadcastLocked (endHoldLocked { g with closed := true } h false))
  | closeFree (ha : a = .close) (ho : g.closed = false) (hh : g.holder = none)
      (hg : g' = broadcastLocked { g with closed := true })

/-! ## Every step -/

theorem owned_of_hold {j : FlipId} {h : HoldId} (hw : (g.flips j).pc.waits = false)
    (hh : (g.flips j).pc.hold = some h) : (g.flips j).owned = some h := by
  rw [FlipCall.owned, hw]
  exact hh

namespace Goes

variable {x : FlipCall κ} {pc : FlipPc} {c : Choice} {p : Prior} {t : Turn}

/-- A step that leaves the rest of the gate alone leaves the flip what it owns. -/
theorem owned (h : Goes b g x x.pc c .keep t) : (t.run x).owned = x.owned := by
  rw [FlipCall.owned, FlipCall.owned, Turn.run_pc, Turn.run_granted]
  generalize x.pc = pc at h
  cases h <;> first | rfl | assumption | exact Eq.symm ‹_›

/-- No step of the flip itself fires its timer. -/
theorem timer (h : Goes b g x pc c p t) {h' : HoldId} (ht : (t.run x).timer = .fired h') :
    x.timer = .fired h' := by
  have back : ∀ {y : Timer}, y = .off ∨ y = x.timer → y = .fired h' → x.timer = .fired h' := by
    rintro y (rfl | rfl) hy
    · cases hy
    · exact hy
  cases h with
  | direct _ _ hy | returned _ _ hy | returnedHeld _ _ _ hy => exact back hy ht
  | commitUnheld | commitExpired | commitDecided => cases ht
  | _ => exact ht

/-- The token over a step of flip `j`. -/
theorem token {j : FlipId} (hi : FlipInv g) (h : Goes b g (g.flips j) (g.flips j).pc c p t) :
    TokStep b g (.flipStep j c) ((p.run g j).onFlip j t.run) := by
  have keep : ∀ {m : Gate κ}, Keep g m → (m.flips j) = g.flips j →
      (t.run (g.flips j)).owned = (g.flips j).owned → Keep g (m.onFlip j t.run) := by
    intro m hm hfl ho
    refine hm.trans (.onFlip j _ ?_ (Turn.run_granted t _) ?_ ?_)
    · rw [hfl, ho]
    · rw [hfl, Turn.run_pc]
      exact h.early
    · rw [hfl]
      exact fun _ ht => .inl (h.timer ht)
  cases p with
  | keep => exact .keep (keep (.refl g) rfl h.owned) rfl
  | start =>
    generalize hpc : (g.flips j).pc = pc at h
    cases h with
    | start ho hh hq => exact .start j hpc ho hh hq rfl
  | enqueue =>
    generalize hpc : (g.flips j).pc = pc at h keep
    cases h with
    | enqueue ho hb =>
      refine .enqueue j hpc ho hb (keep (.of_eq rfl rfl rfl rfl rfl rfl) rfl ?_) rfl
      show (g.flips j).granted = (g.flips j).owned
      rw [FlipCall.owned, hpc, hi.queue.early j (by rw [hpc]; rfl)]
      rfl
  | quit =>
    generalize hpc : (g.flips j).pc = pc at h keep
    have quits : (g.flips j).granted = none → pc.waits = true → t.pc.waits = false →
        t.pc.hold = none → TokStep b g (.flipStep j c) ((Prior.quit.run g j).onFlip j t.run) := by
      intro hg hw hw' hh
      refine .quit j (keep (.of_eq rfl rfl rfl rfl rfl rfl) rfl ?_) hg (hpc ▸ hw) rfl
      rw [FlipCall.owned, FlipCall.owned, Turn.run_pc, hw', hpc, if_pos hw, hg]
      exact hh
    cases h with
    | quit hg => exact quits hg rfl rfl rfl
    | quitStopped cause hg => exact quits hg rfl rfl rfl
  | finish h' x =>
    generalize hpc : (g.flips j).pc = pc at h
    cases h with
    | pass _ cause hg =>
      have ho : (g.flips j).owned = some h' := by rw [FlipCall.owned, hpc]; exact hg
      exact .finish j h' _ _ (.inl ⟨⟨_, rfl⟩, ho⟩) rfl (fun _ => rfl) (fun _ h => by cases h)
        (fun _ _ h => h) (.inr ⟨ho, .inr fun _ => rfl⟩)
    | expired =>
      -- the hold expires before its commit: the flip still runs it
      have ho := owned_of_hold (by rw [hpc]; rfl) (by rw [hpc]; rfl)
      exact .finish j h' _ _ (.inl ⟨⟨_, rfl⟩, ho⟩) rfl (fun _ => rfl) (fun _ h => by cases h)
        (fun _ _ h => h) (.inr ⟨ho, .inl fun _ => rfl⟩)
    | ended =>
      have ho := owned_of_hold (by rw [hpc]; rfl) (by rw [hpc]; rfl)
      exact .finish j h' _ _ (.inl ⟨⟨_, rfl⟩, ho⟩) rfl (fun _ => rfl) (fun _ h => by cases h)
        (fun _ _ h => h) (.inr ⟨ho, .inr fun _ => rfl⟩)

end Goes

section Walk

variable {j : FlipId} {a : Act κ}

theorem flipLeave_token (hp : (g.flips j).pc = .leaving) : TokStep b g a (flipLeave g j) := by
  have hn : Keep g (g.onEnt (g.flips j).e fun x => { x with flips := x.flips - 1, lastUse := g.now }) :=
    .onEnt _ _ fun _ => rfl
  have left : ∀ g₁ : Gate κ, (g₁.flips j).pc = .leaving → Keep g₁ (g₁.goto j .returned) := fun g₁ hp =>
    .goes (by rw [hp]; rfl) rfl (by rw [hp]; rfl) (fun _ => rfl) (fun h => by cases h) fun _ h => h
  exact .keep (hn.trans (left _ hp)) rfl

variable [DecidableEq κ]

theorem entryLocked_queue (k : κ) (now : Time) : (entryLocked b g k now).1.queue = g.queue := by
  simp only [entryLocked, mapped, sweepLocked]
  split <;> split <;> rfl

theorem flipEnter_token (hi : FlipInv g) {start : Time} (k : κ) (hp : (g.flips j).pc = .begun start) :
    TokStep b g a (flipEnter b g j k start) := by
  have hk := Keep.entryLocked (b := b) hi.ent k start
  have hfl := FlipInv.entryLocked_flips (b := b) (g := g) k start
  have hq := entryLocked_queue (b := b) (g := g) k start
  simp only [flipEnter]
  generalize entryLocked b g k start = r at hk hfl hq ⊢
  obtain ⟨g₁, e⟩ := r
  dsimp only at hk hfl hq ⊢
  have hp₁ : (g₁.flips j).pc = .begun start := by rw [hfl, hp]
  refine .keep (hk.trans ((Keep.onEnt e (fun x => { x with flips := x.flips + 1 }) fun _ => rfl).trans
    (.goes ?_ rfl ?_ (fun _ => rfl) ?_ fun _ h => h))) hq
  · rw [Gate.onEnt_flips, hp₁]; rfl
  · rw [Gate.onEnt_flips, hp₁]; rfl
  · exact fun _ => by rw [Gate.onEnt_flips, hp₁]; rfl

theorem join_token (hi : FlipInv g) (k : κ) : TokStep b g a (join b g k) := by
  have h₀ : FlipInv { g with nServe := g.nServe + 1 } :=
    hi.of_eq (.of_eq rfl rfl rfl rfl rfl rfl) rfl rfl
  have hn : Keep g { g with nServe := g.nServe + 1 } := .of_eq rfl rfl rfl rfl rfl rfl
  have hk := hn.trans (Keep.entryLocked (b := b) h₀.ent k g.now)
  have hq := entryLocked_queue (b := b) (g := { g with nServe := g.nServe + 1 }) k g.now
  simp only [join]
  generalize entryLocked b { g with nServe := g.nServe + 1 } k g.now = r at hk hq ⊢
  obtain ⟨g₁, e⟩ := r
  dsimp only at hk hq ⊢
  have registered : TokStep b g a (registerLocked g₁ g.nServe e 0) :=
    .keep (hk.trans (.registerLocked _ _ _)) hq
  unfold joinEntry
  split
  · rename_i h₁ _
    split
    · have hw : Keep g₁ (g₁.onHold h₁ fun x =>
          { x with waiting := x.waiting + 1, heldTotal := x.heldTotal + 1 }) :=
        .onHold _ _ (fun _ => rfl) fun _ => rfl
      exact .keep (hk.trans (hw.trans (.of_eq rfl rfl rfl rfl rfl rfl))) hq
    · exact registered
  · exact registered

omit [DecidableEq κ] in
theorem call_token (hi : FlipInv g) {k : κ} {ctx : Bool} {x : FlipCall κ}
    (hx : NewCall b k g.now ctx x) : TokStep b g a
      { g with nFlip := g.nFlip + 1, flips := update g.flips g.nFlip x } := by
  have hn := hi.ent.idle g.nFlip le_rfl
  have owns : x.owned = (g.flips g.nFlip).owned := by
    rw [FlipCall.owned, FlipCall.owned, hn]
    cases hx <;> rfl
  have key : Keep g (g.onFlip g.nFlip fun _ => x) := by
    refine .onFlip _ _ owns ?_ (fun _ => by rw [hn]; rfl) fun h ht => ?_
    · rw [hi.queue.early _ (by rw [hn]; rfl)]
      cases hx <;> rfl
    · cases hx <;> cases ht
  exact .keep (key.trans (.of_eq rfl rfl rfl rfl rfl rfl)) rfl

omit [DecidableEq κ] in
theorem leaveHold_keep (h : HoldId) : Keep g (leaveHold g h) :=
  .onHold _ _ (fun _ => rfl) fun _ => rfl

theorem step_token (hi : FlipInv g) (h : step b g a = some g') : TokStep b g a g' := by
  cases step_move h with
  | join k => exact join_token hi k
  | leave i e h₁ => exact .keep ((leaveHold_keep h₁).trans (.of_eq rfl rfl rfl rfl rfl rfl)) rfl
  | register i e h₁ => exact .keep ((leaveHold_keep h₁).trans (.registerLocked _ _ _)) rfl
  | complete i t =>
    have hd : Keep g (g.onEnt t.e fun x => x.complete i t.start g.now) := .onEnt _ _ fun _ => rfl
    exact .keep (hd.trans (.of_eq rfl rfl rfl rfl rfl rfl)) rfl
  | call k ctx x hx => exact call_token hi hx
  | cancel j => exact .keep (.onFlip j _ rfl rfl (fun h => h) fun _ h => .inl h) rfl
  | flip j c g' hm =>
    cases hm with
    | goes p t hgo => exact hgo.token hi
    | enter k start _ hp => exact flipEnter_token hi k hp
    | leave hp => exact flipLeave_token hp
  | fire j h₁ hp =>
    have ho := owned_of_hold (h := h₁) (by rw [hp]; rfl) (by rw [hp]; rfl)
    refine .keep (.onFlip j _ rfl rfl (fun h => h) fun x hx => .inr ?_) rfl
    exact Timer.fired.inj hx ▸ ho
  | timer j h₁ ht =>
    exact .finish j h₁ true _ (.inr ⟨rfl, ht⟩) rfl (fun _ => rfl) (fun _ h => h)
      (fun _ _ h => by cases h) (.inl fun _ => rfl)
  | close _ ho h₁ hh => exact .close rfl ho h₁ hh rfl
  | closeFree _ ho hh => exact .closeFree rfl ho hh rfl
  | _ => exact .keep (.of_eq rfl rfl rfl rfl rfl rfl) rfl

end Walk

end AptCacher.Flipgate
