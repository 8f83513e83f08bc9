import Mathlib.Tactic.Common
import AptCacher.Flipgate.Step

/-!
# The flip barrier: its transitions

The step function read backwards, once: each kind of step with what it needs and what it does. The
invariants of the gate are proved over these kinds.

* `Turn`: what a step of a flip writes into the record of its call.
* `Prior`: what the step does to the rest of the gate before that.
* `Goes`: the places of `Flip` and the ways from one to the next; `FlipMove` adds the two steps that
  change an entry's flip counter.
* `StepMove`, `step_move`: the kinds of steps of the gate.
-/

namespace AptCacher.Flipgate

open Function (update update_self update_of_ne)

variable {κ : Type} {b : Bounds} {g g' : Gate κ}

/-- What holds of the changed value against the old one, and of every value against itself, holds
everywhere. -/
theorem update_rel {α : Type} (P : α → α → Prop) {u : Nat → α} {i : Nat} {x : α} (hx : P x (u i))
    (h : ∀ y, P y y) (i' : Nat) : P (update u i x i') (u i') := by
  by_cases hi : i' = i
  · subst hi
    rwa [update_self]
  · rw [update_of_ne hi]
    exact h _

/-! ## The steps of a flip -/

/-- What a step of a flip writes into the record of its call. -/
inductive Turn where
  | goto (pc : FlipPc)
  | abort (c : Cause) (pc : FlipPc)
  | enter (h : HoldId) (start : Time)
  | commit (o : Outcome) (h : Option HoldId) (t : Timer)
  | ret (r : Commit) (pc : FlipPc) (t : Timer)
  | endHold (x : Hold)

namespace Turn

def run : Turn → FlipCall κ → FlipCall κ
  | .goto pc, x => { x with pc }
  | .abort c pc, x =>
    { x with pc, res := { x.res with outcome := some .aborted, committed := false },
             err := some (.aborted c) }
  | .enter h start, x => { x with pc := .holding h, res := { x.res with holdStart := some start } }
  | .commit o h timer, x =>
    { x with pc := .committing h, res := { x.res with outcome := some o, committed := true },
             timer, commits := x.commits + 1 }
  | .ret r pc timer, x => { x with pc, err := some (.commit r), timer }
  | .endHold y, x => { x with pc := .leaving, res := x.res.endHold y }

/-- Where the flip goes. -/
def pc : Turn → FlipPc
  | .goto pc | .abort _ pc | .ret _ pc _ => pc
  | .enter h _ => .holding h
  | .commit _ h _ => .committing h
  | .endHold _ => .leaving

variable (t : Turn) (x : FlipCall κ)

@[simp] theorem run_pc : (t.run x).pc = t.pc := by cases t <;> rfl
@[simp] theorem run_key : (t.run x).key = x.key := by cases t <;> rfl
@[simp] theorem run_e : (t.run x).e = x.e := by cases t <;> rfl
@[simp] theorem run_granted : (t.run x).granted = x.granted := by cases t <;> rfl

end Turn

/-- What a step of a flip does to the gate before it writes its record. -/
inductive Prior where
  | keep
  /-- A hold of the flip's entry starts. -/
  | start
  | enqueue
  | quit
  /-- Hold `h` ends. -/
  | finish (h : HoldId) (expired : Bool)

def Prior.run (g : Gate κ) (j : FlipId) : Prior → Gate κ
  | .keep => g
  | .start => startHoldLocked g (g.flips j).e
  | .enqueue => { g with queue := g.queue ++ [j] }
  | .quit => { g with queue := g.queue.erase j }
  | .finish h expired => endHoldLocked g h expired

/-- The ways of the call `x` from one place to the next. -/
inductive Goes (b : Bounds) (g : Gate κ) (x : FlipCall κ) : FlipPc → Choice → Prior → Turn → Prop
  | direct (r : Commit) (t : Timer) (ht : t = .off ∨ t = x.timer) :
      Goes b g x .direct (.commit r) .keep (.ret r .returned t)
  | stop (limit : Time) : Goes b g x (.phaseA limit) .run .keep (.abort .closed .leaving)
  | ask (limit : Time) : Goes b g x (.phaseA limit) .run .keep (.goto .asking)
  | wait (limit till : Time) :
      Goes b g x (.phaseA limit) .run .keep (.goto (.phaseAWait limit g.changed till))
  | look (limit : Time) (seen : Nat) (till : Time) :
      Goes b g x (.phaseAWait limit seen till) .run .keep (.goto (.phaseA limit))
  | ctx (limit : Time) (seen : Nat) (till : Time) :
      Goes b g x (.phaseAWait limit seen till) .ctx .keep (.abort .ctx .leaving)
  | stopAsking : Goes b g x .asking .run .keep (.abort .closed .leaving)
  | start (ho : g.closed = false) (hh : g.holder = none) (hq : g.queue = []) :
      Goes b g x .asking .run .start (.enter g.nHold ((startHoldLocked g x.e).holds g.nHold).start)
  | enqueue (ho : g.closed = false) (hb : ¬(g.holder = none ∧ g.queue = [])) :
      Goes b g x .asking .run .enqueue (.goto (.queued (g.now + b.tokenWait)))
  | granted (till : Time) (h : HoldId) (hg : x.granted = some h) :
      Goes b g x (.queued till) .granted .keep (.enter h (g.holds h).start)
  | giveUp (till : Time) (c : Choice) (cause : Option Cause) :
      Goes b g x (.queued till) c .keep (.goto (.gaveUp cause))
  | take (h : HoldId) (hg : x.granted = some h) :
      Goes b g x (.gaveUp none) .run .keep (.enter h (g.holds h).start)
  | pass (h : HoldId) (cause : Cause) (hg : x.granted = some h) :
      Goes b g x (.gaveUp (some cause)) .run (.finish h false) (.abort cause .leaving)
  | quit (hg : x.granted = none) : Goes b g x (.gaveUp none) .run .quit (.goto .unheld)
  | quitStopped (cause : Cause) (hg : x.granted = none) :
      Goes b g x (.gaveUp (some cause)) .run .quit (.abort cause .leaving)
  | stopUnheld (cause : Cause) : Goes b g x .unheld .run .keep (.abort cause .leaving)
  | commitUnheld (hs : stopErr g x = none) :
      Goes b g x .unheld .run .keep (.commit .holdSkipped none .off)
  | stopHolding (h : HoldId) : Goes b g x (.holding h) .run .keep (.abort .closed (.ending h))
  | expire (h : HoldId) : Goes b g x (.holding h) .run .keep (.goto (.expiring h))
  | decide (h : HoldId) (cut : Bool) : Goes b g x (.holding h) .run .keep (.goto (.decided h cut))
  | holdWait (h : HoldId) (till : Time) :
      Goes b g x (.holding h) .run .keep (.goto (.holdWait h g.changed till))
  | holdLook (h : HoldId) (seen : Nat) (till : Time) :
      Goes b g x (.holdWait h seen till) .run .keep (.goto (.holding h))
  | holdCtx (h : HoldId) (seen : Nat) (till : Time) :
      Goes b g x (.holdWait h seen till) .ctx .keep (.abort .ctx (.ending h))
  | expired (h : HoldId) : Goes b g x (.expiring h) .run (.finish h true) (.goto (.expired h))
  | stopExpired (h : HoldId) (cause : Cause) :
      Goes b g x (.expired h) .run .keep (.abort cause (.ending h))
  | commitExpired (h : HoldId) (hs : stopErr g x = none) :
      Goes b g x (.expired h) .run .keep (.commit .holdExpired (some h) .off)
  | stopDecided (h : HoldId) (cut : Bool) (cause : Cause) :
      Goes b g x (.decided h cut) .run .keep (.abort cause (.ending h))
  | commitDecided (h : HoldId) (cut : Bool) (hs : stopErr g x = none) :
      Goes b g x (.decided h cut) .run .keep
        (.commit (if cut then .quietCutShort else .held) (some h)
          (.armed ((g.holds h).start + b.holdMax)))
  | returned (r : Commit) (t : Timer) (ht : t = .off ∨ t = x.timer) :
      Goes b g x (.committing none) (.commit r) .keep (.ret r .leaving t)
  | returnedHeld (h : HoldId) (r : Commit) (t : Timer) (ht : t = .off ∨ t = x.timer) :
      Goes b g x (.committing (some h)) (.commit r) .keep (.ret r (.ending h) t)
  | ended (h : HoldId) :
      Goes b g x (.ending h) .run (.finish h false) (.endHold ((endHoldLocked g h false).holds h))

section

variable [DecidableEq κ]

/-- A step of flip `j`. -/
inductive FlipMove (b : Bounds) (g : Gate κ) (j : FlipId) (c : Choice) : Gate κ → Prop
  | goes (p : Prior) (t : Turn) (h : Goes b g (g.flips j) (g.flips j).pc c p t) :
      FlipMove b g j c ((p.run g j).onFlip j t.run)
  | enter (k : κ) (start : Time) (hc : c = .run) (hp : (g.flips j).pc = .begun start)
      (hk : (g.flips j).key = some k) : FlipMove b g j c (flipEnter b g j k start)
  | leave (hp : (g.flips j).pc = .leaving) : FlipMove b g j c (flipLeave g j)

theorem flipStep_move {j : FlipId} {c : Choice} (h : flipStep b g j c = some g') :
    FlipMove b g j c g' := by
  have goes : ∀ {pc : FlipPc} (p : Prior) (t : Turn), (g.flips j).pc = pc →
      Goes b g (g.flips j) pc c p t → (p.run g j).onFlip j t.run = g' → FlipMove b g j c g' := by
    rintro pc p t hp hg rfl
    exact .goes p t (hp ▸ hg)
  simp only [flipStep] at h
  split at h
  all_goals first | (cases h; done) | rename_i hp
  · refine goes .keep _ hp (.direct _ _ ?_) (Option.some.inj h)
    split <;> simp [*]
  · obtain ⟨k, hk, rfl⟩ := Option.map_eq_some_iff.mp h
    exact .enter k _ rfl hp hk
  · have h := Option.some.inj h
    simp only [phaseAPass] at h
    split at h
    · exact goes .keep _ hp (.stop _) h
    · split at h
      · exact goes .keep _ hp (.ask _) h
      · exact goes .keep _ hp (.wait _ _) h
  · split at h <;> cases h
    exact goes .keep _ hp (.look _ _ _) rfl
  · split at h <;> cases h
    exact goes .keep _ hp (.ctx _ _ _) rfl
  · have h := Option.some.inj h
    simp only [acquire] at h
    split at h
    · exact goes .keep _ hp .stopAsking h
    · rename_i hc
      rw [Bool.not_eq_true] at hc
      split at h
      · rename_i hfree
        exact goes .start _ hp (.start hc hfree.1 hfree.2) h
      · exact goes .enqueue _ hp (.enqueue hc ‹_›) h
  · obtain ⟨x, hx, rfl⟩ := Option.map_eq_some_iff.mp h
    exact goes .keep _ hp (.granted _ x hx) rfl
  · split at h <;> cases h
    exact goes .keep _ hp (.giveUp _ _ _) rfl
  · split at h <;> cases h
    exact goes .keep _ hp (.giveUp _ _ _) rfl
  · split at h <;> cases h
    exact goes .keep _ hp (.giveUp _ _ _) rfl
  · have h := Option.some.inj h
    simp only [giveUp] at h
    split at h
    · exact goes .keep _ hp (.take _ ‹_›) h
    · exact goes (.finish _ _) _ hp (.pass _ _ ‹_›) h
    · exact goes .quit _ hp (.quit ‹_›) h
    · exact goes .quit _ hp (.quitStopped _ ‹_›) h
  · have h := Option.some.inj h
    simp only [commitUnlessStopped] at h
    split at h
    · exact goes .keep _ hp (.stopUnheld _) h
    · exact goes .keep _ hp (.commitUnheld ‹_›) h
  · have h := Option.some.inj h
    simp only [holdPass] at h
    split at h
    · exact goes .keep _ hp (.stopHolding _) h
    · split at h
      · exact goes .keep _ hp (.expire _) h
      · split at h
        · exact goes .keep _ hp (.decide _ _) h
        · exact goes .keep _ hp (.holdWait _ _) h
  · split at h <;> cases h
    exact goes .keep _ hp (.holdLook _ _ _) rfl
  · split at h <;> cases h
    exact goes .keep _ hp (.holdCtx _ _ _) rfl
  · exact goes (.finish _ _) _ hp (.expired _) (Option.some.inj h)
  · have h := Option.some.inj h
    simp only [commitUnlessStopped] at h
    split at h
    · exact goes .keep _ hp (.stopExpired _ _) h
    · exact goes .keep _ hp (.commitExpired _ ‹_›) h
  · have h := Option.some.inj h
    simp only [commitUnlessStopped] at h
    split at h
    · exact goes .keep _ hp (.stopDecided _ _ _) h
    · exact goes .keep _ hp (.commitDecided _ _ ‹_›) h
  · refine goes .keep _ hp (.returned _ _ ?_) (Option.some.inj h)
    split <;> simp [*]
  · refine goes .keep _ hp (.returnedHeld _ _ _ ?_) (Option.some.inj h)
    split <;> simp [*]
  · exact goes (.finish _ _) _ hp (.ended _) (Option.some.inj h)
  · cases h
    exact .leave hp

end

/-! ## The steps of the gate -/

/-- The state after `Done` of serve `i`'s token `t`. -/
def completed (g : Gate κ) (i : ServeId) (t : Token) : Gate κ :=
  broadcastLocked ((g.onEnt t.e fun x => x.complete i t.start g.now).setServe i
    (.registered { t with done := some g.now, doneInHold := (g.ent t.e).hold.isSome }))

/-- The record of a new call of `Flip`. -/
inductive NewCall (b : Bounds) (k : κ) (now : Time) : Bool → FlipCall κ → Prop
  | stopped : NewCall b k now true
      ⟨.returned, some k, 0, true, none, .off, { Result.zero with outcome := some .aborted },
        some (.aborted .ctx), 0⟩
  | begun (hb : b.Enabled) : NewCall b k now false
      ⟨.begun now, some k, 0, false, none, .off, .zero, none, 0⟩
  | direct (hb : ¬b.Enabled) : NewCall b k now false
      ⟨.direct, some k, 0, false, none, .off,
        { Result.zero with outcome := some .disabled, committed := true }, none, 1⟩

/-- A request leaves hold `h`. -/
def leaveHold (g : Gate κ) (h : HoldId) : Gate κ :=
  g.onHold h fun x => { x with waiting := x.waiting - 1 }

variable [DecidableEq κ]

/-- A step of the gate. -/
inductive StepMove (b : Bounds) (g : Gate κ) : Act κ → Gate κ → Prop
  | stay (a : Act κ) : StepMove b g a g
  | tick (d : Nat) : StepMove b g (.tick d) { g with now := g.now + d }
  | join (k : κ) (hb : b.Enabled) : StepMove b g (.anchorStart k) (join b g k)
  | disabled (k : κ) :
      StepMove b g (.anchorStart k) ({ g with nServe := g.nServe + 1 }.setServe g.nServe .disabled)
  | startTimer (i : ServeId) (e : EntryId) (h : HoldId) (hs : g.serves i = .joined e h) :
      StepMove b g (.startTimer i) (g.setServe i (.waiting e h g.now))
  | wake (i : ServeId) (w : Wake) (e : EntryId) (h : HoldId) (at₀ : Time) (left : Bool)
      (hs : g.serves i = .waiting e h at₀)
      (hw : left = true ∨ (g.holds h).ended.isSome ∨ at₀ + b.holdMax ≤ g.now) :
      StepMove b g (.wake i w) (g.setServe i (.woken e h at₀ left))
  | leave (i : ServeId) (e : EntryId) (h : HoldId) (at₀ : Time)
      (hs : g.serves i = .woken e h at₀ true) :
      StepMove b g (.relock i) ((leaveHold g h).setServe i (.unregistered (g.now - at₀)))
  | register (i : ServeId) (e : EntryId) (h : HoldId) (at₀ : Time)
      (hs : g.serves i = .woken e h at₀ false) :
      StepMove b g (.relock i) (registerLocked (leaveHold g h) i e (g.now - at₀))
  | complete (i : ServeId) (t : Token) (hs : g.serves i = .registered t) (hd : t.done = none) :
      StepMove b g (.done i) (completed g i t)
  | call (k : κ) (ctx : Bool) (x : FlipCall κ) (hx : NewCall b k g.now ctx x) :
      StepMove b g (.flip k ctx) { g with nFlip := g.nFlip + 1, flips := update g.flips g.nFlip x }
  | cancel (j : FlipId) : StepMove b g (.cancel j) (g.onFlip j fun x => { x with ctxDone := true })
  | flip (j : FlipId) (c : Choice) (g' : Gate κ) (h : FlipMove b g j c g') :
      StepMove b g (.flipStep j c) g'
  | fire (j : FlipId) (h : HoldId) (hp : (g.flips j).pc = .committing (some h)) :
      StepMove b g (.timerFire j) (g.onFlip j fun x => { x with timer := .fired h })
  | timer (j : FlipId) (h : HoldId) (ht : (g.flips j).timer = .fired h) :
      StepMove b g (.timerRun j)
        ((endHoldLocked g h true).onFlip j fun x => { x with timer := .off })
  | purge (k : κ) (e : EntryId) (hk : g.entries k = some e) (hl : ¬(g.ent e).live g.now b.quiet) :
      StepMove b g (.purge k) { g with entries := update g.entries k none }
  | close (he : b.Enabled) (ho : g.closed = false) (h : HoldId) (hh : g.holder = some h) :
      StepMove b g .close (broadcastLocked (endHoldLocked { g with closed := true } h false))
  | closeFree (he : b.Enabled) (ho : g.closed = false) (hh : g.holder = none) :
      StepMove b g .close (broadcastLocked { g with closed := true })

theorem step_move {a : Act κ} (h : step b g a = some g') : StepMove b g a g' := by
  cases a with
  | tick d => cases h; exact .tick d
  | anchorStart k =>
    cases h
    simp only [anchorStart]
    split
    · exact .join k ‹_›
    · exact .disabled k
  | startTimer i =>
    simp only [step] at h
    split at h <;> cases h
    exact .startTimer i _ _ ‹_›
  | wake i w =>
    simp only [step, wake] at h
    split at h
    · rename_i e h₁ at₀ hi
      split at h
      · split at h <;> cases h
        exact .wake i _ e h₁ at₀ false hi (.inr (.inl ‹_›))
      · split at h <;> cases h
        exact .wake i _ e h₁ at₀ false hi (.inr (.inr ‹_›))
      · cases h
        exact .wake i _ e h₁ at₀ true hi (.inl rfl)
    · cases h
  | relock i =>
    simp only [step, relock] at h
    split at h
    · rename_i e h₁ at₀ left hi
      cases left <;> cases h
      · exact .register i e h₁ at₀ hi
      · exact .leave i e h₁ at₀ hi
    · cases h
  | done i =>
    simp only [step, done] at h
    split at h
    · rename_i t hi
      split at h <;> cases h
      · exact .stay _
      · exact .complete i t hi (Option.not_isSome_iff_eq_none.mp ‹_›)
    · cases h; exact .stay _
    · cases h; exact .stay _
    · cases h
  | flip k ctx =>
    cases h
    simp only [flip]
    split
    · rename_i hc
      exact .call k ctx _ (hc ▸ .stopped)
    · rename_i hc
      rw [Bool.not_eq_true] at hc
      subst hc
      split
      · exact .call k false _ (.begun ‹_›)
      · exact .call k false _ (.direct ‹_›)
  | cancel j => cases h; exact .cancel j
  | flipStep j c => exact .flip j c g' (flipStep_move h)
  | timerFire j =>
    simp only [step, timerFire] at h
    split at h
    · split at h <;> cases h
      exact .fire j _ ‹_›
    · cases h
  | timerRun j =>
    simp only [step, timerRun] at h
    split at h <;> cases h
    exact .timer j _ ‹_›
  | purge k =>
    cases h
    simp only [purge]
    split
    · split
      · exact .stay _
      · exact .purge k _ ‹_› ‹_›
    · exact .stay _
  | close =>
    cases h
    simp only [close]
    split
    · exact .stay _
    · rename_i hgo
      obtain ⟨he, ho⟩ := not_or.mp hgo
      rw [Bool.not_eq_true] at ho
      split
      · exact .close (not_not.mp he) ho _ ‹_›
      · exact .closeFree (not_not.mp he) ho ‹_›

end AptCacher.Flipgate
