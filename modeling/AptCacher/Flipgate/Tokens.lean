import Mathlib.Order.Nat
import Mathlib.Tactic.Common
import AptCacher.Flipgate.Transitions

/-!
# The flip barrier: what a step does to the anchor serves

Every step leaves the serves and the entries' records of them alone (`Frame`), moves one serve
between two places of `AnchorStart`, registers one, or completes one (`ServeStep`). The invariant
of the tokens (`TokInv`) follows from these four cases:

* a registered token that is not done is in flight on its entry;
* a token that is done is no newer than its entry's `lastDone`, unless it ran for `AnchorTimeout`
  or longer and ended inside a hold of the entry.
-/

namespace AptCacher.Flipgate

open Function (update update_self update_of_ne)

variable {κ : Type} {b : Bounds} {g g₁ g' : Gate κ}

/-- The entry a serve refers to. -/
def Serve.entryOf : Serve → Option EntryId
  | .joined e _ | .waiting e _ _ | .woken e _ _ _ => some e
  | .registered t => some t.e
  | _ => none

/-! ## Steps that leave the serves alone -/

/-- What no step undoes: time passes, calls and holds stay called and started, and a hold that has
ended stays ended. -/
structure Later (g g' : Gate κ) : Prop where
  now : g.now ≤ g'.now
  nServe : g.nServe ≤ g'.nServe
  nHold : g.nHold ≤ g'.nHold
  ended : ∀ h < g.nHold, (g.holds h).ended.isSome = true → (g'.holds h).ended.isSome = true

theorem Later.refl (g : Gate κ) : Later g g := ⟨le_rfl, le_rfl, le_rfl, fun _ _ h => h⟩

theorem Later.trans (h : Later g g₁) (h' : Later g₁ g') : Later g g' where
  now := h.now.trans h'.now
  nServe := h.nServe.trans h'.nServe
  nHold := h.nHold.trans h'.nHold
  ended x hx hxe := h'.ended x (hx.trans_le h.nHold) (h.ended x hx hxe)

/-- The serves, and what the entries so far record of them, are as before. -/
structure Frame (g g' : Gate κ) : Prop extends Later g g' where
  serves : g'.serves = g.serves
  nEnt : g.nEnt ≤ g'.nEnt
  inflight : ∀ e < g.nEnt, (g'.ent e).inflight = (g.ent e).inflight
  lastDone : ∀ e < g.nEnt, (g'.ent e).lastDone = (g.ent e).lastDone

namespace Frame

theorem refl (g : Gate κ) : Frame g g := ⟨.refl g, rfl, le_rfl, fun _ _ => rfl, fun _ _ => rfl⟩

theorem trans (h : Frame g g₁) (h' : Frame g₁ g') : Frame g g' where
  toLater := h.toLater.trans h'.toLater
  serves := h'.serves.trans h.serves
  nEnt := h.nEnt.trans h'.nEnt
  inflight e he := (h'.inflight e (he.trans_le h.nEnt)).trans (h.inflight e he)
  lastDone e he := (h'.lastDone e (he.trans_le h.nEnt)).trans (h.lastDone e he)

/-- A step that changes neither the serves nor the entries nor the holds. -/
theorem of_eq (hs : g'.serves = g.serves) (he : g'.ent = g.ent) (hn : g'.nEnt = g.nEnt)
    (hh : g'.holds = g.holds) (hnh : g'.nHold = g.nHold) (ht : g.now ≤ g'.now)
    (hns : g.nServe ≤ g'.nServe) : Frame g g' :=
  ⟨⟨ht, hns, hnh.ge, fun _ _ h => by rwa [hh]⟩, hs, hn.ge, fun _ _ => by rw [he],
    fun _ _ => by rw [he]⟩

/-- A step that changes one entry, but not its in-flight set and `lastDone`. -/
theorem onEnt (e : EntryId) (f : Entry κ → Entry κ) (hi : ∀ x, (f x).inflight = x.inflight)
    (hl : ∀ x, (f x).lastDone = x.lastDone) : Frame g (g.onEnt e f) := by
  refine ⟨⟨le_rfl, le_rfl, le_rfl, fun _ _ h => h⟩, rfl, le_rfl, fun e' _ => ?_, fun e' _ => ?_⟩ <;>
  · by_cases h : e' = e
    · subst h; simp [hi, hl]
    · simp [update_of_ne h]

theorem onFlip (j : FlipId) (f : FlipCall κ → FlipCall κ) : Frame g (g.onFlip j f) :=
  of_eq rfl rfl rfl rfl rfl le_rfl le_rfl

theorem onHold (h : HoldId) (f : Hold → Hold)
    (hf : ∀ x, x.ended.isSome = true → (f x).ended.isSome = true) : Frame g (g.onHold h f) where
  now := le_rfl
  nServe := le_rfl
  nHold := le_rfl
  ended h' _ hx := by
    by_cases hh : h' = h
    · subst hh
      simpa using hf _ hx
    · simpa [update_of_ne hh] using hx
  serves := rfl
  nEnt := le_rfl
  inflight _ _ := rfl
  lastDone _ _ := rfl

theorem startHoldLocked (e : EntryId) : Frame g (startHoldLocked g e) := by
  have key := Frame.onEnt (g := g) e (fun x => { x with hold := some g.nHold }) (fun _ => rfl)
    fun _ => rfl
  refine ⟨⟨le_rfl, le_rfl, Nat.le_succ _, fun h hlt hx => ?_⟩, rfl, le_rfl, key.inflight,
    key.lastDone⟩
  simpa [update_of_ne (Nat.ne_of_lt hlt)] using hx

theorem passToken : Frame g (passToken g) := by
  unfold Flipgate.passToken
  split
  · split
    · exact of_eq rfl rfl rfl rfl rfl le_rfl le_rfl
    · rename_i j rest _ _
      exact ((of_eq rfl rfl rfl rfl rfl le_rfl le_rfl : Frame g { g with queue := rest }).trans
        (startHoldLocked _)).trans (onFlip _ _)
  · exact of_eq rfl rfl rfl rfl rfl le_rfl le_rfl

theorem closeHold (h : HoldId) (x : Bool) : Frame g (closeHold g h x) := by
  have key : Frame g (((g.onHold h fun y => { y with ended := some g.now, expired := x })).onEnt
      (g.holds h).e fun y =>
        { y with hold := if y.hold = some h then none else y.hold, lastUse := g.now }) :=
    (Frame.onHold _ _ fun _ _ => rfl).trans (Frame.onEnt _ _ (fun _ => rfl) fun _ => rfl)
  simp only [Flipgate.closeHold]
  split
  · exact key.trans (of_eq rfl rfl rfl rfl rfl le_rfl le_rfl)
  · exact key

theorem endHoldLocked (h : HoldId) (x : Bool) : Frame g (endHoldLocked g h x) := by
  simp only [Flipgate.endHoldLocked]
  split
  · exact refl g
  · have key : Frame (Flipgate.closeHold g h x)
        (if (Flipgate.closeHold g h x).holder = some h then
          Flipgate.passToken (Flipgate.closeHold g h x) else Flipgate.closeHold g h x) := by
      split
      · exact passToken
      · exact refl _
    exact ((closeHold h x).trans key).trans (of_eq rfl rfl rfl rfl rfl le_rfl le_rfl)

theorem sweepLocked (now : Time) : Frame g (sweepLocked b g now) := by
  unfold Flipgate.sweepLocked
  split
  · exact refl g
  · exact of_eq rfl rfl rfl rfl rfl le_rfl le_rfl

variable [DecidableEq κ]

theorem mapped (k : κ) : Frame g (mapped g k).1 := by
  unfold Flipgate.mapped
  split
  · exact refl g
  · refine ⟨⟨le_rfl, le_rfl, le_rfl, fun _ _ h => h⟩, rfl, Nat.le_succ _, fun e he => ?_,
      fun e he => ?_⟩ <;>
    simp [update_of_ne (Nat.ne_of_lt he)]

theorem entryLocked (k : κ) (now : Time) : Frame g (entryLocked b g k now).1 :=
  ((sweepLocked now).trans (mapped k)).trans
    (onEnt _ (fun x => { x with lastUse := now }) (fun _ => rfl) fun _ => rfl)

end Frame

/-! ### `Flip` leaves the serves alone -/

theorem Prior.frame (j : FlipId) (p : Prior) : Frame g (p.run g j) := by
  cases p with
  | keep => exact .refl g
  | start => exact .startHoldLocked _
  | enqueue => exact .of_eq rfl rfl rfl rfl rfl le_rfl le_rfl
  | quit => exact .of_eq rfl rfl rfl rfl rfl le_rfl le_rfl
  | finish h x => exact .endHoldLocked h x

theorem FlipMove.frame [DecidableEq κ] {j : FlipId} {c : Choice} (h : FlipMove b g j c g') :
    Frame g g' := by
  cases h with
  | goes p t => exact (p.frame j).trans (.onFlip _ _)
  | enter k start =>
    exact ((Frame.entryLocked k start).trans
      (.onEnt (entryLocked b g k start).2 (fun x => { x with flips := x.flips + 1 })
        (fun _ => rfl) fun _ => rfl)).trans (.of_eq rfl rfl rfl rfl rfl le_rfl le_rfl)
  | leave =>
    exact (Frame.onEnt (g.flips j).e (fun x => { x with flips := x.flips - 1, lastUse := g.now })
      (fun _ => rfl) fun _ => rfl).trans (.of_eq rfl rfl rfl rfl rfl le_rfl le_rfl)

theorem leaveHold_frame (h : HoldId) : Frame g (leaveHold g h) := .onHold _ _ fun _ h => h

/-! ## What a step does to the serves -/

/-- Where serve `i` can go without a registration. -/
inductive Moves (b : Bounds) (g : Gate κ) (i : ServeId) : Serve → Prop
  | disabled (hi : i = g.nServe) : Moves b g i .disabled
  | joined (e : EntryId) (h : HoldId) (hi : i = g.nServe) : Moves b g i (.joined e h)
  | waiting (e : EntryId) (h : HoldId) (hs : g.serves i = .joined e h) :
      Moves b g i (.waiting e h g.now)
  | woken (e : EntryId) (h : HoldId) (at₀ : Time) (left : Bool) (hs : g.serves i = .waiting e h at₀)
      (hw : left = true ∨ (g.holds h).ended.isSome ∨ at₀ + b.holdMax ≤ g.now) :
      Moves b g i (.woken e h at₀ left)
  | unregistered (e : EntryId) (h : HoldId) (at₀ held : Time) (hs : g.serves i = .woken e h at₀ true) :
      Moves b g i (.unregistered held)

/-- What a step does to the serves (module doc). -/
inductive ServeStep (b : Bounds) (g g' : Gate κ) : Prop
  | keep (hf : Frame g g')
  | move (i : ServeId) (s : Serve) (hm : Moves b g i s) (he : ∀ e ∈ s.entryOf, e < g'.nEnt)
      (hf : Frame (g.setServe i s) g')
  | register (i : ServeId) (e : EntryId) (held : Time)
      (hi : i = g.nServe ∨ ∃ h at₀, g.serves i = .woken e h at₀ false) (g₁ : Gate κ)
      (hf : Frame g g₁) (hn : g₁.now = g.now) (he : e < g₁.nEnt) (hg : g' = registerLocked g₁ i e held)
  | complete (i : ServeId) (t : Token) (hs : g.serves i = .registered t) (hd : t.done = none)
      (hg : g' = completed g i t)

/-- The map's entries exist. -/
def MapLt (g : Gate κ) : Prop := ∀ k, ∀ e ∈ g.entries k, e < g.nEnt

/-- The entries of the serves exist. -/
def ServesLt (g : Gate κ) : Prop := ∀ i, ∀ e ∈ (g.serves i).entryOf, e < g.nEnt

theorem sweepLocked_entries {k : κ} {e : EntryId} {now : Time}
    (h : (sweepLocked b g now).entries k = some e) : g.entries k = some e := by
  unfold sweepLocked at h
  split at h
  · exact h
  · exact (Option.filter_eq_some_iff.mp h).1

section

variable [DecidableEq κ]

theorem entryLocked_lt (hm : MapLt g) (k : κ) (now : Time) :
    (entryLocked b g k now).2 < (entryLocked b g k now).1.nEnt := by
  have key : (mapped (sweepLocked b g now) k).2 < (mapped (sweepLocked b g now) k).1.nEnt := by
    unfold mapped
    split
    · rename_i e he
      exact (hm k e (sweepLocked_entries he)).trans_le (Frame.sweepLocked now).nEnt
    · exact Nat.lt_succ_self _
  exact key

theorem entryLocked_now (k : κ) (now : Time) : (entryLocked b g k now).1.now = g.now := by
  simp only [entryLocked, mapped, sweepLocked]
  split <;> split <;> rfl

theorem join_serves (hm : MapLt g) (k : κ) : ServeStep b g (join b g k) := by
  have hf : Frame g (entryLocked b { g with nServe := g.nServe + 1 } k g.now).1 :=
    Frame.trans (.of_eq rfl rfl rfl rfl rfl le_rfl (Nat.le_succ _) :
      Frame g { g with nServe := g.nServe + 1 })
      (.entryLocked k g.now)
  have hlt := entryLocked_lt (b := b) (g := { g with nServe := g.nServe + 1 }) hm k g.now
  have hnow := entryLocked_now (b := b) (g := { g with nServe := g.nServe + 1 }) k g.now
  simp only [join]
  generalize entryLocked b { g with nServe := g.nServe + 1 } k g.now = r at hf hlt hnow ⊢
  obtain ⟨g₁, e⟩ := r
  have hreg : ServeStep b g (registerLocked g₁ g.nServe e 0) :=
    .register g.nServe e 0 (.inl rfl) g₁ hf hnow hlt rfl
  simp only [joinEntry]
  split
  · rename_i h _
    split
    · refine .move g.nServe _ (.joined e h rfl) ?_ ?_
      · rintro e ⟨⟩
        exact hlt
      · have hw : Frame g₁ (g₁.onHold h fun x =>
            { x with waiting := x.waiting + 1, heldTotal := x.heldTotal + 1 }) :=
          .onHold _ _ fun _ h => h
        have hfw := hf.trans hw
        refine ⟨⟨hfw.now, hfw.nServe, hfw.nHold, hfw.ended⟩, ?_, hf.nEnt, hf.inflight, hf.lastDone⟩
        exact congrArg (update · g.nServe (Serve.joined e h)) hf.serves
    · exact hreg
  · exact hreg

theorem step_serves {a : Act κ} (hm : MapLt g) (hs : ServesLt g) (h : step b g a = some g') :
    ServeStep b g g' := by
  have ref : ∀ {i e}, (g.serves i).entryOf = some e → ∀ x ∈ some e, x < g.nEnt := by
    rintro i e hi x ⟨⟩
    exact hs i e hi
  cases step_move h with
  | stay => exact .keep (.refl _)
  | tick d => exact .keep (.of_eq rfl rfl rfl rfl rfl (Nat.le_add_right _ _) le_rfl)
  | join k => exact join_serves hm k
  | disabled k =>
    exact .move g.nServe _ (.disabled rfl) (by simp [Serve.entryOf])
      (.of_eq rfl rfl rfl rfl rfl le_rfl (Nat.le_succ _))
  | startTimer i e h₁ hi => exact .move i _ (.waiting e h₁ hi) (ref (by rw [hi]; rfl)) (.refl _)
  | wake i w e h₁ at₀ left hi hw =>
    exact .move i _ (.woken e h₁ at₀ left hi hw) (ref (by rw [hi]; rfl)) (.refl _)
  | leave i e h₁ at₀ hi =>
    exact .move i _ (.unregistered e h₁ at₀ _ hi) (by simp [Serve.entryOf])
      (.onHold h₁ (fun x => { x with waiting := x.waiting - 1 }) fun _ h => h)
  | register i e h₁ at₀ hi =>
    exact .register i e _ (.inr ⟨h₁, at₀, hi⟩) _ (leaveHold_frame h₁) rfl
      (hs i e (by rw [hi]; rfl)) rfl
  | complete i t hi hd => exact .complete i t hi hd rfl
  | call k c x => exact .keep (.of_eq rfl rfl rfl rfl rfl le_rfl le_rfl)
  | cancel j => exact .keep (.onFlip _ _)
  | flip j c g' h => exact .keep h.frame
  | fire j => exact .keep (.onFlip _ _)
  | timer j h₁ => exact .keep ((Frame.endHoldLocked _ _).trans (.onFlip _ _))
  | purge k => exact .keep (.of_eq rfl rfl rfl rfl rfl le_rfl le_rfl)
  | close =>
    have closed : Frame g { g with closed := true } := .of_eq rfl rfl rfl rfl rfl le_rfl le_rfl
    exact .keep ((closed.trans (.endHoldLocked _ _)).trans (.of_eq rfl rfl rfl rfl rfl le_rfl le_rfl))
  | closeFree => exact .keep (.of_eq rfl rfl rfl rfl rfl le_rfl le_rfl)

end

/-! ## The invariant of the tokens -/

/-- What the entries know of the tokens (module doc). -/
structure TokInv (g : Gate κ) : Prop where
  ref : ServesLt g
  live : ∀ i t, g.serves i = .registered t → t.done = none → i ∈ (g.ent t.e).inflight
  past : ∀ i t d, g.serves i = .registered t → t.done = some d →
    (∃ l, (g.ent t.e).lastDone = some l ∧ d ≤ l) ∨
      (t.doneInHold = true ∧ t.start + anchorTimeout ≤ d)

namespace TokInv

theorem lt (hi : TokInv g) {i : ServeId} {t : Token} (h : g.serves i = .registered t) :
    t.e < g.nEnt :=
  hi.ref i t.e (by simp [h, Serve.entryOf])

theorem of_frame (hi : TokInv g) (hf : Frame g g') : TokInv g' where
  ref i e he := (hi.ref i e (by rwa [hf.serves] at he)).trans_le hf.nEnt
  live i t h hd := by
    rw [hf.serves] at h
    rw [hf.inflight _ (hi.lt h)]
    exact hi.live i t h hd
  past i t d h hd := by
    rw [hf.serves] at h
    rw [hf.lastDone _ (hi.lt h)]
    exact hi.past i t d h hd

/-- A serve that moves without a registration was not registered, or is not any more. -/
theorem of_move (hi : TokInv g) {i : ServeId} {s : Serve} (hm : Moves b g i s)
    (he : ∀ e ∈ s.entryOf, e < g'.nEnt) (hf : Frame (g.setServe i s) g') : TokInv g' := by
  have hs : g'.serves = update g.serves i s := hf.serves
  have hn : g.nEnt ≤ g'.nEnt := hf.nEnt
  have hreg : ∀ i' t, g'.serves i' = .registered t → g.serves i' = .registered t := by
    intro i' t h
    rw [hs] at h
    by_cases hii : i' = i
    · subst hii
      rw [update_self] at h
      subst h
      cases hm
    · rwa [update_of_ne hii] at h
  refine ⟨fun i' e h => ?_, fun i' t h hd => ?_, fun i' t d h hd => ?_⟩
  · rw [hs] at h
    by_cases hii : i' = i
    · subst hii
      rw [update_self] at h
      exact he e h
    · rw [update_of_ne hii] at h
      exact (hi.ref i' e h).trans_le hn
  · have h := hreg i' t h
    rw [hf.inflight t.e (hi.lt h)]
    exact hi.live i' t h hd
  · have h := hreg i' t h
    rw [hf.lastDone t.e (hi.lt h)]
    exact hi.past i' t d h hd

theorem of_register (hi : TokInv g) {i : ServeId} {e : EntryId} (held : Time) (he : e < g.nEnt) :
    TokInv (registerLocked g i e held) := by
  have hent : ∀ e', (g.ent e').inflight ⊆ ((registerLocked g i e held).ent e').inflight := by
    intro e' x hx
    by_cases h : e' = e
    · subst h; simp [registerLocked, hx]
    · simpa [registerLocked, update_of_ne h] using hx
  have hlast : ∀ e', ((registerLocked g i e held).ent e').lastDone = (g.ent e').lastDone := by
    intro e'
    by_cases h : e' = e
    · subst h; simp [registerLocked]
    · simp [registerLocked, update_of_ne h]
  have hserve : ∀ i' t, (registerLocked g i e held).serves i' = .registered t →
      (i' = i ∧ t = ⟨e, g.now, held, none, false⟩) ∨ (i' ≠ i ∧ g.serves i' = .registered t) := by
    intro i' t h
    by_cases hii : i' = i
    · subst hii
      simp only [registerLocked, Gate.setServe_serves, update_self, Serve.registered.injEq] at h
      exact .inl ⟨rfl, h.symm⟩
    · simp only [registerLocked, Gate.setServe_serves, update_of_ne hii] at h
      exact .inr ⟨hii, h⟩
  refine ⟨fun i' e' h => ?_, fun i' t h hd => ?_, fun i' t d h hd => ?_⟩
  · by_cases hii : i' = i
    · subst hii
      simp only [registerLocked, Gate.setServe_serves, update_self, Serve.entryOf] at h
      cases h
      exact he
    · simp only [registerLocked, Gate.setServe_serves, update_of_ne hii] at h
      exact hi.ref i' e' h
  · obtain ⟨rfl, rfl⟩ | ⟨-, h⟩ := hserve i' t h
    · simp [registerLocked]
    · exact hent _ (hi.live i' t h hd)
  · obtain ⟨rfl, rfl⟩ | ⟨-, h⟩ := hserve i' t h
    · cases hd
    · rw [hlast]
      exact hi.past i' t d h hd

/-- The completion of a serve is recorded in `lastDone`, or it is late and inside a hold. -/
theorem complete_lastDone (x : Entry κ) (i : ServeId) (start now : Time) :
    (∃ l, (x.complete i start now).lastDone = some l ∧ now ≤ l) ∨
      (x.hold.isSome ∧ start + anchorTimeout ≤ now) := by
  by_cases hc : now - start < anchorTimeout ∨ x.hold = none
  · left
    by_cases hl : ∀ t ∈ x.lastDone, t < now
    · exact ⟨now, if_pos ⟨hc, hl⟩, le_rfl⟩
    · have hkeep : (x.complete i start now).lastDone = x.lastDone := if_neg fun h => hl h.2
      simp only [Option.mem_def, not_forall, not_lt] at hl
      obtain ⟨l, hl, hle⟩ := hl
      exact ⟨l, hkeep.trans hl, hle⟩
  · right
    have hlate : ¬(now - start < anchorTimeout) := fun h => hc (.inl h)
    have hpos : 0 < anchorTimeout := by decide
    exact ⟨Option.isSome_iff_ne_none.mpr fun h => hc (.inr h), by unfold Time at *; omega⟩

theorem complete_mono (x : Entry κ) (i : ServeId) (start now : Time) {l : Time}
    (hl : x.lastDone = some l) : ∃ l', (x.complete i start now).lastDone = some l' ∧ l ≤ l' := by
  simp only [Entry.complete, hl, Option.mem_def, Option.some.injEq, forall_eq']
  split
  · rename_i hc
    exact ⟨now, rfl, hc.2.le⟩
  · exact ⟨l, rfl, le_rfl⟩

theorem of_complete (hi : TokInv g) {i : ServeId} {t : Token} (hs : g.serves i = .registered t) :
    TokInv (completed g i t) := by
  have hent : ∀ e, e ≠ t.e → (completed g i t).ent e = g.ent e := fun e h => by
    simp [completed, update_of_ne h]
  have hself : (completed g i t).ent t.e = (g.ent t.e).complete i t.start g.now := by
    simp [completed]
  have hserve : ∀ i', i' ≠ i → (completed g i t).serves i' = g.serves i' := fun i' h => by
    simp [completed, update_of_ne h]
  have hnew : (completed g i t).serves i =
      .registered { t with done := some g.now, doneInHold := (g.ent t.e).hold.isSome } := by
    simp [completed]
  refine ⟨fun i' e' h => ?_, fun i' t' h hd => ?_, fun i' t' d h hd => ?_⟩
  · by_cases hii : i' = i
    · subst hii
      rw [hnew] at h
      exact hi.ref i' e' (by rw [hs]; exact h)
    · rw [hserve i' hii] at h
      exact hi.ref i' e' h
  · by_cases hii : i' = i
    · subst hii
      rw [hnew] at h
      cases h
      cases hd
    · rw [hserve i' hii] at h
      have := hi.live i' t' h hd
      by_cases he : t'.e = t.e
      · rw [he] at this ⊢
        rw [hself]
        simp [Entry.complete, this, hii]
      · rwa [hent _ he]
  · by_cases hii : i' = i
    · subst hii
      rw [hnew] at h
      cases h
      cases hd
      rw [hself]
      exact complete_lastDone _ _ _ _
    · rw [hserve i' hii] at h
      obtain ⟨l, hl, hle⟩ | hr := hi.past i' t' d h hd
      · left
        by_cases he : t'.e = t.e
        · rw [he] at hl ⊢
          rw [hself]
          obtain ⟨l', hl', hle'⟩ := complete_mono (g.ent t.e) i t.start g.now hl
          exact ⟨l', hl', hle.trans hle'⟩
        · exact ⟨l, by rwa [hent _ he], hle⟩
      · exact .inr hr

theorem of_step (hi : TokInv g) (hs : ServeStep b g g') : TokInv g' := by
  cases hs with
  | keep hf => exact hi.of_frame hf
  | move i s hm he hf => exact hi.of_move hm he hf
  | register i e held _ g₁ hf _ he hg => exact hg ▸ (hi.of_frame hf).of_register held he
  | complete i t hs _ hg => exact hg ▸ hi.of_complete hs

theorem initial (t : Time) : TokInv (initial κ t) where
  ref _ _ h := by cases h
  live _ _ h := by cases h
  past _ _ _ h := by cases h

end TokInv

end AptCacher.Flipgate
