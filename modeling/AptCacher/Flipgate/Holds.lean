import AptCacher.Flipgate.TokenSteps

/-!
# The flip barrier: the hold token

At most one hold is in progress, and it is the gate's `holder`.

* `Calm`, `HoldInv`: the invariant of the token, without and with a hold in progress; every kind of
  step keeps it (`HoldInv.of_token`).
* `Ahead`: one flip is ahead of another in the queue; every kind of step keeps it.
* `hold_token`: the token is neither lost nor duplicated, and is granted in the order of the queue.
-/

namespace AptCacher.Flipgate

open Function (update update_self update_of_ne)

variable {κ : Type} {b : Bounds} {g g' : Gate κ}

/-! ## The invariant -/

/-- The holds and their owners, with no hold in progress. -/
structure Calm (g : Gate κ) : Prop where
  ended : ∀ h < g.nHold, (g.holds h).ended ≠ none
  hold : ∀ e, (g.ent e).hold = none
  only : ∀ j j' h, (g.flips j).owned = some h → (g.flips j').owned = some h → j = j'
  lt : ∀ j h, (g.flips j).owned = some h → h < g.nHold
  timer : ∀ j h, (g.flips j).timer = .fired h → h < g.nHold

/-- The holder is the one hold in progress; it is its entry's hold, and one flip owns it. -/
structure HoldCore (g : Gate κ) : Prop where
  holder : ∀ h, g.holder = some h ↔ h < g.nHold ∧ (g.holds h).ended = none
  hold : ∀ e h, (g.ent e).hold = some h ↔ (h < g.nHold ∧ (g.holds h).ended = none) ∧ (g.holds h).e = e
  owner : ∀ h, g.holder = some h → ∃ j, (g.flips j).owned = some h
  only : ∀ j j' h, (g.flips j).owned = some h → (g.flips j').owned = some h → j = j'
  lt : ∀ j h, (g.flips j).owned = some h → h < g.nHold
  timer : ∀ j h, (g.flips j).timer = .fired h → h < g.nHold

/-- The token: nobody waits for a free one, and a closed gate has none. -/
structure HoldInv (g : Gate κ) : Prop extends HoldCore g where
  queue : g.closed = false → g.holder = none → g.queue = []
  closed : g.closed = true → g.holder = none

theorem HoldCore.calm (hi : HoldCore g) (hh : g.holder = none) : Calm g where
  ended h hlt he := by
    rw [(hi.holder h).mpr ⟨hlt, he⟩] at hh
    cases hh
  hold e := by
    refine Option.eq_none_iff_forall_ne_some.mpr fun h hx => ?_
    rw [(hi.holder h).mpr ((hi.hold e h).mp hx).1] at hh
    cases hh
  only := hi.only
  lt := hi.lt
  timer := hi.timer

theorem HoldCore.keep (hi : HoldCore g) (hk : Keep g g') : HoldCore g' where
  holder h := by rw [hk.holder, hk.nHold, hk.ended, hi.holder]
  hold e h := by rw [hk.hold, hk.nHold, hk.ended, hk.on, hi.hold]
  owner h hh := by
    rw [hk.holder] at hh
    obtain ⟨j, hj⟩ := hi.owner h hh
    exact ⟨j, (hk.owned j).trans hj⟩
  only j j' h hj hj' := hi.only j j' h ((hk.owned j).symm.trans hj) ((hk.owned j').symm.trans hj')
  lt j h hj := hk.nHold ▸ hi.lt j h ((hk.owned j).symm.trans hj)
  timer j h hj := by
    rw [hk.nHold]
    rcases hk.timer j h hj with ht | ho
    · exact hi.timer j h ht
    · exact hi.lt j h ho

variable {j i j₁ : FlipId} {h : HoldId} {a : Act κ}

/-- A hold starts while none is in progress, and flip `j` owns it. -/
theorem Calm.start (hc : Calm g) (hopen : g.closed = false) (e : EntryId)
    {f : FlipCall κ → FlipCall κ} (hf : (f (g.flips j)).owned = some g.nHold)
    (ht : ∀ h, (f (g.flips j)).timer = .fired h → (g.flips j).timer = .fired h) :
    HoldInv ((startHoldLocked g e).onFlip j f) := by
  have started : ∀ h, h < g.nHold + 1 ∧ (update g.holds g.nHold ⟨e, g.now, none, false, 0, 0⟩ h).ended = none ↔
      g.nHold = h := by
    intro h
    by_cases hh : h = g.nHold
    · subst hh
      simp
    · rw [update_of_ne hh]
      exact iff_of_false (fun hx => hc.ended h (by omega) hx.2) (Ne.symm hh)
  have owned : ∀ j' h, (update g.flips j (f (g.flips j)) j').owned = some h →
      (j' = j ∧ h = g.nHold) ∨ (j' ≠ j ∧ (g.flips j').owned = some h) := by
    intro j' h hj'
    by_cases hjj : j' = j
    · subst hjj
      rw [update_self, hf] at hj'
      exact .inl ⟨rfl, (Option.some.inj hj').symm⟩
    · rw [update_of_ne hjj] at hj'
      exact .inr ⟨hjj, hj'⟩
  refine ⟨⟨fun h => ?_, fun e' h => ?_, fun h hh => ?_, fun j₁ j₂ h h₁ h₂ => ?_, fun j' h hj' => ?_,
    fun j' h hj' => ?_⟩, fun _ hh => ?_, fun hcl => ?_⟩
  · exact (Option.some_inj.trans (started h).symm)
  · show (update g.ent e { g.ent e with hold := some g.nHold } e').hold = some h ↔ _
    rw [show (h < ((startHoldLocked g e).onFlip j f).nHold ∧
      (((startHoldLocked g e).onFlip j f).holds h).ended = none) ↔ g.nHold = h from started h]
    by_cases he : e' = e
    · subst he
      rw [update_self]
      refine ⟨fun hh => ?_, fun hh => congrArg some hh.1⟩
      obtain rfl := Option.some.inj hh
      exact ⟨rfl, by simp⟩
    · rw [update_of_ne he, hc.hold]
      refine iff_of_false (Option.some_ne_none h).symm ?_
      rintro ⟨rfl, he'⟩
      exact he (by simpa using he'.symm)
  · cases hh
    exact ⟨j, by simpa using hf⟩
  · rcases owned j₁ h h₁ with ⟨rfl, rfl⟩ | ⟨_, ho₁⟩ <;> rcases owned j₂ _ h₂ with ⟨rfl, hn⟩ | ⟨_, ho₂⟩
    · rfl
    · exact absurd (hc.lt j₂ _ ho₂) (lt_irrefl _)
    · exact absurd (hc.lt j₁ _ (hn ▸ ho₁)) (lt_irrefl _)
    · exact hc.only j₁ j₂ h ho₁ ho₂
  · rcases owned j' h hj' with ⟨-, rfl⟩ | ⟨-, ho⟩
    · exact Nat.lt_succ_self _
    · exact Nat.lt_succ_of_lt (hc.lt j' h ho)
  · have old : (g.flips j').timer = .fired h :=
      update_rel (fun x y : FlipCall κ => x.timer = .fired h → y.timer = .fired h) (ht h) (fun _ => id) j' hj'
    exact Nat.lt_succ_of_lt (hc.timer j' h old)
  · cases hh
  · rw [show g.closed = true from hcl] at hopen
    cases hopen

theorem Calm.pass (hc : Calm g) (hq : QueueInv g) : HoldInv (passToken g) := by
  have free : (g.closed = false → g.queue = []) → HoldInv { g with holder := none } := fun hempty =>
    ⟨⟨fun h => iff_of_false (Option.some_ne_none h).symm fun hx => hc.ended h hx.1 hx.2,
      fun e h => iff_of_false (by rw [show (g.ent e).hold = none from hc.hold e]; exact (Option.some_ne_none h).symm)
        fun hx => hc.ended h hx.1.1 hx.1.2,
      fun h hh => (Option.some_ne_none h hh.symm).elim, hc.only, hc.lt, hc.timer⟩,
      fun ho _ => hempty ho, fun _ => rfl⟩
  unfold passToken
  split
  · rename_i j rest hjq
    split
    · rename_i hcl
      exact free fun ho => by rw [hcl] at ho; cases ho
    · rename_i hcl
      have hw := (hq.mem j (by rw [hjq]; exact List.mem_cons_self ..)).1
      have hc' : Calm { g with queue := rest } := ⟨hc.ended, hc.hold, hc.only, hc.lt, hc.timer⟩
      refine hc'.start (Bool.not_eq_true _ ▸ hcl) _ ?_ fun _ h => h
      rw [FlipCall.owned, if_pos hw]
  · rename_i hempty
    exact free fun _ => hempty

section CloseHold

variable (h : HoldId) (x : Bool)

@[simp] theorem closeHold_holds : (closeHold g h x).holds =
    update g.holds h { g.holds h with ended := some g.now, expired := x } := by
  simp only [closeHold]
  split <;> rfl

@[simp] theorem closeHold_ent : (closeHold g h x).ent = update g.ent (g.holds h).e
    { g.ent (g.holds h).e with
      hold := if (g.ent (g.holds h).e).hold = some h then none else (g.ent (g.holds h).e).hold
      lastUse := g.now } := by
  simp only [closeHold]
  split <;> rfl

@[simp] theorem closeHold_nHold : (closeHold g h x).nHold = g.nHold := by
  simp only [closeHold]
  split <;> rfl

@[simp] theorem closeHold_holder : (closeHold g h x).holder = g.holder := by
  simp only [closeHold]
  split <;> rfl

@[simp] theorem closeHold_closed : (closeHold g h x).closed = g.closed := by
  simp only [closeHold]
  split <;> rfl

end CloseHold

theorem HoldCore.calm_closeHold (hi : HoldCore g) (hh : g.holder = some h) (x : Bool) :
    Calm (closeHold g h x) := by
  have only : ∀ h', h' < g.nHold → (g.holds h').ended = none → h' = h := fun h' hlt he =>
    Option.some.inj (((hi.holder h').mpr ⟨hlt, he⟩).symm.trans hh)
  have none_of_ne : ∀ e, (g.ent e).hold ≠ some h → (g.ent e).hold = none := by
    intro e hne
    refine Option.eq_none_iff_forall_ne_some.mpr fun h' hx => hne ?_
    rw [hx, only h' ((hi.hold e h').mp hx).1.1 ((hi.hold e h').mp hx).1.2]
  refine ⟨fun h' hlt => ?_, fun e => ?_, ?_, ?_, ?_⟩
  · rw [closeHold_nHold] at hlt
    rw [closeHold_holds]
    by_cases hhh : h' = h
    · subst hhh
      rw [update_self]
      exact Option.some_ne_none _
    · rw [update_of_ne hhh]
      exact fun he => hhh (only h' hlt he)
  · rw [closeHold_ent]
    by_cases he : e = (g.holds h).e
    · subst he
      rw [update_self]
      dsimp only
      split
      · rfl
      · rename_i hne
        exact none_of_ne _ hne
    · rw [update_of_ne he]
      exact none_of_ne e fun hx => he ((hi.hold e h).mp hx).2.symm
  · rw [closeHold_flips]
    exact hi.only
  · rw [closeHold_flips, closeHold_nHold]
    exact hi.lt
  · rw [closeHold_flips, closeHold_nHold]
    exact hi.timer

theorem HoldInv.keep (hi : HoldInv g) (hk : Keep g g')
    (hq : g.closed = false → g.holder = none → g'.queue = []) : HoldInv g' where
  toHoldCore := hi.toHoldCore.keep hk
  queue ho hh := hq (hk.closed ▸ ho) (hk.holder ▸ hh)
  closed hc := hk.holder ▸ hi.closed (hk.closed ▸ hc)

/-- The end of the hold in progress. -/
theorem HoldCore.finish (hi : HoldCore g) (hq : QueueInv g) (hh : g.holder = some h) (x : Bool) :
    HoldInv (endHoldLocked g h x) := by
  have hend : (g.holds h).ended = none := ((hi.holder h).mp hh).2
  have hpass : HoldInv (passToken (closeHold g h x)) :=
    (hi.calm_closeHold hh x).pass (hq.of_eq (closeHold_queue h x) (closeHold_flips h x))
  have hg : endHoldLocked g h x = broadcastLocked (passToken (closeHold g h x)) := by
    simp only [endHoldLocked, hend, closeHold_holder, hh, Option.isSome_none, Bool.false_eq_true,
      if_false, if_true]
  rw [hg]
  exact hpass.keep (.of_eq rfl rfl rfl rfl rfl rfl) hpass.queue

/-- The end of any started hold. -/
theorem HoldInv.finish (hi : HoldInv g) (hq : QueueInv g) (hlt : h < g.nHold) (x : Bool) :
    HoldInv (endHoldLocked g h x) := by
  cases hend : (g.holds h).ended with
  | some t =>
    have hg : endHoldLocked g h x = g := if_pos (by rw [hend]; rfl)
    rw [hg]
    exact hi
  | none => exact hi.toHoldCore.finish hq ((hi.holder h).mpr ⟨hlt, hend⟩) x

/-! ## What the end of a hold does to the queue -/

/-- The end of a hold leaves the queue alone, or grants the token to its first flip. -/
theorem endHoldLocked_flow (h : HoldId) (x : Bool) :
    ((endHoldLocked g h x).queue = g.queue ∧ (endHoldLocked g h x).flips = g.flips ∧
      (endHoldLocked g h x).nHold = g.nHold) ∨
    ∃ j rest, g.closed = false ∧ g.queue = j :: rest ∧ (endHoldLocked g h x).queue = rest ∧
      (endHoldLocked g h x).flips = update g.flips j { g.flips j with granted := some g.nHold } ∧
      (endHoldLocked g h x).nHold = g.nHold + 1 := by
  simp only [endHoldLocked]
  split
  · exact .inl ⟨rfl, rfl, rfl⟩
  · split
    · unfold passToken
      split
      · rename_i j rest hq
        rw [closeHold_queue] at hq
        split
        · exact .inl ⟨closeHold_queue h x, closeHold_flips h x, closeHold_nHold h x⟩
        · rename_i hc
          rw [closeHold_closed, Bool.not_eq_true] at hc
          refine .inr ⟨j, rest, hc, hq, rfl, ?_, congrArg (· + 1) (closeHold_nHold h x)⟩
          show update (closeHold g h x).flips j
            { (closeHold g h x).flips j with granted := some (closeHold g h x).nHold } = _
          rw [closeHold_flips, closeHold_nHold]
      · exact .inl ⟨closeHold_queue h x, closeHold_flips h x, closeHold_nHold h x⟩
    · exact .inl ⟨closeHold_queue h x, closeHold_flips h x, closeHold_nHold h x⟩

theorem passToken_holds (hlt : h < g.nHold) : (passToken g).holds h = g.holds h := by
  unfold passToken
  split
  · split
    · rfl
    · simp [update_of_ne (Nat.ne_of_lt hlt)]
  · rfl

/-- The hold has ended, at its first end; every other started hold is as it was. -/
theorem endHoldLocked_ended (h : HoldId) (x : Bool) {h' : HoldId} (hlt : h' < g.nHold) :
    ((endHoldLocked g h x).holds h').ended =
      if h' = h then some ((g.holds h).ended.getD g.now) else (g.holds h').ended := by
  have closed : ∀ g₁ : Gate κ, (g.holds h).ended = none → g₁.holds h' = (closeHold g h x).holds h' →
      (g₁.holds h').ended = if h' = h then some ((g.holds h).ended.getD g.now) else (g.holds h').ended := by
    intro g₁ hend hg₁
    rw [hg₁, closeHold_holds]
    split
    · rename_i hh
      rw [hh, update_self, hend]
      rfl
    · rename_i hh
      rw [update_of_ne hh]
  simp only [endHoldLocked]
  split
  · rename_i hend
    obtain ⟨t, ht⟩ := Option.isSome_iff_exists.mp hend
    split
    · rename_i hh
      rw [hh, ht]
      rfl
    · rfl
  · rename_i hend
    have hend : (g.holds h).ended = none := Option.not_isSome_iff_eq_none.mp hend
    split
    · exact closed _ hend (passToken_holds (by rwa [closeHold_nHold]))
    · exact closed _ hend rfl

theorem endHoldLocked_ended_keeps (h : HoldId) (x : Bool) {h' : HoldId} (hlt : h' < g.nHold) {t : Time}
    (ht : (g.holds h').ended = some t) : ((endHoldLocked g h x).holds h').ended = some t := by
  rw [endHoldLocked_ended h x hlt]
  split
  · rename_i hh
    rw [← hh, ht]
    rfl
  · exact ht

theorem endHoldLocked_ended_self (h : HoldId) (x : Bool) (hlt : h < g.nHold) :
    ((endHoldLocked g h x).holds h).ended ≠ none := by
  rw [endHoldLocked_ended h x hlt, if_pos rfl]
  exact Option.some_ne_none _

theorem FlipCall.owned_running {c : FlipCall κ} (ho : c.owned = some h) :
    c.pc.running = true := by
  rw [FlipCall.owned] at ho
  revert ho
  cases c.pc <;> simp [FlipPc.waits, FlipPc.hold, FlipPc.running]

theorem QueueInv.not_mem_of_owned (hi : QueueInv g) (ho : (g.flips j).owned = some h) :
    j ∉ g.queue := fun hj => by
  rw [FlipCall.owned, if_pos (hi.mem j hj).1, (hi.mem j hj).2] at ho
  cases ho

theorem endHoldLocked_flips_of_not_mem (h : HoldId) (x : Bool) (hj : j ∉ g.queue) :
    (endHoldLocked g h x).flips j = g.flips j := by
  rcases endHoldLocked_flow (g := g) h x with ⟨-, hf, -⟩ | ⟨j', rest, -, hq, -, hf, -⟩
  · rw [hf]
  · rw [hf, update_of_ne]
    rintro rfl
    exact hj (by rw [hq]; exact List.mem_cons_self ..)

/-- A flip whose hold has ended lets go of it. -/
theorem HoldInv.release (hi : HoldInv g) {f : FlipCall κ → FlipCall κ}
    (ho : (g.flips j).owned = some h) (he : (g.holds h).ended ≠ none)
    (hf : (f (g.flips j)).owned = none)
    (ht : ∀ h', (f (g.flips j)).timer = .fired h' → (g.flips j).timer = .fired h') :
    HoldInv (g.onFlip j f) := by
  have owned : ∀ j' h', ((g.onFlip j f).flips j').owned = some h' →
      j' ≠ j ∧ (g.flips j').owned = some h' := by
    intro j' h' hj'
    by_cases hjj : j' = j
    · subst hjj
      rw [Gate.onFlip_flips, update_self, hf] at hj'
      cases hj'
    · rw [Gate.onFlip_flips, update_of_ne hjj] at hj'
      exact ⟨hjj, hj'⟩
  refine ⟨⟨hi.holder, hi.hold, fun h' hh => ?_, fun j₁ j₂ h' h₁ h₂ =>
    hi.only j₁ j₂ h' (owned j₁ h' h₁).2 (owned j₂ h' h₂).2, fun j' h' hj' => hi.lt j' h' (owned j' h' hj').2,
    fun j' h' hj' => hi.timer j' h' ?_⟩, hi.queue, hi.closed⟩
  · obtain ⟨j', hj'⟩ := hi.owner h' hh
    have hne : j' ≠ j := by
      rintro rfl
      rw [ho] at hj'
      cases hj'
      exact he ((hi.holder h).mp hh).2
    exact ⟨j', by rw [Gate.onFlip_flips, update_of_ne hne]; exact hj'⟩
  · exact update_rel (fun x y : FlipCall κ => x.timer = .fired h' → y.timer = .fired h') (ht h')
      (fun _ => id) j' hj'

theorem HoldCore.shut (hi : HoldCore g) : HoldCore { g with closed := true } :=
  ⟨hi.holder, hi.hold, hi.owner, hi.only, hi.lt, hi.timer⟩

theorem HoldInv.of_token (hi : HoldInv g) (hq : QueueInv g) (hs : TokStep b g a g') :
    HoldInv g' := by
  cases hs with
  | keep hk hqq => exact hi.keep hk fun ho hh => hqq.trans (hi.queue ho hh)
  | enqueue j _ _ hb hk _ =>
    exact hi.keep hk fun ho hh => absurd ⟨hh, hi.queue ho hh⟩ hb
  | quit j hk _ _ hqq =>
    exact hi.keep hk fun ho hh => by rw [hqq, hi.queue ho hh]; rfl
  | start j hp ho hh _ hg =>
    rw [hg]
    exact (hi.toHoldCore.calm hh).start ho _ rfl fun _ h => h
  | finish j h x f ha hg hf hy ht hw =>
    have hlt : h < g.nHold := ha.elim (fun ho => hi.lt j h ho.2) fun ht => hi.timer j h ht.2
    have hi' : HoldInv (endHoldLocked g h x) := hi.finish hq hlt x
    rw [hg]
    rcases hw with hsame | ⟨howns, hw⟩
    · exact hi'.keep (.onFlip j f (hsame _) (hf _) (hy _) fun h' hx => .inl (ht _ h' hx)) hi'.queue
    · have howns' : ((endHoldLocked g h x).flips j).owned = some h := by
        rw [endHoldLocked_flips_of_not_mem h x (hq.not_mem_of_owned howns), howns]
      rcases hw with hon | hoff
      · exact hi'.keep (.onFlip j f ((hon _).trans howns'.symm) (hf _) (hy _) fun h' hx =>
          .inl (ht _ h' hx)) hi'.queue
      · exact hi'.release howns' (endHoldLocked_ended_self h x hlt) (hoff _) (ht _)
  | close _ ho h hh hg =>
    have hi' := hi.toHoldCore.shut.finish (hq.of_eq rfl rfl) (h := h) hh false
    exact hg ▸ hi'.keep (.of_eq rfl rfl rfl rfl rfl rfl) hi'.queue
  | closeFree _ ho hh hg =>
    have hi' : HoldInv { g with closed := true } :=
      ⟨hi.toHoldCore.shut, fun h => (by cases h), fun _ => hh⟩
    exact hg ▸ hi'.keep (.of_eq rfl rfl rfl rfl rfl rfl) hi'.queue

theorem HoldInv.initial (t : Time) : HoldInv (initial κ t) where
  holder h := iff_of_false (Option.some_ne_none h).symm fun hx => absurd hx.1 (Nat.not_lt_zero h)
  hold e h := iff_of_false (Option.some_ne_none h).symm fun hx => absurd hx.1.1 (Nat.not_lt_zero h)
  owner h hh := (Option.some_ne_none h hh.symm).elim
  only j j' h hj := (Option.some_ne_none h hj.symm).elim
  lt j h hj := (Option.some_ne_none h hj.symm).elim
  timer j h hj := by cases hj
  queue _ _ := rfl
  closed h := by cases h

/-! ## The order of the queue -/

/-- Flip `i` is ahead of flip `j`: it has left the queue, or it is before `j` in it, or `j` has left
without a grant. -/
def Ahead (i j : FlipId) (g : Gate κ) : Prop :=
  ((g.flips i).pc.early = false ∧ i ∉ g.queue) ∨ List.Sublist [i, j] g.queue ∨
    ((g.flips j).pc.early = false ∧ i ∈ g.queue ∧ j ∉ g.queue ∧ (g.flips j).granted = none)

/-- A flip behind one that still waits has no grant. -/
theorem Ahead.not_mem (h : Ahead i j g) (hq : QueueInv g) (hj : (g.flips j).granted ≠ none) :
    i ∉ g.queue := by
  rcases h with ⟨-, hi⟩ | hsub | ⟨-, -, -, hg⟩
  · exact hi
  · exact absurd (hq.mem j (hsub.subset (by simp))).2 hj
  · exact absurd hg hj

theorem QueueInv.late (hq : QueueInv g) (hj : j ∈ g.queue) : (g.flips j).pc.early = false := by
  have hw := (hq.mem j hj).1
  revert hw
  cases (g.flips j).pc <;> simp [FlipPc.waits, FlipPc.early]

theorem late_of_early {c c' : FlipCall κ} (hy : c'.pc.early = true → c.pc.early = true)
    (h : c.pc.early = false) : c'.pc.early = false :=
  Bool.eq_false_iff.mpr fun h' => by rw [hy h'] at h; cases h

/-- The first flip leaves the queue. -/
theorem Ahead.pop {rest : List FlipId} (h : Ahead i j g) (hq : QueueInv g)
    (hjq : g.queue = j₁ :: rest) (hq' : g'.queue = rest)
    (hy : ∀ j, (g'.flips j).pc.early = true → (g.flips j).pc.early = true)
    (hf : ∀ j, j ∉ g.queue → (g'.flips j).granted = (g.flips j).granted) : Ahead i j g' := by
  have late := fun j => late_of_early (hy j)
  have hnd := hq.nodup
  rw [hjq, List.nodup_cons] at hnd
  rcases h with ⟨hl, hi⟩ | hsub | ⟨hl, hi, hj, hg⟩
  · rw [hjq] at hi
    exact .inl ⟨late i hl, fun hm => hi (List.mem_cons_of_mem _ (hq' ▸ hm))⟩
  · have hmem : i ∈ g.queue := hsub.subset (by simp)
    rw [hjq] at hsub
    rcases List.sublist_cons_iff.mp hsub with hsub | ⟨r, hr, hsub⟩
    · exact .inr (.inl (hq' ▸ hsub))
    · obtain ⟨rfl, -⟩ := List.cons.inj hr
      exact .inl ⟨late i (hq.late hmem), hq' ▸ hnd.1⟩
  · have hjr : j ∉ rest := fun hm => hj (by rw [hjq]; exact List.mem_cons_of_mem _ hm)
    by_cases hii : i = j₁
    · subst hii
      exact .inl ⟨late i (hq.late hi), hq' ▸ hnd.1⟩
    · have hir : i ∈ rest := by
        rw [hjq] at hi
        exact (List.mem_cons.mp hi).resolve_left hii
      exact .inr (.inr ⟨late j hl, hq' ▸ hir, hq' ▸ hjr, (hf j hj).trans hg⟩)

/-- The queue stays. -/
theorem Ahead.stay (h : Ahead i j g) (hq : g'.queue = g.queue)
    (hy : ∀ j, (g'.flips j).pc.early = true → (g.flips j).pc.early = true)
    (hf : ∀ j, j ∉ g.queue → (g'.flips j).granted = (g.flips j).granted) : Ahead i j g' := by
  have late := fun j => late_of_early (hy j)
  rw [Ahead, hq]
  rcases h with ⟨hl, hi⟩ | hsub | ⟨hl, hi, hj, hg⟩
  · exact .inl ⟨late i hl, hi⟩
  · exact .inr (.inl hsub)
  · exact .inr (.inr ⟨late j hl, hi, hj, (hf j hj).trans hg⟩)

/-- A flip that did not wait before joins the queue at its end. -/
theorem Ahead.enqueue (h : Ahead i j g) (hk : Keep g g') (hp : (g.flips j₁).pc.early = true)
    (hq : g'.queue = g.queue ++ [j₁]) : Ahead i j g' := by
  have late := fun j => late_of_early (hk.early j)
  have other : ∀ j, (g.flips j).pc.early = false → j ∉ g.queue → j ∉ g.queue ++ [j₁] := by
    intro j hj hm hx
    rcases List.mem_append.mp hx with hx | hx
    · exact hm hx
    · rw [List.mem_singleton.mp hx, hp] at hj
      cases hj
  rw [Ahead, hq]
  rcases h with ⟨hl, hi⟩ | hsub | ⟨hl, hi, hj, hg⟩
  · exact .inl ⟨late i hl, other i hl hi⟩
  · exact .inr (.inl (hsub.trans (List.sublist_append_left _ _)))
  · exact .inr (.inr ⟨late j hl, List.mem_append_left _ hi, other j hl hj, (hk.granted j).trans hg⟩)

/-- A flip leaves the queue without a grant. -/
theorem Ahead.quit (h : Ahead i j g) (hqi : QueueInv g) (hk : Keep g g')
    (hq : g'.queue = g.queue.erase j₁) : Ahead i j g' := by
  have late := fun j => late_of_early (hk.early j)
  have gone : ∀ j, j ∉ g.queue → j ∉ g.queue.erase j₁ := fun j hm hx => hm (List.mem_of_mem_erase hx)
  have self : j₁ ∉ g.queue.erase j₁ := fun hx => ((hqi.nodup.mem_erase_iff).mp hx).1 rfl
  rw [Ahead, hq]
  by_cases hii : i = j₁
  · -- the flip ahead gives up
    subst hii
    refine .inl ⟨?_, self⟩
    rcases h with ⟨hl, -⟩ | hsub | ⟨-, hi, -⟩
    · exact late i hl
    · exact late i (hqi.late (hsub.subset (by simp)))
    · exact late i (hqi.late hi)
  · rcases h with ⟨hl, hi⟩ | hsub | ⟨hl, hi, hj, hg⟩
    · exact .inl ⟨late i hl, gone i hi⟩
    · have hmi : i ∈ g.queue := hsub.subset (by simp)
      have hmj : j ∈ g.queue := hsub.subset (by simp)
      by_cases hjj : j = j₁
      · -- the flip behind gives up
        subst hjj
        exact .inr (.inr ⟨late j (hqi.late hmj), (List.mem_erase_of_ne hii).mpr hmi, self,
          (hk.granted j).trans (hqi.mem j hmj).2⟩)
      · have hsub' := hsub.erase j₁
        rw [List.erase_of_not_mem (by simp [Ne.symm hii, Ne.symm hjj])] at hsub'
        exact .inr (.inl hsub')
    · exact .inr (.inr ⟨late j hl, (List.mem_erase_of_ne hii).mpr hi, gone j hj,
        (hk.granted j).trans hg⟩)

theorem endHoldLocked_early (h : HoldId) (x : Bool) (j : FlipId)
    (hj : ((endHoldLocked g h x).flips j).pc.early = true) : (g.flips j).pc.early = true := by
  obtain ⟨y, hy⟩ := endHoldLocked_flips (g := g) h x j
  rwa [hy] at hj

theorem Ahead.endHoldLocked (ha : Ahead i j g) (hq : QueueInv g) (h : HoldId) (x : Bool) :
    Ahead i j (endHoldLocked g h x) := by
  have hf : ∀ j, j ∉ g.queue → ((Flipgate.endHoldLocked g h x).flips j).granted = (g.flips j).granted :=
    fun j hj => by rw [endHoldLocked_flips_of_not_mem h x hj]
  rcases endHoldLocked_flow (g := g) h x with ⟨hqq, -⟩ | ⟨j₁, rest, -, hjq, hqq, -⟩
  · exact ha.stay hqq (endHoldLocked_early h x) hf
  · exact ha.pop hq hjq hqq (endHoldLocked_early h x) hf

theorem Ahead.of_token (h : Ahead i j g) (hq : QueueInv g) (hs : TokStep b g a g') :
    Ahead i j g' := by
  cases hs with
  | keep hk hqq => exact h.stay hqq hk.early fun j _ => hk.granted j
  | enqueue j₁ hp _ _ hk hqq => exact h.enqueue hk (by rw [hp]; rfl) hqq
  | quit j₁ hk _ _ hqq => exact h.quit hq hk hqq
  | start j₁ hp _ _ hempty hg =>
    subst hg
    refine h.stay rfl ?_ ?_
    · exact update_rel (fun x y : FlipCall κ => x.pc.early = true → y.pc.early = true)
        (fun h => by cases h) fun _ => id
    · intro j _
      by_cases hj : j = j₁
      · subst hj
        simp [enterHold]
      · simp [enterHold, update_of_ne hj]
  | finish j₁ h₁ x f _ hg hf hy _ _ =>
    subst hg
    refine (h.endHoldLocked hq h₁ x).stay rfl ?_ ?_
    · exact update_rel (fun x y : FlipCall κ => x.pc.early = true → y.pc.early = true) (hy _) fun _ => id
    · exact fun j _ => update_rel (fun x y : FlipCall κ => x.granted = y.granted) (hf _) (fun _ => rfl) j
  | close _ _ h₁ _ hg =>
    have hq' : QueueInv { g with closed := true } := hq.of_eq rfl rfl
    exact hg ▸ Ahead.endHoldLocked (g := { g with closed := true }) h hq' h₁ false
  | closeFree _ _ _ hg => exact hg ▸ h

/-! ## Ends and starts -/

/-- An end is never changed. -/
theorem TokStep.ended (hs : TokStep b g a g') (hlt : h < g.nHold) {t : Time}
    (ht : (g.holds h).ended = some t) : (g'.holds h).ended = some t := by
  cases hs with
  | keep hk | enqueue _ _ _ _ hk | quit _ hk => exact (hk.ended h).trans ht
  | start j _ _ _ _ hg =>
    subst hg
    simpa [enterHold, update_of_ne (Nat.ne_of_lt hlt)] using ht
  | finish j h₁ x f _ hg =>
    subst hg
    exact endHoldLocked_ended_keeps h₁ x hlt ht
  | close _ _ h₁ _ hg =>
    exact hg ▸ endHoldLocked_ended_keeps (g := { g with closed := true }) h₁ false hlt ht
  | closeFree _ _ _ hg => exact hg ▸ ht

theorem endHoldLocked_nHold_le (h : HoldId) (x : Bool) : g.nHold ≤ (endHoldLocked g h x).nHold := by
  rcases endHoldLocked_flow (g := g) h x with ⟨-, -, hn⟩ | ⟨_, _, -, -, -, -, hn⟩ <;> omega

theorem TokStep.nHold_le (hs : TokStep b g a g') : g.nHold ≤ g'.nHold := by
  cases hs with
  | keep hk | enqueue _ _ _ _ hk | quit _ hk => exact hk.nHold.ge
  | start j _ _ _ _ hg => exact hg ▸ Nat.le_succ _
  | finish j h x f _ hg => exact hg ▸ endHoldLocked_nHold_le h x
  | close _ _ h _ hg => exact hg ▸ endHoldLocked_nHold_le (g := { g with closed := true }) h false
  | closeFree _ _ _ hg => exact hg ▸ le_rfl

/-- A closed gate stays closed and starts no hold. -/
theorem TokStep.closed (hs : TokStep b g a g') (hc : g.closed = true) : g'.nHold = g.nHold := by
  have open_of : g.closed = false → g'.nHold = g.nHold := fun ho => by rw [hc] at ho; cases ho
  cases hs with
  | keep hk | quit _ hk => exact hk.nHold
  | enqueue _ _ ho | start _ _ ho | close _ ho | closeFree _ ho => exact open_of ho
  | finish j h x f _ hg =>
    subst hg
    rcases endHoldLocked_flow (g := g) h x with ⟨-, -, hn⟩ | ⟨_, _, ho, -⟩
    · exact hn
    · exact open_of ho

variable [DecidableEq κ]

theorem holdInv_inductive : (sys κ b).Inductive fun g => Inv g ∧ HoldInv g where
  init := by
    rintro g ⟨t, rfl⟩
    exact ⟨(inv_inductive (b := b)).init _ ⟨t, rfl⟩, .initial t⟩
  step g a g' hi h := ⟨inv_inductive.step g a g' hi.1 h, hi.2.of_token hi.1.flip.queue (step_token hi.1.flip h)⟩

/-- What every token step keeps, a run from a state with the invariant keeps. -/
theorem token_steps {P : Gate κ → Prop} (hi : Inv g)
    (h : ∀ g a g', QueueInv g → TokStep b g a g' → P g → P g') (hs : (sys κ b).Steps g g') (hp : P g) :
    Inv g' ∧ P g' :=
  hs.keeps (P := fun x => Inv x ∧ P x) (fun x a x' hx hst =>
    ⟨inv_inductive.step x a x' hx.1 hst, h x a x' hx.1.flip.queue (step_token hx.1.flip hst) hx.2⟩) ⟨hi, hp⟩

end AptCacher.Flipgate
