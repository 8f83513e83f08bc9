import Mathlib.Order.Nat
import Mathlib.Tactic.Common
import AptCacher.Spec.Count
import AptCacher.Flipgate.Tokens

/-!
# The flip barrier: the map of entries

An entry that a flip works on, or that has a hold, stays the one the map has for its key: both
make it live, and only entries that are not live are swept or purged. The entry's flip counter is
the number of flips that work on it, so a flip in progress shows as a positive counter
(`EntInv.count`).
-/

namespace AptCacher.Flipgate

open Function (update update_self update_of_ne)

variable {κ : Type} {b : Bounds} {g g' : Gate κ}

/-- The flip works on its entry: from `flips++` to `flips--`. -/
def FlipPc.running : FlipPc → Bool
  | .idle | .direct | .begun _ | .returned => false
  | _ => true

/-- The flip works on entry `e`. -/
def FlipCall.On (c : FlipCall κ) (e : EntryId) : Prop := c.pc.running = true ∧ c.e = e

instance (c : FlipCall κ) (e : EntryId) : Decidable (c.On e) :=
  inferInstanceAs (Decidable (_ ∧ _))

/-- The map has entry `e` for the key it was created for. -/
def Mapped (g : Gate κ) (e : EntryId) : Prop :=
  ∃ k, (g.ent e).key = some k ∧ g.entries k = some e

/-- The map, the flips and the holds fit together (module doc). -/
structure EntInv (g : Gate κ) : Prop where
  map : ∀ k e, g.entries k = some e → (g.ent e).key = some k ∧ e < g.nEnt
  flip : ∀ j, (g.flips j).pc.running = true → Mapped g (g.flips j).e
  hold : ∀ e h, (g.ent e).hold = some h → Mapped g e ∧ h < g.nHold
  count : ∀ e, (g.ent e).flips = Nat.count (fun j => (g.flips j).On e) g.nFlip
  idle : ∀ j, g.nFlip ≤ j → (g.flips j).pc = .idle

namespace EntInv

theorem mapLt (hi : EntInv g) : MapLt g := fun k e h => (hi.map k e h).2

theorem mapped_lt (hi : EntInv g) {e : EntryId} (h : Mapped g e) : e < g.nEnt :=
  let ⟨k, _, hk⟩ := h; (hi.map k e hk).2

theorem lt_of_running (hi : EntInv g) {j : FlipId} (h : (g.flips j).pc.running = true) :
    j < g.nFlip := by
  by_contra hj
  rw [hi.idle j (not_lt.mp hj)] at h
  cases h

theorem flips_pos (hi : EntInv g) {j : FlipId} (h : (g.flips j).pc.running = true) :
    0 < (g.ent (g.flips j).e).flips := by
  rw [hi.count]
  exact Spec.count_pos (hi.lt_of_running h) ⟨h, rfl⟩

theorem initial (t : Time) : EntInv (initial κ t) where
  map _ _ h := by cases h
  flip _ h := by cases h
  hold _ _ h := by cases h
  count _ := (Nat.count_zero _).symm
  idle _ _ := rfl

end EntInv

/-! ## Steps that move no flip into or out of its entry -/

/-- The map, the entries' keys and counters, and the flips' entries are as before; a hold may have
ended. -/
structure EntFrame (g g' : Gate κ) : Prop where
  entries : g'.entries = g.entries
  nEnt : g'.nEnt = g.nEnt
  key : ∀ e, (g'.ent e).key = (g.ent e).key
  flips : ∀ e, (g'.ent e).flips = (g.ent e).flips
  hold : ∀ e h, (g'.ent e).hold = some h → (g.ent e).hold = some h
  nHold : g'.nHold = g.nHold
  nFlip : g'.nFlip = g.nFlip
  running : ∀ j, (g'.flips j).pc.running = (g.flips j).pc.running
  on : ∀ j, (g'.flips j).e = (g.flips j).e
  idle : ∀ j, (g.flips j).pc = .idle → (g'.flips j).pc = .idle

namespace EntFrame

theorem trans {g₁ : Gate κ} (h : EntFrame g g₁) (h' : EntFrame g₁ g') : EntFrame g g' where
  entries := h'.entries.trans h.entries
  nEnt := h'.nEnt.trans h.nEnt
  key e := (h'.key e).trans (h.key e)
  flips e := (h'.flips e).trans (h.flips e)
  hold e x hx := h.hold e x (h'.hold e x hx)
  nHold := h'.nHold.trans h.nHold
  nFlip := h'.nFlip.trans h.nFlip
  running j := (h'.running j).trans (h.running j)
  on j := (h'.on j).trans (h.on j)
  idle j hj := h'.idle j (h.idle j hj)

/-- A step outside the map, the entries, the flips and the queue. -/
theorem of_eq (h1 : g'.entries = g.entries) (h2 : g'.nEnt = g.nEnt) (h3 : g'.ent = g.ent)
    (h4 : g'.nHold = g.nHold) (h5 : g'.nFlip = g.nFlip) (h6 : g'.flips = g.flips) :
    EntFrame g g' where
  entries := h1
  nEnt := h2
  key _ := by rw [h3]
  flips _ := by rw [h3]
  hold _ _ h := by rwa [h3] at h
  nHold := h4
  nFlip := h5
  running _ := by rw [h6]
  on _ := by rw [h6]
  idle _ h := by rwa [h6]

theorem onEnt (e : EntryId) (f : Entry κ → Entry κ) (hk : ∀ x, (f x).key = x.key)
    (hf : ∀ x, (f x).flips = x.flips) (hh : ∀ x h, (f x).hold = some h → x.hold = some h) :
    EntFrame g (g.onEnt e f) where
  entries := rfl
  nEnt := rfl
  key := update_rel (fun x y : Entry κ => x.key = y.key) (hk _) fun _ => rfl
  flips := update_rel (fun x y : Entry κ => x.flips = y.flips) (hf _) fun _ => rfl
  hold := update_rel (fun x y : Entry κ => ∀ h, x.hold = some h → y.hold = some h) (hh _)
    fun _ _ => id
  nHold := rfl
  nFlip := rfl
  running _ := rfl
  on _ := rfl
  idle _ h := h

/-- A step of flip `j` between two places where it works on its entry, or to none from none. -/
theorem onFlip (j : FlipId) (f : FlipCall κ → FlipCall κ)
    (hr : (f (g.flips j)).pc.running = (g.flips j).pc.running) (he : ∀ x, (f x).e = x.e)
    (hi : (g.flips j).pc = .idle → (f (g.flips j)).pc = .idle) : EntFrame g (g.onFlip j f) where
  entries := rfl
  nEnt := rfl
  key _ := rfl
  flips _ := rfl
  hold _ _ h := h
  nHold := rfl
  nFlip := rfl
  running := update_rel (fun x y : FlipCall κ => x.pc.running = y.pc.running) hr fun _ => rfl
  on := update_rel (fun x y : FlipCall κ => x.e = y.e) (he _) fun _ => rfl
  idle := update_rel (fun x y : FlipCall κ => y.pc = .idle → x.pc = .idle) hi fun _ => id

theorem closeHold (h : HoldId) (x : Bool) : EntFrame g (closeHold g h x) := by
  have key : EntFrame g (((g.onHold h fun y => { y with ended := some g.now, expired := x })).onEnt
      (g.holds h).e fun y =>
        { y with hold := if y.hold = some h then none else y.hold, lastUse := g.now }) := by
    refine (of_eq rfl rfl rfl rfl rfl rfl : EntFrame g (g.onHold h _)).trans
      (onEnt _ _ (fun _ => rfl) (fun _ => rfl) fun y h' hh => ?_)
    dsimp only at hh
    split at hh
    · cases hh
    · exact hh
  simp only [Flipgate.closeHold]
  split
  · exact key.trans (of_eq rfl rfl rfl rfl rfl rfl)
  · exact key

end EntFrame

theorem EntInv.of_frame (hi : EntInv g) (hf : EntFrame g g') : EntInv g' := by
  have hmap : ∀ e, Mapped g e → Mapped g' e := fun e ⟨k, h, h'⟩ =>
    ⟨k, (hf.key e).trans h, by rw [hf.entries]; exact h'⟩
  refine ⟨fun k e h => ?_, fun j h => ?_, fun e h hh => ?_, fun e => ?_, fun j h => ?_⟩
  · rw [hf.entries] at h
    rw [hf.key, hf.nEnt]
    exact hi.map k e h
  · rw [hf.running] at h
    rw [hf.on]
    exact hmap _ (hi.flip j h)
  · obtain ⟨hm, hl⟩ := hi.hold e h (hf.hold e h hh)
    exact ⟨hmap e hm, by rwa [hf.nHold]⟩
  · rw [hf.flips, hi.count, hf.nFlip]
    exact Spec.count_congr fun j _ => by rw [FlipCall.On, FlipCall.On, hf.running, hf.on]
  · exact hf.idle j (hi.idle j (by rwa [← hf.nFlip]))

/-! ## Holds start and end -/

@[simp] theorem closeHold_queue (h : HoldId) (x : Bool) : (closeHold g h x).queue = g.queue := by
  simp only [closeHold]
  split <;> rfl

@[simp] theorem closeHold_flips (h : HoldId) (x : Bool) : (closeHold g h x).flips = g.flips := by
  simp only [closeHold]
  split <;> rfl

namespace EntInv

theorem startHoldLocked (hi : EntInv g) {e : EntryId} (he : Mapped g e) :
    EntInv (startHoldLocked g e) := by
  have hkey : ∀ e', ((Flipgate.startHoldLocked g e).ent e').key = (g.ent e').key :=
    update_rel (fun x y : Entry κ => x.key = y.key) rfl fun _ => rfl
  have hflips : ∀ e', ((Flipgate.startHoldLocked g e).ent e').flips = (g.ent e').flips :=
    update_rel (fun x y : Entry κ => x.flips = y.flips) rfl fun _ => rfl
  have hmap : ∀ e', Mapped g e' → Mapped (Flipgate.startHoldLocked g e) e' :=
    fun e' ⟨k, h, h'⟩ => ⟨k, (hkey e').trans h, h'⟩
  refine ⟨fun k e' h => ?_, fun j h => hmap _ (hi.flip j h), fun e' h hh => ?_, fun e' => ?_,
    hi.idle⟩
  · rw [hkey]
    exact hi.map k e' h
  · by_cases hee : e' = e
    · subst hee
      simp only [startHoldLocked_ent, Gate.onEnt_ent, update_self, Option.some.injEq] at hh
      exact ⟨hmap _ he, by simp [← hh]⟩
    · simp only [startHoldLocked_ent, Gate.onEnt_ent, update_of_ne hee] at hh
      obtain ⟨hm, hl⟩ := hi.hold e' h hh
      exact ⟨hmap _ hm, Nat.lt_succ_of_lt hl⟩
  · rw [hflips]
    exact hi.count e'

/-- The first waiting flip works on its entry, so its hold is one of a mapped entry. -/
theorem passToken (hi : EntInv g) (hq : ∀ j ∈ g.queue, (g.flips j).pc.running = true) :
    EntInv (passToken g) := by
  have hnone : EntInv { g with holder := none } := hi.of_frame (.of_eq rfl rfl rfl rfl rfl rfl)
  unfold Flipgate.passToken
  split
  · rename_i j rest hjq
    split
    · exact hnone
    · have hj := hq j (by rw [hjq]; exact List.mem_cons_self ..)
      have hrest : EntInv { g with queue := rest } :=
        hi.of_frame (.of_eq rfl rfl rfl rfl rfl rfl)
      exact (hrest.startHoldLocked (hi.flip j hj)).of_frame
        (.onFlip _ _ rfl (fun _ => rfl) fun h => h)
  · exact hnone

theorem endHoldLocked (hi : EntInv g) (hq : ∀ j ∈ g.queue, (g.flips j).pc.running = true)
    (h : HoldId) (x : Bool) : EntInv (endHoldLocked g h x) := by
  simp only [Flipgate.endHoldLocked]
  split
  · exact hi
  · have hc : EntInv (closeHold g h x) := hi.of_frame (.closeHold h x)
    have key : EntInv (if (closeHold g h x).holder = some h then
        Flipgate.passToken (closeHold g h x) else closeHold g h x) := by
      split
      · exact hc.passToken (by rwa [closeHold_queue, closeHold_flips])
      · exact hc
    exact key.of_frame (.of_eq rfl rfl rfl rfl rfl rfl)

/-! ## The map changes -/

/-- Dropping entries that are not live from the map. -/
theorem drop (hi : EntInv g) {m : κ → Option EntryId} (now : Time)
    (hm : ∀ k e, m k = some e → g.entries k = some e)
    (hl : ∀ k e, g.entries k = some e → (g.ent e).live now b.quiet → m k = some e) :
    EntInv { g with entries := m } := by
  refine ⟨fun k e h => hi.map k e (hm k e h), fun j h => ?_, fun e h hh => ?_, hi.count, hi.idle⟩
  · obtain ⟨k, hk, hk'⟩ := hi.flip j h
    exact ⟨k, hk, hl k _ hk' (.inl (hi.flips_pos h))⟩
  · obtain ⟨⟨k, hk, hk'⟩, hlt⟩ := hi.hold e h hh
    exact ⟨⟨k, hk, hl k _ hk' (.inr (.inl (by rw [hh]; exact Option.some_ne_none h)))⟩, hlt⟩

theorem sweepLocked (hi : EntInv g) (now : Time) : EntInv (sweepLocked b g now) := by
  unfold Flipgate.sweepLocked
  split
  · exact hi
  · refine (EntInv.drop (b := b) hi now (fun k e h => ?_) fun k e h hl => ?_).of_frame
      (.of_eq rfl rfl rfl rfl rfl rfl)
    · exact (Option.filter_eq_some_iff.mp h).1
    · exact Option.filter_eq_some_iff.mpr ⟨h, decide_eq_true (.inl hl)⟩

section

variable [DecidableEq κ]

/-- `Purge` drops an entry that is not live. -/
theorem purged (hi : EntInv g) {k : κ} {e : EntryId} (he : g.entries k = some e)
    (hl : ¬(g.ent e).live g.now b.quiet) : EntInv { g with entries := update g.entries k none } := by
  refine EntInv.drop (b := b) hi g.now (fun k' e' h => ?_) fun k' e' h hlive => ?_
  · by_cases hk : k' = k
    · subst hk
      simp at h
    · rwa [update_of_ne hk] at h
  · by_cases hk : k' = k
    · subst hk
      rw [he] at h
      cases h
      exact absurd hlive hl
    · rwa [update_of_ne hk]

/-- A new entry: nothing refers to it yet. -/
theorem mapped (hi : EntInv g) (k : κ) :
    EntInv (mapped g k).1 ∧ Mapped (mapped g k).1 (mapped g k).2 := by
  unfold Flipgate.mapped
  split
  · rename_i e he
    exact ⟨hi, k, (hi.map k e he).1, he⟩
  · rename_i hk
    have hold : ∀ e, Mapped g e → Mapped { g with
        entries := update g.entries k (some g.nEnt)
        ent := update g.ent g.nEnt ⟨some k, [], none, none, 0, 0⟩
        nEnt := g.nEnt + 1 } e := by
      rintro e ⟨k', h, h'⟩
      have hne : k' ≠ k := fun h => by rw [h, hk] at h'; cases h'
      have hlt : e ≠ g.nEnt := Nat.ne_of_lt (hi.map k' e h').2
      exact ⟨k', by simpa [update_of_ne hlt] using h, by simpa [update_of_ne hne] using h'⟩
    refine ⟨⟨fun k' e h => ?_, fun j h => hold _ (hi.flip j h), fun e h hh => ?_, fun e => ?_,
      hi.idle⟩, k, by simp, by simp⟩
    · by_cases hkk : k' = k
      · subst hkk
        simp only [update_self, Option.some.injEq] at h
        subst h
        exact ⟨by simp, Nat.lt_succ_self _⟩
      · simp only [update_of_ne hkk] at h
        have := hi.map k' e h
        exact ⟨by simpa [update_of_ne (Nat.ne_of_lt this.2)] using this.1, Nat.lt_succ_of_lt this.2⟩
    · by_cases he : e = g.nEnt
      · subst he
        simp at hh
      · simp only [update_of_ne he] at hh
        obtain ⟨hm, hl⟩ := hi.hold e h hh
        exact ⟨hold _ hm, hl⟩
    · by_cases he : e = g.nEnt
      · subst he
        simp only [update_self]
        refine (Spec.count_eq_zero fun j _ hj => ?_).symm
        have := hi.mapped_lt (hi.flip j hj.1)
        rw [hj.2] at this
        exact lt_irrefl _ this
      · simp only [update_of_ne he]
        exact hi.count e

theorem entryLocked (hi : EntInv g) (k : κ) (now : Time) :
    EntInv (entryLocked b g k now).1 ∧ Mapped (entryLocked b g k now).1 (entryLocked b g k now).2 := by
  obtain ⟨h, hm⟩ := (EntInv.sweepLocked (b := b) hi now).mapped k
  simp only [Flipgate.entryLocked]
  generalize Flipgate.mapped (Flipgate.sweepLocked b g now) k = r at h hm ⊢
  obtain ⟨g₁, e⟩ := r
  have hf : EntFrame g₁ (g₁.onEnt e fun x => { x with lastUse := now }) :=
    .onEnt _ _ (fun _ => rfl) (fun _ => rfl) fun _ _ h => h
  obtain ⟨k', h', h''⟩ := hm
  exact ⟨h.of_frame hf, k', (hf.key e).trans h', h''⟩

end

end EntInv

/-! ## The token queue -/

/-- In `acquire`, after it queued. -/
def FlipPc.waits : FlipPc → Bool
  | .queued _ | .gaveUp _ => true
  | _ => false

/-- Before `acquire`'s first critical section. -/
def FlipPc.early : FlipPc → Bool
  | .idle | .direct | .begun _ | .phaseA _ | .phaseAWait _ _ _ | .asking => true
  | _ => false

/-- The queue holds flips that wait and have no grant, each once. -/
structure QueueInv (g : Gate κ) : Prop where
  nodup : g.queue.Nodup
  mem : ∀ j ∈ g.queue, (g.flips j).pc.waits = true ∧ (g.flips j).granted = none
  early : ∀ j, (g.flips j).pc.early = true → (g.flips j).granted = none

namespace QueueInv

theorem of_eq (hi : QueueInv g) (hq : g'.queue = g.queue) (hf : g'.flips = g.flips) :
    QueueInv g' :=
  ⟨hq ▸ hi.nodup, by rw [hq, hf]; exact hi.mem, by rw [hf]; exact hi.early⟩

theorem not_mem (hi : QueueInv g) {j : FlipId} (h : (g.flips j).pc.waits = false) :
    j ∉ g.queue := fun hj => by
  rw [(hi.mem j hj).1] at h
  cases h

theorem not_mem_of_granted (hi : QueueInv g) {j : FlipId} {h : HoldId}
    (hg : (g.flips j).granted = some h) : j ∉ g.queue := fun hj => by
  rw [(hi.mem j hj).2] at hg
  cases hg

theorem running (hi : QueueInv g) {j : FlipId} (h : j ∈ g.queue) :
    (g.flips j).pc.running = true := by
  have := (hi.mem j h).1
  revert this
  cases (g.flips j).pc <;> simp [FlipPc.waits, FlipPc.running]

theorem onFlip (hi : QueueInv g) (j : FlipId) (f : FlipCall κ → FlipCall κ)
    (hm : j ∈ g.queue → (f (g.flips j)).pc.waits = true ∧ (f (g.flips j)).granted = none)
    (he : (f (g.flips j)).pc.early = true → (f (g.flips j)).granted = none) :
    QueueInv (g.onFlip j f) := by
  refine ⟨hi.nodup, fun j' h => ?_, fun j' h => ?_⟩
  · by_cases hj : j' = j
    · subst hj
      simpa using hm h
    · simpa [update_of_ne hj] using hi.mem j' h
  · by_cases hj : j' = j
    · subst hj
      simp only [Gate.onFlip_flips, update_self] at h ⊢
      exact he h
    · simp only [Gate.onFlip_flips, update_of_ne hj] at h ⊢
      exact hi.early j' h

theorem passToken (hi : QueueInv g) : QueueInv (passToken g) := by
  unfold Flipgate.passToken
  split
  · rename_i j rest hq
    split
    · exact hi.of_eq rfl rfl
    · have hnd := hi.nodup
      rw [hq, List.nodup_cons] at hnd
      have hrest : QueueInv { g with queue := rest } :=
        ⟨hnd.2, fun j' h => hi.mem j' (by rw [hq]; exact List.mem_cons_of_mem _ h), hi.early⟩
      have hs : QueueInv (startHoldLocked { g with queue := rest } (g.flips j).e) :=
        hrest.of_eq rfl rfl
      refine hs.onFlip j _ (fun h => absurd h hnd.1) fun h => ?_
      have hw := (hi.mem j (by rw [hq]; exact List.mem_cons_self ..)).1
      change (g.flips j).pc.early = true at h
      revert hw h
      cases (g.flips j).pc <;> simp [FlipPc.waits, FlipPc.early]
  · exact hi.of_eq rfl rfl

theorem endHoldLocked (hi : QueueInv g) (h : HoldId) (x : Bool) :
    QueueInv (endHoldLocked g h x) := by
  simp only [Flipgate.endHoldLocked]
  split
  · exact hi
  · have hc : QueueInv (closeHold g h x) := hi.of_eq (closeHold_queue h x) (closeHold_flips h x)
    have key : QueueInv (if (closeHold g h x).holder = some h then
        Flipgate.passToken (closeHold g h x) else closeHold g h x) := by
      split
      · exact hc.passToken
      · exact hc
    exact key.of_eq rfl rfl

end QueueInv

theorem passToken_flips (j : FlipId) :
    ∃ h, (passToken g).flips j = { g.flips j with granted := h } := by
  unfold passToken
  split
  · split
    · exact ⟨_, rfl⟩
    · rename_i j' rest _ _
      by_cases hj : j = j'
      · subst hj
        exact ⟨some g.nHold, by simp⟩
      · exact ⟨_, by simp [update_of_ne hj]; rfl⟩
  · exact ⟨_, rfl⟩

theorem endHoldLocked_flips (h : HoldId) (x : Bool) (j : FlipId) :
    ∃ y, (endHoldLocked g h x).flips j = { g.flips j with granted := y } := by
  simp only [endHoldLocked]
  split
  · exact ⟨_, rfl⟩
  · rw [broadcastLocked_flips]
    split
    · obtain ⟨y, hy⟩ := passToken_flips (g := closeHold g h x) j
      exact ⟨y, by rw [hy, closeHold_flips]⟩
    · exact ⟨_, by rw [closeHold_flips]⟩

theorem Prior.flips (p : Prior) (j i : FlipId) :
    ∃ y, (p.run g j).flips i = { g.flips i with granted := y } := by
  cases p with
  | finish h x => exact endHoldLocked_flips h x i
  | _ => exact ⟨_, rfl⟩

/-! ## Flips -/

/-- The invariants of the flips. -/
structure FlipInv (g : Gate κ) : Prop where
  ent : EntInv g
  queue : QueueInv g

namespace FlipInv

theorem of_eq (hi : FlipInv g) (hf : EntFrame g g') (hq : g'.queue = g.queue)
    (hfl : g'.flips = g.flips) : FlipInv g' :=
  ⟨hi.ent.of_frame hf, hi.queue.of_eq hq hfl⟩

theorem endHoldLocked (hi : FlipInv g) (h : HoldId) (x : Bool) : FlipInv (endHoldLocked g h x) :=
  ⟨hi.ent.endHoldLocked (fun _ hj => hi.queue.running hj) h x, hi.queue.endHoldLocked h x⟩

/-- A step that leaves the flip's place, entry and grant alone. -/
theorem keepPc (hi : FlipInv g) {j : FlipId} {f : FlipCall κ → FlipCall κ}
    (hp : ∀ x, (f x).pc = x.pc) (he : ∀ x, (f x).e = x.e) (hg : ∀ x, (f x).granted = x.granted) :
    FlipInv (g.onFlip j f) where
  ent := hi.ent.of_frame (.onFlip j f (by rw [hp]) he fun h => by rw [hp]; exact h)
  queue := hi.queue.onFlip j f (fun h => by rw [hp, hg]; exact hi.queue.mem j h) fun h => by
    rw [hp] at h
    rw [hg]
    exact hi.queue.early j h

theorem register (hi : FlipInv g) (i : ServeId) (e : EntryId) (held : Time) :
    FlipInv (registerLocked g i e held) :=
  hi.of_eq (EntFrame.trans
    (.onEnt e (fun x => { x with inflight := x.inflight.insert i, lastUse := g.now }) (fun _ => rfl)
      (fun _ => rfl) fun _ _ h => h) (.of_eq rfl rfl rfl rfl rfl rfl)) rfl rfl

end FlipInv

/-! ### The ways of a flip on its entry -/

namespace Goes

variable {x : FlipCall κ} {pc : FlipPc} {c : Choice} {p : Prior} {t : Turn}

theorem running (h : Goes b g x pc c p t) : t.pc.running = pc.running := by cases h <;> rfl

theorem ne_idle (h : Goes b g x pc c p t) : pc ≠ .idle := by
  rintro rfl
  cases h

theorem early (h : Goes b g x pc c p t) (he : t.pc.early = true) : pc.early = true := by
  cases h <;> first | rfl | cases he

/-- A flip leaves the places that wait with its grant only. -/
theorem waits (h : Goes b g x pc c .keep t) (hw : pc.waits = true) (hg : x.granted = none) :
    t.pc.waits = true := by
  cases h <;> first | rfl | (cases hw; done) | simp_all

/-- A flip whose hold ends does not wait for the token. -/
theorem not_mem {h : HoldId} {y : Bool} {j : FlipId}
    (hgo : Goes b g (g.flips j) (g.flips j).pc c (.finish h y) t) (hi : QueueInv g) :
    j ∉ g.queue := by
  generalize hp : (g.flips j).pc = pc at hgo
  cases hgo with
  | pass _ _ hg => exact hi.not_mem_of_granted hg
  | expired => exact hi.not_mem (by rw [hp]; rfl)
  | ended => exact hi.not_mem (by rw [hp]; rfl)

end Goes

theorem not_mem_endHoldLocked {j : FlipId} (h : HoldId) (x : Bool) (hw : j ∉ g.queue) :
    j ∉ (endHoldLocked g h x).queue := by
  simp only [endHoldLocked]
  split
  · exact hw
  · rw [broadcastLocked_queue]
    split
    · unfold passToken
      split
      · rename_i j' rest hq
        rw [closeHold_queue] at hq
        split
        · simpa using hw
        · exact fun hm => hw (hq ▸ List.mem_cons_of_mem _ hm)
      · simpa using hw
    · simpa using hw

namespace FlipInv

variable {j : FlipId} {c : Choice} {p : Prior} {t : Turn}

theorem goes_ent (hi : FlipInv g) (h : Goes b g (g.flips j) (g.flips j).pc c p t) :
    EntInv ((p.run g j).onFlip j t.run) := by
  have hp : EntInv (p.run g j) := by
    cases p with
    | keep => exact hi.ent
    | start =>
      generalize hpc : (g.flips j).pc = pc at h
      cases h
      exact hi.ent.startHoldLocked (hi.ent.flip j (by rw [hpc]; rfl))
    | enqueue => exact hi.ent.of_frame (.of_eq rfl rfl rfl rfl rfl rfl)
    | quit => exact hi.ent.of_frame (.of_eq rfl rfl rfl rfl rfl rfl)
    | finish h' x => exact (hi.endHoldLocked h' x).ent
  obtain ⟨y, hy⟩ := p.flips (g := g) j j
  refine hp.of_frame (.onFlip j _ ?_ (Turn.run_e t) fun hidle => ?_)
  · rw [Turn.run_pc, hy, h.running]
  · rw [hy] at hidle
    exact absurd hidle h.ne_idle

theorem goes_queue (hi : FlipInv g) (h : Goes b g (g.flips j) (g.flips j).pc c p t) :
    QueueInv ((p.run g j).onFlip j t.run) := by
  have early : (t.run (g.flips j)).pc.early = true → (t.run (g.flips j)).granted = none := by
    rw [Turn.run_pc, Turn.run_granted]
    exact fun he => hi.queue.early j (h.early he)
  cases p with
  | keep =>
    refine hi.queue.onFlip j _ (fun hm => ?_) early
    obtain ⟨hw, hg⟩ := hi.queue.mem j hm
    rw [Turn.run_pc, Turn.run_granted]
    exact ⟨h.waits hw hg, hg⟩
  | start =>
    have hq : QueueInv (Flipgate.startHoldLocked g (g.flips j).e) := hi.queue.of_eq rfl rfl
    refine hq.onFlip j _ (fun hm => ?_) early
    generalize (g.flips j).pc = pc at h
    cases h with
    | start _ _ hempty =>
      rw [startHoldLocked_queue, Gate.onEnt_queue, hempty] at hm
      cases hm
  | enqueue =>
    generalize hpc : (g.flips j).pc = pc at h
    cases h
    have hw : j ∉ g.queue := hi.queue.not_mem (by rw [hpc]; rfl)
    have hgr : (g.flips j).granted = none := hi.queue.early j (by rw [hpc]; rfl)
    refine ⟨?_, fun j' h => ?_, fun j' h => ?_⟩
    · exact List.nodup_append'.mpr ⟨hi.queue.nodup, List.nodup_singleton j,
        fun x hx hx' => hw (List.mem_singleton.mp hx' ▸ hx)⟩
    · by_cases hj : j' = j
      · subst hj
        simpa [Prior.run, Turn.run, FlipPc.waits] using hgr
      · have hj' : j' ∈ g.queue := by simpa [Prior.run, hj] using h
        simpa [Prior.run, update_of_ne hj] using hi.queue.mem j' hj'
    · by_cases hj : j' = j
      · subst hj
        simp [Prior.run, Turn.run, FlipPc.early] at h
      · simp only [Prior.run, Gate.onFlip_flips, update_of_ne hj] at h ⊢
        exact hi.queue.early j' h
  | quit =>
    have hq : QueueInv { g with queue := g.queue.erase j } :=
      ⟨hi.queue.nodup.erase j, fun j' h => hi.queue.mem j' (List.mem_of_mem_erase h),
        hi.queue.early⟩
    exact hq.onFlip j _
      (fun h => absurd rfl ((List.Nodup.mem_erase_iff hi.queue.nodup).mp h).1) early
  | finish h' x =>
    refine (hi.queue.endHoldLocked h' x).onFlip j _ (fun hm => ?_) fun he => ?_
    · exact absurd hm (not_mem_endHoldLocked h' x (h.not_mem hi.queue))
    · rw [Turn.run_pc] at he
      generalize (g.flips j).pc = pc at h
      cases h <;> cases he

/-! ### `flips++` and `flips--` -/

/-- Flip `j` goes to `pc` with entry `e`, whose counter becomes `n`: the counter still counts. -/
theorem recount (hi : FlipInv g) {j : FlipId} {e : EntryId} {f : FlipCall κ → FlipCall κ}
    {u : Entry κ → Entry κ} (hj : j < g.nFlip) (hw : j ∉ g.queue)
    (hk : ∀ x, (u x).key = x.key) (hh : ∀ x, (u x).hold = x.hold)
    (hn : (u (g.ent e)).flips + (if (g.flips j).On e then 1 else 0) =
      (g.ent e).flips + (if (f (g.flips j)).On e then 1 else 0))
    (ho : ∀ e', e' ≠ e → ((g.flips j).On e' ↔ (f (g.flips j)).On e'))
    (hm : (f (g.flips j)).pc.running = true → Mapped g (f (g.flips j)).e)
    (hy : (f (g.flips j)).pc.early = true → (f (g.flips j)).granted = none) :
    FlipInv ((g.onEnt e u).onFlip j f) := by
  have hkey : ∀ e', (((g.onEnt e u).onFlip j f).ent e').key = (g.ent e').key :=
    update_rel (fun x y : Entry κ => x.key = y.key) (hk _) fun _ => rfl
  have hhold : ∀ e', (((g.onEnt e u).onFlip j f).ent e').hold = (g.ent e').hold :=
    update_rel (fun x y : Entry κ => x.hold = y.hold) (hh _) fun _ => rfl
  have hmap : ∀ e', Mapped g e' → Mapped ((g.onEnt e u).onFlip j f) e' :=
    fun e' ⟨k, h, h'⟩ => ⟨k, (hkey e').trans h, h'⟩
  have hq : QueueInv (g.onEnt e u) := hi.queue.of_eq rfl rfl
  refine ⟨⟨fun k e' h => ?_, fun j' h => ?_, fun e' h hx => ?_, fun e' => ?_, fun j' h => ?_⟩,
    hq.onFlip j f (fun h => absurd h hw) hy⟩
  · rw [hkey]
    exact hi.ent.map k e' h
  · by_cases hjj : j' = j
    · subst hjj
      simp only [Gate.onFlip_flips, Gate.onEnt_flips, update_self] at h ⊢
      exact hmap _ (hm h)
    · simp only [Gate.onFlip_flips, Gate.onEnt_flips, update_of_ne hjj] at h ⊢
      exact hmap _ (hi.ent.flip j' h)
  · rw [hhold] at hx
    exact ⟨hmap _ (hi.ent.hold e' h hx).1, (hi.ent.hold e' h hx).2⟩
  · have hoff : ∀ i, i ≠ j → ((g.flips i).On e' ↔ (((g.onEnt e u).onFlip j f).flips i).On e') :=
      fun i h => by simp [update_of_ne h]
    have hc := Spec.count_change hj hoff
    simp only [Gate.onFlip_flips, Gate.onEnt_flips, update_self] at hc
    by_cases he : e' = e
    · subst he
      have := hi.ent.count e'
      simp only [Gate.onFlip_ent, Gate.onEnt_ent, update_self, Gate.onFlip_flips, Gate.onEnt_flips,
        Gate.onFlip_nFlip, Gate.onEnt_nFlip]
      omega
    · simp only [ho e' he, Nat.add_right_cancel_iff] at hc
      simp only [Gate.onFlip_ent, Gate.onEnt_ent, update_of_ne he]
      rw [hi.ent.count e']
      exact hc.symm
  · have hne : j' ≠ j := fun hjj => by
      subst hjj
      exact absurd hj (not_lt.mpr h)
    simp only [Gate.onFlip_flips, Gate.onEnt_flips, update_of_ne hne]
    exact hi.ent.idle j' h

theorem flipLeave (hi : FlipInv g) {j : FlipId} (hp : (g.flips j).pc = .leaving) :
    FlipInv (flipLeave g j) := by
  have hr : (g.flips j).pc.running = true := by rw [hp]; rfl
  unfold Flipgate.flipLeave Gate.goto
  refine hi.recount (hi.ent.lt_of_running hr) (hi.queue.not_mem (by rw [hp]; rfl)) (fun _ => rfl)
    (fun _ => rfl) ?_ (fun e' he => ?_) (fun h => by cases h) fun h => by cases h
  · have hpos := hi.ent.flips_pos hr
    rw [if_pos ⟨hr, rfl⟩, if_neg fun h => by cases h.1]
    dsimp only
    omega
  · exact iff_of_false (fun h => he h.2.symm) fun h => by cases h.1

section

variable [DecidableEq κ]

theorem entryLocked (hi : FlipInv g) (k : κ) (now : Time) : FlipInv (entryLocked b g k now).1 := by
  refine ⟨(hi.ent.entryLocked k now).1, hi.queue.of_eq ?_ ?_⟩ <;>
  · simp only [Flipgate.entryLocked, Flipgate.mapped, Flipgate.sweepLocked]
    split <;> split <;> rfl

theorem entryLocked_flips (k : κ) (now : Time) :
    (Flipgate.entryLocked b g k now).1.flips = g.flips := by
  simp only [Flipgate.entryLocked, Flipgate.mapped, Flipgate.sweepLocked]
  split <;> split <;> rfl

theorem flipEnter (hi : FlipInv g) {j : FlipId} {start : Time} (k : κ)
    (hp : (g.flips j).pc = .begun start) : FlipInv (flipEnter b g j k start) := by
  have hr : (g.flips j).pc.running = false := by rw [hp]; rfl
  have h₁ := hi.entryLocked (b := b) k start
  have hm := (hi.ent.entryLocked (b := b) k start).2
  have hfl := entryLocked_flips (b := b) (g := g) k start
  simp only [Flipgate.flipEnter]
  generalize Flipgate.entryLocked b g k start = r at h₁ hm hfl ⊢
  obtain ⟨g₁, e⟩ := r
  dsimp only at h₁ hm hfl ⊢
  have hj : j < g₁.nFlip := by
    by_contra hj
    have := h₁.ent.idle j (not_lt.mp hj)
    rw [hfl, hp] at this
    cases this
  have hr₁ : (g₁.flips j).pc.running = false := by rw [hfl]; exact hr
  refine h₁.recount hj (h₁.queue.not_mem (by rw [hfl, hp]; rfl)) (fun _ => rfl) (fun _ => rfl) ?_
    (fun e' he => ?_) (fun _ => hm) fun _ => h₁.queue.early j (by rw [hfl, hp]; rfl)
  · have hoff : ¬(g₁.flips j).On e := fun h => by rw [h.1] at hr₁; cases hr₁
    have hon : ({ g₁.flips j with pc := .phaseA (start + b.phaseAMax), e } : FlipCall κ).On e :=
      ⟨rfl, rfl⟩
    rw [if_neg hoff, if_pos hon]
  · exact iff_of_false (fun h => by rw [h.1] at hr₁; cases hr₁) fun h => he h.2.symm

end

end FlipInv

/-! ## Every step -/

namespace FlipInv

/-- A new call is not yet on any entry. -/
theorem call (hi : FlipInv g) {x : FlipCall κ} (hr : x.pc.running = false) (hg : x.granted = none) :
    FlipInv { g with nFlip := g.nFlip + 1, flips := update g.flips g.nFlip x } := by
  have hne : ∀ j, (g.flips j).pc.running = true → j ≠ g.nFlip := fun j h hj =>
    absurd (hi.ent.lt_of_running h) (by rw [hj]; exact lt_irrefl _)
  refine ⟨⟨hi.ent.map, fun j h => ?_, hi.ent.hold, fun e => ?_, fun j h => ?_⟩,
    hi.queue.nodup, fun j h => ?_, fun j h => ?_⟩
  · by_cases hj : j = g.nFlip
    · subst hj
      simp [hr] at h
    · simp only [update_of_ne hj] at h ⊢
      exact hi.ent.flip j h
  · have hnew : ¬x.On e := fun h => by rw [h.1] at hr; cases hr
    simp only [Nat.count_succ, update_self, if_neg hnew, Nat.add_zero]
    rw [hi.ent.count e]
    exact Spec.count_congr fun j h => by rw [update_of_ne (Nat.ne_of_lt h)]
  · simp only [update_of_ne (Nat.ne_of_gt (Nat.lt_of_succ_le h))]
    exact hi.ent.idle j (Nat.le_of_succ_le h)
  · simp only [update_of_ne (hne j (hi.queue.running h))]
    exact hi.queue.mem j h
  · by_cases hj : j = g.nFlip
    · subst hj
      simpa using hg
    · simp only [update_of_ne hj] at h ⊢
      exact hi.queue.early j h

variable [DecidableEq κ]

theorem join (hi : FlipInv g) (k : κ) : FlipInv (join b g k) := by
  have h₀ : FlipInv { g with nServe := g.nServe + 1 } :=
    hi.of_eq (.of_eq rfl rfl rfl rfl rfl rfl) rfl rfl
  have h₁ := h₀.entryLocked (b := b) k g.now
  simp only [Flipgate.join]
  generalize Flipgate.entryLocked b { g with nServe := g.nServe + 1 } k g.now = r at h₁ ⊢
  obtain ⟨g₁, e⟩ := r
  simp only [joinEntry]
  split
  · split
    · exact h₁.of_eq (.of_eq rfl rfl rfl rfl rfl rfl) rfl rfl
    · exact h₁.register _ _ _
  · exact h₁.register _ _ _

theorem of_step (hi : FlipInv g) {a : Act κ} (h : step b g a = some g') : FlipInv g' := by
  have aside : ∀ {g' : Gate κ}, EntFrame g g' → g'.queue = g.queue → g'.flips = g.flips →
      FlipInv g' := hi.of_eq
  have hc : FlipInv { g with closed := true } := aside (.of_eq rfl rfl rfl rfl rfl rfl) rfl rfl
  cases step_move h with
  | stay => exact hi
  | join k => exact hi.join k
  | register i e h₁ =>
    have hw : FlipInv (leaveHold g h₁) := aside (.of_eq rfl rfl rfl rfl rfl rfl) rfl rfl
    exact hw.register _ _ _
  | complete i t =>
    exact aside (EntFrame.trans (.onEnt t.e (fun x => x.complete i t.start g.now) (fun _ => rfl)
      (fun _ => rfl) fun _ _ h => h) (.of_eq rfl rfl rfl rfl rfl rfl)) rfl rfl
  | call k ctx x hx => cases hx <;> exact hi.call rfl rfl
  | cancel j => exact hi.keepPc (fun _ => rfl) (fun _ => rfl) fun _ => rfl
  | flip j c g' hm =>
    cases hm with
    | goes p t hgo => exact ⟨hi.goes_ent hgo, hi.goes_queue hgo⟩
    | enter k start _ hp => exact hi.flipEnter k hp
    | leave hp => exact hi.flipLeave hp
  | fire j => exact hi.keepPc (fun _ => rfl) (fun _ => rfl) fun _ => rfl
  | timer j h₁ =>
    exact (hi.endHoldLocked h₁ true).keepPc (fun _ => rfl) (fun _ => rfl) fun _ => rfl
  | purge k e hk hl => exact ⟨hi.ent.purged hk hl, hi.queue.of_eq rfl rfl⟩
  | close _ _ h₁ =>
    exact (hc.endHoldLocked h₁ false).of_eq (.of_eq rfl rfl rfl rfl rfl rfl) rfl rfl
  | closeFree => exact hc.of_eq (.of_eq rfl rfl rfl rfl rfl rfl) rfl rfl
  | _ => exact aside (.of_eq rfl rfl rfl rfl rfl rfl) rfl rfl

end FlipInv

end AptCacher.Flipgate
