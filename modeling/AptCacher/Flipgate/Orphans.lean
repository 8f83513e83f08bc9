import AptCacher.Flipgate.Barrier

/-!
# The flip barrier: entries that leave the map

A token and a running flip refer to an entry, not to a key. A flip of a key sees the serves of the
key that are in flight as long as both have the entry that the map holds for it.

* Only entries that are not live leave the map (`MapStep`), so an entry with a serve in flight or a
  flip at work stays.
* A request that joined a hold refers to its entry before it is in flight on it. While no such entry
  is dropped (`keepsAwaited`), every serve in flight is on the mapped entry of its key, in every
  reachable state (`serves_mapped`).
* `Purge` and the sweep do drop such an entry: the request that re-locks the gate a quiet period
  after its hold ended is then in flight where no flip looks (`orphaned`).
-/

namespace AptCacher.Flipgate

open Function (update update_self update_of_ne)

variable {κ : Type} {b : Bounds} {g g₁ g' : Gate κ}

/-! ## Keys and the map over a step -/

/-- A call that works on its entry after the step did so before, on the same entry. -/
def FlipCall.Stays (c c' : FlipCall κ) : Prop :=
  c'.pc.running = true → c.pc.running = true ∧ c'.key = c.key ∧ c'.e = c.e

/-- The map and the entries' keys are as before, and no flip took an entry. -/
structure SameKeys (g g' : Gate κ) : Prop where
  entries : g'.entries = g.entries
  nEnt : g'.nEnt = g.nEnt
  key : ∀ e, (g'.ent e).key = (g.ent e).key
  flips : ∀ j, (g.flips j).Stays (g'.flips j)

namespace SameKeys

theorem of_eq (h1 : g'.entries = g.entries) (h2 : g'.nEnt = g.nEnt) (h3 : g'.ent = g.ent)
    (h4 : g'.flips = g.flips) : SameKeys g g' :=
  ⟨h1, h2, fun _ => by rw [h3], fun j h => by rw [h4] at h ⊢; exact ⟨h, rfl, rfl⟩⟩

theorem refl (g : Gate κ) : SameKeys g g := of_eq rfl rfl rfl rfl

theorem trans (h : SameKeys g g₁) (h' : SameKeys g₁ g') : SameKeys g g' where
  entries := h'.entries.trans h.entries
  nEnt := h'.nEnt.trans h.nEnt
  key e := (h'.key e).trans (h.key e)
  flips j hr := by
    obtain ⟨hr₁, hk₁, he₁⟩ := h'.flips j hr
    obtain ⟨hr₂, hk₂, he₂⟩ := h.flips j hr₁
    exact ⟨hr₂, hk₁.trans hk₂, he₁.trans he₂⟩

theorem onEnt (e : EntryId) (f : Entry κ → Entry κ) (hk : ∀ x, (f x).key = x.key) :
    SameKeys g (g.onEnt e f) where
  entries := rfl
  nEnt := rfl
  key := update_rel (fun x y : Entry κ => x.key = y.key) (hk _) fun _ => rfl
  flips _ h := ⟨h, rfl, rfl⟩

theorem onHold (h : HoldId) (f : Hold → Hold) : SameKeys g (g.onHold h f) := of_eq rfl rfl rfl rfl

theorem setServe (i : ServeId) (s : Serve) : SameKeys g (g.setServe i s) := of_eq rfl rfl rfl rfl

theorem onFlip {j : FlipId} {f : FlipCall κ → FlipCall κ}
    (hf : (g.flips j).Stays (f (g.flips j))) : SameKeys g (g.onFlip j f) where
  entries := rfl
  nEnt := rfl
  key _ := rfl
  flips j' h := by
    by_cases hj : j' = j
    · subst hj
      simp only [Gate.onFlip_flips, update_self] at h ⊢
      exact hf h
    · rw [Gate.onFlip_flips, update_of_ne hj] at h ⊢
      exact ⟨h, rfl, rfl⟩

theorem startHoldLocked (e : EntryId) : SameKeys g (startHoldLocked g e) :=
  (onEnt (g := g) e (fun x => { x with hold := some g.nHold }) fun _ => rfl).trans
    (of_eq rfl rfl rfl rfl)

theorem passToken : SameKeys g (passToken g) := by
  unfold Flipgate.passToken
  split
  · split
    · exact of_eq rfl rfl rfl rfl
    · rename_i j rest _ _
      exact ((of_eq rfl rfl rfl rfl : SameKeys g { g with queue := rest }).trans
        (startHoldLocked _)).trans (onFlip fun h => ⟨h, rfl, rfl⟩)
  · exact of_eq rfl rfl rfl rfl

theorem closeHold (h : HoldId) (x : Bool) : SameKeys g (closeHold g h x) := by
  have key : SameKeys g ((g.onHold h fun y => { y with ended := some g.now, expired := x }).onEnt
      (g.holds h).e fun y =>
        { y with hold := if y.hold = some h then none else y.hold, lastUse := g.now }) :=
    (onHold _ _).trans (onEnt _ _ fun _ => rfl)
  simp only [Flipgate.closeHold]
  split
  · exact key.trans (of_eq rfl rfl rfl rfl)
  · exact key

theorem endHoldLocked (h : HoldId) (x : Bool) : SameKeys g (endHoldLocked g h x) := by
  simp only [Flipgate.endHoldLocked]
  split
  · exact refl g
  · have key : SameKeys (Flipgate.closeHold g h x)
        (if (Flipgate.closeHold g h x).holder = some h then
          Flipgate.passToken (Flipgate.closeHold g h x) else Flipgate.closeHold g h x) := by
      split
      · exact passToken
      · exact refl _
    exact ((closeHold h x).trans key).trans (of_eq rfl rfl rfl rfl)

theorem registerLocked (i : ServeId) (e : EntryId) (held : Time) :
    SameKeys g (registerLocked g i e held) :=
  (onEnt (g := g) e (fun x => { x with inflight := x.inflight.insert i, lastUse := g.now })
    fun _ => rfl).trans (of_eq rfl rfl rfl rfl)

theorem joinEntry (i : ServeId) (e : EntryId) : SameKeys g (joinEntry g i e) := by
  unfold Flipgate.joinEntry
  split
  · split
    · exact (onHold _ _).trans (setServe _ _)
    · exact registerLocked _ _ _
  · exact registerLocked _ _ _

theorem prior (j : FlipId) (p : Prior) : SameKeys g (p.run g j) := by
  cases p with
  | keep => exact refl g
  | start => exact startHoldLocked _
  | enqueue => exact of_eq rfl rfl rfl rfl
  | quit => exact of_eq rfl rfl rfl rfl
  | finish h x => exact endHoldLocked h x

/-- A running flip moves on with its key and its entry. -/
theorem goes {j : FlipId} {c : Choice} {p : Prior} {t : Turn}
    (h : Goes b g (g.flips j) (g.flips j).pc c p t) : SameKeys g ((p.run g j).onFlip j t.run) := by
  refine (prior j p).trans (onFlip fun hr => ⟨?_, Turn.run_key t _, Turn.run_e t _⟩)
  obtain ⟨y, hy⟩ := p.flips (g := g) j j
  rw [Turn.run_pc] at hr
  rw [hy, ← h.running]
  exact hr

theorem flipLeave (j : FlipId) : SameKeys g (flipLeave g j) :=
  (onEnt (g := g) (g.flips j).e (fun x => { x with flips := x.flips - 1, lastUse := g.now })
    fun _ => rfl).trans (onFlip (f := fun c => { c with pc := .returned }) fun h => by cases h)

/-- A new call does not work on an entry yet. -/
theorem call {x : FlipCall κ} (hx : x.pc.running = false) :
    SameKeys g { g with nFlip := g.nFlip + 1, flips := update g.flips g.nFlip x } := by
  refine ⟨rfl, rfl, fun _ => rfl, fun j h => ?_⟩
  by_cases hj : j = g.nFlip
  · subst hj
    simp [hx] at h
  · simp only [update_of_ne hj] at h ⊢
    exact ⟨h, trivial, trivial⟩

end SameKeys

section Steps

variable [DecidableEq κ]

/-! ### What leaves the map -/

/-- The gate after what the step drops from the map: `Purge`'s entry, or what `sweepLocked` drops
as a call takes its entry. -/
def swept (b : Bounds) (g : Gate κ) : Act κ → Gate κ
  | .anchorStart _ => if b.Enabled then sweepLocked b g g.now else g
  | .flipStep j .run =>
    match (g.flips j).pc with
    | .begun start => sweepLocked b g start
    | _ => g
  | .purge k => purge b g k
  | _ => g

variable {k k' : κ} {e : EntryId} {a : Act κ} {i : ServeId}

omit [DecidableEq κ] in
theorem sweepLocked_live (now : Time) (hk : g.entries k = some e) (hl : (g.ent e).inflight ≠ []) :
    (sweepLocked b g now).entries k = some e := by
  unfold Flipgate.sweepLocked
  split
  · exact hk
  · exact Option.filter_eq_some_iff.mpr ⟨hk, decide_eq_true (.inl (.inr (.inr (.inl hl))))⟩

theorem purge_live (hk : g.entries k = some e) (hl : (g.ent e).inflight ≠ []) :
    (purge b g k').entries k = some e := by
  unfold Flipgate.purge
  split
  · rename_i e' he'
    split
    · exact hk
    · rename_i hdead
      by_cases hkk : k = k'
      · subst hkk
        rw [he'] at hk
        cases hk
        exact absurd (.inr (.inr (.inl hl))) hdead
      · simpa [update_of_ne hkk] using hk
  · exact hk

theorem swept_live (a : Act κ) (hk : g.entries k = some e) (hl : (g.ent e).inflight ≠ []) :
    (swept b g a).entries k = some e := by
  unfold swept
  split
  · split
    · exact sweepLocked_live _ hk hl
    · exact hk
  · split
    · exact sweepLocked_live _ hk hl
    · exact hk
  · exact purge_live hk hl
  · exact hk

omit [DecidableEq κ] in
@[simp] theorem sweepLocked_ent (now : Time) : (sweepLocked b g now).ent = g.ent := by
  unfold sweepLocked
  split <;> rfl

omit [DecidableEq κ] in
@[simp] theorem sweepLocked_nEnt (now : Time) : (sweepLocked b g now).nEnt = g.nEnt := by
  unfold sweepLocked
  split <;> rfl

omit [DecidableEq κ] in
theorem sweepLocked_nServe (n : Nat) (now : Time) :
    (sweepLocked b { g with nServe := n } now).entries = (sweepLocked b g now).entries := by
  simp only [sweepLocked]
  split <;> rfl

theorem mapped_entries (hk : g.entries k' = some e) :
    (mapped g k).1.entries k' = some e := by
  unfold mapped
  split
  · exact hk
  · rename_i hn
    have hne : k' ≠ k := fun h => by rw [h, hn] at hk; cases hk
    simpa [update_of_ne hne] using hk

theorem mapped_key (he : e < g.nEnt) :
    ((mapped g k).1.ent e).key = (g.ent e).key := by
  unfold mapped
  split
  · rfl
  · simp [update_of_ne (Nat.ne_of_lt he)]

theorem entryLocked_entries {now : Time} (hk : (sweepLocked b g now).entries k' = some e) :
    (entryLocked b g k now).1.entries k' = some e :=
  mapped_entries hk

theorem entryLocked_key {now : Time} (he : e < g.nEnt) :
    ((entryLocked b g k now).1.ent e).key = (g.ent e).key := by
  have same := (SameKeys.onEnt (g := (mapped (sweepLocked b g now) k).1)
    (mapped (sweepLocked b g now) k).2 (fun x => { x with lastUse := now }) fun _ => rfl).key e
  rw [entryLocked, same, mapped_key (by rwa [sweepLocked_nEnt]), sweepLocked_ent]

theorem entryLocked_self (hi : EntInv g) (k : κ) (now : Time) :
    ((entryLocked b g k now).1.ent (entryLocked b g k now).2).key = some k ∧
      (entryLocked b g k now).1.entries k = some (entryLocked b g k now).2 := by
  have hs : (entryLocked b g k now).1.entries k = some (entryLocked b g k now).2 := by
    simp only [entryLocked, mapped]
    split <;> simp [*]
  exact ⟨((hi.entryLocked k now).1.map k _ hs).1, hs⟩

/-- What a step does to the map and the keys: nothing, or a call takes the entry of its key, or
`Purge` drops one. -/
inductive KeyStep (b : Bounds) (g : Gate κ) : Act κ → Gate κ → Prop
  | same {a : Act κ} {g' : Gate κ} (h : SameKeys g g') : KeyStep b g a g'
  | join (k : κ) (hb : b.Enabled) : KeyStep b g (.anchorStart k) (join b g k)
  | enter {j : FlipId} {k : κ} {start : Time} (hp : (g.flips j).pc = .begun start)
      (hk : (g.flips j).key = some k) : KeyStep b g (.flipStep j .run) (flipEnter b g j k start)
  | purge (k : κ) : KeyStep b g (.purge k) (purge b g k)

theorem step_keys (h : step b g a = some g') : KeyStep b g a g' := by
  have closed : SameKeys g { g with closed := true } := .of_eq rfl rfl rfl rfl
  cases step_move h with
  | join k hb => exact .join k hb
  | register i e h₁ => exact .same ((SameKeys.onHold _ _).trans (.registerLocked _ _ _))
  | complete i t =>
    exact .same ((SameKeys.onEnt t.e (fun x => x.complete i t.start g.now) fun _ => rfl).trans
      (.of_eq rfl rfl rfl rfl))
  | call k c x hx => cases hx <;> exact .same (.call rfl)
  | cancel j => exact .same (.onFlip fun h => ⟨h, rfl, rfl⟩)
  | flip j c g' hm =>
    cases hm with
    | goes p t hgo => exact .same (.goes hgo)
    | enter k start hc hp hk => exact hc ▸ .enter hp hk
    | leave => exact .same (.flipLeave j)
  | fire j => exact .same (.onFlip fun h => ⟨h, rfl, rfl⟩)
  | timer j => exact .same ((SameKeys.endHoldLocked _ _).trans (.onFlip fun h => ⟨h, rfl, rfl⟩))
  | purge k => exact Option.some.inj h ▸ .purge k
  | close => exact .same ((closed.trans (.endHoldLocked _ _)).trans (.of_eq rfl rfl rfl rfl))
  | _ => exact .same (.of_eq rfl rfl rfl rfl)

@[simp] theorem purge_ent (k : κ) : (purge b g k).ent = g.ent := by
  unfold purge
  split
  · split <;> rfl
  · rfl

@[simp] theorem purge_flips (k : κ) : (purge b g k).flips = g.flips := by
  unfold purge
  split
  · split <;> rfl
  · rfl

theorem purge_sub (h : (purge b g k').entries k = some e) :
    g.entries k = some e := by
  unfold Flipgate.purge at h
  split at h
  · split at h
    · exact h
    · by_cases hk : k = k'
      · simp [hk] at h
      · simpa [update_of_ne hk] using h
  · exact h

theorem swept_sub (h : (swept b g a).entries k = some e) :
    g.entries k = some e := by
  unfold swept at h
  split at h
  · split at h
    · exact sweepLocked_entries h
    · exact h
  · split at h
    · exact sweepLocked_entries h
    · exact h
  · exact purge_sub h
  · exact h

/-- What a step does not drop stays in the map. -/
theorem KeyStep.entries (h : KeyStep b g a g') (hk : (swept b g a).entries k = some e) :
    g'.entries k = some e := by
  cases h with
  | same h =>
    rw [h.entries]
    exact swept_sub hk
  | join k' hb =>
    simp only [swept, if_pos hb] at hk
    rw [Flipgate.join, (SameKeys.joinEntry _ _).entries]
    exact entryLocked_entries (by rwa [sweepLocked_nServe])
  | enter hp hk' =>
    simp only [swept, hp] at hk
    exact entryLocked_entries hk
  | purge k' => exact hk

/-- An entry keeps its key. -/
theorem KeyStep.key (h : KeyStep b g a g') (he : e < g.nEnt) :
    (g'.ent e).key = (g.ent e).key := by
  cases h with
  | same h => exact h.key e
  | join k hb =>
    rw [Flipgate.join, (SameKeys.joinEntry _ _).key]
    exact entryLocked_key (g := { g with nServe := g.nServe + 1 }) he
  | enter hp hk =>
    rename_i j k start
    have same := (SameKeys.onEnt (g := (entryLocked b g k start).1) (entryLocked b g k start).2
      (fun x => { x with flips := x.flips + 1 }) fun _ => rfl).key e
    exact same.trans (entryLocked_key he)
  | purge k =>
    rw [purge_ent]

/-- The key of a flip is the key of the entry it works on. -/
theorem KeyStep.flip_key (h : KeyStep b g a g') (hi : FlipInv g)
    (hf : ∀ j, (g.flips j).pc.running = true → (g.ent (g.flips j).e).key = (g.flips j).key)
    {j : FlipId} (hr : (g'.flips j).pc.running = true) :
    (g'.ent (g'.flips j).e).key = (g'.flips j).key := by
  have hkey := h
  have keep : (g.flips j).pc.running = true → (g'.flips j).key = (g.flips j).key →
      (g'.flips j).e = (g.flips j).e → (g'.ent (g'.flips j).e).key = (g'.flips j).key :=
    fun hr₀ hk he => by
      rw [hk, he, hkey.key (hi.ent.mapped_lt (hi.ent.flip j hr₀))]
      exact hf j hr₀
  cases h with
  | same h =>
    obtain ⟨hr₀, hk, he⟩ := h.flips j hr
    exact keep hr₀ hk he
  | join k hb =>
    obtain ⟨hr₀, hk, he⟩ := (SameKeys.joinEntry (g := (entryLocked b
      { g with nServe := g.nServe + 1 } k g.now).1) _ _).flips j hr
    simp only [FlipInv.entryLocked_flips] at hr₀ hk he
    exact keep hr₀ hk he
  | enter hp hk =>
    rename_i j' k start
    by_cases hj : j = j'
    · subst hj
      have hfl := congrFun (FlipInv.entryLocked_flips (b := b) (g := g) k start) j
      have same := (SameKeys.onEnt (g := (entryLocked b g k start).1) (entryLocked b g k start).2
        (fun x => { x with flips := x.flips + 1 }) fun _ => rfl).key (entryLocked b g k start).2
      simp only [flipEnter, Gate.onFlip_flips, Gate.onEnt_flips, update_self, hfl, hk]
      exact same.trans (entryLocked_self hi.ent k start).1
    · have hfl : (flipEnter b g j' k start).flips j = g.flips j := by
        simp [flipEnter, update_of_ne hj, FlipInv.entryLocked_flips]
      rw [hfl] at hr
      exact keep hr (by rw [hfl]) (by rw [hfl])
  | purge k =>
    rw [purge_flips] at hr
    exact keep hr (by rw [purge_flips]) (by rw [purge_flips])

/-! ## Serves that are or will be in flight -/

/-- The entry on which a request that joined a hold will register. -/
def Serve.awaits : Serve → Option EntryId
  | .joined e _ | .waiting e _ _ | .woken e _ _ false => some e
  | _ => none

/-- The entry on which a serve is in flight or will be. -/
def Serve.pending : Serve → Option EntryId
  | .registered t => if t.done.isSome then none else some t.e
  | s => s.awaits

theorem Serve.pending_cases {s : Serve} (h : s.pending = some e) :
    s.awaits = some e ∨ ∃ t, s = .registered t ∧ t.done = none ∧ t.e = e := by
  cases s with
  | registered t =>
    simp only [Serve.pending] at h
    split at h
    · cases h
    · rename_i hd
      cases h
      exact .inr ⟨t, rfl, by simpa using hd, rfl⟩
  | _ => exact .inl h

/-- Serve `i` is the one that the step started, on the mapped entry `e` of its key. -/
def NewOn (g g' : Gate κ) (a : Act κ) (i : ServeId) (e : EntryId) : Prop :=
  ∃ k, a = .anchorStart k ∧ i = g.nServe ∧ g.nServe < g'.nServe ∧
    (g'.ent e).key = some k ∧ g'.entries k = some e

omit [DecidableEq κ] in
theorem joinEntry_serves (g : Gate κ) (i : ServeId) (e : EntryId) :
    ∃ s : Serve, (joinEntry g i e).serves = update g.serves i s ∧ s.pending = some e := by
  unfold joinEntry
  split
  · split
    · exact ⟨_, rfl, rfl⟩
    · exact ⟨_, rfl, rfl⟩
  · exact ⟨_, rfl, rfl⟩

omit [DecidableEq κ] in
theorem joinEntry_nServe (g : Gate κ) (i : ServeId) (e : EntryId) :
    (joinEntry g i e).nServe = g.nServe := by
  unfold joinEntry
  split
  · split <;> rfl
  · rfl

omit [DecidableEq κ] in
theorem setServe_pending {m : Gate κ} {i' : ServeId} {s : Serve} (hg : m.serves = g.serves)
    (hs : ∀ e, s.pending = some e → (g.serves i).pending = some e)
    (h : ((m.setServe i s).serves i').pending = some e) : (g.serves i').pending = some e := by
  by_cases hi : i' = i
  · subst hi
    rw [Gate.setServe_serves, update_self] at h
    exact hs e h
  · rwa [Gate.setServe_serves, update_of_ne hi, hg] at h

/-- `join`'s new serve is on the mapped entry of its key; the other serves are as before. -/
theorem join_pending (hi : EntInv g) (h : ((join b g k).serves i).pending = some e) :
    (g.serves i).pending = some e ∨ NewOn g (join b g k) (.anchorStart k) i e := by
  have h₀ : EntInv { g with nServe := g.nServe + 1 } := hi.of_frame (.of_eq rfl rfl rfl rfl rfl rfl)
  obtain ⟨hkey, hent⟩ := entryLocked_self (b := b) h₀ k g.now
  have hf := Frame.entryLocked (b := b) (g := { g with nServe := g.nServe + 1 }) k g.now
  have hn := hf.nServe
  have hs := hf.serves
  simp only [join] at h ⊢
  generalize entryLocked b { g with nServe := g.nServe + 1 } k g.now = r at hkey hent hn hs h ⊢
  obtain ⟨g₁, e₁⟩ := r
  dsimp only at hkey hent hn hs h ⊢
  have same := SameKeys.joinEntry (g := g₁) g.nServe e₁
  obtain ⟨s, hj, hp⟩ := joinEntry_serves g₁ g.nServe e₁
  rw [hj] at h
  by_cases hii : i = g.nServe
  · subst hii
    rw [update_self, hp] at h
    cases h
    refine .inr ⟨k, rfl, rfl, ?_, (same.key _).trans hkey, by rw [same.entries]; exact hent⟩
    rw [joinEntry_nServe]
    exact hn
  · rw [update_of_ne hii, hs] at h
    exact .inl h

theorem step_pending (hi : EntInv g) (h : step b g a = some g')
    (hp : (g'.serves i).pending = some e) :
    (g.serves i).pending = some e ∨ NewOn g g' a i e := by
  have same : g'.serves = g.serves → (g.serves i).pending = some e ∨ NewOn g g' a i e :=
    fun hs => .inl (by rwa [hs] at hp)
  cases step_move h with
  | join k => exact join_pending hi hp
  | disabled k =>
    exact .inl (setServe_pending (m := { g with nServe := g.nServe + 1 }) rfl (fun _ h => by cases h) hp)
  | startTimer i' _ _ hj => exact .inl (setServe_pending rfl (fun _ h => by rw [hj]; exact h) hp)
  | wake i' w _ _ _ left hw =>
    refine .inl (setServe_pending rfl (fun _ h => ?_) hp)
    cases left with
    | true => cases h
    | false => rw [hw]; exact h
  | leave i' _ x =>
    exact .inl (setServe_pending (m := leaveHold g x) rfl (fun _ h => by cases h) hp)
  | register i' e' x _ hw =>
    exact .inl (setServe_pending (m := (leaveHold g x).onEnt e' _) rfl
      (fun _ h => by rw [hw]; exact h) hp)
  | complete i' t =>
    exact .inl (setServe_pending (m := g.onEnt t.e _) rfl (fun _ h => by cases h) hp)
  | flip j c g' hm => exact same hm.frame.serves
  | timer j => exact same (Frame.endHoldLocked _ _).serves
  | close => exact same (Frame.endHoldLocked (g := { g with closed := true }) _ _).serves
  | _ => exact same rfl

end Steps

/-! ## The keys of the requests -/

/-- The gate, with the key that each `AnchorStart` was called with. -/
structure Keyed (κ : Type) where
  gate : Gate κ
  keyOf : ServeId → Option κ

/-- The key of a new request is noted. -/
def noteKey (n : ServeId) (keyOf : ServeId → Option κ) : Act κ → ServeId → Option κ
  | .anchorStart k => update keyOf n (some k)
  | _ => keyOf

theorem noteKey_of_ne {a : Act κ} {n i : ServeId} {keyOf : ServeId → Option κ} (h : i ≠ n) :
    noteKey n keyOf a i = keyOf i := by
  unfold noteKey
  split
  · rw [update_of_ne h]
  · rfl

/-- The map has entry `e` for its key. -/
def Gate.maps (g : Gate κ) (e : EntryId) : Bool := (g.ent e).key.any fun k => g.entries k == some e

theorem maps_of_entries {k : κ} {e : EntryId} (hk : (g.ent e).key = some k) :
    g.maps e = true ↔ g.entries k = some e := by
  simp [Gate.maps, hk]

section Keyed

variable [DecidableEq κ]

/-- The gate with the bounds `b`, every interleaving of calls on it, and the requests' keys. -/
def keyed (κ : Type) [DecidableEq κ] (b : Bounds) : Spec.Sys (Keyed κ) (Act κ) where
  init s := (sys κ b).init s.gate ∧ ∀ i, s.keyOf i = none
  step s a := (step b s.gate a).map fun g' => ⟨g', noteKey s.gate.nServe s.keyOf a⟩

/-- The step drops no entry that a request which joined a hold of it has yet to register on. -/
def keepsAwaited (b : Bounds) (g : Gate κ) (a : Act κ) : Bool :=
  (List.range g.nServe).all fun i =>
    (g.serves i).awaits.all fun e => !g.maps e || (swept b g a).maps e

@[simp] theorem swept_ent (a : Act κ) : (swept b g a).ent = g.ent := by
  unfold swept
  split
  · split
    · exact sweepLocked_ent _
    · rfl
  · split
    · exact sweepLocked_ent _
    · rfl
  · exact purge_ent _
  · rfl

theorem swept_awaited {a : Act κ} (hc : keepsAwaited b g a = true) {i : ServeId} {k : κ}
    {e : EntryId} (hi : i < g.nServe) (ha : (g.serves i).awaits = some e)
    (hk : (g.ent e).key = some k) (he : g.entries k = some e) :
    (swept b g a).entries k = some e := by
  have hall := List.all_eq_true.mp hc i (List.mem_range.mpr hi)
  rw [ha, Option.all_some, (maps_of_entries hk).mpr he, Bool.not_true, Bool.false_or] at hall
  exact (maps_of_entries (by rw [swept_ent]; exact hk)).mp hall

/-- Serves and flips are on the mapped entries of their keys. -/
structure KeyInv (s : Keyed κ) : Prop where
  inv : Inv s.gate
  serve : ∀ i e, (s.gate.serves i).pending = some e → i < s.gate.nServe ∧
    ∃ k, s.keyOf i = some k ∧ (s.gate.ent e).key = some k ∧ s.gate.entries k = some e
  flip : ∀ j, (s.gate.flips j).pc.running = true →
    (s.gate.ent (s.gate.flips j).e).key = (s.gate.flips j).key

/-- A pending serve's entry survives a step that keeps the awaited ones: a serve in flight makes its
entry live. -/
theorem KeyInv.swept {s : Keyed κ} (hi : KeyInv s) {a : Act κ}
    (hc : keepsAwaited b s.gate a = true) {i : ServeId} {e : EntryId} {k : κ}
    (hp : (s.gate.serves i).pending = some e) (hk : (s.gate.ent e).key = some k)
    (he : s.gate.entries k = some e) : (swept b s.gate a).entries k = some e := by
  rcases Serve.pending_cases hp with ha | ⟨t, ht, hd, rfl⟩
  · exact swept_awaited hc (hi.serve i e hp).1 ha hk he
  · exact swept_live a he (List.ne_nil_of_mem (hi.inv.tok.live i t ht hd))

theorem keyInv_inductive :
    ((keyed κ b).guard fun s a => keepsAwaited b s.gate a = true).Inductive KeyInv := by
  refine .of_guard (fun s h => ?_) fun s a s' hi hc h => ?_
  · obtain ⟨⟨t, hg⟩, -⟩ := h
    refine ⟨(inv_inductive (b := b)).init s.gate ⟨t, hg⟩, fun i e hp => ?_, fun j hr => ?_⟩
    · rw [hg] at hp
      cases hp
    · rw [hg] at hr
      cases hr
  · obtain ⟨g', hs, rfl⟩ := Option.map_eq_some_iff.mp h
    have hkeys := step_keys hs
    refine ⟨inv_inductive.step s.gate a g' hi.inv hs, fun i e hp => ?_, fun j hr => ?_⟩
    · rcases step_pending hi.inv.flip.ent hs hp with hold | ⟨k, rfl, rfl, hn, hk, he⟩
      · obtain ⟨hlt, k, hkey, hk, he⟩ := hi.serve i e hold
        refine ⟨hlt.trans_le (hi.inv.serveStep hs).later.nServe, k, ?_, ?_, ?_⟩
        · exact (noteKey_of_ne (Nat.ne_of_lt hlt)).trans hkey
        · rwa [hkeys.key (hi.inv.flip.ent.map k e he).2]
        · exact hkeys.entries (hi.swept hc hold hk he)
      · exact ⟨hn, k, by simp [noteKey], hk, he⟩
    · exact hkeys.flip_key hi.inv.flip hi.flip hr

/-- **Gate entries are not orphaned** in a run that drops no entry which a request that joined a
hold has yet to register on: a token that is not done belongs to the entry that the map holds for
its key, so does a running flip, and a flip of the key sees the token in flight on its own entry. -/
theorem serves_mapped {s : Keyed κ}
    (hr : ((keyed κ b).guard fun s a => keepsAwaited b s.gate a = true).Reach s) :
    (∀ i t, s.gate.serves i = .registered t → t.done = none →
      ∃ k, s.keyOf i = some k ∧ s.gate.entries k = some t.e) ∧
    (∀ j, (s.gate.flips j).pc.running = true →
      ∃ k, (s.gate.flips j).key = some k ∧ s.gate.entries k = some (s.gate.flips j).e) ∧
    (∀ i t j k, s.gate.serves i = .registered t → t.done = none → s.keyOf i = some k →
      (s.gate.flips j).pc.running = true → (s.gate.flips j).key = some k →
      i ∈ (s.gate.ent (s.gate.flips j).e).inflight) := by
  have hi := keyInv_inductive.reach hr
  have serve : ∀ i t, s.gate.serves i = .registered t → t.done = none →
      ∃ k, s.keyOf i = some k ∧ s.gate.entries k = some t.e := fun i t ht hd => by
    obtain ⟨-, k, hk, -, he⟩ := hi.serve i t.e (by simp [ht, Serve.pending, hd])
    exact ⟨k, hk, he⟩
  have flip : ∀ j, (s.gate.flips j).pc.running = true →
      ∃ k, (s.gate.flips j).key = some k ∧ s.gate.entries k = some (s.gate.flips j).e :=
    fun j hj => by
      obtain ⟨k, hk, he⟩ := hi.inv.flip.ent.flip j hj
      exact ⟨k, by rw [← hi.flip j hj, hk], he⟩
  refine ⟨serve, flip, fun i t j k ht hd hik hj hjk => ?_⟩
  obtain ⟨k₁, hk₁, he₁⟩ := serve i t ht hd
  obtain ⟨k₂, hk₂, he₂⟩ := flip j hj
  have h₁ : k₁ = k := Option.some.inj (hk₁.symm.trans hik)
  have h₂ : k₂ = k := Option.some.inj (hk₂.symm.trans hjk)
  subst h₁ h₂
  have he : t.e = (s.gate.flips j).e := Option.some.inj (he₁.symm.trans he₂)
  rw [← he]
  exact hi.inv.tok.live i t ht hd

end Keyed

/-! ## Two runs -/

/-- A request joins the hold of `quietRun`'s flip; the flip commits and returns; the request is out
of its wait. -/
def releasedRun : List (Act Nat) :=
  quietRun ++ [.anchorStart 7, .startTimer 1, .flipStep 0 .run, .flipStep 0 .run,
    .flipStep 0 (.commit .ok), .flipStep 0 .run, .flipStep 0 .run, .wake 1 .released]

/-- A fresh gate, no key noted. -/
def unkeyed : Keyed Nat := ⟨initial Nat 0, fun _ => none⟩

/-- The request re-locks the gate at once; the next flip of its suite starts. -/
def relockedSoon : Keyed Nat :=
  (((keyed Nat secondQuiet).guard fun s a => keepsAwaited secondQuiet s.gate a = true).exec unkeyed
    (releasedRun ++ [.relock 1, .flip 7 false, .flipStep 1 .run])).getD unkeyed

theorem serves_mapped_soon :
    relockedSoon.keyOf 1 = some 7 ∧ (relockedSoon.gate.flips 1).key = some 7 ∧
      1 ∈ (relockedSoon.gate.ent (relockedSoon.gate.flips 1).e).inflight := by
  have hr : ((keyed Nat secondQuiet).guard fun s a => keepsAwaited secondQuiet s.gate a = true).Reach
      relockedSoon := .exec ⟨⟨0, rfl⟩, fun _ => rfl⟩ (Spec.eq_some_getD unkeyed (by decide +kernel))
  have hs : relockedSoon.gate.serves 1 = .registered ⟨0, 2 * second, 0, none, false⟩ := by decide +kernel
  have hk : relockedSoon.keyOf 1 = some 7 := by decide +kernel
  have hf : (relockedSoon.gate.flips 1).key = some 7 := by decide +kernel
  exact ⟨hk, hf, (serves_mapped hr).2.2 1 _ 1 7 hs rfl hk (by decide +kernel) hf⟩

/-- The request re-locks the gate a quiet period later: `Purge` has dropped its entry, and another
request has made a new one, on which the next flip of the suite works. -/
def relockedLate : Keyed Nat :=
  ((keyed Nat secondQuiet).exec unkeyed (releasedRun ++
    [.tick second, .purge 7, .anchorStart 7, .relock 1, .flip 7 false, .flipStep 1 .run])).getD unkeyed

/-- A flip does not see an anchor serve of its key: the late request is in flight on an entry that
is not the mapped one. -/
theorem orphaned :
    (keyed Nat secondQuiet).Reach relockedLate ∧ secondQuiet.Enabled ∧
    (∃ t, relockedLate.gate.serves 1 = .registered t ∧ t.done = none ∧ relockedLate.keyOf 1 = some 7 ∧
      relockedLate.gate.entries 7 ≠ some t.e) ∧
    (relockedLate.gate.flips 1).pc.running = true ∧ (relockedLate.gate.flips 1).key = some 7 ∧
    1 ∉ (relockedLate.gate.ent (relockedLate.gate.flips 1).e).inflight := by
  have hr : (keyed Nat secondQuiet).Reach relockedLate :=
    .exec ⟨⟨0, rfl⟩, fun _ => rfl⟩ (Spec.eq_some_getD unkeyed (by decide +kernel))
  have hs : relockedLate.gate.serves 1 = .registered ⟨0, 3 * second, second, none, false⟩ := by
    decide +kernel
  exact ⟨hr, by decide, ⟨_, hs, rfl, by decide +kernel, by decide +kernel⟩, by decide +kernel,
    by decide +kernel, by decide +kernel⟩

end AptCacher.Flipgate
