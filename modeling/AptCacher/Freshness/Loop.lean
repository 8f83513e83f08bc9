import AptCacher.Freshness.Admission
import AptCacher.Freshness.Places

/-!
# The scheduler's loop

One goroutine owns the queues: it pops suites for its workers, each stamped with the number of slot
releases so far, and then waits for a tick, a wake or the report of a check. A check that asks for an
adoption slot may be refused one. Other goroutines take and release slots meanwhile; a release frees
the slot and counts in one step and sends its wake in another, and the channel holds one token.

* `scheduler`: the loop, the workers and the other users of the pool, in any order.
* `Awake`: a check that was refused is refused still, unless a slot was released after its stamp; a
  waiter held for that is refused still, unless a wake is under way.
* `no_stranded_waiter`: no waiter is held beside a free slot without a wake under way.
-/

namespace AptCacher.Freshness

open Spec Cache

/-- Where a check is. -/
inductive CheckState
  | running
  /-- `tryAcquire` had no slot for it. -/
  | refused (signedCurrent : Bool)
  /-- Its report is in the channel. -/
  | reported (report : CheckReport)
  deriving DecidableEq

/-- A check that a worker has, or has reported. -/
structure Dispatched where
  item : SchedItem
  state : CheckState
  deriving DecidableEq

/-- The scheduler and the pool. -/
structure Scheduler where
  pool : Pooled
  /-- Releases whose wake is not sent yet. -/
  owed : Nat
  /-- A token is in `freed`. -/
  freed : Bool
  q : SchedQueues
  checks : List Dispatched
  /-- Workers without a check. -/
  idle : Nat
  /-- Waiters dispatched and not done. -/
  offers : Int
  /-- The loop is in its select; else it is in the pop loop before it. -/
  blocked : Bool
  /-- The result of the last check of a suite, for the statement only. -/
  ended : SuiteKey → Option CheckResult

/-- A step of the loop, of a worker, or of another goroutine. -/
inductive SchedOp
  /-- A pop that found a suite; `pools` is the pool as each peek of it finds it. -/
  | dispatch (pools : Str → Bool → Admission)
  /-- The pop loop ends. -/
  | block (pools : Str → Bool → Admission)
  /-- `none`: the suites could not be listed. -/
  | tick (listed : Option ((SuiteKey → Bool) × List (DueSuite × Bool)))
  | wake
  | done (i : Nat)
  /-- A check asks for a slot. -/
  | acquire (i : Nat) (signedCurrent : Bool)
  | report (i : Nat) (report : CheckReport)
  /-- Someone else asks for a slot. -/
  | tryAcquire (host : Str) (signedCurrent : Bool)
  | releaseHost (l : Nat)
  | release (l : Nat)
  | sendWake

def checkWorkers : Nat := 4

/-- `tick`, as far as the queues go. -/
def SchedQueues.tick (q : SchedQueues) :
    Option ((SuiteKey → Bool) × List (DueSuite × Bool)) → SchedQueues
  | none => q
  | some (signed, due) => due.foldl (fun q d => q.enqueue d.1 d.2) (q.refreshSigned signed)

namespace Scheduler

/-- `admit`: there is room beyond the offers already made. Each peek reads the pool anew, while others
take and release slots. -/
def admits (s : Scheduler) (pools : Str → Bool → Admission) (host : Str) (signed : Bool) : Bool :=
  decide ((pools host signed).freeFor host signed > s.offers)

/-- A lease is released by `f`. -/
def releasing (s : Scheduler) (l : Nat) (f : Admission → Lease → Admission × Lease × Bool) :
    Option Scheduler :=
  s.pool.leases[l]?.map fun lease =>
    let r := f s.pool.a lease
    { s with
      pool := ⟨r.1, s.pool.leases.set l r.2.1⟩
      owed := if r.2.2 then s.owed + 1 else s.owed }

/-- A check may report: a queued result only after `tryAcquire` refused it, with the flag of that. -/
def mayReport (state : CheckState) (report : CheckReport) : Bool :=
  match state with
  | .reported _ => false
  | .refused signedCurrent => !isQueuedResult report.result || report.signedCurrent == signedCurrent
  | .running => !isQueuedResult report.result

/-- One step. -/
def step (s : Scheduler) : SchedOp → Option Scheduler
  | .dispatch pools =>
    if s.blocked || s.idle == 0 then none
    else (s.q.pop (s.admits pools)).map fun (item, q) =>
      { s with
        q := q
        checks := s.checks ++ [⟨{ item with gen := s.pool.a.releases }, .running⟩]
        idle := s.idle - 1
        offers := if item.waiting then s.offers + 1 else s.offers }
  | .block pools =>
    if !s.blocked && (s.idle == 0 || (s.q.pop (s.admits pools)).isNone) then some { s with blocked := true }
    else none
  | .tick listed => if s.blocked then some { s with q := s.q.unhold.tick listed, blocked := false } else none
  | .wake =>
    if s.blocked && s.freed then some { s with freed := false, q := s.q.unhold, blocked := false } else none
  | .done i =>
    match s.checks[i]? with
    | some ⟨item, .reported report⟩ =>
      if s.blocked then
        some { s with
          q := s.q.finish item report s.pool.a.releases
          checks := s.checks.eraseIdx i
          idle := s.idle + 1
          offers := if item.waiting then s.offers - 1 else s.offers
          blocked := false
          ended := Function.update s.ended item.key (some report.result) }
      else none
    | _ => none
  | .acquire i signedCurrent =>
    match s.checks[i]? with
    | some ⟨item, .running⟩ =>
      match s.pool.a.tryAcquire item.key.host signedCurrent with
      | some a => some { s with pool := ⟨a, s.pool.leases ++ [⟨item.key.host, signedCurrent, true, true⟩]⟩ }
      | none => some { s with checks := s.checks.set i ⟨item, .refused signedCurrent⟩ }
    | _ => none
  | .report i report =>
    match s.checks[i]? with
    | some ⟨item, state⟩ =>
      if mayReport state report then some { s with checks := s.checks.set i ⟨item, .reported report⟩ } else none
    | none => none
  | .tryAcquire host signedCurrent =>
    (s.pool.step (.tryAcquire host signedCurrent)).map fun p => { s with pool := p }
  | .releaseHost l => s.releasing l Admission.releaseHost
  | .release l => s.releasing l Admission.release
  | .sendWake => if s.owed = 0 then none else some { s with owed := s.owed - 1, freed := true }

/-- The loop starts with an empty pool and empty queues. -/
def new (global : Int) : Scheduler :=
  ⟨⟨.new global, []⟩, 0, false, .new, [], checkWorkers, 0, false, fun _ => none⟩

end Scheduler

/-- The scheduler over a pool with `global` slots. -/
def scheduler (global : Int) : Sys Scheduler SchedOp where
  init s := s = .new global
  step := Scheduler.step

/-! ## Slots that are refused -/

section Pool

variable {a a' : Admission} {host host' : Str} {signed signed' : Bool}

theorem tryAcquire_eq_none : a.tryAcquire host signed = none ↔ a.hosts host = true ∨ (a.global > 0 ∧
    (a.global - a.inUse ≤ 0 ∨ a.global ≥ 2 ∧ a.global - a.inUse = 1 ∧ signed = false)) := by
  unfold Admission.tryAcquire
  cases a.hosts host with
  | true => simp
  | false =>
    simp only [Bool.false_eq_true, if_false, false_or]
    split <;> simp_all

theorem refused_of_grant (h : a.tryAcquire host signed = none) (hg : a.tryAcquire host' signed' = some a') :
    a'.tryAcquire host signed = none := by
  unfold Admission.tryAcquire at hg
  split at hg
  · cases hg
  split at hg
  · cases hg
  cases hg
  refine tryAcquire_eq_none.mpr ?_
  rcases tryAcquire_eq_none.mp h with hh | ⟨hpos, hroom⟩
  · left
    show Function.update a.hosts host' true host = true
    by_cases hx : host = host'
    · rw [hx, Function.update_self]
    · rwa [Function.update_of_ne hx]
  · right
    refine ⟨hpos, .inl ?_⟩
    show a.global - (a.inUse + 1) ≤ 0
    omega

/-- What a step does to the pool: it frees something and counts that, or nobody gains a slot. -/
structure PoolMove (a a' : Admission) (freed : Bool) : Prop where
  releases : a'.releases = if freed then a.releases + 1 else a.releases
  refused : freed = false → ∀ host signed, a.tryAcquire host signed = none → a'.tryAcquire host signed = none

theorem PoolMove.same (a : Admission) : PoolMove a a false := ⟨rfl, fun _ _ _ h => h⟩

theorem PoolMove.grant (hg : a.tryAcquire host signed = some a') : PoolMove a a' false where
  releases := by
    unfold Admission.tryAcquire at hg
    split at hg
    · cases hg
    · split at hg
      · cases hg
      · cases hg
        rfl
  refused _ _ _ h := refused_of_grant h hg

theorem PoolMove.releaseHost (a : Admission) (l : Lease) : PoolMove a (a.releaseHost l).1 (a.releaseHost l).2.2 := by
  unfold Admission.releaseHost
  split
  · exact ⟨rfl, fun h => by cases h⟩
  · exact .same a

theorem PoolMove.release (a : Admission) (l : Lease) : PoolMove a (a.release l).1 (a.release l).2.2 := by
  refine ⟨rfl, fun h host signed href => ?_⟩
  have hnone : l.hostHeld = false ∧ l.globalHeld = false := Bool.or_eq_false_iff.mp h
  simp only [Admission.release, hnone.1, hnone.2]
  exact href

end Pool

/-! ## Waiters under the operations of the queues -/

/-- A suite waits for a slot. -/
def SchedQueues.Parked (q : SchedQueues) (w : SchedItem) : Prop := ∃ x h, q.hosts x = some h ∧ w ∈ h.waiting

namespace SchedQueues

variable {q q' : SchedQueues} {w item : SchedItem}

/-- A host's waiting list changes. -/
theorem Parked.setHost {x : Str} {h : HostQueue} (hw : (q.setHost x h).Parked w) : w ∈ h.waiting ∨ q.Parked w := by
  obtain ⟨y, h', hy, hmem⟩ := hw
  have hy : Function.update q.hosts x (some h) y = some h' := hy
  by_cases hyx : y = x
  · rw [hyx, Function.update_self] at hy
    cases hy
    exact .inl hmem
  · rw [Function.update_of_ne hyx] at hy
    exact .inr ⟨y, h', hy, hmem⟩

theorem Parked.enqueue {d : DueSuite} {pendingChange : Bool} (hw : (q.enqueue d pendingChange).Parked w) :
    q.Parked w := by
  unfold SchedQueues.enqueue at hw
  split at hw
  · split at hw <;> exact hw
  · rcases Parked.setHost hw with hmem | hw
    · cases hx : q.hosts d.key.host with
      | none =>
        rw [hx] at hmem
        cases hmem
      | some h =>
        rw [hx] at hmem
        exact ⟨_, h, hx, hmem⟩
    · exact hw

theorem Parked.pop {admits : Str → Bool → Bool} (hpop : q.pop admits = some (item, q')) (hw : q'.Parked w) :
    q.Parked w := by
  obtain ⟨i, -, hat, -⟩ := pop_inv hpop
  obtain ⟨host, h, h', pending, -, hx, -, hturn, rfl, -⟩ := popAt_inv hat
  rcases Parked.setHost (x := host) (h := h') hw with hmem | hw
  · refine ⟨host, h, hx, ?_⟩
    cases hturn with
    | offered => exact List.mem_of_mem_eraseP hmem
    | first => exact hmem
  · exact hw

theorem Parked.prune (hw : q.prune.Parked w) : q.Parked w := by
  obtain ⟨x, h, hx, hmem⟩ := hw
  rw [prune_hosts] at hx
  split at hx
  · cases hx
  · exact ⟨x, h, hx, hmem⟩

theorem Parked.done (hw : (q.done item).Parked w) : q.Parked w := by
  have hw := hw.prune
  cases hx : q.hosts item.key.host with
  | none =>
    rw [hx] at hw
    exact hw
  | some h =>
    rw [hx] at hw
    rcases Parked.setHost (h := { h with inFlight := false }) hw with hmem | hw
    · exact ⟨_, h, hx, hmem⟩
    · exact hw

theorem Parked.park {signed : Bool} (hw : (q.park item signed).Parked w) :
    q.Parked w ∨ w = q.waiter item signed := by
  unfold SchedQueues.park at hw
  split at hw
  · exact .inl hw.done
  · rename_i h hx
    rcases Parked.setHost hw with hmem | hw
    · rcases List.mem_cons.mp ((insertWaiting_perm h.waiting).mem_iff.mp hmem) with rfl | hmem
      · exact .inr rfl
      · exact .inl ⟨_, h, hx, hmem⟩
    · exact .inl hw

/-- A check that ends leaves the other waiters, and may park its suite: held after a queued result only
if it was offered and nothing was released since its stamp. -/
theorem Parked.finish {report : CheckReport} {gen : Nat} (hw : (q.finish item report gen).Parked w) :
    q.Parked w ∨ (w.key = item.key ∧ (isQueuedResult report.result = true → w.held = true →
      gen = item.gen ∧ w.signed = report.signedCurrent)) := by
  unfold SchedQueues.finish at hw
  split at hw
  · refine hw.park.imp_right fun heq => ?_
    subst heq
    refine ⟨rfl, fun _ hheld => ⟨?_, rfl⟩⟩
    have hgen : (item.waiting && gen == item.gen) = true := hheld
    exact eq_of_beq (Bool.and_eq_true_iff.mp hgen).2
  · rename_i hqueued
    split at hw
    · refine hw.park.imp_right fun heq => ?_
      subst heq
      exact ⟨rfl, fun hn => absurd hn hqueued⟩
    · exact .inl hw.done

theorem Parked.mapWaiting {f : SchedItem → SchedItem} (hw : (q.mapWaiting f).Parked w) :
    ∃ v, q.Parked v ∧ w = f v := by
  obtain ⟨x, h, hx, hmem⟩ := hw
  obtain ⟨h₀, hx₀, rfl⟩ := Option.map_eq_some_iff.mp hx
  obtain ⟨v, hv, rfl⟩ := List.mem_map.mp hmem
  exact ⟨v, ⟨x, h₀, hx₀, hv⟩, rfl⟩

theorem held_tick {listed : Option ((SuiteKey → Bool) × List (DueSuite × Bool))}
    (hq : ∀ v, q.Parked v → v.held = false) (hw : (q.tick listed).Parked w) : w.held = false := by
  cases listed with
  | none => exact hq w hw
  | some l =>
    have hrefresh : ∀ v, (q.refreshSigned l.1).Parked v → v.held = false := fun v hv => by
      obtain ⟨u, hu, rfl⟩ := hv.mapWaiting
      exact hq u hu
    obtain ⟨signed, due⟩ := l
    show w.held = false
    have hfold : ∀ (due : List (DueSuite × Bool)) (q : SchedQueues), (∀ v, q.Parked v → v.held = false) →
        ∀ v, (due.foldl (fun q d => q.enqueue d.1 d.2) q).Parked v → v.held = false := by
      intro due
      induction due with
      | nil => exact fun q h => h
      | cons d due ih => exact fun q h => ih _ fun v hv => h v hv.enqueue
    exact hfold due _ hrefresh w hw

theorem held_unhold (hw : q.unhold.Parked w) : w.held = false := by
  obtain ⟨v, -, rfl⟩ := hw.mapWaiting
  rfl

end SchedQueues

theorem Inv.parked_ne {s : Queued} (h : Inv s) {i : Nat} {item w : SchedItem} (hi : s.popped[i]? = some item)
    (hw : s.q.Parked w) : w.key ≠ item.key := by
  intro hkey
  obtain ⟨x, hq, hx, hmem⟩ := hw
  have hitems : w ∈ hq.items := List.mem_append_right _ hmem
  obtain ⟨hq', hx', -, hok, -⟩ := h.popped_host hi
  have hown := (h.host x hq hx).own w hitems
  rw [hkey] at hown
  rw [← hown, hx'] at hx
  cases hx
  have honce := hok.once item.key rfl
  have hpos : 0 < hq.items.countP (·.key == item.key) :=
    List.countP_pos_iff.mpr ⟨w, hitems, beq_iff_eq.mpr hkey⟩
  have hone : [item].countP (·.key == item.key) = 1 := by simp
  rw [hone] at honce
  split at honce <;> omega

/-! ## The invariant -/

/-- The flag with which a check was refused a slot, if it ends queued or still may. -/
def CheckState.refusal : CheckState → Option Bool
  | .running => none
  | .refused signedCurrent => some signedCurrent
  | .reported report => if isQueuedResult report.result then some report.signedCurrent else none

/-- The invariant (module doc). -/
structure Awake (s : Scheduler) : Prop where
  /-- The queues and the popped items are in a state of `queues`. -/
  run : queues.Reach ⟨s.q, s.checks.map (·.item)⟩
  stamp : ∀ c ∈ s.checks, c.item.gen ≤ s.pool.a.releases
  refused : ∀ c ∈ s.checks, ∀ signed, c.state.refusal = some signed → s.pool.a.releases = c.item.gen →
    s.pool.a.tryAcquire c.item.key.host signed = none
  held : ∀ w, s.q.Parked w → w.held = true → (s.ended w.key).any isQueuedResult = true →
    s.pool.a.tryAcquire w.key.host w.signed = none ∨ s.freed = true ∨ 0 < s.owed

namespace Awake

variable {s : Scheduler}

/-- Someone takes or releases a slot. -/
theorem pool (h : Awake s) {p : Pooled} {freed : Bool} (hm : PoolMove s.pool.a p.a freed) :
    Awake { s with pool := p, owed := if freed then s.owed + 1 else s.owed } := by
  have hrel := hm.releases
  cases freed with
  | true =>
    rw [if_pos rfl] at hrel
    refine ⟨h.run, fun c hc => ?_, fun c hc signed _ hgen => ?_, fun w _ _ _ => .inr (.inr (Nat.succ_pos _))⟩
    · show c.item.gen ≤ p.a.releases
      have := h.stamp c hc
      omega
    · -- the slot was released after the stamp
      have hgen : p.a.releases = c.item.gen := hgen
      have := h.stamp c hc
      omega
  | false =>
    rw [if_neg Bool.false_ne_true] at hrel
    have hkeep := hm.refused rfl
    refine ⟨h.run, fun c hc => ?_, fun c hc signed href hgen => ?_, fun w hw hheld hend => ?_⟩
    · exact hrel ▸ h.stamp c hc
    · exact hkeep _ _ (h.refused c hc signed href (hrel ▸ hgen))
    · exact (h.held w hw hheld hend).imp_left (hkeep _ _)

variable {item : SchedItem} {q : SchedQueues}

/-- A worker goes on with its check. -/
theorem set (h : Awake s) {i : Nat} {state state' : CheckState}
    (hi : s.checks[i]? = some ⟨item, state⟩) (href : ∀ signed, state'.refusal = some signed →
      state.refusal = some signed ∨ s.pool.a.tryAcquire item.key.host signed = none) :
    Awake { s with checks := s.checks.set i ⟨item, state'⟩ } := by
  have hitems : (s.checks.set i ⟨item, state'⟩).map (·.item) = s.checks.map (·.item) := by
    rw [List.map_set]
    exact set_self (by rw [List.getElem?_map, hi]; rfl)
  have hold := List.mem_of_getElem? hi
  refine ⟨?_, fun c hc => ?_, fun c hc signed hc' hgen => ?_, h.held⟩
  · show queues.Reach ⟨s.q, (s.checks.set i ⟨item, state'⟩).map (·.item)⟩
    rw [hitems]
    exact h.run
  · rcases List.mem_or_eq_of_mem_set hc with hc | rfl
    · exact h.stamp c hc
    · exact h.stamp ⟨item, state⟩ hold
  · rcases List.mem_or_eq_of_mem_set hc with hc | rfl
    · exact h.refused c hc signed hc' hgen
    · rcases href signed hc' with hst | hnone
      · exact h.refused _ hold signed hst hgen
      · exact hnone

/-- Nobody is held any more, and the queues are still in a state of `queues`. -/
theorem unheld (h : Awake s) (hrun : queues.Reach ⟨q, s.checks.map (·.item)⟩)
    (hq : ∀ w, q.Parked w → w.held = false) (freed : Bool) :
    Awake { s with q := q, freed := freed, blocked := false } :=
  ⟨hrun, h.stamp, h.refused, fun w hw hheld => by rw [hq w hw] at hheld; cases hheld⟩

theorem reach_unhold (h : Awake s) : queues.Reach ⟨s.q.unhold, s.checks.map (·.item)⟩ :=
  .step .unhold h.run rfl

theorem reach_tick {popped : List SchedItem} (h : queues.Reach ⟨q, popped⟩)
    (listed : Option ((SuiteKey → Bool) × List (DueSuite × Bool))) :
    queues.Reach ⟨q.tick listed, popped⟩ := by
  cases listed with
  | none => exact h
  | some l =>
    obtain ⟨signed, due⟩ := l
    have hrefresh : queues.Reach ⟨q.refreshSigned signed, popped⟩ := .step (.refreshSigned signed) h rfl
    show queues.Reach ⟨due.foldl (fun q d => q.enqueue d.1 d.2) (q.refreshSigned signed), popped⟩
    generalize q.refreshSigned signed = q' at hrefresh
    induction due generalizing q' with
    | nil => exact hrefresh
    | cons d due ih => exact ih _ (.step (.enqueue d.1 d.2) hrefresh rfl)

/-- A suite is dispatched, with its stamp. -/
theorem dispatch (h : Awake s) {admits : Str → Bool → Bool} (hpop : s.q.pop admits = some (item, q))
    (idle : Nat) (offers : Int) :
    Awake { s with
      q := q
      checks := s.checks ++ [⟨{ item with gen := s.pool.a.releases }, .running⟩]
      idle := idle
      offers := offers } := by
  refine ⟨?_, fun c hc => ?_, fun c hc signed href hgen => ?_, fun w hw => h.held w (hw.pop hpop)⟩
  · refine .step (.pop admits s.pool.a.releases) h.run ?_
    simp only [queues, Queued.step, hpop, List.map_append, List.map_cons, List.map_nil]
  · rcases List.mem_append.mp hc with hc | hc
    · exact h.stamp c hc
    · cases List.mem_singleton.mp hc
      exact Nat.le_refl _
  · rcases List.mem_append.mp hc with hc | hc
    · exact h.refused c hc signed href hgen
    · cases List.mem_singleton.mp hc
      cases href

/-- A report is taken: its suite is held for a refusal only while the refusal stands. -/
theorem done (h : Awake s) {i : Nat} {report : CheckReport}
    (hi : s.checks[i]? = some ⟨item, .reported report⟩) (idle : Nat) (offers : Int) :
    Awake { s with
      q := s.q.finish item report s.pool.a.releases
      checks := s.checks.eraseIdx i
      idle := idle
      offers := offers
      blocked := false
      ended := Function.update s.ended item.key (some report.result) } := by
  have hpopped : (s.checks.map (·.item))[i]? = some item := by rw [List.getElem?_map, hi]; rfl
  refine ⟨?_, fun c hc => h.stamp c (List.mem_of_mem_eraseIdx hc),
    fun c hc => h.refused c (List.mem_of_mem_eraseIdx hc), fun w hw hheld hend => ?_⟩
  · refine .step (.finish i report s.pool.a.releases) h.run ?_
    simp only [queues, Queued.step, Queued.settle, hpopped, Option.map_some, List.eraseIdx_map]
  · have hend : (Function.update s.ended item.key (some report.result) w.key).any isQueuedResult = true := hend
    rcases hw.finish with hold | ⟨hkey, hparked⟩
    · have hne := Inv.parked_ne (inv_inductive.reach h.run) hpopped hold
      rw [Function.update_of_ne hne] at hend
      exact h.held w hold hheld hend
    · rw [hkey, Function.update_self] at hend
      obtain ⟨hgen, hsigned⟩ := hparked hend hheld
      rw [hkey, hsigned]
      refine .inl (h.refused _ (List.mem_of_getElem? hi) _ ?_ hgen)
      exact if_pos hend

theorem refusal_of_mayReport {state : CheckState} {report : CheckReport} (h : Scheduler.mayReport state report = true)
    {signed : Bool} (hr : (CheckState.reported report).refusal = some signed) : state.refusal = some signed := by
  simp only [CheckState.refusal] at hr
  split at hr
  · rename_i hq
    cases hr
    cases state with
    | running => simp [Scheduler.mayReport, hq] at h
    | refused signedCurrent =>
      simp only [Scheduler.mayReport, hq, Bool.not_true, Bool.false_or, beq_iff_eq] at h
      exact congrArg some h.symm
    | reported => cases h
  · cases hr

theorem releasing (h : Awake s) {l : Nat} {f : Admission → Lease → Admission × Lease × Bool}
    (hf : ∀ a lease, PoolMove a (f a lease).1 (f a lease).2.2) {s' : Scheduler} (hs : s.releasing l f = some s') :
    Awake s' := by
  obtain ⟨lease, -, rfl⟩ := Option.map_eq_some_iff.mp hs
  exact h.pool (hf s.pool.a lease)

theorem tryAcquire (h : Awake s) {host : Str} {signedCurrent : Bool} {p : Pooled}
    (hp : s.pool.step (.tryAcquire host signedCurrent) = some p) : Awake { s with pool := p } := by
  simp only [Pooled.step] at hp
  split at hp
  · rename_i a ha
    cases hp
    exact h.pool (.grant ha)
  · cases hp
    exact h

theorem step (h : Awake s) {op : SchedOp} {s' : Scheduler} (hs : s.step op = some s') : Awake s' := by
  cases op with
  | dispatch pools =>
    simp only [Scheduler.step] at hs
    split at hs
    · cases hs
    obtain ⟨⟨item, q⟩, hpop, rfl⟩ := Option.map_eq_some_iff.mp hs
    exact h.dispatch hpop _ _
  | block pools =>
    simp only [Scheduler.step] at hs
    split at hs
    · cases hs
      exact ⟨h.run, h.stamp, h.refused, h.held⟩
    · cases hs
  | tick listed =>
    simp only [Scheduler.step] at hs
    split at hs
    · cases hs
      exact h.unheld (reach_tick h.reach_unhold listed)
        (fun w hw => SchedQueues.held_tick (fun _ => SchedQueues.held_unhold) hw) s.freed
    · cases hs
  | wake =>
    simp only [Scheduler.step] at hs
    split at hs
    · cases hs
      exact h.unheld h.reach_unhold (fun _ => SchedQueues.held_unhold) false
    · cases hs
  | done i =>
    simp only [Scheduler.step] at hs
    split at hs
    · rename_i item report hi
      split at hs
      · cases hs
        exact h.done hi _ _
      · cases hs
    · cases hs
  | acquire i signedCurrent =>
    simp only [Scheduler.step] at hs
    split at hs
    · rename_i item hi
      split at hs
      · rename_i a ha
        cases hs
        exact h.pool (.grant ha)
      · rename_i hnone
        cases hs
        refine h.set hi fun signed hr => .inr ?_
        cases hr
        exact hnone
    · cases hs
  | report i report =>
    simp only [Scheduler.step] at hs
    split at hs
    · rename_i item state hi
      split at hs
      · rename_i hmay
        cases hs
        exact h.set hi fun signed hr => .inl (refusal_of_mayReport hmay hr)
      · cases hs
    · cases hs
  | tryAcquire host signedCurrent =>
    obtain ⟨p, hp, rfl⟩ := Option.map_eq_some_iff.mp hs
    exact h.tryAcquire hp
  | releaseHost l => exact h.releasing .releaseHost hs
  | release l => exact h.releasing .release hs
  | sendWake =>
    simp only [Scheduler.step] at hs
    split at hs
    · cases hs
    · cases hs
      exact ⟨h.run, h.stamp, h.refused, fun _ _ _ _ => .inr (.inl rfl)⟩

end Awake

theorem awake_inductive (global : Int) : (scheduler global).Inductive Awake where
  init s hs := by
    subst hs
    refine ⟨.init rfl, fun c hc => ?_, fun c hc => ?_, fun w hw => ?_⟩
    · cases hc
    · cases hc
    · obtain ⟨x, h, hx, -⟩ := hw
      cases hx
  step _ _ _ h hs := h.step hs

/-- In every state, and so whenever the loop is about to block: a waiter that is held because its last
offer ended queued would be refused a slot now, unless a wake is in the channel or still to be sent. -/
theorem no_stranded_waiter {global : Int} {s : Scheduler} (hs : (scheduler global).Reach s) {x : Str}
    {h : HostQueue} (hx : s.q.hosts x = some h) {w : SchedItem} (hw : w ∈ h.waiting) (hheld : w.held = true)
    (hend : (s.ended w.key).any isQueuedResult = true) :
    w.key.host = x ∧ (s.pool.a.tryAcquire w.key.host w.signed = none ∨ s.freed = true ∨ 0 < s.owed) := by
  have hawake := (awake_inductive global).reach hs
  have hown := ((inv_inductive.reach hawake.run).host x h hx).own w (List.mem_append_right _ hw)
  exact ⟨hown, hawake.held w ⟨x, h, hx, hw⟩ hheld hend⟩

/-- The peek of a pool of one slot that is free after one release. -/
def oneFree (_ : Str) (_ : Bool) : Admission := ⟨1, 0, fun _ => false, 1⟩

/-- A suite waits for the only slot. It is released, and the suite is offered it; but another check
takes it first, and the wake is spent before the report of the offer is taken. -/
def lateOffer : List SchedOp :=
  [.block oneFree, .tryAcquire ['b'] true,
    .tick (some (fun _ => false, [(⟨⟨.http, ['a'], ['x']⟩, 0, none⟩, false)])),
    .dispatch oneFree, .acquire 0 false, .report 0 ⟨.firstAdoptionQueued, false⟩, .block oneFree, .done 0,
    .release 0, .dispatch oneFree, .block oneFree, .tryAcquire ['c'] true, .acquire 0 false, .sendWake, .wake,
    .report 0 ⟨.firstAdoptionQueued, false⟩, .block oneFree, .done 0, .block oneFree]

/-- The scheduler after `lateOffer`. -/
def lateOfferEnd : Scheduler := ((scheduler 1).exec (.new 1) lateOffer).getD (.new 1)

/-- The queues of the waiting host. -/
def lateOfferHost : HostQueue := (lateOfferEnd.q.hosts ['a']).getD ⟨fun _ => [], [], false⟩

/-- The suite that waits, held. -/
def lateOfferWaiter : SchedItem := ⟨⟨.http, ['a'], ['x']⟩, true, false, true, false, 1, 1⟩

/-- The suite is held, no wake is under way, and it would be refused. -/
theorem no_stranded_waiter_lateOffer :
    (scheduler 1).Reach lateOfferEnd ∧ lateOfferEnd.blocked = true ∧ lateOfferWaiter ∈ lateOfferHost.waiting ∧
    lateOfferEnd.freed = false ∧ lateOfferEnd.owed = 0 ∧
    (lateOfferWaiter.key.host = ['a'] ∧
      (lateOfferEnd.pool.a.tryAcquire lateOfferWaiter.key.host lateOfferWaiter.signed = none ∨
        lateOfferEnd.freed = true ∨ 0 < lateOfferEnd.owed)) := by
  have hreach : (scheduler 1).Reach lateOfferEnd := .exec rfl (eq_some_getD _ (by decide +kernel))
  have hhost : lateOfferEnd.q.hosts ['a'] = some lateOfferHost := eq_some_getD _ (by decide +kernel)
  have hmem : lateOfferWaiter ∈ lateOfferHost.waiting := by decide +kernel
  exact ⟨hreach, by decide +kernel, hmem, by decide +kernel, by decide +kernel,
    no_stranded_waiter hreach hhost hmem rfl (by decide +kernel)⟩

end AptCacher.Freshness
