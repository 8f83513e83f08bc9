import AptCacher.Spec.Ring
import AptCacher.Freshness.Places

/-!
# Turns of the hosts

While a host waits with a queued suite, the other hosts take turns. `ahead` are those that the ring
has before it: a pop cuts them, `prune` drops some, and a host that joins the ring is appended at the
end of `order`, which lies ahead of the waiting host once the turn is past it.

* `awaiting b`: the runs of the queues in which host `b` waits, with the turns that others had.
* `joinsBehind`: the steps that put no host ahead of `b` that had its turn.
* `turns_nodup`: without such steps no host has two turns.
* `two_turns`: a host that leaves the ring and joins it again has two.
-/

namespace AptCacher.Freshness

open Spec Cache

/-- A host has a suite in a class queue, and no check in flight. -/
def SchedQueues.awaits (q : SchedQueues) (host : Str) : Bool :=
  (q.hosts host).any fun h => !h.inFlight && (firstOfClass h).isSome

/-- The host of the suite that an operation pops. -/
def QueueOp.turn (q : SchedQueues) : QueueOp → List Str
  | .pop admits _ => ((q.pop admits).map fun r => r.1.key.host).toList
  | _ => []

/-- The queues, and the hosts that had a turn, in order. -/
structure Awaiting where
  s : Queued
  turns : List Str

/-- Any operations from a state of the queues on, as long as host `b` waits for its turn. -/
def awaiting (b : Str) : Sys Awaiting QueueOp where
  init w := queues.Reach w.s ∧ w.s.q.awaits b = true ∧ w.turns = []
  step w op := (w.s.step op).bind fun s =>
    if s.q.awaits b then some ⟨s, w.turns ++ op.turn w.s.q⟩ else none

/-- A host that joins the ring had no turn yet, or the turn is not past `b`. -/
def joinsBehind (b : Str) (w : Awaiting) : QueueOp → Bool
  | .enqueue d _ => (w.s.q.hosts d.key.host).isSome || decide (w.s.q.next ≤ w.s.q.order.idxOf b) ||
      !w.turns.contains d.key.host
  | _ => true

/-! ## The ring under the operations -/

section Ring

variable {q : SchedQueues} {b : Str}

theorem prune_rotate (hq : q.next ≤ q.order.length - 1) :
    q.prune.order.rotate q.prune.next = (q.order.rotate q.next).filter q.keeps := by
  by_cases hnil : q.order = []
  · rw [prune_order, hnil]
    rfl
  have hpos := List.length_pos_iff.mpr hnil
  have hmod : q.next % q.order.length = q.next := Nat.mod_eq_of_lt (by omega)
  have hsplit : q.order.filter q.keeps =
      (q.order.take q.next).filter q.keeps ++ (q.order.drop q.next).filter q.keeps := by
    rw [← List.filter_append, List.take_append_drop]
  rw [prune_order, prune_next hnil, hmod, List.rotate_eq_drop_append_take (by omega : q.next ≤ q.order.length),
    List.filter_append, hsplit]
  split
  · rename_i hdrop
    rw [hdrop, List.rotate_zero, List.append_nil, List.nil_append]
  · rw [List.rotate_append_length_eq]

theorem awaits_hosts (hb : q.awaits b = true) :
    ∃ h, q.hosts b = some h ∧ h.inFlight = false ∧ (SchedQueues.firstOfClass h).isSome = true := by
  unfold SchedQueues.awaits at hb
  cases hx : q.hosts b with
  | none =>
    rw [hx] at hb
    cases hb
  | some h =>
    rw [hx] at hb
    simpa using hb

theorem popAt_awaits (hb : q.awaits b = true) (admits : Str → Bool → Bool) {idx : Nat} (hidx : q.order[idx]? = some b) :
    q.popAt admits idx ≠ none := by
  obtain ⟨h, hx, hidle, hfirst⟩ := awaits_hosts hb
  obtain ⟨⟨c, item⟩, hitem⟩ := Option.isSome_iff_exists.mp hfirst
  unfold SchedQueues.popAt
  simp only [hidx, hx, hidle, hitem, Bool.false_eq_true, if_false]
  cases h.waiting.find? (SchedQueues.offerable (admits b)) with
  | some w => exact Option.some_ne_none _
  | none => exact Option.some_ne_none _

/-- A pop while `b` waits, and after which it still waits, is the turn of a host ahead of `b`. -/
theorem ahead_pop {s : Queued} (h : Inv s) {q : SchedQueues} (hb : s.q.awaits b = true) (hb' : q.awaits b = true)
    {admits : Str → Bool → Bool} {item : SchedItem} (hpop : s.q.pop admits = some (item, q)) :
    ∃ i, (ahead b s.q.order s.q.next)[i]? = some item.key.host ∧
      ahead b q.order q.next = (ahead b s.q.order s.q.next).drop (i + 1) := by
  obtain ⟨hqb, hxb, -, -⟩ := awaits_hosts hb
  have hmem : b ∈ s.q.order := (h.ring b).mpr (by rw [hxb]; rfl)
  obtain ⟨i, -, hat, hfirst⟩ := pop_inv hpop
  obtain ⟨host, hq, hq', pending, hhost, hx, hidle, hturn, rfl, -⟩ := popAt_inv hat
  have hkey : item.key.host = host := (hturn.ok (h.host host hq hx) hidle 0).2
  have hne : host ≠ b := by
    rintro rfl
    obtain ⟨hq₁, hx₁, hidle₁, -⟩ := awaits_hosts hb'
    have hset : (s.q.setHost host hq').hosts host = some hq' := Function.update_self ..
    cases hset.symm.trans hx₁
    rw [hturn.inFlight] at hidle₁
    cases hidle₁
  -- the ring comes to `b` after all of them, and its turn would come first
  have hlast := getElem?_ahead_length (n := s.q.next) hmem
  have hlt : i < (ahead b s.q.order s.q.next).length := by
    rcases Nat.lt_trichotomy i (ahead b s.q.order s.q.next).length with hlt | heq | hgt
    · exact hlt
    · rw [← heq, hhost] at hlast
      exact absurd (Option.some.inj hlast) hne
    · exact absurd (hfirst _ hgt) (popAt_awaits hb admits hlast)
  have hget : (ahead b s.q.order s.q.next)[i]? = some item.key.host := by
    rw [getElem?_ahead hmem hlt, hhost, hkey]
  exact ⟨i, hget, ahead_turn hmem hget⟩

/-- The hosts ahead of a host that waits after `prune`: those that were, and are kept. -/
theorem ahead_prune (hb : q.prune.awaits b = true) (hq : q.next ≤ q.order.length - 1) :
    ahead b q.prune.order q.prune.next = (ahead b q.order q.next).filter q.keeps := by
  obtain ⟨h, hx, -, hfirst⟩ := awaits_hosts hb
  obtain ⟨⟨c, item⟩, hitem⟩ := Option.isSome_iff_exists.mp hfirst
  obtain ⟨rest, hc⟩ := firstOfClass_head hitem
  have hx₀ : q.hosts b = some h := by
    rw [prune_hosts] at hx
    split at hx
    · cases hx
    · exact hx
  have hkeep : q.keeps b = true := by
    refine (Base.keeps_iff hx₀).mpr (.inr (List.ne_nil_of_mem (a := item) ?_))
    have hmem : item ∈ h.classes c := hc ▸ List.mem_cons_self
    cases c <;> simp [HostQueue.items, hmem]
  exact ahead_of_filter hkeep (prune_rotate hq)

end Ring

section Step

variable {s s' : Queued} {b : Str}

variable {item : SchedItem} {y : Str} {q : SchedQueues}

theorem mem_ahead_done (h : Inv s) (hb : (s.q.done item).awaits b = true)
    (hy : y ∈ ahead b (s.q.done item).order (s.q.done item).next) :
    y ∈ ahead b s.q.order s.q.next := by
  unfold SchedQueues.done at hb hy
  rw [ahead_prune hb h.turn] at hy
  exact (List.mem_filter.mp hy).1

theorem mem_ahead_park {signed : Bool}
    (hy : y ∈ ahead b (q.park item signed).order (q.park item signed).next) {hq : HostQueue}
    (hx : q.hosts item.key.host = some hq) : y ∈ ahead b q.order q.next := by
  unfold SchedQueues.park at hy
  rw [hx] at hy
  exact hy

theorem mem_ahead_finish (h : Inv s) {i : Nat} (hi : s.popped[i]? = some item)
    {report : CheckReport} {gen : Nat} (hb : (s.q.finish item report gen).awaits b = true)
    (hy : y ∈ ahead b (s.q.finish item report gen).order (s.q.finish item report gen).next) :
    y ∈ ahead b s.q.order s.q.next := by
  obtain ⟨hq, hx, -⟩ := h.popped_host hi
  unfold SchedQueues.finish at hb hy
  split at hy
  · exact mem_ahead_park hy hx
  · rename_i hqueued
    rw [if_neg hqueued] at hb
    split at hy
    · exact mem_ahead_park hy hx
    · rename_i hbusy
      rw [if_neg hbusy] at hb
      exact mem_ahead_done h hb hy

/-- Only a host that joins the ring while the turn is past `b` gets ahead of it. -/
theorem mem_ahead_enqueue (h : Inv s) {d : DueSuite} {pendingChange : Bool}
    (hy : y ∈ ahead b (s.q.enqueue d pendingChange).order (s.q.enqueue d pendingChange).next) :
    y ∈ ahead b s.q.order s.q.next ∨
      (y = d.key.host ∧ s.q.hosts d.key.host = none ∧ b ∉ s.q.order.drop s.q.next) := by
  unfold SchedQueues.enqueue at hy
  split at hy
  · split at hy <;> exact .inl hy
  · simp only at hy
    split at hy
    · rename_i hnone
      have hle : s.q.next ≤ s.q.order.length := Nat.le_trans h.turn (Nat.sub_le ..)
      exact (mem_ahead_append hle hy).imp_right fun hnew => ⟨hnew.1, hnone, hnew.2⟩
    · exact .inl hy

/-- What an operation does to the hosts ahead of `b`. -/
structure Passes (b : Str) (q q' : SchedQueues) (op : QueueOp) : Prop where
  nodup : (op.turn q).Nodup
  /-- A host that has its turn was ahead of `b`, and is not any more. -/
  turn : ∀ x ∈ op.turn q, x ∈ ahead b q.order q.next ∧ x ∉ ahead b q'.order q'.next
  /-- Nobody gets ahead of `b` but a host that joins the ring while the turn is past `b`. -/
  joins : ∀ y ∈ ahead b q'.order q'.next, y ∈ ahead b q.order q.next ∨
    ∃ d pendingChange, op = .enqueue d pendingChange ∧ y = d.key.host ∧ q.hosts d.key.host = none ∧
      b ∉ q.order.drop q.next

theorem Passes.quiet {q' : SchedQueues} {op : QueueOp} (hturn : op.turn q = [])
    (hmem : ∀ y ∈ ahead b q'.order q'.next, y ∈ ahead b q.order q.next) : Passes b q q' op where
  nodup := hturn ▸ .nil
  turn x hx := by
    rw [hturn] at hx
    cases hx
  joins y hy := .inl (hmem y hy)

theorem Passes.pop (h : Inv s) (hb : s.q.awaits b = true) (hb' : q.awaits b = true)
    {admits : Str → Bool → Bool} (hpop : s.q.pop admits = some (item, q)) (gen : Nat) :
    Passes b s.q q (.pop admits gen) := by
  obtain ⟨i, hget, hdrop⟩ := ahead_pop h hb hb' hpop
  have hturn : QueueOp.turn s.q (.pop admits gen) = [item.key.host] := by
    simp only [QueueOp.turn, hpop]
    rfl
  refine ⟨hturn ▸ List.nodup_singleton _, fun x hx => ?_, fun y hy => .inl (List.mem_of_mem_drop (hdrop ▸ hy))⟩
  rw [hturn, List.mem_singleton] at hx
  subst hx
  refine ⟨List.mem_of_getElem? hget, fun hmem => ?_⟩
  rw [hdrop] at hmem
  -- the hosts ahead are distinct, so the one at `i` is not among the later ones
  obtain ⟨hi, hx⟩ := List.getElem?_eq_some_iff.mp hget
  have hnodup := ahead_nodup (b := b) (n := s.q.next) h.nodup
  rw [← List.take_append_drop (i + 1) (ahead b s.q.order s.q.next)] at hnodup
  refine List.disjoint_of_nodup_append hnodup ?_ hmem
  exact List.mem_take_iff_getElem.mpr ⟨i, by omega, hx⟩

theorem Passes.step (h : Inv s) {op : QueueOp} (hb : s.q.awaits b = true) (hs : s.step op = some s')
    (hb' : s'.q.awaits b = true) : Passes b s.q s'.q op := by
  cases op with
  | enqueue d pendingChange =>
    cases hs
    refine ⟨.nil, (fun _ hx => by cases hx), fun y hy => (mem_ahead_enqueue h hy).imp_right fun hnew => ?_⟩
    exact ⟨d, pendingChange, rfl, hnew⟩
  | pop admits gen =>
    simp only [Queued.step] at hs
    split at hs
    · rename_i item q hpop
      cases hs
      exact .pop h hb hb' hpop gen
    · rename_i hpop
      cases hs
      refine .quiet ?_ fun y hy => hy
      simp only [QueueOp.turn, hpop]
      rfl
  | finish i report gen =>
    obtain ⟨item, hi, rfl⟩ := Option.map_eq_some_iff.mp hs
    exact .quiet rfl fun y hy => mem_ahead_finish h hi hb' hy
  | park i signed =>
    obtain ⟨item, hi, rfl⟩ := Option.map_eq_some_iff.mp hs
    obtain ⟨hq, hx, -⟩ := h.popped_host hi
    exact .quiet rfl fun y hy => mem_ahead_park hy hx
  | done i =>
    obtain ⟨item, hi, rfl⟩ := Option.map_eq_some_iff.mp hs
    exact .quiet rfl fun y hy => mem_ahead_done h hb' hy
  | unhold =>
    cases hs
    exact .quiet rfl fun y hy => hy
  | refreshSigned signed =>
    cases hs
    exact .quiet rfl fun y hy => hy

end Step

/-! ## Runs -/

/-- While `b` waits: the hosts that had a turn are distinct and not ahead of `b` any more. -/
structure Fair (b : Str) (w : Awaiting) : Prop where
  inv : Inv w.s
  awaits : w.s.q.awaits b = true
  nodup : w.turns.Nodup
  past : ∀ x ∈ w.turns, x ∉ ahead b w.s.q.order w.s.q.next
  other : b ∉ w.turns

theorem Fair.mem_order {b : Str} {w : Awaiting} (h : Fair b w) : b ∈ w.s.q.order := by
  obtain ⟨hq, hx, -⟩ := awaits_hosts h.awaits
  exact (h.inv.ring b).mpr (by rw [hx]; rfl)

theorem joinsBehind_enqueue {b : Str} {w : Awaiting} {d : DueSuite} {pendingChange : Bool}
    (hc : joinsBehind b w (.enqueue d pendingChange) = true) (hnone : w.s.q.hosts d.key.host = none) :
    w.s.q.next ≤ w.s.q.order.idxOf b ∨ d.key.host ∉ w.turns := by
  simpa [joinsBehind, hnone] using hc

theorem fair_inductive (b : Str) : ((awaiting b).guard fun w op => joinsBehind b w op = true).Inductive (Fair b) := by
  refine .of_guard (fun w hw => ?_) fun w op w' hw hc hs => ?_
  · obtain ⟨hreach, hb, hnil⟩ := hw
    refine ⟨inv_inductive.reach hreach, hb, hnil ▸ .nil, fun x hx => ?_, hnil ▸ List.not_mem_nil⟩
    rw [hnil] at hx
    cases hx
  · obtain ⟨s, hstep, hs⟩ := Option.bind_eq_some_iff.mp hs
    split at hs
    · rename_i hb
      cases hs
      have hpass := Passes.step hw.inv hw.awaits hstep hb
      refine ⟨inv_inductive.step _ op _ hw.inv hstep, hb, ?_, fun x hx hahead => ?_, fun hx => ?_⟩
      · refine List.nodup_append'.mpr ⟨hw.nodup, hpass.nodup, fun x hx hturn => ?_⟩
        exact hw.past x hx (hpass.turn x hturn).1
      · rcases List.mem_append.mp hx with hold | hturn
        · rcases hpass.joins x hahead with hahead | ⟨d, pendingChange, rfl, rfl, hnone, hdrop⟩
          · exact hw.past x hold hahead
          · rcases joinsBehind_enqueue hc hnone with hle | hnew
            · exact hdrop (mem_drop_of_idxOf hle hw.mem_order)
            · exact hnew hold
        · exact (hpass.turn x hturn).2 hahead
      · rcases List.mem_append.mp hx with hx | hx
        · exact hw.other hx
        · exact ne_of_mem_takeWhile (hpass.turn b hx).1 rfl
    · cases hs

/-- No host has two turns while another waits, in every run whose joining hosts meet `joinsBehind`. -/
theorem turns_nodup {b : Str} {w : Awaiting}
    (hw : ((awaiting b).guard fun w op => joinsBehind b w op = true).Reach w) : w.turns.Nodup ∧ b ∉ w.turns :=
  ⟨((fair_inductive b).reach hw).nodup, ((fair_inductive b).reach hw).other⟩

/-- A suite of a host. -/
def suiteOf (host : Char) (path : Char) : DueSuite := ⟨⟨.http, [host], [path]⟩, 0, some 1⟩

/-- The queues in which hosts `b`, `a`, `c` are on the ring in this order, and `b` had its turn. -/
def ringBAC : Queued :=
  (queues.exec ⟨.new, []⟩
    [.enqueue (suiteOf 'b' 'x') false, .enqueue (suiteOf 'b' 'y') false, .enqueue (suiteOf 'a' 'x') false,
      .enqueue (suiteOf 'c' 'x') false, .pop (fun _ _ => false) 0, .done 0]).getD ⟨.new, []⟩

theorem ringBAC_reach : queues.Reach ringBAC := .exec rfl (eq_some_getD _ (by decide +kernel))

/-- Hosts `a` and `c` have their turns, and a new host joins, before it is the turn of `b`. -/
def acd : Awaiting :=
  (((awaiting ['b']).guard fun w op => joinsBehind ['b'] w op = true).exec ⟨ringBAC, []⟩
    [.pop (fun _ _ => false) 0, .enqueue (suiteOf 'd' 'x') false, .pop (fun _ _ => false) 0, .done 0,
      .pop (fun _ _ => false) 0]).getD ⟨ringBAC, []⟩

theorem turns_nodup_acd :
    ((awaiting ['b']).guard fun w op => joinsBehind ['b'] w op = true).Reach acd ∧
    acd.turns = [['a'], ['c'], ['d']] ∧ acd.turns.Nodup ∧ ['b'] ∉ acd.turns := by
  have hreach : ((awaiting ['b']).guard fun w op => joinsBehind ['b'] w op = true).Reach acd :=
    .exec ⟨ringBAC_reach, by decide +kernel, rfl⟩ (eq_some_getD _ (by decide +kernel))
  exact ⟨hreach, by decide +kernel, turns_nodup hreach⟩

/-- Host `a` has its turn, leaves the ring, and is queued again: it joins ahead of `b`. -/
def aca : Awaiting :=
  ((awaiting ['b']).exec ⟨ringBAC, []⟩
    [.pop (fun _ _ => false) 0, .done 0, .enqueue (suiteOf 'a' 'y') false, .pop (fun _ _ => false) 0,
      .pop (fun _ _ => false) 0]).getD ⟨ringBAC, []⟩

/-- Host `a` has two turns while `b` waits for its first. -/
theorem two_turns : (awaiting ['b']).Reach aca ∧ aca.turns = [['a'], ['c'], ['a']] ∧ ¬ aca.turns.Nodup :=
  ⟨.exec ⟨ringBAC_reach, by decide +kernel, rfl⟩ (eq_some_getD _ (by decide +kernel)), by decide +kernel,
    by decide +kernel⟩

end AptCacher.Freshness
