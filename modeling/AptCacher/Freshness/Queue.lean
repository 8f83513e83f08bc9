import AptCacher.Spec.Sys
import AptCacher.Cache.Db

/-!
# The queues of the scheduler

Per host, the suites that are due wait in one of three class queues or, once a check of theirs found
no slot, in the host's waiting list. The hosts take turns on a ring; a host with a check in flight is
passed over. The scheduler's goroutine owns all of it.

* `SchedQueues` and its operations `enqueue`, `pop`, `park`, `finish`, `done`, `prune`, `unhold`,
  `refreshSigned`: as in the source.
* `queues`: the operations in any order, on the items that were popped.
* `prune_order`, `prune_next`: what the loop of `prune` makes of the ring and of the turn.
-/

namespace AptCacher.Freshness

open Spec Cache

/-- `schedClass`, best first. -/
inductive SchedClass
  | healthy
  | neverChecked
  | failing
  deriving DecidableEq

/-- The columns of a suite row that the scheduler reads. -/
structure DueSuite where
  key : SuiteKey
  checkFailCount : Int
  lastCheckAt : Option Int
  deriving DecidableEq

def classOf (s : DueSuite) : SchedClass :=
  if s.checkFailCount > 0 then .failing
  else if s.lastCheckAt = none then .neverChecked
  else .healthy

structure SchedItem where
  key : SuiteKey
  /-- Parked after a queued result. -/
  waiting : Bool
  signed : Bool
  /-- Not offered until the next wake or tick. -/
  held : Bool
  pendingChange : Bool
  /-- When the suite first became waiting: a counter, as `gen` a `uint64` that does not wrap here. -/
  waitSeq : Nat
  /-- The admission generation at its dispatch. -/
  gen : Nat
  deriving DecidableEq

structure HostQueue where
  classes : SchedClass → List SchedItem
  waiting : List SchedItem
  inFlight : Bool

/-- Everything in the queues of a host. -/
def HostQueue.items (h : HostQueue) : List SchedItem :=
  h.classes .healthy ++ h.classes .neverChecked ++ h.classes .failing ++ h.waiting

def HostQueue.empty (h : HostQueue) : Bool := h.items.isEmpty

structure SchedQueues where
  hosts : Str → Option HostQueue
  /-- The ring. -/
  order : List Str
  /-- The index of the host whose turn is next. -/
  next : Nat
  queued : SuiteKey → Bool
  pending : SuiteKey → Bool
  waitSeq : Nat

namespace SchedQueues

/-- `newSchedQueues`. -/
def new : SchedQueues := ⟨fun _ => none, [], 0, fun _ => false, fun _ => false, 0⟩

/-- The queue of a host changes. -/
def setHost (q : SchedQueues) (host : Str) (h : HostQueue) : SchedQueues :=
  { q with hosts := Function.update q.hosts host (some h) }

def enqueue (q : SchedQueues) (s : DueSuite) (pendingChange : Bool) : SchedQueues :=
  if q.queued s.key then
    if pendingChange then { q with pending := Function.update q.pending s.key true } else q
  else
    let h := (q.hosts s.key.host).getD ⟨fun _ => [], [], false⟩
    let item : SchedItem := ⟨s.key, false, false, false, pendingChange, 0, 0⟩
    let cls := classOf s
    { q.setHost s.key.host { h with classes := Function.update h.classes cls (h.classes cls ++ [item]) } with
      order := if q.hosts s.key.host = none then q.order ++ [s.key.host] else q.order
      queued := Function.update q.queued s.key true }

/-- A host is kept: it has work or a check in flight. -/
def keeps (q : SchedQueues) (host : Str) : Bool :=
  (q.hosts host).any fun h => h.inFlight || !h.empty

/-- The loop of `prune`: `i` counts the hosts, and `newNext` is -1 until it is known. -/
def pruneLoop (keep : Str → Bool) (nextIdx : Nat) : List Str → Nat → List Str → Int → List Str × Int
  | [], _, kept, newNext => (kept, newNext)
  | host :: rest, i, kept, newNext =>
    if keep host then
      pruneLoop keep nextIdx rest (i + 1) (kept ++ [host])
        (if newNext < 0 ∧ i ≥ nextIdx then kept.length else newNext)
    else pruneLoop keep nextIdx rest (i + 1) kept newNext

def prune (q : SchedQueues) : SchedQueues :=
  if q.order = [] then q
  else
    let r := pruneLoop q.keeps (q.next % q.order.length) q.order 0 [] (-1)
    { q with
      order := r.1
      next := (max r.2 0).toNat
      hosts := fun host => if q.order.contains host && !q.keeps host then none else q.hosts host }

def done (q : SchedQueues) (item : SchedItem) : SchedQueues :=
  prune { q with
    queued := Function.update q.queued item.key false
    pending := Function.update q.pending item.key false
    hosts := match q.hosts item.key.host with
      | some h => Function.update q.hosts item.key.host (some { h with inFlight := false })
      | none => q.hosts }

/-- The waiting list with the item at its place by `waitSeq`. -/
def insertWaiting (waiting : List SchedItem) (item : SchedItem) : List SchedItem :=
  waiting.takeWhile (fun w => w.waitSeq < item.waitSeq) ++
    item :: waiting.dropWhile fun w => w.waitSeq < item.waitSeq

/-- The item as it waits: a new waiter takes the next number. -/
def waiter (q : SchedQueues) (item : SchedItem) (signed : Bool) : SchedItem :=
  { item with
    waitSeq := if item.waiting then item.waitSeq else q.waitSeq + 1
    waiting := true
    signed := signed }

def park (q : SchedQueues) (item : SchedItem) (signed : Bool) : SchedQueues :=
  match q.hosts item.key.host with
  | none => q.done item
  | some h =>
    { q.setHost item.key.host
        { h with inFlight := false, waiting := insertWaiting h.waiting (q.waiter item signed) } with
      waitSeq := if item.waiting then q.waitSeq else q.waitSeq + 1 }

/-- Every waiter changes. -/
def mapWaiting (q : SchedQueues) (f : SchedItem → SchedItem) : SchedQueues :=
  { q with hosts := fun host => (q.hosts host).map fun h => { h with waiting := h.waiting.map f } }

def refreshSigned (q : SchedQueues) (signed : SuiteKey → Bool) : SchedQueues :=
  q.mapWaiting fun w => { w with signed := signed w.key }

def unhold (q : SchedQueues) : SchedQueues := q.mapWaiting fun w => { w with held := false }

end SchedQueues

/-- The result of a check, as far as the scheduler tells results apart. -/
inductive CheckResult
  | changedQueued
  | firstAdoptionQueued
  | busy
  | other
  deriving DecidableEq

def isQueuedResult : CheckResult → Bool
  | .changedQueued | .firstAdoptionQueued => true
  | _ => false

structure CheckReport where
  result : CheckResult
  signedCurrent : Bool
  deriving DecidableEq

namespace SchedQueues

/-- `finish`; `gen` is the admission generation now. -/
def finish (q : SchedQueues) (item : SchedItem) (report : CheckReport) (gen : Nat) : SchedQueues :=
  if isQueuedResult report.result then
    q.park { item with held := item.waiting && gen == item.gen } report.signedCurrent
  else if item.waiting ∧ report.result = .busy then
    q.park { item with held := true } item.signed
  else q.done item

/-- The waiter that a host offers: the oldest that is not held and that `admits` allows. -/
def offerable (admits : Bool → Bool) (w : SchedItem) : Bool := !w.held && admits w.signed

/-- The first item of the best class of a host. -/
def firstOfClass (h : HostQueue) : Option (SchedClass × SchedItem) :=
  [SchedClass.healthy, .neverChecked, .failing].findSome? fun c => (h.classes c).head?.map fun it => (c, it)

/-- The turn of the host at `idx`: its item, and the queues after it. -/
def popAt (q : SchedQueues) (admits : Str → Bool → Bool) (idx : Nat) : Option (SchedItem × SchedQueues) :=
  match q.order[idx]? with
  | none => none
  | some host =>
    match q.hosts host with
    | none => none
    | some h =>
      if h.inFlight then none
      else
        let next := (idx + 1) % q.order.length
        match h.waiting.find? (offerable (admits host)) with
        | some w =>
          some (w, { q.setHost host { h with
            waiting := h.waiting.eraseP (offerable (admits host)), inFlight := true } with next := next })
        | none =>
          match firstOfClass h with
          | some (c, item) =>
            some ({ item with pendingChange := item.pendingChange || q.pending item.key },
              { q.setHost host { h with
                  classes := Function.update h.classes c (h.classes c).tail, inFlight := true } with
                next := next
                pending := Function.update q.pending item.key false })
          | none => none

def pop (q : SchedQueues) (admits : Str → Bool → Bool) : Option (SchedItem × SchedQueues) :=
  (List.range q.order.length).findSome? fun i => q.popAt admits ((q.next + i) % q.order.length)

end SchedQueues

/-! ## Runs -/

/-- The queues, and the items that were popped and are not finished. -/
structure Queued where
  q : SchedQueues
  popped : List SchedItem

/-- What is done to the queues; a popped item is named by its index. -/
inductive QueueOp
  | enqueue (s : DueSuite) (pendingChange : Bool)
  /-- The item is stamped with `gen` when it is dispatched. -/
  | pop (admits : Str → Bool → Bool) (gen : Nat)
  | finish (i : Nat) (report : CheckReport) (gen : Nat)
  | park (i : Nat) (signed : Bool)
  | done (i : Nat)
  | unhold
  | refreshSigned (signed : SuiteKey → Bool)

/-- The item at `i` is finished by `f`. -/
def Queued.settle (s : Queued) (i : Nat) (f : SchedItem → SchedQueues) : Option Queued :=
  s.popped[i]?.map fun item => ⟨f item, s.popped.eraseIdx i⟩

/-- One operation. -/
def Queued.step (s : Queued) : QueueOp → Option Queued
  | .enqueue d pendingChange => some { s with q := s.q.enqueue d pendingChange }
  | .pop admits gen =>
    match s.q.pop admits with
    | some (item, q) => some ⟨q, s.popped ++ [{ item with gen := gen }]⟩
    | none => some s
  | .finish i report gen => s.settle i fun item => s.q.finish item report gen
  | .park i signed => s.settle i fun item => s.q.park item signed
  | .done i => s.settle i s.q.done
  | .unhold => some { s with q := s.q.unhold }
  | .refreshSigned signed => some { s with q := s.q.refreshSigned signed }

/-- New queues, and any operations on them. -/
def queues : Sys Queued QueueOp where
  init s := s = ⟨.new, []⟩
  step := Queued.step

/-! ## What the loop of `prune` computes -/

section Prune

open SchedQueues

variable {keep : Str → Bool} {nextIdx : Nat}

theorem pruneLoop_kept (rest : List Str) (i : Nat) (kept : List Str) (newNext : Int) :
    (pruneLoop keep nextIdx rest i kept newNext).1 = kept ++ rest.filter keep := by
  induction rest generalizing i kept newNext with
  | nil => simp [pruneLoop]
  | cons host rest ih =>
    unfold pruneLoop
    split
    · rename_i hk
      rw [ih, List.filter_cons_of_pos hk, List.append_assoc]
      rfl
    · rename_i hk
      rw [ih, List.filter_cons_of_neg hk]

theorem pruneLoop_known (rest : List Str) (i : Nat) (kept : List Str) {newNext : Int} (h : 0 ≤ newNext) :
    (pruneLoop keep nextIdx rest i kept newNext).2 = newNext := by
  induction rest generalizing i kept with
  | nil => rfl
  | cons host rest ih =>
    unfold pruneLoop
    have hnot : ¬ (newNext < 0 ∧ i ≥ nextIdx) := fun hn => by omega
    split
    · exact ih ..
    · exact ih ..

/-- The turn goes to the first host that is kept from `nextIdx` on, if there is one. -/
theorem pruneLoop_next (rest : List Str) (i : Nat) (kept : List Str) :
    (pruneLoop keep nextIdx rest i kept (-1)).2 =
      if (rest.drop (nextIdx - i)).filter keep = [] then (-1 : Int)
      else kept.length + ((rest.take (nextIdx - i)).filter keep).length := by
  induction rest generalizing i kept with
  | nil => simp [pruneLoop]
  | cons host rest ih =>
    unfold pruneLoop
    by_cases hi : i ≥ nextIdx
    · have h0 : nextIdx - i = 0 := by omega
      have h1 : nextIdx - (i + 1) = 0 := by omega
      split
      · rename_i hk
        rw [if_pos ⟨by decide, hi⟩, pruneLoop_known _ _ _ (Int.natCast_nonneg _), h0]
        simp [List.filter_cons_of_pos hk]
      · rename_i hk
        rw [ih, h0, h1]
        simp [List.filter_cons_of_neg hk]
    · have hs : nextIdx - i = nextIdx - (i + 1) + 1 := by omega
      rw [hs, List.drop_succ_cons, List.take_succ_cons]
      split
      · rename_i hk
        rw [if_neg fun hn => hi hn.2, ih, List.filter_cons_of_pos hk]
        simp only [List.length_append, List.length_cons, List.length_nil]
        split
        · rfl
        · push_cast
          omega
      · rename_i hk
        rw [ih, List.filter_cons_of_neg hk]

variable {q : SchedQueues}

theorem prune_order : q.prune.order = q.order.filter q.keeps := by
  unfold prune
  split
  · rename_i h
    rw [h]
    rfl
  · exact (pruneLoop_kept ..).trans (List.nil_append _)

theorem prune_next (h : q.order ≠ []) : q.prune.next =
    if (q.order.drop (q.next % q.order.length)).filter q.keeps = [] then 0
    else ((q.order.take (q.next % q.order.length)).filter q.keeps).length := by
  unfold prune
  rw [if_neg h]
  simp only [pruneLoop_next, Nat.sub_zero]
  split
  · rfl
  · simp

theorem prune_turn (h : q.next ≤ q.order.length - 1) : q.prune.next ≤ q.prune.order.length - 1 := by
  by_cases hnil : q.order = []
  · unfold prune
    rw [if_pos hnil]
    exact h
  rw [prune_next hnil]
  have hsplit : q.order.filter q.keeps = (q.order.take (q.next % q.order.length)).filter q.keeps ++
      (q.order.drop (q.next % q.order.length)).filter q.keeps := by
    rw [← List.filter_append, List.take_append_drop]
  split
  · exact Nat.zero_le _
  · rename_i hd
    have hpos := List.length_pos_iff.mpr hd
    rw [prune_order, hsplit, List.length_append]
    omega

theorem prune_hosts (host : Str) : q.prune.hosts host =
    if q.order.contains host && !q.keeps host then none else q.hosts host := by
  unfold prune
  split
  · rename_i h
    simp [h]
  · rfl

@[simp] theorem prune_queued : q.prune.queued = q.queued := by
  unfold prune
  split <;> rfl

@[simp] theorem prune_pending : q.prune.pending = q.pending := by
  unfold prune
  split <;> rfl

@[simp] theorem prune_waitSeq : q.prune.waitSeq = q.waitSeq := by
  unfold prune
  split <;> rfl

end Prune

end AptCacher.Freshness
