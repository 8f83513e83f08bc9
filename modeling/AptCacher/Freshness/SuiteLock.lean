import Mathlib.Logic.Function.Basic
import AptCacher.Spec.Count
import AptCacher.Spec.Sys

/-!
# The lock of a suite

The lock map holds at most one mutex for a suite. A caller loads or stores it, tries it without waiting,
and then reads the map again: the mutex counts only while the map still holds it. A holder whose suite
is gone drops the entry and then unlocks, while others may still have the old mutex in hand.

* `LockPc`: where a caller is; each of its steps is one atomic access to the map or to a mutex.
* `suiteLock`: any number of callers of `check`, `Reconcile` and `HoldSuite`, in any order.
* `Exclusive`: a locked mutex has one owner, and the map holds the mutex of a holder.
* `suite_lock_exclusive`: at most one holder, and the map holds its mutex.
-/

namespace AptCacher.Freshness

open Spec

/-- Where a caller is, with the mutex it has in hand. -/
inductive LockPc
  /-- `check`, before its peek at the map. -/
  | peek
  /-- The peek found a mutex. -/
  | peekTry (mu : Nat)
  /-- The peek has locked it. -/
  | peekUnlock (mu : Nat)
  /-- Before the read of the suite's row: it exists, or has a current snapshot. -/
  | readRow
  /-- At the start of `lockSuite`. -/
  | loadOrStore
  | tryLock (mu : Nat)
  | revalidate (mu : Nat)
  /-- `lockStale`, before the unlock. -/
  | unlockStale (mu : Nat)
  /-- `lockOK`. -/
  | held (mu : Nat)
  /-- In `unlockDropped`, after the drop. -/
  | unlockDropped (mu : Nat)
  | ended
  deriving DecidableEq

/-- The callers of `lockSuite`. -/
inductive LockCaller
  | check
  | reconcile
  | holdSuite
  deriving DecidableEq

/-- Where a caller begins. `HoldSuite` reads no row. -/
def LockCaller.start : LockCaller → LockPc
  | .check => .peek
  | .reconcile => .readRow
  | .holdSuite => .loadOrStore

/-- The entry of the suite in the lock map, and the mutexes. -/
structure Locks where
  entry : Option Nat
  locked : Nat → Bool
  /-- The next new mutex. -/
  fresh : Nat

namespace Locks

/-- `TryLock` of a free mutex. -/
def lock (m : Locks) (mu : Nat) : Locks := { m with locked := Function.update m.locked mu true }

def unlock (m : Locks) (mu : Nat) : Locks := { m with locked := Function.update m.locked mu false }

/-- `LoadOrStore` of a new mutex. -/
def loadOrStore (m : Locks) : Locks × Nat :=
  match m.entry with
  | some mu => (m, mu)
  | none => ({ m with entry := some m.fresh, fresh := m.fresh + 1 }, m.fresh)

def compareAndDelete (m : Locks) (mu : Nat) : Locks :=
  if m.entry = some mu then { m with entry := none } else m

/-- The next atomic step of a caller. `choice` is what it reads of the row, or how it ends its hold:
`true` drops. -/
def next (m : Locks) (choice : Bool) : LockPc → Option (Locks × LockPc)
  | .peek =>
    match m.entry with
    | some mu => some (m, .peekTry mu)
    | none => some (m, .readRow)
  | .peekTry mu => if m.locked mu then some (m, .ended) else some (m.lock mu, .peekUnlock mu)
  | .peekUnlock mu => some (m.unlock mu, .readRow)
  | .readRow => some (m, if choice then .loadOrStore else .ended)
  | .loadOrStore => some (m.loadOrStore.1, .tryLock m.loadOrStore.2)
  | .tryLock mu => if m.locked mu then some (m, .ended) else some (m.lock mu, .revalidate mu)
  | .revalidate mu => some (m, if m.entry = some mu then .held mu else .unlockStale mu)
  | .unlockStale mu => some (m.unlock mu, .ended)
  | .held mu =>
    if choice then some (m.compareAndDelete mu, .unlockDropped mu) else some (m.unlock mu, .ended)
  | .unlockDropped mu => some (m.unlock mu, .ended)
  | .ended => none

end Locks

/-- The lock map and its callers. -/
structure SuiteLock where
  m : Locks
  callers : List LockPc

/-- A caller comes, or takes its next step. -/
inductive LockOp
  | call (c : LockCaller)
  | next (i : Nat) (choice : Bool)
  deriving DecidableEq

/-- One step. -/
def SuiteLock.step (s : SuiteLock) : LockOp → Option SuiteLock
  | .call c => some { s with callers := s.callers ++ [c.start] }
  | .next i choice =>
    (s.callers[i]?.bind (s.m.next choice)).map fun r => ⟨r.1, s.callers.set i r.2⟩

/-- An empty lock map, and any callers. -/
def suiteLock : Sys SuiteLock LockOp where
  init s := s = ⟨⟨none, fun _ => false, 0⟩, []⟩
  step := SuiteLock.step

/-! ## Who owns a mutex -/

/-- The caller has the mutex locked. -/
def LockPc.owns (mu : Nat) : LockPc → Bool
  | .peekUnlock mu' | .revalidate mu' | .unlockStale mu' | .held mu' | .unlockDropped mu' => mu' == mu
  | _ => false

/-- The caller holds the suite. -/
def LockPc.holds : LockPc → Bool
  | .held _ => true
  | _ => false

/-- The invariant (module doc). -/
structure Exclusive (s : SuiteLock) : Prop where
  /-- A locked mutex has one owner, and a free one none. -/
  owner : ∀ mu, s.callers.countP (LockPc.owns mu) = if s.m.locked mu then 1 else 0
  entry : ∀ mu, .held mu ∈ s.callers → s.m.entry = some mu

namespace Exclusive

variable {s : SuiteLock} {i : Nat} {pc pc' : LockPc} {m : Locks}

/-- A caller goes on: its mutex changes hands with it, and the entry fits the holders. -/
theorem move (h : Exclusive s) (hi : s.callers[i]? = some pc)
    (hown : ∀ mu, (if m.locked mu then 1 else 0) + (if pc.owns mu then 1 else 0) =
      (if s.m.locked mu then 1 else 0) + if pc'.owns mu then 1 else 0)
    (hent : ∀ mu, .held mu ∈ s.callers.set i pc' → m.entry = some mu) :
    Exclusive ⟨m, s.callers.set i pc'⟩ := by
  refine ⟨fun mu => ?_, hent⟩
  show (s.callers.set i pc').countP (LockPc.owns mu) = if m.locked mu then 1 else 0
  have hset := countP_set_add (f := LockPc.owns mu) (n := pc') hi
  have hcount := h.owner mu
  have hmove := hown mu
  omega

theorem move_same (h : Exclusive s) (hi : s.callers[i]? = some pc) (he : m.entry = s.m.entry)
    (hne : pc'.holds = false)
    (hown : ∀ mu, (if m.locked mu then 1 else 0) + (if pc.owns mu then 1 else 0) =
      (if s.m.locked mu then 1 else 0) + if pc'.owns mu then 1 else 0) :
    Exclusive ⟨m, s.callers.set i pc'⟩ := by
  refine h.move hi hown fun mu hmem => ?_
  rcases List.mem_or_eq_of_mem_set hmem with hmem | rfl
  · exact he.trans (h.entry mu hmem)
  · cases hne

/-- A mutex is locked. -/
theorem lock (h : Exclusive s) (hi : s.callers[i]? = some pc) {mu : Nat} (hfree : s.m.locked mu = false)
    (hpc : ∀ x, pc.owns x = false) (hpc' : ∀ x, pc'.owns x = (mu == x)) (hne : pc'.holds = false) :
    Exclusive ⟨s.m.lock mu, s.callers.set i pc'⟩ := by
  refine h.move_same hi rfl hne fun x => ?_
  rw [hpc x, hpc' x]
  by_cases hx : x = mu
  · simp [Locks.lock, hx, hfree]
  · simp [Locks.lock, hx, Ne.symm hx]

/-- The owner of a mutex unlocks it. -/
theorem unlock (h : Exclusive s) (hi : s.callers[i]? = some pc) {mu : Nat} (hpc : ∀ x, pc.owns x = (mu == x))
    (hpc' : ∀ x, pc'.owns x = false) (hne : pc'.holds = false) :
    Exclusive ⟨s.m.unlock mu, s.callers.set i pc'⟩ := by
  have hlocked : s.m.locked mu = true := by
    have hpos : 0 < s.callers.countP (LockPc.owns mu) :=
      List.countP_pos_iff.mpr ⟨pc, List.mem_of_getElem? hi, by rw [hpc, beq_self_eq_true]⟩
    rw [h.owner mu] at hpos
    cases hl : s.m.locked mu with
    | true => rfl
    | false =>
      rw [hl] at hpos
      exact absurd hpos (Nat.lt_irrefl 0)
  refine h.move_same hi rfl hne fun x => ?_
  rw [hpc x, hpc' x]
  by_cases hx : x = mu
  · simp [Locks.unlock, hx, hlocked]
  · simp [Locks.unlock, hx, Ne.symm hx]

/-- A step that locks and unlocks nothing. -/
theorem read (h : Exclusive s) (hi : s.callers[i]? = some pc) (hpc : ∀ x, pc'.owns x = pc.owns x)
    (hne : pc'.holds = false) : Exclusive ⟨s.m, s.callers.set i pc'⟩ := by
  refine h.move_same hi rfl hne fun x => ?_
  rw [hpc x]

/-- Storing a new mutex: nobody holds the suite while the map has no entry. -/
theorem loadOrStore (h : Exclusive s) (hi : s.callers[i]? = some .loadOrStore) :
    Exclusive ⟨s.m.loadOrStore.1, s.callers.set i (.tryLock s.m.loadOrStore.2)⟩ := by
  unfold Locks.loadOrStore
  split
  · exact h.read hi (fun _ => rfl) rfl
  · rename_i hnone
    refine h.move hi (fun _ => rfl) fun mu hmem => ?_
    rcases List.mem_or_eq_of_mem_set hmem with hmem | heq
    · have hentry := h.entry mu hmem
      rw [hnone] at hentry
      cases hentry
    · cases heq

theorem revalidate (h : Exclusive s) {mu : Nat} (hi : s.callers[i]? = some (.revalidate mu)) :
    Exclusive ⟨s.m, s.callers.set i (if s.m.entry = some mu then .held mu else .unlockStale mu)⟩ := by
  split
  · rename_i hentry
    refine h.move hi (fun _ => rfl) fun mu' hmem => ?_
    rcases List.mem_or_eq_of_mem_set hmem with hmem | heq
    · exact h.entry mu' hmem
    · cases heq
      exact hentry
  · exact h.read hi (fun _ => rfl) rfl

/-- The holder drops the entry: there is no other holder, since the map holds the mutex of each. -/
theorem drop (h : Exclusive s) {mu : Nat} (hi : s.callers[i]? = some (.held mu)) :
    Exclusive ⟨s.m.compareAndDelete mu, s.callers.set i (.unlockDropped mu)⟩ := by
  have hentry := h.entry mu (List.mem_of_getElem? hi)
  have hheld : s.callers.countP (· == .held mu) ≤ s.callers.countP (LockPc.owns mu) :=
    List.countP_mono_left fun pc _ hpc => by
      rw [eq_of_beq hpc]
      exact beq_self_eq_true mu
  have howner := h.owner mu
  have hset : (s.callers.set i (.unlockDropped mu)).countP (· == .held mu) + 1 =
      s.callers.countP (· == .held mu) := by
    simpa using countP_set_add (f := (· == LockPc.held mu)) (n := .unlockDropped mu) hi
  have hle : (if s.m.locked mu = true then 1 else 0) ≤ 1 := by split <;> decide
  unfold Locks.compareAndDelete
  rw [if_pos hentry]
  refine h.move hi (fun _ => rfl) fun mu' hmem => ?_
  have hold : .held mu' ∈ s.callers := by
    rcases List.mem_or_eq_of_mem_set hmem with hmem | heq
    · exact hmem
    · cases heq
  obtain rfl : mu' = mu := by
    have := h.entry mu' hold
    rw [hentry] at this
    exact (Option.some.inj this).symm
  have hpos : 0 < (s.callers.set i (.unlockDropped mu')).countP (· == .held mu') :=
    List.countP_pos_iff.mpr ⟨_, hmem, beq_self_eq_true _⟩
  omega

/-- Every atomic step of a caller. -/
theorem next (h : Exclusive s) (hi : s.callers[i]? = some pc) {choice : Bool} {r : Locks × LockPc}
    (hr : s.m.next choice pc = some r) : Exclusive ⟨r.1, s.callers.set i r.2⟩ := by
  cases pc with
  | peek =>
    simp only [Locks.next] at hr
    split at hr
    · cases hr
      exact h.read hi (fun _ => rfl) rfl
    · cases hr
      exact h.read hi (fun _ => rfl) rfl
  | peekTry mu =>
    simp only [Locks.next] at hr
    split at hr
    · cases hr
      exact h.read hi (fun _ => rfl) rfl
    · rename_i hfree
      cases hr
      exact h.lock hi (Bool.eq_false_of_not_eq_true hfree) (fun _ => rfl) (fun _ => rfl) rfl
  | peekUnlock mu =>
    cases hr
    exact h.unlock hi (fun _ => rfl) (fun _ => rfl) rfl
  | readRow =>
    cases hr
    cases choice with
    | true => exact h.read hi (fun _ => rfl) rfl
    | false => exact h.read hi (fun _ => rfl) rfl
  | loadOrStore =>
    cases hr
    exact h.loadOrStore hi
  | tryLock mu =>
    simp only [Locks.next] at hr
    split at hr
    · cases hr
      exact h.read hi (fun _ => rfl) rfl
    · rename_i hfree
      cases hr
      exact h.lock hi (Bool.eq_false_of_not_eq_true hfree) (fun _ => rfl) (fun _ => rfl) rfl
  | revalidate mu =>
    cases hr
    exact h.revalidate hi
  | unlockStale mu =>
    cases hr
    exact h.unlock hi (fun _ => rfl) (fun _ => rfl) rfl
  | held mu =>
    simp only [Locks.next] at hr
    split at hr
    · cases hr
      exact h.drop hi
    · cases hr
      exact h.unlock hi (fun _ => rfl) (fun _ => rfl) rfl
  | unlockDropped mu =>
    cases hr
    exact h.unlock hi (fun _ => rfl) (fun _ => rfl) rfl
  | ended => cases hr

/-- A caller comes with nothing in hand. -/
theorem call (h : Exclusive s) (c : LockCaller) : Exclusive { s with callers := s.callers ++ [c.start] } := by
  refine ⟨fun mu => ?_, fun mu hmem => ?_⟩
  · show (s.callers ++ [c.start]).countP (LockPc.owns mu) = _
    rw [List.countP_append, ← h.owner mu]
    cases c <;> rfl
  · rcases List.mem_append.mp hmem with hmem | hmem
    · exact h.entry mu hmem
    · cases c <;> cases List.mem_singleton.mp hmem

/-- Every holder has the mutex of the entry, and that has one owner. -/
theorem holds_le_one (h : Exclusive s) : s.callers.countP LockPc.holds ≤ 1 := by
  cases hentry : s.m.entry with
  | none =>
    have hzero : s.callers.countP LockPc.holds = 0 := List.countP_eq_zero.mpr fun pc hpc hholds => by
      cases pc with
      | held mu =>
        rw [h.entry mu hpc] at hentry
        cases hentry
      | _ => cases hholds
    omega
  | some mu =>
    have hle : s.callers.countP LockPc.holds ≤ s.callers.countP (LockPc.owns mu) :=
      List.countP_mono_left fun pc hpc hholds => by
        cases pc with
        | held mu' =>
          rw [h.entry mu' hpc] at hentry
          cases hentry
          exact beq_self_eq_true mu
        | _ => cases hholds
    rw [h.owner mu] at hle
    split at hle <;> omega

end Exclusive

theorem exclusive_inductive : suiteLock.Inductive Exclusive where
  init s hs := by
    subst hs
    exact ⟨fun _ => rfl, fun _ hmem => by cases hmem⟩
  step s op s' h hs := by
    cases op with
    | call c =>
      cases hs
      exact h.call c
    | next i choice =>
      obtain ⟨r, hr, rfl⟩ := Option.map_eq_some_iff.mp hs
      obtain ⟨pc, hi, hr⟩ := Option.bind_eq_some_iff.mp hr
      exact h.next hi hr

/-- In every interleaving at most one caller holds the suite, and while it does the lock map holds its
mutex. -/
theorem suite_lock_exclusive {s : SuiteLock} (hs : suiteLock.Reach s) :
    s.callers.countP LockPc.holds ≤ 1 ∧ ∀ mu, .held mu ∈ s.callers → s.m.entry = some mu :=
  ⟨(exclusive_inductive.reach hs).holds_le_one, (exclusive_inductive.reach hs).entry⟩

/-- A check loads the mutex of a holder that deletes the suite. Once the holder has unlocked, the check
locks the old mutex, while a third caller has stored a new one and holds the suite again. -/
def recreated : List LockOp :=
  [.call .holdSuite, .next 0 false, .next 0 false, .next 0 false, .call .check, .call .holdSuite,
    .call .reconcile, .next 3 true, .next 3 false, .next 0 true, .next 1 false, .next 1 true, .next 2 false,
    .next 2 false, .next 2 false, .next 0 false, .next 3 false, .next 3 false]

/-- The lock map and the callers after `recreated`. -/
def recreatedEnd : SuiteLock :=
  (suiteLock.exec ⟨⟨none, fun _ => false, 0⟩, []⟩ recreated).getD ⟨⟨none, fun _ => false, 0⟩, []⟩

/-- The new holder is alone: the caller with the old mutex is stale. -/
theorem suite_lock_exclusive_recreated :
    suiteLock.Reach recreatedEnd ∧
    recreatedEnd.callers = [.ended, .loadOrStore, .held 1, .unlockStale 0] ∧
    recreatedEnd.callers.countP LockPc.holds ≤ 1 ∧
    ∀ mu, .held mu ∈ recreatedEnd.callers → recreatedEnd.m.entry = some mu := by
  have hreach : suiteLock.Reach recreatedEnd := .exec rfl (eq_some_getD _ (by decide +kernel))
  exact ⟨hreach, by decide +kernel, suite_lock_exclusive hreach⟩

end AptCacher.Freshness
