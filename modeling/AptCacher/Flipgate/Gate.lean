import Mathlib.Tactic.Simps.Basic
import AptCacher.Spec.Sys

/-!
# The flip barrier: data and critical sections

`internal/flipgate`: an adoption's commit waits until every client that received the suite's old
anchor has had the quiet period to fetch the matching indexes. This file has the gate's data and
its mutex-protected helpers; `AptCacher.Flipgate.Step` has the goroutines that call them.

* Pointers are numbers: an entry, a hold, an anchor serve and a flip are named by the order of
  their creation. A `Token` and a `hold` refer to their entry instance, not to its key, so an entry
  that was purged and created anew is another entry.
* Times are nanoseconds since some start; the zero `time.Time` is `none`.
* Fields marked as history are not in the source; no step reads them.
* The counters of `Stats` and the Prometheus metrics are left out: nothing reads them.
-/

namespace AptCacher.Flipgate

open Function (update)

/-! ## Constants -/

abbrev Time := Nat

def second : Time := 1000000000

def minQuiet : Time := second
def maxQuiet : Time := 15 * second
def phaseAMax : Time := 60 * second
def tokenWaitMax : Time := 60 * second
def holdMax : Time := 20 * second
def commitMargin : Time := 5 * second
def anchorTimeout : Time := 30 * second
def maxWaiters : Nat := 256

/-- The gate's bounds: fields of the source's `Gate`, copied from the constants by `New`. -/
structure Bounds where
  quiet : Time
  phaseAMax : Time
  tokenWait : Time
  holdMax : Time
  deriving DecidableEq

/-- `New`: a quiet period that is neither zero nor in range is `ErrQuietOutOfRange`. -/
def new (quiet : Time) : Option Bounds :=
  if quiet ≠ 0 ∧ (quiet < minQuiet ∨ quiet > maxQuiet) then none
  else some ⟨quiet, phaseAMax, tokenWaitMax, holdMax⟩

/-- `Enabled`: a zero quiet period disables the barrier. -/
def Bounds.Enabled (b : Bounds) : Prop := 0 < b.quiet

instance (b : Bounds) : Decidable b.Enabled := inferInstanceAs (Decidable (0 < b.quiet))

/-! ## Data -/

abbrev EntryId := Nat
abbrev HoldId := Nat
abbrev ServeId := Nat
abbrev FlipId := Nat

/-- What the gate knows of one suite. -/
structure Entry (κ : Type) where
  /-- The key the entry was created for (history). -/
  key : Option κ
  /-- The registered serves that are not done. -/
  inflight : List ServeId
  /-- Completion of the newest counted anchor serve. -/
  lastDone : Option Time
  /-- This suite's hold, while phase B runs. -/
  hold : Option HoldId
  /-- `Flip` calls in progress. -/
  flips : Nat
  lastUse : Time
  deriving DecidableEq

/-- Phase B of one flip. -/
structure Hold where
  e : EntryId
  start : Time
  /-- `ended` and `end`: when the hold ended. -/
  ended : Option Time
  expired : Bool
  /-- Requests waiting now. -/
  waiting : Nat
  /-- Requests that waited in this hold. -/
  heldTotal : Nat
  deriving DecidableEq

/-- A registered anchor serve. -/
structure Token where
  e : EntryId
  start : Time
  /-- The wait in a hold before the registration. -/
  held : Time
  /-- `done`, with the time `Done` read. -/
  done : Option Time
  /-- A hold of the entry was in progress when `Done` ran (history). -/
  doneInHold : Bool
  deriving DecidableEq

/-- Where a call of `AnchorStart` is. -/
inductive Serve where
  /-- Not called. -/
  | idle
  /-- `join` returned the entry and its hold; the timer is not started. -/
  | joined (e : EntryId) (h : HoldId)
  /-- In the `select`, with the timer started at `at₀`. -/
  | waiting (e : EntryId) (h : HoldId) (at₀ : Time)
  /-- Out of the `select`, before the mutex; `left`: the request's context ended. -/
  | woken (e : EntryId) (h : HoldId) (at₀ : Time) (left : Bool)
  /-- Returned a registered token. -/
  | registered (t : Token)
  /-- Returned a token whose `Done` does nothing. -/
  | unregistered (held : Time)
  /-- Returned nil: the gate is disabled. -/
  | disabled
  deriving DecidableEq

/-- How a `Flip` ended. -/
inductive Outcome where
  | disabled | held | holdExpired | holdSkipped | aborted | quietCutShort
  deriving DecidableEq

/-- Why a flip was abandoned: `ErrClosed`, or the context's error. -/
inductive Cause where
  | closed | ctx
  deriving DecidableEq

/-- How a commit function comes back. -/
inductive Commit where
  | ok | err | panics
  deriving DecidableEq

/-- What `Flip` returns beside the result: `ErrAborted` wrapping a cause, or the commit's own
return (or panic). -/
inductive FlipErr where
  | aborted (c : Cause)
  | commit (r : Commit)
  deriving DecidableEq

/-- `Result`, without the two durations that are only logged. -/
structure Result where
  outcome : Option Outcome
  holdStart : Option Time
  holdEnd : Option Time
  waiters : Nat
  committed : Bool
  deriving DecidableEq

/-- The zero `Result`. -/
def Result.zero : Result := ⟨none, none, none, 0, false⟩

/-- Where a call of `Flip` is: between two critical sections. -/
inductive FlipPc where
  /-- Not called. -/
  | idle
  /-- The disabled gate's commit runs. -/
  | direct
  /-- `start` was read; the entry is not taken yet. -/
  | begun (start : Time)
  /-- At the top of phase A's loop. -/
  | phaseA (limit : Time)
  /-- In phase A's `waitFor`, with the broadcasts seen so far and the timer. -/
  | phaseAWait (limit : Time) (seen : Nat) (till : Time)
  /-- Before `acquire`. -/
  | asking
  /-- In `acquire`'s `select`. -/
  | queued (till : Time)
  /-- Out of the `select` without the grant: the wait ran out (`none`), or a cause to stop. -/
  | gaveUp (c : Option Cause)
  /-- No token: before the stop check of an unheld commit. -/
  | unheld
  /-- At the top of `runHold`'s loop. -/
  | holding (h : HoldId)
  /-- In `runHold`'s `waitFor`. -/
  | holdWait (h : HoldId) (seen : Nat) (till : Time)
  /-- The loop saw the bound: before `expireHold`. -/
  | expiring (h : HoldId)
  /-- After `expireHold`, before the stop check. -/
  | expired (h : HoldId)
  /-- The loop decided to commit inside the hold; before the stop check. -/
  | decided (h : HoldId) (cutShort : Bool)
  /-- The commit runs, inside hold `h` or unheld. -/
  | committing (h : Option HoldId)
  /-- Before `runHold`'s deferred end. -/
  | ending (h : HoldId)
  /-- Before `Flip`'s deferred end. -/
  | leaving
  | returned
  deriving DecidableEq

/-- The expiry timer of a commit inside its hold. -/
inductive Timer where
  | off
  | armed (expiry : Time)
  /-- It fired: its function has yet to take the mutex. -/
  | fired (h : HoldId)
  deriving DecidableEq

/-- One call of `Flip`. -/
structure FlipCall (κ : Type) where
  pc : FlipPc
  key : Option κ
  /-- The call's entry, once it took one. -/
  e : EntryId
  ctxDone : Bool
  /-- `tokenWaiter.hold`: set before the grant. -/
  granted : Option HoldId
  timer : Timer
  res : Result
  err : Option FlipErr
  /-- How often the commit was called (history). -/
  commits : Nat
  deriving DecidableEq

/-- The gate, its mutex free, and the calls on it. -/
structure Gate (κ : Type) where
  now : Time
  entries : κ → Option EntryId
  ent : EntryId → Entry κ
  nEnt : Nat
  holds : HoldId → Hold
  nHold : Nat
  /-- The hold in progress. -/
  holder : Option HoldId
  /-- The flips waiting for the token, first first. -/
  queue : List FlipId
  /-- When the most recent hold that held requests ended. -/
  lastEnd : Option Time
  /-- Whose hold that was. -/
  lastEndBy : Option EntryId
  /-- The most recent such end by an entry other than `lastEndBy`. -/
  prevEnd : Option Time
  lastSweep : Option Time
  closed : Bool
  /-- The broadcasts so far: `changed` is closed for a flip that saw fewer. -/
  changed : Nat
  serves : ServeId → Serve
  nServe : Nat
  flips : FlipId → FlipCall κ
  nFlip : Nat

/-! ## Field updates -/

section Updates

variable {κ : Type} (g : Gate κ)

/-- The gate with `f` applied to entry `e`. -/
@[simps]
def Gate.onEnt (e : EntryId) (f : Entry κ → Entry κ) : Gate κ :=
  { g with ent := update g.ent e (f (g.ent e)) }

/-- The gate with `f` applied to hold `h`. -/
@[simps]
def Gate.onHold (h : HoldId) (f : Hold → Hold) : Gate κ :=
  { g with holds := update g.holds h (f (g.holds h)) }

/-- The gate with serve `i` at `s`. -/
@[simps]
def Gate.setServe (i : ServeId) (s : Serve) : Gate κ :=
  { g with serves := update g.serves i s }

/-- The gate with `f` applied to flip `j`. -/
@[simps]
def Gate.onFlip (j : FlipId) (f : FlipCall κ → FlipCall κ) : Gate κ :=
  { g with flips := update g.flips j (f (g.flips j)) }

/-- The gate with flip `j` at `pc`. -/
def Gate.goto (j : FlipId) (pc : FlipPc) : Gate κ := g.onFlip j fun c => { c with pc }

end Updates

/-! ## Critical sections -/

section Locked

variable {κ : Type} (b : Bounds) (g : Gate κ)

/-- `liveLocked`: a flip of the entry is in progress or holds, a serve of it is in flight, or it
was used within the quiet period. -/
def Entry.live (e : Entry κ) (now quiet : Time) : Prop :=
  0 < e.flips ∨ e.hold ≠ none ∨ e.inflight ≠ [] ∨ now - e.lastUse < quiet

instance (e : Entry κ) (now quiet : Time) : Decidable (e.live now quiet) :=
  inferInstanceAs (Decidable (_ ∨ _))

/-- `sweepLocked`: at most once per quiet period, drops the entries idle for twice that. -/
def sweepLocked (now : Time) : Gate κ :=
  if ∃ t ∈ g.lastSweep, now - t < b.quiet then g
  else
    { g with
      lastSweep := some now
      entries := fun k => (g.entries k).filter fun e =>
        decide ((g.ent e).live now b.quiet ∨ now - (g.ent e).lastUse < 2 * b.quiet) }

variable [DecidableEq κ]

/-- The map's entry of `k`, created if there is none. -/
def mapped (k : κ) : Gate κ × EntryId :=
  match g.entries k with
  | some e => (g, e)
  | none =>
    ({ g with
        entries := update g.entries k (some g.nEnt)
        ent := update g.ent g.nEnt ⟨some k, [], none, none, 0, 0⟩
        nEnt := g.nEnt + 1 }, g.nEnt)

/-- `entryLocked`: the entry of `k`, used at `now`. -/
def entryLocked (k : κ) (now : Time) : Gate κ × EntryId :=
  let (g, e) := mapped (sweepLocked b g now) k
  (g.onEnt e fun x => { x with lastUse := now }, e)

omit [DecidableEq κ]

/-- `registerLocked`: serve `i` is in flight on entry `e` from now on. -/
def registerLocked (i : ServeId) (e : EntryId) (held : Time) : Gate κ :=
  (g.onEnt e fun x => { x with inflight := x.inflight.insert i, lastUse := g.now }).setServe i
    (.registered ⟨e, g.now, held, none, false⟩)

/-- `startHoldLocked`: a hold of entry `e` starts now; it is hold `g.nHold`. -/
@[simps]
def startHoldLocked (e : EntryId) : Gate κ :=
  { g.onEnt e fun x => { x with hold := some g.nHold } with
    holds := update g.holds g.nHold ⟨e, g.now, none, false, 0, 0⟩
    nHold := g.nHold + 1
    holder := some g.nHold }

/-- `broadcastLocked`: wakes every waiting flip. -/
@[simps]
def broadcastLocked : Gate κ := { g with changed := g.changed + 1 }

/-- The end of `endHoldLocked`: the token passes to the first waiting flip, whose hold starts
now, unless the gate is closed. -/
def passToken : Gate κ :=
  match g.queue with
  | j :: rest =>
    if g.closed then { g with holder := none }
    else
      (startHoldLocked { g with queue := rest } (g.flips j).e).onFlip j fun c =>
        { c with granted := some g.nHold }
  | [] => { g with holder := none }

/-- The first part of `endHoldLocked`: the hold and its entry are told, and a hold that held
requests is recorded as the last one. -/
def closeHold (h : HoldId) (expired : Bool) : Gate κ :=
  let e := (g.holds h).e
  let g := g.onHold h fun x => { x with ended := some g.now, expired }
  let g := g.onEnt e fun x =>
    { x with hold := if x.hold = some h then none else x.hold, lastUse := g.now }
  if 0 < (g.holds h).heldTotal then
    { g with
      prevEnd := if g.lastEndBy = some e then g.prevEnd else g.lastEnd
      lastEnd := some g.now
      lastEndBy := some e }
  else g

/-- `endHoldLocked`: ends hold `h`, once. -/
def endHoldLocked (h : HoldId) (expired : Bool) : Gate κ :=
  if (g.holds h).ended.isSome then g
  else
    let g := closeHold g h expired
    broadcastLocked (if g.holder = some h then passToken g else g)

/-- When serve `i`'s token was registered. -/
def startOf (i : ServeId) : Time :=
  match g.serves i with
  | .registered t => t.start
  | _ => 0

/-- The newest start of a serve in flight on `e` for less than `AnchorTimeout`. -/
def youngest (e : EntryId) : Option Time :=
  (((g.ent e).inflight.map (startOf g)).filter fun t => g.now - t < anchorTimeout).max?

/-- Whether the time `last` is a quiet period ago (or zero); if not, when it will be. -/
def quietSince (last : Option Time) : Bool × Option Time :=
  match last with
  | some t => if g.now - t < b.quiet then (false, some (t + b.quiet)) else (true, none)
  | none => (true, none)

/-- `localQuietLocked`: no anchor of `e` in flight (ignoring any in flight for `AnchorTimeout` or
longer) and none completed within the quiet period; if not, when to look again. -/
def localQuietLocked (e : EntryId) : Bool × Option Time :=
  match youngest g e with
  | some t => (false, some (t + anchorTimeout))
  | none => quietSince b g (g.ent e).lastDone

/-- `holdsQuietLocked`: no hold in progress and none that held requests ended within the quiet
period. -/
def holdsQuietLocked : Bool × Option Time :=
  if g.holder.isSome then (false, none) else quietSince b g g.lastEnd

/-- `otherHoldsQuietLocked`: no other suite's hold that held requests ended within the quiet
period. -/
def otherHoldsQuietLocked (e : EntryId) : Bool × Option Time :=
  quietSince b g (if g.lastEndBy = some e then g.prevEnd else g.lastEnd)

/-- `earliest`: the earlier of two times, ignoring a zero one. -/
def earliest (a c : Option Time) : Option Time :=
  match a, c with
  | none, c => c
  | a, none => a
  | some a, some c => some (min a c)

/-- The timer of `waitFor`: the earlier of the time to look again and the limit. -/
def waitTill (a c : Option Time) (limit : Time) : Time :=
  ((earliest (earliest a c) (some limit))).getD limit

/-- `stopErr`: why a flip must not start its commit. -/
def stopErr (c : FlipCall κ) : Option Cause :=
  if g.closed then some .closed else if c.ctxDone then some .ctx else none

end Locked

end AptCacher.Flipgate
