import AptCacher.Flipgate.Gate

/-!
# The flip barrier: its goroutines

The step function of the gate. A step is one critical section of the source (the code between a
`Lock` and its `Unlock`, which reads the clock once), one way out of a `select`, or the passing of
time; between two steps of a call every other call may move.

* `AnchorStart` is `join`, the start of its timer, the `select` and the second critical section
  (`Act.anchorStart`, `startTimer`, `wake`, `relock`); `Token.Done` is `Act.done`.
* `Flip` is one call of `Act.flip` and then `Act.flipStep`, by the place it is at (`FlipPc`); the
  timer that ends a hold during its commit has its own two steps.
* A wait wakes at a broadcast it has not seen, when its timer has run out, or at its context's
  end. A timer fires at its time or any time later.
-/

namespace AptCacher.Flipgate

open Function (update)

variable {κ : Type} [DecidableEq κ] (b : Bounds) (g : Gate κ)

/-! ## `AnchorStart` and `Done` -/

/-- `join` of serve `i` with its entry `e` in hand: it joins the hold in progress while fewer
than `MaxWaiters` requests wait in it, else it registers. -/
def joinEntry (i : ServeId) (e : EntryId) : Gate κ :=
  match (g.ent e).hold with
  | some h =>
    if (g.holds h).waiting < maxWaiters then
      (g.onHold h fun x => { x with waiting := x.waiting + 1, heldTotal := x.heldTotal + 1 }).setServe
        i (.joined e h)
    else registerLocked g i e 0
  | none => registerLocked g i e 0

/-- `join`: a new serve of `k`. -/
def join (k : κ) : Gate κ :=
  let r := entryLocked b { g with nServe := g.nServe + 1 } k g.now
  joinEntry r.1 g.nServe r.2

/-- `AnchorStart` up to its first wait. A disabled gate returns nil. -/
def anchorStart (k : κ) : Gate κ :=
  if b.Enabled then join b g k
  else { g with nServe := g.nServe + 1 }.setServe g.nServe .disabled

/-- Which channel of `AnchorStart`'s `select` was ready. -/
inductive Wake where
  | released | timer | left
  deriving DecidableEq

/-- The `select` of `AnchorStart`. -/
def wake (i : ServeId) (w : Wake) : Option (Gate κ) :=
  match g.serves i with
  | .waiting e h at₀ =>
    match w with
    | .released =>
      if (g.holds h).ended.isSome then some (g.setServe i (.woken e h at₀ false)) else none
    | .timer => if at₀ + b.holdMax ≤ g.now then some (g.setServe i (.woken e h at₀ false)) else none
    | .left => some (g.setServe i (.woken e h at₀ true))
  | _ => none

/-- The second critical section of `AnchorStart`. -/
def relock (i : ServeId) : Option (Gate κ) :=
  match g.serves i with
  | .woken e h at₀ left =>
    let g := g.onHold h fun x => { x with waiting := x.waiting - 1 }
    if left then some (g.setServe i (.unregistered (g.now - at₀)))
    else some (registerLocked g i e (g.now - at₀))
  | _ => none

/-- The entry after the completion of serve `i`, which started at `start`: a serve that ran for
`AnchorTimeout` or longer records its completion only while no hold is in progress. -/
def Entry.complete (x : Entry κ) (i : ServeId) (start now : Time) : Entry κ :=
  { x with
    inflight := x.inflight.filter (· ≠ i)
    lastUse := now
    lastDone :=
      if (now - start < anchorTimeout ∨ x.hold = none) ∧ ∀ t ∈ x.lastDone, t < now then some now
      else x.lastDone }

/-- `Token.Done` of serve `i`'s token. -/
def done (i : ServeId) : Option (Gate κ) :=
  match g.serves i with
  | .registered t =>
    if t.done.isSome then some g
    else
      some (broadcastLocked ((g.onEnt t.e fun x => x.complete i t.start g.now).setServe i
        (.registered { t with done := some g.now, doneInHold := (g.ent t.e).hold.isSome })))
  | .unregistered _ | .disabled => some g
  | _ => none

/-! ## `Flip` -/

/-- `abort`, and on to the next deferred step. -/
def abort (j : FlipId) (c : Cause) (pc : FlipPc) : Gate κ :=
  g.onFlip j fun x =>
    { x with pc, res := { x.res with outcome := some .aborted, committed := false },
             err := some (.aborted c) }

/-- The commit of flip `j` starts, inside hold `h` or unheld. -/
def startCommit (j : FlipId) (o : Outcome) (h : Option HoldId) (timer : Timer) : Gate κ :=
  g.onFlip j fun x =>
    { x with pc := .committing h, res := { x.res with outcome := some o, committed := true },
             timer, commits := x.commits + 1 }

/-- `runHold` starts with hold `h`. -/
def enterHold (j : FlipId) (h : HoldId) : Gate κ :=
  g.onFlip j fun x =>
    { x with pc := .holding h, res := { x.res with holdStart := some (g.holds h).start } }

/-- A new call of `Flip`: the context's check, the disabled gate's commit, the reading of
`start`. -/
def flip (k : κ) (ctxDone : Bool) : Gate κ :=
  let call (pc : FlipPc) (res : Result) (err : Option FlipErr) (commits : Nat) : Gate κ :=
    { g with nFlip := g.nFlip + 1
             flips := update g.flips g.nFlip
               ⟨pc, some k, 0, ctxDone, none, .off, res, err, commits⟩ }
  if ctxDone then
    call .returned { Result.zero with outcome := some .aborted } (some (.aborted .ctx)) 0
  else if b.Enabled then call (.begun g.now) .zero none 0
  else call .direct { Result.zero with outcome := some .disabled, committed := true } none 1

/-- The flip takes its entry. -/
def flipEnter (j : FlipId) (k : κ) (start : Time) : Gate κ :=
  let (g, e) := entryLocked b g k start
  (g.onEnt e fun x => { x with flips := x.flips + 1 }).onFlip j fun x =>
    { x with pc := .phaseA (start + b.phaseAMax), e }

/-- One pass of phase A's loop. -/
def phaseAPass (j : FlipId) (limit : Time) : Gate κ :=
  let (okLocal, atLocal) := localQuietLocked b g (g.flips j).e
  let (okHolds, atHolds) := holdsQuietLocked b g
  if g.closed then abort g j .closed .leaving
  else if (okLocal && okHolds) || limit ≤ g.now then g.goto j .asking
  else g.goto j (.phaseAWait limit g.changed (waitTill atLocal atHolds limit))

/-- `acquire` up to its `select`. -/
def acquire (j : FlipId) : Gate κ :=
  if g.closed then abort g j .closed .leaving
  else if g.holder = none ∧ g.queue = [] then
    enterHold (startHoldLocked g (g.flips j).e) j g.nHold
  else { g with queue := g.queue ++ [j] }.goto j (.queued (g.now + b.tokenWait))

/-- `acquire` after a `select` that another channel than the grant's left: granted as it gave up,
it takes the hold or passes it straight on. -/
def giveUp (j : FlipId) (c : Option Cause) : Gate κ :=
  match (g.flips j).granted, c with
  | some h, none => enterHold g j h
  | some h, some c => abort (endHoldLocked g h false) j c .leaving
  | none, none => { g with queue := g.queue.erase j }.goto j .unheld
  | none, some c => abort { g with queue := g.queue.erase j } j c .leaving

/-- One pass of `runHold`'s loop. -/
def holdPass (j : FlipId) (h : HoldId) : Gate κ :=
  let expiry := (g.holds h).start + b.holdMax
  let cut := expiry - commitMargin
  let e := (g.flips j).e
  let (okLocal, atLocal) := localQuietLocked b g e
  let (okOthers, atOthers) := otherHoldsQuietLocked b g e
  if g.closed then abort g j .closed (.ending h)
  else if expiry ≤ g.now then g.goto j (.expiring h)
  else if okOthers && (okLocal || cut ≤ g.now) then g.goto j (.decided h !okLocal)
  else
    g.goto j (.holdWait h g.changed
      (waitTill atLocal atOthers (if g.now < cut then cut else expiry)))

/-- The stop check before a commit, and the commit's start or the abort. -/
def commitUnlessStopped (j : FlipId) (o : Outcome) (h : Option HoldId) (timer : Timer) : Gate κ :=
  match stopErr g (g.flips j) with
  | some c => abort g j c (match h with | some h => .ending h | none => .leaving)
  | none => startCommit g j o h timer

/-- The commit of flip `j` came back (or panicked): the expiry timer is stopped unless it fired. -/
def commitReturned (j : FlipId) (r : Commit) (pc : FlipPc) : Gate κ :=
  g.onFlip j fun x =>
    { x with pc, err := some (.commit r),
             timer := match x.timer with | .armed _ => .off | t => t }

/-- The outcome after the hold's end: a hold that reached its bound before the commit finished is
expired. -/
def Result.endHold (r : Result) (h : Hold) : Result :=
  { r with
    holdEnd := h.ended
    waiters := h.heldTotal
    outcome :=
      if h.expired ∧ (r.outcome = some .held ∨ r.outcome = some .quietCutShort) then
        some .holdExpired
      else r.outcome }

/-- `runHold`'s deferred end. -/
def endHold (j : FlipId) (h : HoldId) : Gate κ :=
  let g := endHoldLocked g h false
  g.onFlip j fun x => { x with pc := .leaving, res := x.res.endHold (g.holds h) }

/-- `Flip`'s deferred end. -/
def flipLeave (j : FlipId) : Gate κ :=
  (g.onEnt (g.flips j).e fun x => { x with flips := x.flips - 1, lastUse := g.now }).goto j
    .returned

/-- What moves a flip: it runs on, a `select` takes a channel, or its commit comes back. -/
inductive Choice where
  | run | ctx | timeout | closed | granted
  | commit (r : Commit)
  deriving DecidableEq

/-- One step of flip `j`. -/
def flipStep (j : FlipId) (c : Choice) : Option (Gate κ) :=
  let x := g.flips j
  match x.pc, c with
  | .direct, .commit r => some (commitReturned g j r .returned)
  | .begun start, .run => x.key.map fun k => flipEnter b g j k start
  | .phaseA limit, .run => some (phaseAPass b g j limit)
  | .phaseAWait limit seen till, .run =>
    if g.changed ≠ seen ∨ till ≤ g.now then some (g.goto j (.phaseA limit)) else none
  | .phaseAWait _ _ _, .ctx => if x.ctxDone then some (abort g j .ctx .leaving) else none
  | .asking, .run => some (acquire b g j)
  | .queued _, .granted => x.granted.map fun h => enterHold g j h
  | .queued till, .timeout => if till ≤ g.now then some (g.goto j (.gaveUp none)) else none
  | .queued _, .ctx => if x.ctxDone then some (g.goto j (.gaveUp (some .ctx))) else none
  | .queued _, .closed => if g.closed then some (g.goto j (.gaveUp (some .closed))) else none
  | .gaveUp c, .run => some (giveUp g j c)
  | .unheld, .run => some (commitUnlessStopped g j .holdSkipped none .off)
  | .holding h, .run => some (holdPass b g j h)
  | .holdWait h seen till, .run =>
    if g.changed ≠ seen ∨ till ≤ g.now then some (g.goto j (.holding h)) else none
  | .holdWait h _ _, .ctx => if x.ctxDone then some (abort g j .ctx (.ending h)) else none
  | .expiring h, .run => some ((endHoldLocked g h true).goto j (.expired h))
  | .expired h, .run => some (commitUnlessStopped g j .holdExpired (some h) .off)
  | .decided h cutShort, .run =>
    some (commitUnlessStopped g j (if cutShort then .quietCutShort else .held) (some h)
      (.armed ((g.holds h).start + b.holdMax)))
  | .committing none, .commit r => some (commitReturned g j r .leaving)
  | .committing (some h), .commit r => some (commitReturned g j r (.ending h))
  | .ending h, .run => some (endHold g j h)
  | .leaving, .run => some (flipLeave g j)
  | _, _ => none

/-- The expiry timer of flip `j` fires. -/
def timerFire (j : FlipId) : Option (Gate κ) :=
  match (g.flips j).timer, (g.flips j).pc with
  | .armed expiry, .committing (some h) =>
    if expiry ≤ g.now then some (g.onFlip j fun x => { x with timer := .fired h }) else none
  | _, _ => none

/-- The expiry timer's function. -/
def timerRun (j : FlipId) : Option (Gate κ) :=
  match (g.flips j).timer with
  | .fired h => some ((endHoldLocked g h true).onFlip j fun x => { x with timer := .off })
  | _ => none

/-! ## `Purge`, `Close` and the system -/

/-- `Purge`: drops the entry of `k` unless it is live. -/
def purge (k : κ) : Gate κ :=
  match g.entries k with
  | some e =>
    if (g.ent e).live g.now b.quiet then g else { g with entries := update g.entries k none }
  | none => g

/-- `Close`: ends the hold in progress; no hold starts again. A disabled gate ignores it. -/
def close : Gate κ :=
  if ¬b.Enabled ∨ g.closed then g
  else
    let g := { g with closed := true }
    broadcastLocked (match g.holder with | some h => endHoldLocked g h false | none => g)

/-- The actions on a gate. -/
inductive Act (κ : Type) where
  /-- Time passes. -/
  | tick (d : Nat)
  | anchorStart (k : κ)
  /-- `AnchorStart` starts its timer. -/
  | startTimer (i : ServeId)
  | wake (i : ServeId) (w : Wake)
  | relock (i : ServeId)
  | done (i : ServeId)
  | flip (k : κ) (ctxDone : Bool)
  /-- The context of flip `j` ends. -/
  | cancel (j : FlipId)
  | flipStep (j : FlipId) (c : Choice)
  | timerFire (j : FlipId)
  | timerRun (j : FlipId)
  | purge (k : κ)
  | close
  deriving DecidableEq

/-- The step function (module doc). -/
def step : Act κ → Option (Gate κ)
  | .tick d => some { g with now := g.now + d }
  | .anchorStart k => some (anchorStart b g k)
  | .startTimer i =>
    match g.serves i with
    | .joined e h => some (g.setServe i (.waiting e h g.now))
    | _ => none
  | .wake i w => wake b g i w
  | .relock i => relock g i
  | .done i => done g i
  | .flip k ctxDone => some (flip b g k ctxDone)
  | .cancel j => some (g.onFlip j fun x => { x with ctxDone := true })
  | .flipStep j c => flipStep b g j c
  | .timerFire j => timerFire g j
  | .timerRun j => timerRun g j
  | .purge k => some (purge b g k)
  | .close => some (close b g)

/-- The gate that `New` returns, at time `t`. -/
def initial (κ : Type) (t : Time) : Gate κ where
  now := t
  entries _ := none
  ent _ := ⟨none, [], none, none, 0, 0⟩
  nEnt := 0
  holds _ := ⟨0, 0, none, false, 0, 0⟩
  nHold := 0
  holder := none
  queue := []
  lastEnd := none
  lastEndBy := none
  prevEnd := none
  lastSweep := none
  closed := false
  changed := 0
  serves _ := .idle
  nServe := 0
  flips _ := ⟨.idle, none, 0, false, none, .off, .zero, none, 0⟩
  nFlip := 0

/-- The gate with the bounds `b` and every interleaving of calls on it. -/
def sys (κ : Type) [DecidableEq κ] (b : Bounds) : Spec.Sys (Gate κ) (Act κ) where
  init g := ∃ t, g = initial κ t
  step := step b

end AptCacher.Flipgate
