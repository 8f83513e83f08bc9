import AptCacher.Cache.SuiteRows
import AptCacher.Freshness.Probe
import AptCacher.Spec.Sweep

/-!
# The marker sweep and the clocks

A reaper run sweeps the orphan markers last seen a year ago by the wall clock. Between two runs the
wall clock is compared with the monotonic clock; the steps ahead are taken off the sweep's cutoff.

* `sweepOrphanMarkers`: the batches of a sweep.
* `deferredByForwardStep`, `runOnce`: the guard of a run and its sweep, in 64-bit durations.
* `Fits`: the steps ahead do not leave the range of a duration.
* `step_never_ages`: then a marker that a sweep deletes is a year old by the monotonic clock, small
  leads of the wall clock apart; `aged_by_step`: longer steps age it.
-/

namespace AptCacher
namespace Cache

open Spec

/-! ## The sweep -/

def markerSweepBatch : ℕ := 1000

/-- The order of the keys: scheme, host, base. -/
def MarkKey.before (a b : MarkKey) : Bool :=
  (a.scheme == .http && b.scheme == .https) ||
    a.scheme == b.scheme &&
      (decide (a.host < b.host) || a.host == b.host && decide (a.base < b.base))

/-- `orphanMarkers`: a batch of the markers to delete. -/
def Db.orphanMarkers (db : Db) (cutoff : Int) : List MarkKey :=
  ((inOrder MarkKey.before Marker.key (db.markers.select fun m =>
    decide (m.lastSeenAt < cutoff) && !db.suitesAt m.key.host m.key.base)).map
      Marker.key).take markerSweepBatch

/-- `SweepOrphanMarkers`: batch after batch, with the writes of `others` between the read of a batch
and its transaction. It is over at the latest when the fuel is used up, as after an error. -/
def sweepOrphanMarkers (cutoff : Int) (others : ℕ → Db → Db) : ℕ → Db → Db
  | 0, db => db
  | fuel + 1, db =>
    let keys := db.orphanMarkers cutoff
    if keys = [] then db
    else
      let db := others fuel db
      let db' := (deleteOrphanMarkers keys cutoff).commit db
      let n := db.markers.rows.length - db'.markers.rows.length
      if n = 0 ∨ keys.length < markerSweepBatch then db'
      else sweepOrphanMarkers cutoff others fuel db'

section Sweep

variable {cutoff : Int} {db : Db} {m : Marker}

theorem mem_deleteOrphanMarkers (keys : List MarkKey) (hm : m ∈ db.markers)
    (hlate : ¬ m.lastSeenAt < cutoff) :
    m ∈ ((deleteOrphanMarkers keys cutoff).commit db).markers := by
  have hrun : deleteOrphanMarkers keys cutoff db = .ok (⟨⟩, keys.foldl (fun db k => { db with
      markers := db.markers.delete fun m =>
        m.key == k && m.lastSeenAt < cutoff && !db.suitesAt k.host k.base }) db) :=
    Tx.forM_run (fun _ _ => rfl) keys db
  rw [Tx.commit_of_ok hrun]
  refine List.foldlRecOn (motive := fun db : Db => m ∈ db.markers) keys _ hm fun db hm k _ => ?_
  exact Table.mem_delete.mpr ⟨hm, by simp [hlate]⟩

/-- A marker that others leave alone is deleted only if it was last seen before the cutoff. -/
theorem mem_sweepOrphanMarkers {others : ℕ → Db → Db}
    (hothers : ∀ i db, m ∈ db.markers → m ∈ (others i db).markers) (hlate : ¬ m.lastSeenAt < cutoff)
    (fuel : ℕ) (hm : m ∈ db.markers) : m ∈ (sweepOrphanMarkers cutoff others fuel db).markers := by
  induction fuel generalizing db with
  | zero => exact hm
  | succ fuel ih =>
    have hstep := mem_deleteOrphanMarkers (db.orphanMarkers cutoff) (hothers fuel db hm) hlate
    unfold sweepOrphanMarkers
    dsimp only
    split
    · exact hm
    · split
      · exact hstep
      · exact ih hstep

end Sweep

end Cache

namespace Freshness

open Spec Cache

/-! ## The clocks -/

def forwardStepSlack : Int := hour

def reapUptimeFloor : Int := hour

def dailyEvery : Int := 24 * hour

def markerTTL : Int := 365 * 24 * hour

def maxStepAhead : Int := 2 ^ 63 - 1

/-- The arithmetic of `time.Duration`: 64 bits. -/
def duration (n : Int) : Int := n.bmod (2 ^ 64)

/-- A reading of both clocks in nanoseconds, since 1970 and since the start of the process. The
difference of two monotonic readings is a duration. -/
structure Clocks where
  wall : Int
  mono : Int
  deriving DecidableEq

/-- What the reaper remembers of the clocks. -/
structure ReaperClock where
  last : Option Clocks
  deferUntil : Option Int := none
  stepAhead : Int := 0
  dailyAt : Option Int
  deriving DecidableEq

/-- How far the wall clock, in whole seconds, ran ahead of the monotonic clock. -/
def lead (l c : Clocks) : Int := (unix c.wall - unix l.wall) * second - (c.mono - l.mono)

/-- What a run reads: both clocks for the guard, and the monotonic clock for the daily sweep. Its
context can end while suites are reaped. -/
structure Run where
  clocks : Clocks
  since : Int
  stamped : Int
  ended : Bool := false
  deriving DecidableEq

namespace ReaperClock

def deferredByForwardStep (r : ReaperClock) (c : Clocks) : Bool × ReaperClock :=
  let r :=
    match r.last with
    | none => r
    | some l =>
      let elapsed := c.mono - l.mono
      let ahead := duration (duration ((unix c.wall - unix l.wall) * second) - elapsed)
      if forwardStepSlack < ahead then
        { r with
          deferUntil := some (c.mono + reapUptimeFloor)
          stepAhead := r.stepAhead + min ahead (maxStepAhead - r.stepAhead) }
      else r
  (r.deferUntil.any fun t => decide (c.mono < t), { r with last := some c })

/-- The cutoff of `sweepMarkers`. -/
def cutoff (r : ReaperClock) (now : Int) : Int := unix (now - markerTTL - r.stepAhead)

/-- `runOnce`: with the cutoff of its sweep, if it sweeps. -/
def runOnce (r : ReaperClock) (x : Run) : ReaperClock × Option Int :=
  let (deferred, r) := r.deferredByForwardStep x.clocks
  if !deferred && !x.ended && r.dailyAt.all (fun t => decide (dailyEvery ≤ x.since - t)) then
    ({ r with dailyAt := some x.stamped }, some (r.cutoff x.clocks.wall))
  else (r, none)

/-- The start of `Run`. -/
def start (c : Clocks) : ReaperClock := { last := some c, dailyAt := some c.mono }

/-- After some runs. -/
def after (r : ReaperClock) (runs : List Run) : ReaperClock :=
  runs.foldl (fun r x => (r.runOnce x).1) r

/-- A step ahead is a duration, and so is the sum of all steps. -/
def fits (r : ReaperClock) (c : Clocks) : Bool :=
  r.last.all fun l => decide (lead l c ≤ forwardStepSlack) ||
    decide ((unix c.wall - unix l.wall) * second ≤ maxStepAhead) &&
      decide (lead l c ≤ maxStepAhead - r.stepAhead)

/-- Every run fits. -/
def Fits : ReaperClock → List Run → Prop
  | _, [] => True
  | r, x :: xs => r.fits x.clocks = true ∧ Fits (r.runOnce x).1 xs

end ReaperClock

/-- The leads of at most an hour, summed up. -/
def smallLeads : Clocks → List Run → Int
  | _, [] => 0
  | l, x :: xs =>
    (if lead l x.clocks ≤ forwardStepSlack then lead l x.clocks else 0) + smallLeads x.clocks xs

/-- The last reading of some runs. -/
def lastClocks (c : Clocks) (runs : List Run) : Clocks := runs.foldl (fun _ x => x.clocks) c

/-- The monotonic clock does not run back. -/
def Rising (c : Clocks) (runs : List Run) : Prop :=
  (c :: runs.map Run.clocks).IsChain fun a b => a.mono ≤ b.mono

/-! ## The age of a swept marker -/

namespace ReaperClock

variable {r : ReaperClock} {l c : Clocks}

/-- A run takes its step ahead off the cutoff from now on, if it fits, and never gives one back. -/
theorem guard_stepAhead (hlast : r.last = some l) (hmono : l.mono ≤ c.mono)
    (hmax : r.stepAhead ≤ maxStepAhead) (hfits : r.fits c = true) :
    (r.deferredByForwardStep c).2.stepAhead ≤ maxStepAhead ∧ r.stepAhead +
      (if lead l c ≤ forwardStepSlack then 0 else lead l c) ≤
        (r.deferredByForwardStep c).2.stepAhead := by
  simp only [deferredByForwardStep, hlast]
  simp only [fits, hlast, Option.all_some, Bool.or_eq_true, Bool.and_eq_true,
    decide_eq_true_eq] at hfits
  have hslack : 0 ≤ forwardStepSlack := by decide
  by_cases hsmall : lead l c ≤ forwardStepSlack
  · rw [if_pos hsmall]
    split
    · dsimp only
      omega
    · omega
  · have hbig := hfits.resolve_left hsmall
    -- neither the product nor the difference leaves the range of a duration
    have hproduct : duration ((unix c.wall - unix l.wall) * second) =
        (unix c.wall - unix l.wall) * second := by
      refine Int.bmod_eq_of_le ?_ ?_
      all_goals
        unfold lead forwardStepSlack hour minute second at *
        unfold maxStepAhead at *
        omega
    have hahead : duration (duration ((unix c.wall - unix l.wall) * second) -
        (c.mono - l.mono)) = lead l c := by
      rw [hproduct]
      refine Int.bmod_eq_of_le ?_ ?_
      all_goals
        unfold lead forwardStepSlack hour minute second at *
        unfold maxStepAhead at *
        omega
    rw [if_neg hsmall, hahead, if_pos (by omega)]
    dsimp only
    omega

theorem runOnce_eq (x : Run) : (r.runOnce x).1.last = some x.clocks ∧
    (r.runOnce x).1.stepAhead = (r.deferredByForwardStep x.clocks).2.stepAhead ∧
    ∀ t, (r.runOnce x).2 = some t → t = (r.runOnce x).1.cutoff x.clocks.wall := by
  unfold runOnce
  dsimp only
  split
  · exact ⟨rfl, rfl, fun t h => (Option.some.inj h).symm⟩
  · exact ⟨rfl, rfl, fun t h => by cases h⟩

theorem after_range (hlast : r.last = some l)
    (hrange : 0 ≤ r.stepAhead ∧ r.stepAhead ≤ maxStepAhead) (runs : List Run) :
    (r.after runs).last = some (lastClocks l runs) ∧
      0 ≤ (r.after runs).stepAhead ∧ (r.after runs).stepAhead ≤ maxStepAhead := by
  induction runs generalizing r l with
  | nil => exact ⟨hlast, hrange⟩
  | cons x xs ih =>
    obtain ⟨hlast', hsame, -⟩ := r.runOnce_eq x
    refine ih hlast' ?_
    have hslack : 0 ≤ forwardStepSlack := by decide
    rw [hsame]
    simp only [deferredByForwardStep, hlast]
    split
    · dsimp only
      omega
    · exact hrange

/-- Over some runs, what the wall clock ran ahead is in the small leads or taken off the cutoff. -/
theorem after_stepAhead {runs : List Run} (hlast : r.last = some l)
    (hmax : r.stepAhead ≤ maxStepAhead) (hmono : Rising l runs) (hfits : r.Fits runs) :
    (r.after runs).last = some (lastClocks l runs) ∧
    lead l (lastClocks l runs) ≤ smallLeads l runs + ((r.after runs).stepAhead - r.stepAhead) := by
  induction runs generalizing r l with
  | nil => exact ⟨hlast, by simp [lead, lastClocks, smallLeads, after]⟩
  | cons x xs ih =>
    obtain ⟨hle, hrest⟩ := List.isChain_cons_cons.mp hmono
    obtain ⟨hlast', hsame, -⟩ := r.runOnce_eq x
    obtain ⟨hmax', hstep⟩ := guard_stepAhead hlast hle hmax hfits.1
    rw [← hsame] at hmax' hstep
    obtain ⟨hend, hrun⟩ := ih hlast' hmax' hrest hfits.2
    refine ⟨hend, ?_⟩
    have hsum : lead l (lastClocks l (x :: xs)) =
        lead l x.clocks + lead x.clocks (lastClocks x.clocks xs) := by
      simp only [lead, lastClocks, List.foldl_cons]
      ring
    have hafter : r.after (x :: xs) = (r.runOnce x).1.after xs := rfl
    rw [hsum, hafter, smallLeads]
    split at hstep <;> simp only [*, if_true, if_false] <;> omega

end ReaperClock

open ReaperClock in
/-- **A detected clock step never ages a marker.** For every sequence of runs whose steps ahead fit
into a duration: a marker with the stamp of an earlier reading that a sweep deletes is more than a
year old by the monotonic clock and the leads of the wall clock of at most an hour. -/
theorem step_never_ages (start : Clocks) (before runs : List Run) {x : Run} {cutoff : Int}
    (hmono : Rising (lastClocks start before) (runs ++ [x]))
    (hfits : ((ReaperClock.start start).after before).Fits (runs ++ [x]))
    (hsweep : (((ReaperClock.start start).after (before ++ runs)).runOnce x).2 = some cutoff)
    {db : Db} {m : Marker} {others : ℕ → Db → Db} {fuel : ℕ} (hm : m ∈ db.markers)
    (hstamp : m.lastSeenAt = unix (lastClocks start before).wall)
    (hothers : ∀ i db, m ∈ db.markers → m ∈ (others i db).markers)
    (hgone : m ∉ (sweepOrphanMarkers cutoff others fuel db).markers) :
    markerTTL < x.clocks.mono - (lastClocks start before).mono +
      smallLeads (lastClocks start before) (runs ++ [x]) := by
  have hlate : m.lastSeenAt < cutoff := by
    by_contra hlate
    exact hgone (mem_sweepOrphanMarkers hothers hlate fuel hm)
  obtain ⟨hlast, hzero, hmax⟩ := after_range (r := .start start) (l := start) rfl
    ⟨Int.le_refl 0, show 0 ≤ maxStepAhead by decide⟩ before
  obtain ⟨-, hlead⟩ := after_stepAhead hlast hmax hmono hfits
  -- the reaper after the last run, whose sweep it was
  have hafter : ((ReaperClock.start start).after before).after (runs ++ [x]) =
      (((ReaperClock.start start).after (before ++ runs)).runOnce x).1 := by
    simp [after, List.foldl_append]
  have hend : lastClocks (lastClocks start before) (runs ++ [x]) = x.clocks := by
    simp [lastClocks]
  rw [hafter, hend] at hlead
  rw [hstamp, (runOnce_eq x).2.2 cutoff hsweep, ReaperClock.cutoff] at hlate
  unfold lead unix second at hlead
  unfold unix second at hlate
  omega

/-! ## Steps that do not fit -/

/-- A clock at half past midnight, 12 November 2025. -/
def bootClock : Clocks := ⟨1762907400 * second, 0⟩

/-- A run `h` hours after the start, with the wall clock another `y` years of 365 days ahead. -/
def runAfter (h y : Int) : Run :=
  ⟨⟨bootClock.wall + (h + y * 365 * 24) * hour, h * hour⟩, h * hour, h * hour, false⟩

def seenKey : MarkKey := ⟨.http, "deb.debian.org".toList, "/debian/dists/bookworm".toList⟩

/-- A marker of the start. -/
def bootMarker : Marker := ⟨seenKey, unix bootClock.wall⟩

def markedDb : Db := (markSignedSeen seenKey bootMarker.lastSeenAt).commit .empty

/-- The markers after a sweep. -/
def sweptMarkers (cutoff : Int) : List Marker :=
  (sweepOrphanMarkers cutoff (fun _ db => db) 2 markedDb).markers.rows

/-- The cutoff of the sweep of the last run. -/
def sweepAfter (runs : List Run) (x : Run) : Option Int :=
  (((ReaperClock.start bootClock).after runs).runOnce x).2

/-- A sweep 366 days after the marker was set, with a step of 100 years in the first hour. -/
theorem step_never_ages_year :
    bootMarker ∉ sweptMarkers 1762993800 ∧
    markerTTL < (runAfter 8784 100).clocks.mono - bootClock.mono +
      smallLeads bootClock [runAfter 1 100, runAfter 8784 100] := by
  have hgone : bootMarker ∉ sweptMarkers 1762993800 := by decide +kernel
  have hm : bootMarker ∈ markedDb.markers.rows := by decide +kernel
  have hmono : Rising (lastClocks bootClock []) [runAfter 1 100, runAfter 8784 100] :=
    List.isChain_cons_cons.mpr ⟨by decide, List.isChain_cons_cons.mpr ⟨by decide, .singleton _⟩⟩
  exact ⟨hgone, step_never_ages bootClock [] [runAfter 1 100] hmono
    ⟨by decide, by decide, trivial⟩ (by decide +kernel) hm rfl (fun _ _ h => h) hgone⟩

/-- One step of 380 years is taken for a step back, and of two steps of 280 years the sum saturates:
the marker is swept some hours after it was set, with no lead that the cutoff would not take off. -/
theorem aged_by_step :
    markedDb.markers.rows = [bootMarker] ∧
    (sweepAfter [] (runAfter 25 380)).map sweptMarkers = some [] ∧
    (runAfter 25 380).clocks.mono - bootClock.mono + smallLeads bootClock [runAfter 25 380] <
      markerTTL ∧
    (sweepAfter [runAfter 1 280, runAfter 2 560] (runAfter 25 560)).map sweptMarkers = some [] ∧
    (runAfter 25 560).clocks.mono - bootClock.mono +
      smallLeads bootClock [runAfter 1 280, runAfter 2 560, runAfter 25 560] < markerTTL := by
  decide +kernel

end Freshness
end AptCacher
