import AptCacher.Spec.Windows
import AptCacher.Spec.Ranking
import AptCacher.Freshness.Probe
import AptCacher.Freshness.Queue

/-!
# Which suites a tick queues

A tick of the scheduler reads the suite rows, takes the suites that are due, and queues as many of
them as the bound of the queue lets in.

* `DueRow`: the columns of a suite row that a tick reads.
* `suiteDue`: a suite is due when it is stale, its retry time has come or it has a pending change,
  and neither its record nor the backoff of its checks holds it back.
* `closings`: the windows of time in which one of these holds an adopted suite back;
  `suiteDue_of_open`: outside them it is due.
* `boundDue`: the due suites that fit, the least recently checked first; `tick`: the due
  suites in key order, and their way into the queues (`tick_within`).
-/

namespace AptCacher.Freshness

open Spec Spec.Ranking Cache Aptpath

/-! ## The rows -/

/-- `cache.SuiteFreshness`, as far as a tick reads it: the columns of the queues and these. -/
structure DueRow extends DueSuite where
  currentSnapshotId : Option Nat
  adoptionFailCount : Int
  adoptionNextRetryAt : Option Int
  adoptionFailReason : Option Reason
  lastSuccessAt : Option Int
  inReleaseChangeSeenAt : Option Int
  lastRequestedAt : Option Int
  deriving DecidableEq

def DueRow.pendingChange (s : DueRow) (adopter : Bool) : Bool :=
  adopter && s.inReleaseChangeSeenAt.isSome && decide (s.adoptionFailCount = 0)

/-! ## The gates of a row -/

namespace DueRow

/-- The record paces an adopted suite: its retry time is ahead, and within the horizon. -/
def paced (s : DueRow) (adopter answered : Bool) (now : Int) : Bool :=
  adopter && s.currentSnapshotId.isSome && decide (0 < s.adoptionFailCount) &&
    s.adoptionNextRetryAt.any (fun next =>
      decide (unix now < next) && decide (next ≤ unix now + retryHorizon / second)) &&
    (recordPacesAdopted s.adoptionFailReason || answered)

/-- The last success is older than the refresh interval, or in the future. -/
def stale (s : DueRow) (refresh now : Int) : Bool :=
  s.lastSuccessAt.all fun last =>
    decide (last ≤ unix (now - refresh)) || decide (unix now + clockStepTolerance / second < last)

/-- The retry time of the record has come. -/
def retryDue (s : DueRow) (adopter : Bool) (now : Int) : Bool :=
  adopter && decide (0 < s.adoptionFailCount) &&
    s.adoptionNextRetryAt.any fun next => decide (next ≤ unix now)

/-- The suite is inside the backoff that its failed checks earn. -/
def backingOff (s : DueRow) (now : Int) : Bool :=
  decide (0 < s.checkFailCount) && s.lastCheckAt.any fun last =>
    decide (last ≤ unix now + clockStepTolerance / second) &&
      decide (unix now < last + backoffDelay s.checkFailCount / second)

end DueRow

/-- `suiteDue`; `answered` is the suite's entry of `absentAnswered`. -/
def suiteDue (adopter : Bool) (refresh : Int) (answered : Bool) (s : DueRow) (now : Int) : Bool :=
  if s.paced adopter answered now then false
  else if !s.stale refresh now && !s.retryDue adopter now && !s.pendingChange adopter then false
  else if adopter && s.currentSnapshotId.isNone && !interested s.lastRequestedAt now then false
  else if s.backingOff now then false
  else true

/-! ## When an adopted suite is held back -/

namespace DueRow

/-- The time in which the record may pace the suite. -/
def pacedWindow (next : Int) : Window := ⟨next * second - retryHorizon, next * second⟩

/-- The time in which the last success is fresh. -/
def freshWindow (refresh last : Int) : Window :=
  ⟨last * second - clockStepTolerance, last * second + refresh⟩

/-- The longest time for which the suite may be backing off. -/
def backoffWindow (last : Int) : Window :=
  ⟨last * second - clockStepTolerance, last * second + retryMaxDelay⟩

/-- The windows in which a gate of the row may be shut. -/
def closings (s : DueRow) (refresh : Int) : List Window :=
  s.adoptionNextRetryAt.toList.map pacedWindow ++
    s.lastSuccessAt.toList.map (freshWindow refresh) ++ s.lastCheckAt.toList.map backoffWindow

variable {s : DueRow} {refresh now : Int}

theorem backoffDelay_le (count : Int) : backoffDelay count ≤ retryMaxDelay := by
  unfold backoffDelay
  split
  · decide
  · split
    · exact le_refl _
    · exact min_le_right _ _

theorem paced_window {adopter answered : Bool} (h : s.paced adopter answered now = true) :
    ∃ w ∈ s.closings refresh, w.Shut now := by
  simp only [paced, Bool.and_eq_true, Option.any_eq_true, decide_eq_true_eq] at h
  obtain ⟨⟨-, next, hnext, hlt, hle⟩, -⟩ := h
  refine ⟨pacedWindow next, ?_, ?_⟩
  · simp [closings, hnext]
  · simp only [unix, retryHorizon, retryMaxDelay, hour, minute, second] at hlt hle
    simp only [pacedWindow, Window.Shut, retryHorizon, retryMaxDelay, hour, minute, second]
    omega

theorem fresh_window (h : s.stale refresh now = false) : ∃ w ∈ s.closings refresh, w.Shut now := by
  cases hlast : s.lastSuccessAt with
  | none =>
    rw [stale, hlast] at h
    cases h
  | some last =>
    rw [stale, hlast, Option.all_some, Bool.or_eq_false_iff, decide_eq_false_iff_not,
      decide_eq_false_iff_not] at h
    refine ⟨freshWindow refresh last, ?_, ?_⟩
    · simp [closings, hlast]
    · simp only [unix, clockStepTolerance, second] at h
      simp only [freshWindow, Window.Shut, clockStepTolerance, second]
      omega

theorem backoff_window (h : s.backingOff now = true) : ∃ w ∈ s.closings refresh, w.Shut now := by
  simp only [backingOff, Bool.and_eq_true, Option.any_eq_true, decide_eq_true_eq] at h
  obtain ⟨-, last, hlast, hle, hlt⟩ := h
  refine ⟨backoffWindow last, ?_, ?_⟩
  · simp [closings, hlast]
  · have hdelay := backoffDelay_le s.checkFailCount
    simp only [unix, clockStepTolerance, second] at hle hlt
    simp only [retryMaxDelay, hour, minute, second] at hdelay
    simp only [backoffWindow, Window.Shut, clockStepTolerance, retryMaxDelay, hour, minute, second]
    omega

/-- An adopted suite is due whenever none of its gates is shut. -/
theorem suiteDue_of_open {answered : Bool} (hcur : s.currentSnapshotId.isSome = true)
    (h : ∀ w ∈ s.closings refresh, ¬w.Shut now) : suiteDue true refresh answered s now = true := by
  have hshut : ¬∃ w ∈ s.closings refresh, w.Shut now := by
    rintro ⟨w, hw, hshut⟩
    exact h w hw hshut
  have hpaced : s.paced true answered now = false :=
    Bool.eq_false_iff.mpr fun hpaced => hshut (paced_window hpaced)
  have hstale : s.stale refresh now = true :=
    Bool.not_eq_false _ |>.mp fun hstale => hshut (fresh_window hstale)
  have hbackoff : s.backingOff now = false :=
    Bool.eq_false_iff.mpr fun hbackoff => hshut (backoff_window hbackoff)
  have hadopted : s.currentSnapshotId.isNone = false := by
    rw [← Option.not_isSome, hcur]
    rfl
  simp [suiteDue, hpaced, hstale, hbackoff, hadopted]

/-- The windows of a row together: the refresh interval, the horizon, the longest backoff and the
tolerance of two stamps. -/
theorem closings_length (s : DueRow) (hrefresh : 0 < refresh) :
    ((s.closings refresh).map Window.length).sum ≤
      refresh + retryHorizon + retryMaxDelay + 2 * clockStepTolerance := by
  have hone : ∀ (o : Option Int) (f : Int → Window) (n : Int), 0 ≤ n → (∀ x, (f x).length = n) →
      ((o.toList.map f).map Window.length).sum ≤ n := by
    intro o f n hn hf
    cases o with
    | none => simpa using hn
    | some x => simp [hf]
  have hpaced := hone s.adoptionNextRetryAt pacedWindow retryHorizon (by decide) fun x => by
    simp only [pacedWindow, Window.length, retryHorizon, retryMaxDelay, hour, minute, second]
    omega
  have hfresh := hone s.lastSuccessAt (freshWindow refresh) (refresh + clockStepTolerance)
    (by simp only [clockStepTolerance, second]; omega) fun x => by
      simp only [freshWindow, Window.length, clockStepTolerance, second]
      omega
  have hbackoff := hone s.lastCheckAt backoffWindow (retryMaxDelay + clockStepTolerance)
    (by decide) fun x => by
      simp only [backoffWindow, Window.length, clockStepTolerance, retryMaxDelay, hour, minute,
        second]
      omega
  rw [closings, List.map_append, List.map_append, List.sum_append, List.sum_append]
  omega

end DueRow

/-- An adopted suite is due soon, whatever stamps its row holds: no step of the clock freezes it. -/
theorem adopted_suite_due (s : DueRow) (answered : Int → Bool) (refresh t₀ : Int)
    (hrefresh : 0 < refresh) (hcur : s.currentSnapshotId.isSome = true) :
    ∃ t, t₀ ≤ t ∧ t ≤ t₀ + refresh + retryHorizon + 2 * retryMaxDelay + 10 * second ∧
      suiteDue true refresh (answered t) s t = true := by
  obtain ⟨t, hfrom, hto, hopen⟩ := exists_open (s.closings refresh) t₀
  refine ⟨t, hfrom, ?_, DueRow.suiteDue_of_open hcur hopen⟩
  have hlength := s.closings_length hrefresh
  have hslack : retryMaxDelay + 2 * clockStepTolerance ≤ 2 * retryMaxDelay + 10 * second := by
    decide
  omega

/-- A suite whose stamps are all ahead of the clock. -/
def aheadRow : DueRow :=
  { key := ⟨.http, "h".toList, "dists/sid".toList⟩, checkFailCount := 9, lastCheckAt := some 5000
    currentSnapshotId := some 1, adoptionFailCount := 3, adoptionNextRetryAt := some 4000
    adoptionFailReason := some .anchorAbsent, lastSuccessAt := some 9000
    inReleaseChangeSeenAt := none, lastRequestedAt := none }

theorem adopted_suite_due_ahead : aheadRow.currentSnapshotId.isSome = true ∧
    suiteDue true hour true aheadRow 0 = false ∧
    ∃ t, 0 ≤ t ∧ t ≤ 0 + hour + retryHorizon + 2 * retryMaxDelay + 10 * second ∧
      suiteDue true hour true aheadRow t = true :=
  ⟨rfl, by decide +kernel, adopted_suite_due aheadRow (fun _ => true) hour 0 (by decide) rfl⟩

/-! ## The bound of the queue -/

/-- The text of a scheme. -/
def schemeText : Scheme → Str
  | .http => "http".toList
  | .https => "https".toList

def suiteKey (k : SuiteKey) : Str := schemeText k.scheme ++ '|' :: k.host ++ '|' :: k.suitePath

/-- `math.MinInt64`. -/
def minInt64 : Int := -2 ^ 63

/-- `lastCheck`: never checked, or checked in the future, is the earliest there is. -/
def lastCheck (now : Int) (d : DueRow) : Int :=
  match d.lastCheckAt with
  | none => minInt64
  | some last => if now + clockStepTolerance / second < last then minInt64 else last

/-- The due suites that are not queued. -/
def freshDue (q : SchedQueues) (due : List DueRow) : List DueRow :=
  due.filter fun d => !q.queued d.key

/-- `boundDue`; `len` is the number of suites that are queued or in flight. -/
def boundDue (due : List DueRow) (q : SchedQueues) (len : Nat) (maxSuites now : Int) :
    List DueRow :=
  let fresh := freshDue q due
  let room := maxSuites - len
  if fresh.length ≤ room then fresh
  else if room ≤ 0 then []
  else
    let byCheck := stableSort (lastCheck now) fresh
    let admitted := (byCheck.take room.toNat).map fun d => d.key
    fresh.filter fun d => decide (d.key ∈ admitted)

/-- The end of `tick`: the due suites go into the queues. -/
def enqueueDue (adopter : Bool) (q : SchedQueues) (due : List DueRow) : SchedQueues :=
  due.foldl (fun q d => q.enqueue d.toDueSuite (d.pendingChange adopter)) q

/-- `tick`, from its suite rows on. -/
def tick (sort : SortSlice DueRow) (adopter : Bool) (refresh : Int) (answered : SuiteKey → Bool)
    (maxSuites : Int) (suites : List DueRow) (q : SchedQueues) (len : Nat) (now : Int) :
    SchedQueues :=
  let due := suites.filter fun s => suiteDue adopter refresh (answered s.key) s now
  let due := sort (fun a b => decide (suiteKey a.key < suiteKey b.key)) due
  enqueueDue adopter q (if 0 < maxSuites then boundDue due q len maxSuites (unix now) else due)

section Bound

variable {due : List DueRow} {q : SchedQueues} {len : Nat} {maxSuites now : Int}

/-- The suite keys are in order, and no two are equal. -/
def KeyOrder (due : List DueRow) : Prop := due.Pairwise fun a b => suiteKey a.key < suiteKey b.key

theorem KeyOrder.keys_nodup (h : KeyOrder due) : (due.map fun d => d.key).Nodup := by
  refine List.pairwise_map.mpr (h.imp fun {a b} hlt heq => ?_)
  rw [heq] at hlt
  exact List.lt_irrefl _ hlt

theorem KeyOrder.nodup (h : KeyOrder due) : due.Nodup := h.keys_nodup.of_map

theorem KeyOrder.sublist {due' : List DueRow} (h : KeyOrder due) (hsub : due'.Sublist due) :
    KeyOrder due' := List.Pairwise.sublist hsub h

theorem freshDue_sublist (q : SchedQueues) (due : List DueRow) : (freshDue q due).Sublist due :=
  List.filter_sublist

theorem boundDue_sublist (due : List DueRow) (q : SchedQueues) (len : Nat) (maxSuites now : Int) :
    (boundDue due q len maxSuites now).Sublist (freshDue q due) := by
  simp only [boundDue]
  split
  · exact List.Sublist.refl _
  · split
    · exact List.nil_sublist _
    · exact List.filter_sublist

theorem key_mem_cut {n : ℕ} (h : KeyOrder due) {d : DueRow} (hd : d ∈ due) :
    decide (d.key ∈ ((stableSort (lastCheck now) due).take n).map fun d => d.key) = true ↔
      d ∈ (stableSort (lastCheck now) due).take n := by
  rw [decide_eq_true_eq]
  constructor
  · intro hmem
    obtain ⟨e, he, hkey⟩ := List.mem_map.mp hmem
    have hmem : e ∈ due := (stableSort_perm _ _).mem_iff.mp (List.mem_of_mem_take he)
    rwa [← List.inj_on_of_nodup_map h.keys_nodup hmem hd hkey]
  · exact fun hmem => List.mem_map_of_mem hmem

/-- When not all of them fit, as many are taken as do, and they are before those left out. -/
theorem boundDue_cut (now : Int) (h : KeyOrder due)
    (hcut : maxSuites - len < (freshDue q due).length) :
    (boundDue due q len maxSuites now).length = (maxSuites - len).toNat ∧
    ∀ d ∈ boundDue due q len maxSuites now, ∀ e ∈ freshDue q due,
      e ∉ boundDue due q len maxSuites now →
        Before (lastCheck now) (fun a b => suiteKey a.key < suiteKey b.key) d e := by
  have hfresh : KeyOrder (freshDue q due) := h.sublist (freshDue_sublist q due)
  have hnot : ¬((freshDue q due).length : Int) ≤ maxSuites - len := by omega
  by_cases hroom : maxSuites - len ≤ 0
  · have hnil : boundDue due q len maxSuites now = [] := by
      simp only [boundDue, if_neg hnot, if_pos hroom]
    rw [hnil]
    refine ⟨?_, fun d hd => absurd hd List.not_mem_nil⟩
    rw [Int.toNat_of_nonpos hroom]
    rfl
  · have heq : boundDue due q len maxSuites now = (freshDue q due).filter fun d =>
        decide (d.key ∈ ((stableSort (lastCheck now) (freshDue q due)).take
          (maxSuites - len).toNat).map fun d => d.key) := by
      simp only [boundDue, if_neg hnot, if_neg hroom]
    rw [heq]
    constructor
    · rw [length_filter_cut hfresh.nodup fun x hx => key_mem_cut hfresh hx]
      omega
    · intro d hd e he hout
      obtain ⟨hd, hadmit⟩ := List.mem_filter.mp hd
      refine before_of_cut hfresh ((key_mem_cut hfresh hd).mp hadmit) he fun hmem => hout ?_
      exact List.mem_filter.mpr ⟨he, (key_mem_cut hfresh he).mpr hmem⟩

theorem length_boundDue_le (h : KeyOrder due) :
    (boundDue due q len maxSuites now).length ≤ (maxSuites - len).toNat := by
  by_cases hcut : maxSuites - len < (freshDue q due).length
  · exact (boundDue_cut now h hcut).1.le
  · have hlength := (boundDue_sublist due q len maxSuites now).length_le
    omega

theorem queued_enqueue {d : DueSuite} {pendingChange : Bool} {k : SuiteKey} :
    (q.enqueue d pendingChange).queued k = true ↔ q.queued k = true ∨ k = d.key := by
  by_cases hk : k = d.key
  · subst hk
    by_cases hq : q.queued d.key = true
    · cases pendingChange <;> simp [SchedQueues.enqueue, hq]
    · simp [SchedQueues.enqueue, hq]
  · by_cases hq : q.queued d.key = true
    · cases pendingChange <;> simp [SchedQueues.enqueue, hq, hk]
    · simp [SchedQueues.enqueue, hq, hk]

theorem queued_enqueueDue (adopter : Bool) (q : SchedQueues) (due : List DueRow) (k : SuiteKey) :
    (enqueueDue adopter q due).queued k = true ↔
      q.queued k = true ∨ k ∈ due.map fun d => d.key := by
  induction due generalizing q with
  | nil => simp [enqueueDue]
  | cons d due ih =>
    have hstep : (q.enqueue d.toDueSuite (d.pendingChange adopter)).queued k = true ↔
        q.queued k = true ∨ k = d.key := queued_enqueue
    rw [enqueueDue, List.foldl_cons, ← enqueueDue, ih, hstep, List.map_cons, List.mem_cons,
      or_assoc]

/-- Suites that are taken as `boundDue` takes them leave the queue within the bound. -/
theorem card_enqueueDue {Q : Finset SuiteKey} (hQ : ∀ k, q.queued k = true ↔ k ∈ Q) (adopter : Bool)
    (h : due.length ≤ (maxSuites - Q.card).toNat) :
    ∃ Q' : Finset SuiteKey, (∀ k, (enqueueDue adopter q due).queued k = true ↔ k ∈ Q') ∧
      (Q'.card : Int) ≤ max (Q.card : Int) maxSuites := by
  refine ⟨Q ∪ (due.map fun d => d.key).toFinset, fun k => ?_, ?_⟩
  · rw [queued_enqueueDue, hQ, Finset.mem_union, List.mem_toFinset]
  · have hunion := Finset.card_union_le Q (due.map fun d => d.key).toFinset
    have hkeys := List.toFinset_card_le (due.map fun d => d.key)
    rw [List.length_map] at hkeys
    omega

/-- A sort of suites with different keys puts them into key order. -/
theorem keyOrder_sort {sort : SortSlice DueRow} (hsort : Sorts sort)
    (h : (due.map fun d => suiteKey d.key).Nodup) :
    KeyOrder (sort (fun a b => decide (suiteKey a.key < suiteKey b.key)) due) := by
  have hweak : StrictWeak (fun a b : DueRow => decide (suiteKey a.key < suiteKey b.key)) due := by
    constructor
    · intro a _ b _ hlt
      exact decide_eq_false (List.lt_asymm (of_decide_eq_true hlt))
    · intro a _ b _ c _ hab hbc
      have hle := List.le_trans (List.not_lt.mp (of_decide_eq_false hab))
        (List.not_lt.mp (of_decide_eq_false hbc))
      exact decide_eq_false (List.not_lt.mpr hle)
  obtain ⟨hperm, hpair⟩ := hsort _ due hweak
  have hnodup := ((hperm.map fun d => suiteKey d.key).nodup_iff).mpr h
  refine ((List.pairwise_map.mp hnodup).and hpair).imp fun {a b} hab => ?_
  rcases List.le_iff_lt_or_eq.mp (List.not_lt.mp (of_decide_eq_false hab.2)) with hlt | heq
  · exact hlt
  · exact absurd heq hab.1

/-- A tick leaves at most `maxSuites` suites in the queues, or no more than it found. -/
theorem tick_within {sort : SortSlice DueRow} (hsort : Sorts sort) {Q : Finset SuiteKey}
    (hQ : ∀ k, q.queued k = true ↔ k ∈ Q) {adopter : Bool} {refresh : Int}
    {answered : SuiteKey → Bool} {suites : List DueRow}
    (h : (suites.map fun d => suiteKey d.key).Nodup) (hmax : 0 < maxSuites) :
    ∃ Q' : Finset SuiteKey, (∀ k, (tick sort adopter refresh answered maxSuites suites q Q.card
        now).queued k = true ↔ k ∈ Q') ∧ (Q'.card : Int) ≤ max (Q.card : Int) maxSuites := by
  simp only [tick, if_pos hmax]
  refine card_enqueueDue hQ adopter (length_boundDue_le (keyOrder_sort hsort ?_))
  exact (List.filter_sublist.map _).nodup h

/-- What the bound takes of the due suites: a part of those not queued, in key order, that keeps the
queue within the bound; and when not all fit, as many as do, the least recently checked first. -/
theorem bound_due (due : List DueRow) (q : SchedQueues) (Q : Finset SuiteKey)
    (hQ : ∀ k, q.queued k = true ↔ k ∈ Q) (hdue : KeyOrder due)
    (hstamps : ∀ d ∈ due, ∀ t, d.lastCheckAt = some t → minInt64 ≤ t) (adopter : Bool)
    (maxSuites now : Int) :
    (boundDue due q Q.card maxSuites now).Sublist (due.filter fun d => !q.queued d.key) ∧
    KeyOrder (boundDue due q Q.card maxSuites now) ∧
    (∃ Q' : Finset SuiteKey,
      (∀ k, (enqueueDue adopter q (boundDue due q Q.card maxSuites now)).queued k = true ↔ k ∈ Q') ∧
      (Q'.card : Int) ≤ max (Q.card : Int) maxSuites) ∧
    (maxSuites - Q.card < (due.filter fun d => !q.queued d.key).length →
      (boundDue due q Q.card maxSuites now).length = (maxSuites - Q.card).toNat ∧
      ∀ d ∈ boundDue due q Q.card maxSuites now, ∀ e ∈ due, q.queued e.key = false →
        e ∉ boundDue due q Q.card maxSuites now →
          lastCheck now d ≤ lastCheck now e ∧
          (lastCheck now d = lastCheck now e → suiteKey d.key < suiteKey e.key)) ∧
    (∀ d, d.lastCheckAt = none ∨ (∃ t, d.lastCheckAt = some t ∧ now + 2 < t) →
      ∀ e ∈ due, lastCheck now d ≤ lastCheck now e) ∧
    ∀ d t, d.lastCheckAt = some t → t ≤ now + 2 → lastCheck now d = t := by
  have hsub := boundDue_sublist due q Q.card maxSuites now
  have htolerance : clockStepTolerance / second = 2 := by decide
  have hleast : ∀ e ∈ due, minInt64 ≤ lastCheck now e := by
    intro e he
    unfold lastCheck
    cases hlast : e.lastCheckAt with
    | none => exact le_refl _
    | some t =>
      dsimp only
      split
      · exact le_refl _
      · exact hstamps e he t hlast
  refine ⟨hsub, (hdue.sublist (freshDue_sublist q due)).sublist hsub,
    card_enqueueDue hQ adopter (length_boundDue_le hdue), fun hcut => ?_, ?_, ?_⟩
  · obtain ⟨hlength, hbefore⟩ := boundDue_cut now hdue hcut
    refine ⟨hlength, fun d hd e he hfree hout => ?_⟩
    have hfresh : e ∈ freshDue q due := List.mem_filter.mpr ⟨he, by rw [hfree]; rfl⟩
    rcases hbefore d hd e hfresh hout with hlt | ⟨heq, hkey⟩
    · exact ⟨hlt.le, fun heq => absurd heq hlt.ne⟩
    · exact ⟨heq.le, fun _ => hkey⟩
  · rintro d (hnone | ⟨t, hsome, hahead⟩) e he
    · simpa only [lastCheck, hnone] using hleast e he
    · have hmin : lastCheck now d = minInt64 := by
        simp only [lastCheck, hsome, htolerance, if_pos hahead]
      exact hmin ▸ hleast e he
  · intro d t hsome hpast
    simp only [lastCheck, hsome, htolerance, if_neg (not_lt.mpr hpast)]

/-- A suite of the host `h`, with the stamp of its last check. -/
def checkedRow (name : Str) (last : Option Int) : DueRow :=
  { key := ⟨.http, "h".toList, name⟩, checkFailCount := 0, lastCheckAt := last
    currentSnapshotId := none, adoptionFailCount := 0, adoptionNextRetryAt := none
    adoptionFailReason := none, lastSuccessAt := none, inReleaseChangeSeenAt := none
    lastRequestedAt := none }

/-- Two due suites, the first checked and the second not. -/
def dueRows : List DueRow := [checkedRow ['a'] (some 10), checkedRow ['b'] none]

/-- The queues with one suite. -/
def oneQueued : SchedQueues := SchedQueues.new.enqueue (checkedRow ['c'] none).toDueSuite false

theorem bound_due_room_for_one :
    boundDue dueRows oneQueued 1 2 100 = [checkedRow ['b'] none] ∧
    ∀ d ∈ boundDue dueRows oneQueued 1 2 100, ∀ e ∈ dueRows, oneQueued.queued e.key = false →
      e ∉ boundDue dueRows oneQueued 1 2 100 → lastCheck 100 d ≤ lastCheck 100 e := by
  have hQ : ∀ k, oneQueued.queued k = true ↔
      k ∈ ({(checkedRow ['c'] none).key} : Finset SuiteKey) := by
    intro k
    rw [oneQueued, queued_enqueue, Finset.mem_singleton]
    exact or_iff_right Bool.false_ne_true
  have hstamps : ∀ d ∈ dueRows, ∀ t, d.lastCheckAt = some t → minInt64 ≤ t := by
    intro d hd t ht
    rcases List.mem_cons.mp hd with rfl | hd
    · obtain rfl := Option.some.inj ht
      decide
    · obtain rfl := List.mem_singleton.mp hd
      cases ht
  have hcut := (bound_due dueRows oneQueued _ hQ (by unfold KeyOrder dueRows; decide) hstamps true
    2 100).2.2.2.1 (by decide +kernel)
  exact ⟨by decide +kernel, fun d hd e he hfree hout => (hcut.2 d hd e he hfree hout).1⟩

end Bound

end AptCacher.Freshness
