import AptCacher.Cache.Stamps
import AptCacher.Cache.PathGc
import AptCacher.Spec.Since

/-!
# The hold-grace of `url_path` GC

Passes of `url_path` GC, batch after batch behind the cursor, between any other operations of the
writer. A log remembers the evaluations of rows and the operations that establish rows anew.

* `holdSys`: the system.
* `Held`: a stamp was set by an evaluation since which nothing kept the row.
* `hold_grace`: what a batch deletes was stamped by an earlier pass, a hold window ago.
-/

namespace AptCacher.Cache

open Spec Table Ranking

/-! ## The rows after a batch -/

/-- The row after an action on it. -/
def GcAction.row (now : Int) (r : UrlPath) : GcAction → Option UrlPath
  | .keep => some r
  | .clear => some { r with droppedAt := none }
  | .stamp => some { r with droppedAt := some now }
  | .delete => none

variable {r : UrlPath} {holdSeconds now : Int}

theorem find_run_self (a : GcAction) (now : Int) {db : Db} (h : db.urlPaths.find r.key = some r) :
    (a.run now r db).urlPaths.find r.key = a.row now r := by
  cases a with
  | keep => exact h
  | clear => exact find_updateAt.trans (by rw [if_pos rfl, h]; rfl)
  | stamp => exact find_updateAt.trans (by rw [if_pos rfl, h]; rfl)
  | delete => exact find_deleteAt.trans (if_pos rfl)

section Rows

variable {retained : Db → UrlPath → Bool} {holdSeconds now : Int} {rows : List UrlPath} {db : Db}

theorem find_gcRows_of_notMem {k : UrlKey} (h : k ∉ rows.map UrlPath.key) :
    (gcRows retained holdSeconds now rows db).urlPaths.find k = db.urlPaths.find k := by
  induction rows generalizing db with
  | nil => rfl
  | cons r rows ih =>
    rw [List.map_cons, List.mem_cons, not_or] at h
    exact (ih h.2).trans (find_run _ now db h.1)

end Rows

theorem find_gcRows {ttlCutoff : Int} (rule : RetentionRule ttlCutoff) {rows : List UrlPath}
    {db : Db} (hkeys : (rows.map UrlPath.key).Nodup) (hr : r ∈ rows)
    (hfind : db.urlPaths.find r.key = some r) :
    (gcRows rule.run holdSeconds now rows db).urlPaths.find r.key =
      (gcAction (rule.run db r) holdSeconds now r).row now r := by
  induction rows generalizing db with
  | nil => exact absurd hr List.not_mem_nil
  | cons x rows ih =>
    rw [List.map_cons, List.nodup_cons] at hkeys
    rcases List.mem_cons.mp hr with rfl | hr
    · exact (find_gcRows_of_notMem hkeys.1).trans (find_run_self _ now hfind)
    · have hne : r.key ≠ x.key := fun heq => hkeys.1 (heq ▸ List.mem_map_of_mem hr)
      -- the action on the first row changes neither this row nor the verdict on it
      have hframe : rule.run (gcRow rule.run holdSeconds now x db) = rule.run db :=
        rule.frame db _ _
      rw [← hframe]
      exact ih hkeys.2 hr ((find_run _ now db hne).trans hfind)

/-- A row that has a stamp after the batch was not retained; it had the stamp or got it. -/
theorem stamp_of_row {retained : Bool} {d : Int} {r' : UrlPath}
    (h : (gcAction retained holdSeconds now r).row now r = some r') (hd : r'.droppedAt = some d) :
    retained = false ∧
      (r.droppedAt = some d ∨ (gcAction false holdSeconds now r = .stamp ∧ d = now)) := by
  cases retained with
  | true =>
    rw [gcAction, if_pos rfl] at h
    by_cases hr : r.droppedAt.isSome = true
    · rw [if_pos hr] at h
      cases h
      cases hd
    · rw [if_neg hr] at h
      cases h
      rw [hd] at hr
      exact absurd rfl hr
  | false =>
    refine ⟨rfl, ?_⟩
    cases hact : gcAction false holdSeconds now r with
    | keep =>
      rw [hact] at h
      cases h
      exact .inl hd
    | clear =>
      rw [hact] at h
      cases h
      cases hd
    | stamp =>
      rw [hact] at h
      cases h
      cases hd
      exact .inr ⟨rfl, rfl⟩
    | delete =>
      rw [hact] at h
      cases h

/-- A row that the batch deletes was not retained, and its stamp is old enough. -/
theorem expired_of_row {retained : Bool} (hhold : 0 < holdSeconds)
    (h : (gcAction retained holdSeconds now r).row now r = none) :
    retained = false ∧ ∃ d, r.droppedAt = some d ∧ d ≤ now - holdSeconds := by
  unfold gcAction at h
  split at h
  · split at h <;> cases h
  · refine ⟨Bool.eq_false_of_not_eq_true ‹_›, ?_⟩
    split at h
    · rename_i hdel
      rcases hdel with hle | hexpired
      · omega
      · obtain ⟨d, hd, hge⟩ := (Option.any_eq_true _ _).mp hexpired
        refine ⟨d, hd, ?_⟩
        have := of_decide_eq_true hge
        omega
    · split at h <;> cases h

/-! ## The system -/

/-- What is remembered. -/
inductive HoldEvent
  /-- A pass evaluated the row of a key. -/
  | evaluated (pass : ℕ) (now : Int) (k : UrlKey) (retained : Bool) (action : GcAction)
  /-- An operation put, touched, warmed or seeded the row. -/
  | established (k : UrlKey)
  deriving DecidableEq

/-- The row was retained or established. -/
def HoldEvent.Keeps (k : UrlKey) : HoldEvent → Prop
  | .evaluated _ _ k' retained _ => k' = k ∧ retained = true
  | .established k' => k' = k

/-- The database, the pass that goes on, its cursor, and the log, the latest event first. -/
structure HoldState where
  db : Db
  pass : ℕ
  cursor : Option UrlKey
  log : List HoldEvent

/-- What happens next. -/
inductive HoldMove
  /-- A pass begins behind a cursor: at the first row, or where the last one was cut short. -/
  | start (after : Option UrlKey)
  /-- The next batch of the pass. -/
  | batch (batchSize ttlSeconds holdSeconds maxVersions now : Int)
  /-- Another operation. -/
  | write (op : Op)

/-- The evaluations of a batch. -/
def HoldState.evaluations (s : HoldState) (sort : SortSlice Str)
    (batchSize ttlSeconds holdSeconds maxVersions now : Int) : List HoldEvent :=
  (s.db.gcPage batchSize (now - ttlSeconds) s.cursor).map fun r =>
    let retained := urlPathRetained sort (now - ttlSeconds) (clampVersions maxVersions) s.db r
    .evaluated s.pass now r.key retained (gcAction retained holdSeconds now r)

/-- The state after a batch that is not refused. -/
def HoldState.evaluate (s : HoldState) (sort : SortSlice Str)
    (batchSize ttlSeconds holdSeconds maxVersions now : Int) : HoldState where
  db := gcRows (urlPathRetained sort (now - ttlSeconds) (clampVersions maxVersions)) holdSeconds now
    (s.db.gcPage batchSize (now - ttlSeconds) s.cursor) s.db
  pass := s.pass
  cursor :=
    (s.db.gcPage batchSize (now - ttlSeconds) s.cursor).foldl (fun _ r => some r.key) s.cursor
  log := (s.evaluations sort batchSize ttlSeconds holdSeconds maxVersions now).reverse ++ s.log

/-- A move; a failed transaction changes nothing. -/
def HoldState.step (sort : SortSlice Str) (s : HoldState) : HoldMove → Option HoldState
  | .start after => some { s with pass := s.pass + 1, cursor := after }
  | .batch batchSize ttlSeconds holdSeconds maxVersions now =>
    match runURLPathGCBatchTx sort batchSize ttlSeconds holdSeconds maxVersions s.cursor now
      s.db with
    | .ok (res, db) =>
      let events := s.evaluations sort batchSize ttlSeconds holdSeconds maxVersions now
      some { s with db := db, cursor := res.last, log := events.reverse ++ s.log }
    | .error _ => some s
  | .write op =>
    if op.isPathGc then none
    else match op.tx s.db with
      | .ok (_, db) => some { s with
          db := db, log := (op.establishes s.db).map .established ++ s.log }
      | .error _ => some s

/-- Any moves from a database without stamps. -/
def holdSys (sort : SortSlice Str) : Sys HoldState HoldMove where
  init s := (∀ r ∈ s.db.urlPaths, r.droppedAt = none) ∧ s.log = []
  step := HoldState.step sort

/-! ## Stamps and the log -/

namespace HoldState

/-- The row was evaluated in an earlier pass, or in this one and is not behind the cursor any
more. -/
def Passed (s : HoldState) (pass : ℕ) (k : UrlKey) : Prop :=
  pass < s.pass ∨ (pass = s.pass ∧ ∃ c, s.cursor = some c ∧ c.before k = false)

/-- An evaluation did not retain the row and stamped it, and nothing has kept it since. -/
def Stamped (s : HoldState) (k : UrlKey) (d : Int) : Prop :=
  Since (fun e => ∃ pass, s.Passed pass k ∧ e = .evaluated pass d k false .stamp)
    (HoldEvent.Keeps k) s.log

/-- Every stamp was set so. -/
def Held (s : HoldState) : Prop :=
  ∀ r ∈ s.db.urlPaths, ∀ d, r.droppedAt = some d → s.Stamped r.key d

end HoldState

section Batch

variable {sort : SortSlice Str} {s s' : HoldState}
variable {batchSize ttlSeconds holdSeconds maxVersions now : Int}

theorem step_batch
    (h : s.step sort (.batch batchSize ttlSeconds holdSeconds maxVersions now) = some s') :
    s' = s ∨ s' = s.evaluate sort batchSize ttlSeconds holdSeconds maxVersions now := by
  rw [HoldState.step, runURLPathGCBatchTx_eq] at h
  by_cases hsize : 1 ≤ batchSize
  · by_cases httl : 0 < ttlSeconds
    · obtain ⟨res, hrun, -, hlast⟩ := runURLPathGCBatch_ok
        (urlPathRetained sort (now - ttlSeconds) (clampVersions maxVersions)) holdSeconds s.cursor
        now s.db hsize httl
      rw [hrun] at h
      cases h
      exact .inr (by rw [hlast]; rfl)
    · have hfail : runURLPathGCBatch (urlPathRetained sort (now - ttlSeconds)
          (clampVersions maxVersions)) batchSize ttlSeconds holdSeconds s.cursor now s.db = _ :=
        Tx.Fails.ensured hsize (Tx.Fails.bind (Tx.Fails.ensure httl))
      rw [hfail] at h
      cases h
      exact .inl rfl
  · have hfail : runURLPathGCBatch (urlPathRetained sort (now - ttlSeconds)
        (clampVersions maxVersions)) batchSize ttlSeconds holdSeconds s.cursor now s.db = _ :=
      Tx.Fails.bind (Tx.Fails.ensure hsize)
    rw [hfail] at h
    cases h
    exact .inl rfl

variable {k : UrlKey} {r : UrlPath}

theorem cursor_gcPage (db : Db) (ttlCutoff : Int) (after : Option UrlKey)
    (hk : (∃ c, after = some c ∧ c.before k = false) ∨
      ∃ r ∈ db.gcPage batchSize ttlCutoff after, r.key = k) :
    ∃ c, (db.gcPage batchSize ttlCutoff after).foldl (fun _ r => some r.key) after = some c ∧
      c.before k = false := by
  have hsorted : (db.gcPage batchSize ttlCutoff after).Pairwise
      fun a b => a.key.before b.key = true :=
    (pairwise_inOrder before_strictTotal
      (db.urlPaths.nodup.sublist (List.filter_sublist.map UrlPath.key))).sublist
      (List.take_sublist _ _)
  refine before_strictTotal.cursor hsorted (fun c hc r hr => ?_) hk
  subst hc
  exact (mem_gcPending.mp (List.mem_of_mem_take hr)).2.1

theorem find_of_mem_gcPage {db : Db} {ttlCutoff : Int} {after : Option UrlKey}
    (hr : r ∈ db.gcPage batchSize ttlCutoff after) : db.urlPaths.find r.key = some r :=
  find_eq_some.mpr ⟨(mem_gcPending.mp (List.mem_of_mem_take hr)).1, rfl⟩

theorem eq_of_mem_gcPage {db : Db} {ttlCutoff : Int} {after : Option UrlKey} {x : UrlPath}
    (hx : x ∈ db.gcPage batchSize ttlCutoff after) (hr : r ∈ db.gcPage batchSize ttlCutoff after)
    (hk : x.key = r.key) : x = r :=
  eq_of_key (find_eq_some.mp (find_of_mem_gcPage hx)).1 (find_eq_some.mp (find_of_mem_gcPage hr)).1
    hk

theorem find_evaluate (hr : r ∈ s.db.gcPage batchSize (now - ttlSeconds) s.cursor) :
    (s.evaluate sort batchSize ttlSeconds holdSeconds maxVersions now).db.urlPaths.find r.key =
      (gcAction (urlPathRetained sort (now - ttlSeconds) (clampVersions maxVersions) s.db r)
        holdSeconds now r).row now r :=
  find_gcRows (retention sort (now - ttlSeconds) (clampVersions maxVersions))
    (gcPending_take s.db (now - ttlSeconds) s.cursor batchSize.toNat).1 hr (find_of_mem_gcPage hr)

theorem find_evaluate_of_notMem
    (h : k ∉ (s.db.gcPage batchSize (now - ttlSeconds) s.cursor).map UrlPath.key) :
    (s.evaluate sort batchSize ttlSeconds holdSeconds maxVersions now).db.urlPaths.find k =
      s.db.urlPaths.find k := find_gcRows_of_notMem h

theorem not_keeps_evaluations
    (h : ∀ r ∈ s.db.gcPage batchSize (now - ttlSeconds) s.cursor, r.key = k →
      urlPathRetained sort (now - ttlSeconds) (clampVersions maxVersions) s.db r = false) :
    ∀ e ∈ (s.evaluations sort batchSize ttlSeconds holdSeconds maxVersions now).reverse,
      ¬ e.Keeps k := by
  intro e he hkeeps
  obtain ⟨r, hr, rfl⟩ := List.mem_map.mp (List.mem_reverse.mp he)
  have := h r hr hkeeps.1
  rw [hkeeps.2] at this
  cases this

/-- A stamp stays accounted for while the batches that evaluate its row do not retain it. -/
theorem stamped_evaluate_of_stamped {d : Int} (h : s.Stamped k d)
    (hnot : ∀ r ∈ s.db.gcPage batchSize (now - ttlSeconds) s.cursor, r.key = k →
      urlPathRetained sort (now - ttlSeconds) (clampVersions maxVersions) s.db r = false) :
    (s.evaluate sort batchSize ttlSeconds holdSeconds maxVersions now).Stamped k d := by
  refine (h.mono ?_).append (not_keeps_evaluations hnot)
  rintro e ⟨pass, hpassed, he⟩
  refine ⟨pass, hpassed.imp_right fun hcur => ⟨hcur.1, ?_⟩, he⟩
  exact cursor_gcPage s.db (now - ttlSeconds) s.cursor (.inl hcur.2)

theorem stamped_evaluate (hr : r ∈ s.db.gcPage batchSize (now - ttlSeconds) s.cursor)
    (hret : urlPathRetained sort (now - ttlSeconds) (clampVersions maxVersions) s.db r = false)
    (hact : gcAction false holdSeconds now r = .stamp) :
    (s.evaluate sort batchSize ttlSeconds holdSeconds maxVersions now).Stamped r.key now := by
  have hnot : ∀ x ∈ s.db.gcPage batchSize (now - ttlSeconds) s.cursor, x.key = r.key →
      urlPathRetained sort (now - ttlSeconds) (clampVersions maxVersions) s.db x = false := by
    intro x hx hk
    rw [eq_of_mem_gcPage hx hr hk]
    exact hret
  refine .of_mem (not_keeps_evaluations hnot)
    (List.mem_reverse.mpr (List.mem_map.mpr ⟨r, hr, rfl⟩))
    ⟨s.pass, .inr ⟨rfl, cursor_gcPage s.db (now - ttlSeconds) s.cursor (.inr ⟨r, hr, rfl⟩)⟩, ?_⟩
  rw [hret]
  exact congrArg (HoldEvent.evaluated s.pass now r.key false) hact

theorem held_evaluate (hs : s.Held) :
    (s.evaluate sort batchSize ttlSeconds holdSeconds maxVersions now).Held := by
  intro r' hr' d hd
  have hfind := find_eq_some.mpr ⟨hr', rfl⟩
  by_cases hin : r'.key ∈ (s.db.gcPage batchSize (now - ttlSeconds) s.cursor).map UrlPath.key
  · obtain ⟨r, hr, hk⟩ := List.mem_map.mp hin
    rw [← hk, find_evaluate hr] at hfind
    rw [← hk]
    obtain ⟨hret, hdr | ⟨hact, rfl⟩⟩ := stamp_of_row hfind hd
    · refine stamped_evaluate_of_stamped (hs r (find_eq_some.mp (find_of_mem_gcPage hr)).1 d hdr)
        fun x hx hxk => ?_
      rw [eq_of_mem_gcPage hx hr hxk]
      exact hret
    · exact stamped_evaluate hr hret hact
  · rw [find_evaluate_of_notMem hin] at hfind
    refine stamped_evaluate_of_stamped (hs r' (find_eq_some.mp hfind).1 d hd) fun x hx hk => ?_
    exact absurd (hk ▸ List.mem_map_of_mem hx) hin

end Batch

theorem held_write (sort : SortSlice Str) {s s' : HoldState} {op : Op} (hs : s.Held)
    (h : s.step sort (.write op) = some s') : s'.Held := by
  rw [HoldState.step] at h
  by_cases hgc : op.isPathGc = true
  · rw [if_pos hgc] at h
    cases h
  · rw [if_neg hgc] at h
    cases htx : op.tx s.db with
    | error e =>
      rw [htx] at h
      cases h
      exact hs
    | ok res =>
      rw [htx] at h
      cases h
      obtain ⟨hstamps, hnone⟩ :=
        op.post_establishes (Bool.eq_false_of_not_eq_true hgc) s.db res.1 res.2 htx
      intro r' hr' d hd
      obtain ⟨r, hr, hk, hdr⟩ := hstamps r' hr' d hd
      rw [← hk]
      refine Since.append (hs r hr d hdr) fun e he hkeeps => ?_
      obtain ⟨k, hmem, rfl⟩ := List.mem_map.mp he
      have : r'.droppedAt = none := hnone k hmem r' hr' (hk.symm.trans hkeeps.symm)
      rw [hd] at this
      cases this

theorem held_inductive (sort : SortSlice Str) : (holdSys sort).Inductive HoldState.Held where
  init s h r hr d hd := by
    rw [h.1 r hr] at hd
    cases hd
  step s a s' hs hstep := by
    cases a with
    | start after =>
      cases hstep
      intro r hr d hd
      refine (hs r hr d hd).mono ?_
      rintro e ⟨pass, hpassed, he⟩
      refine ⟨pass, .inl ?_, he⟩
      rcases hpassed with hlt | ⟨rfl, -⟩
      · exact Nat.lt_succ_of_lt hlt
      · exact Nat.lt_succ_self _
    | batch =>
      rcases step_batch hstep with rfl | rfl
      · exact hs
      · exact held_evaluate hs
    | write op => exact held_write sort hs hstep

/-- The hold-grace. A batch with a positive hold window deletes a row only if it does not retain it
and an earlier pass, at least the window ago, did not retain it and stamped it; and since then no
evaluation has retained the row and no operation has put, touched, warmed or seeded it. -/
theorem hold_grace (sort : SortSlice Str) {s s' : HoldState} (hs : (holdSys sort).Reach s)
    {batchSize ttlSeconds holdSeconds maxVersions now : Int} (hhold : 0 < holdSeconds)
    (hstep : (holdSys sort).step s (.batch batchSize ttlSeconds holdSeconds maxVersions now) =
      some s')
    {r : UrlPath} (hr : r ∈ s.db.urlPaths) (hgone : s'.db.urlPaths.find r.key = none) :
    ¬ s.db.Retains sort (now - ttlSeconds) (clampVersions maxVersions) r ∧
      Since (fun e => ∃ pass t, pass < s.pass ∧ t ≤ now - holdSeconds ∧
          e = .evaluated pass t r.key false .stamp)
        (HoldEvent.Keeps r.key) s.log := by
  have hfind := find_eq_some.mpr ⟨hr, rfl⟩
  rcases step_batch hstep with rfl | rfl
  · rw [hgone] at hfind
    cases hfind
  · by_cases hin : r.key ∈ (s.db.gcPage batchSize (now - ttlSeconds) s.cursor).map UrlPath.key
    · obtain ⟨x, hx, hk⟩ := List.mem_map.mp hin
      obtain rfl : x = r := eq_of_key (find_eq_some.mp (find_of_mem_gcPage hx)).1 hr hk
      rw [find_evaluate hx] at hgone
      obtain ⟨hret, d, hd, hle⟩ := expired_of_row hhold hgone
      refine ⟨fun h => ?_, ((held_inductive sort).reach hs x hr d hd).mono ?_⟩
      · rw [urlPathRetained_iff.mpr h] at hret
        cases hret
      · rintro e ⟨pass, hpassed, he⟩
        refine ⟨pass, d, ?_, hle, he⟩
        rcases hpassed with hlt | ⟨-, c, hc, hbefore⟩
        · exact hlt
        · -- the page is behind the cursor
          have hafter := (mem_gcPending.mp (List.mem_of_mem_take hx)).2.1
          rw [hc, Option.all_some, hbefore] at hafter
          cases hafter
    · rw [find_evaluate_of_notMem hin, hfind] at hgone
      cases hgone

/-- One row that nobody has requested for long. -/
def idleState : HoldState :=
  ⟨{ Db.empty with
      urlPaths := ⟨[⟨⟨.http, ['h'], ['b']⟩, none, false, some 80, 0, none, none⟩], by decide⟩ },
    0, none, []⟩

/-- A pass stamps it, and the next pass begins. -/
def stampedState : HoldState :=
  ((holdSys mergeSlice).exec idleState [.batch 1 10 5 3 95, .start none]).getD idleState

/-- The batch of that pass. -/
def deletedState : HoldState :=
  ((holdSys mergeSlice).step stampedState (.batch 1 10 5 3 100)).getD idleState

theorem hold_grace_deletedState :
    ¬ stampedState.db.Retains mergeSlice 90 3
        ⟨⟨.http, ['h'], ['b']⟩, none, false, some 80, 0, none, some 95⟩ ∧
      Since (fun e => ∃ pass t, pass < 1 ∧ t ≤ 95 ∧
          e = .evaluated pass t ⟨.http, ['h'], ['b']⟩ false .stamp)
        (HoldEvent.Keeps ⟨.http, ['h'], ['b']⟩) stampedState.log := by
  have hrow : stampedState.db.urlPaths.find ⟨.http, ['h'], ['b']⟩ =
      some ⟨⟨.http, ['h'], ['b']⟩, none, false, some 80, 0, none, some 95⟩ := by decide +kernel
  have hgone : deletedState.db.urlPaths.find ⟨.http, ['h'], ['b']⟩ = none := by decide +kernel
  exact hold_grace mergeSlice
    (.exec ⟨by decide, rfl⟩ (eq_some_getD idleState (by decide +kernel))) (by decide)
    (eq_some_getD idleState (by decide +kernel)) (find_eq_some.mp hrow).1 hgone

end AptCacher.Cache
