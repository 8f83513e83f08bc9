import AptCacher.Cache.Retention
import AptCacher.Spec.Sweep

/-!
# The pass over the cached paths

`RunURLPathGCBatch` evaluates a page of `url_path` rows behind a cursor; the pass calls it until it
scans no row. A row is kept, has its hold-grace stamp set or cleared, or is deleted.

* `runURLPathGCBatchTx`: the batch with the rankings it remembers; `runURLPathGCBatchTx_eq`: it is
  the batch whose rule is evaluated anew for each row.
* `gcAction`, `GcAction.run`: what happens to a row.
* `pathSweep`: an action leaves the rows behind the cursor pending as they were.
* `Db.gcOnce`: every row evaluated once, all against the same database.
* `paged_url_path_gc`: the pass is that, for every page size.
-/

namespace AptCacher.Cache

open Spec Table Ranking

/-! ## The batch and the pass -/

/-- One row of the batch, with the rankings so far. -/
def gcURLPathRowTx (sort : SortSlice Str) (ttlCutoff maxVersions holdSeconds now : Int)
    (st : URLPathGCBatchResult × TopNCache) (r : UrlPath) :
    Tx (URLPathGCBatchResult × TopNCache) := do
  let (retained, cache) := urlPathRetainedTx sort ttlCutoff maxVersions (← get) st.2 r
  let res ← gcURLPathRow (fun _ _ => retained) holdSeconds now st.1 r
  pure (res, cache)

/-- A recent row without a stamp: the batch does not read it. -/
def UrlPath.prefiltered (ttlCutoff : Int) (r : UrlPath) : Bool :=
  r.lastRequestedAt.any (ttlCutoff ≤ ·) && r.droppedAt.isNone

/-- The rows behind the cursor that the batch reads, in the order of their keys. -/
def Db.gcPending (db : Db) (ttlCutoff : Int) (after : Option UrlKey) : List UrlPath :=
  inOrder UrlKey.before UrlPath.key (db.urlPaths.select fun r =>
    after.all (fun a => a.before r.key) && !r.prefiltered ttlCutoff)

/-- `RunURLPathGCBatch`. -/
def runURLPathGCBatchTx (sort : SortSlice Str)
    (batchSize ttlSeconds holdSeconds maxVersions : Int) (after : Option UrlKey) (now : Int) :
    Tx URLPathGCBatchResult := do
  Tx.ensure (1 ≤ batchSize) .invalidArgument
  Tx.ensure (0 < ttlSeconds) .invalidArgument
  let rows := ((← get).gcPending (now - ttlSeconds) after).take batchSize.toNat
  let (res, _) ← rows.foldlM
    (gcURLPathRowTx sort (now - ttlSeconds) (clampVersions maxVersions) holdSeconds now)
    (⟨0, 0, 0, 0, after⟩, [])
  pure res

/-- A call of the pass, with the rows that it evaluates. -/
def urlPathCall (sort : SortSlice Str) (batchSize ttlSeconds holdSeconds maxVersions now : Int)
    (after : Option UrlKey) : Tx (Nat × List UrlPath × Option UrlKey) := do
  let rows := ((← get).gcPending (now - ttlSeconds) after).take batchSize.toNat
  let res ← runURLPathGCBatchTx sort batchSize ttlSeconds holdSeconds maxVersions after now
  pure (res.scanned, rows, res.last)

/-- The pass from the first row on; whether it has ended, and the rows it evaluated. -/
def urlPathPass (sort : SortSlice Str) (batchSize ttlSeconds holdSeconds maxVersions now : Int)
    (fuel : Nat) : Tx (Bool × List UrlPath) :=
  pages (urlPathCall sort batchSize ttlSeconds holdSeconds maxVersions now) fuel none

/-! ## One row -/

/-- What becomes of a row. -/
inductive GcAction
  | keep
  | clear
  | stamp
  | delete
  deriving DecidableEq

/-- What becomes of a row by the verdict of the rule. -/
def gcAction (retained : Bool) (holdSeconds now : Int) (r : UrlPath) : GcAction :=
  if retained then if r.droppedAt.isSome then .clear else .keep
  else if holdSeconds ≤ 0 ∨ r.droppedAt.any (fun d => now - d ≥ holdSeconds) then .delete
  else if r.droppedAt.isNone then .stamp
  else .keep

/-- The row with the stamp `d`. -/
def UrlPath.dropped (d : Option Int) : Assign UrlPath.key :=
  ⟨fun r => { r with droppedAt := d }, fun _ => rfl⟩

/-- The blobs after a row with this blob is deleted. -/
def releaseBlob (now : Int) (blobs : Table Blob Str Blob.hash) :
    Option Str → Table Blob Str Blob.hash
  | some h => if h = [] then blobs else blobs.updateAt h (Blob.released now)
  | none => blobs

/-- The cached paths after the action on the row of a key. -/
def GcAction.paths (now : Int) (k : UrlKey) (t : Table UrlPath UrlKey UrlPath.key) :
    GcAction → Table UrlPath UrlKey UrlPath.key
  | .keep => t
  | .clear => t.updateAt k (UrlPath.dropped none)
  | .stamp => t.updateAt k (UrlPath.dropped (some now))
  | .delete => t.deleteAt k

/-- The blobs after the action on a row with this blob. -/
def GcAction.blobs (now : Int) (blobHash : Option Str) (blobs : Table Blob Str Blob.hash) :
    GcAction → Table Blob Str Blob.hash
  | .keep | .clear | .stamp => blobs
  | .delete => releaseBlob now blobs blobHash

/-- The action on a row of a database. -/
def GcAction.run (now : Int) (r : UrlPath) (db : Db) (a : GcAction) : Db :=
  { db with
    urlPaths := a.paths now r.key db.urlPaths, blobs := a.blobs now r.blobHash db.blobs }

variable {db : Db} {k : UrlKey} {r : UrlPath} {ttlCutoff : Int}

theorem deleteURLPathRowTx_ok (blobHash : Option Str) (now : Int)
    (h : (db.urlPaths.find k).isSome = true) :
    deleteURLPathRowTx k blobHash now db =
      .ok (⟨⟩, { db with
        urlPaths := db.urlPaths.deleteAt k, blobs := releaseBlob now db.blobs blobHash }) := by
  obtain ⟨r, hr⟩ := Option.isSome_iff_exists.mp h
  unfold deleteURLPathRowTx
  rw [Tx.get_bind, hr]
  cases blobHash with
  | none => rfl
  | some hash =>
    by_cases hnil : hash = []
    · subst hnil
      rfl
    · simp only [releaseBlob, if_neg hnil]
      rfl

theorem gcURLPathRow_ok (retained : Db → UrlPath → Bool) (holdSeconds now : Int)
    (res : URLPathGCBatchResult) (h : (db.urlPaths.find r.key).isSome = true) :
    ∃ res', gcURLPathRow retained holdSeconds now res r db =
        .ok (res', (gcAction (retained db r) holdSeconds now r).run now r db) ∧
      res'.scanned = res.scanned + 1 ∧ res'.last = some r.key := by
  unfold gcURLPathRow gcAction
  rw [Tx.get_bind]
  by_cases hret : retained db r = true
  · rw [if_pos hret, if_pos hret]
    by_cases hd : r.droppedAt.isSome = true
    · rw [if_pos hd, if_pos hd]
      exact ⟨_, rfl, rfl, rfl⟩
    · rw [if_neg hd, if_neg hd]
      exact ⟨_, rfl, rfl, rfl⟩
  · rw [if_neg hret, if_neg hret]
    by_cases hdel : holdSeconds ≤ 0 ∨ r.droppedAt.any (fun d => now - d ≥ holdSeconds) = true
    · rw [if_pos hdel, if_pos hdel]
      simp only [bind, StateT.bind, deleteURLPathRowTx_ok r.blobHash now h]
      exact ⟨_, rfl, rfl, rfl⟩
    · rw [if_neg hdel, if_neg hdel]
      by_cases hd : r.droppedAt.isNone = true
      · rw [if_pos hd, if_pos hd]
        exact ⟨_, rfl, rfl, rfl⟩
      · rw [if_neg hd, if_neg hd]
        exact ⟨_, rfl, rfl, rfl⟩

/-! ## The rows of a page -/

/-- The action on a row of the database, by the verdict of the rule there. -/
def gcRow (retained : Db → UrlPath → Bool) (holdSeconds now : Int) (r : UrlPath) (db : Db) : Db :=
  (gcAction (retained db r) holdSeconds now r).run now r db

/-- The actions on some rows, one after the other. -/
def gcRows (retained : Db → UrlPath → Bool) (holdSeconds now : Int) (rows : List UrlPath)
    (db : Db) : Db :=
  rows.foldl (fun db r => gcRow retained holdSeconds now r db) db

theorem find_run (a : GcAction) (now : Int) (db : Db) (h : k ≠ r.key) :
    (a.run now r db).urlPaths.find k = db.urlPaths.find k := by
  cases a with
  | keep => rfl
  | clear => exact find_updateAt.trans (if_neg h)
  | stamp => exact find_updateAt.trans (if_neg h)
  | delete => exact find_deleteAt.trans (if_neg h)

section Page

variable {holdSeconds now : Int} {rows : List UrlPath} {r : UrlPath} {db : Db}

/-- The rows behind the first one are still there after the action on it. -/
theorem present_of_cons (retained : Db → UrlPath → Bool)
    (hkeys : ((r :: rows).map UrlPath.key).Nodup)
    (hrows : ∀ x ∈ r :: rows, (db.urlPaths.find x.key).isSome = true) :
    ∀ x ∈ rows, ((gcRow retained holdSeconds now r db).urlPaths.find x.key).isSome = true := by
  intro x hx
  have hne : x.key ≠ r.key := fun heq =>
    (List.nodup_cons.mp hkeys).1 (heq ▸ List.mem_map_of_mem hx)
  rw [gcRow, find_run _ _ _ hne]
  exact hrows x (List.mem_cons_of_mem _ hx)

theorem foldlM_gcURLPathRow (retained : Db → UrlPath → Bool) (holdSeconds now : Int)
    (res : URLPathGCBatchResult) (hkeys : (rows.map UrlPath.key).Nodup)
    (hrows : ∀ x ∈ rows, (db.urlPaths.find x.key).isSome = true) :
    ∃ res', rows.foldlM (gcURLPathRow retained holdSeconds now) res db =
        .ok (res', gcRows retained holdSeconds now rows db) ∧
      res'.scanned = res.scanned + rows.length ∧
      res'.last = rows.foldl (fun _ r => some r.key) res.last := by
  induction rows generalizing db res with
  | nil => exact ⟨res, rfl, rfl, rfl⟩
  | cons r rows ih =>
    obtain ⟨res₁, hrun₁, hscan₁, hlast₁⟩ := gcURLPathRow_ok retained holdSeconds now
      res (hrows r List.mem_cons_self)
    obtain ⟨res₂, hrun₂, hscan₂, hlast₂⟩ :=
      ih res₁ (List.nodup_cons.mp hkeys).2 (present_of_cons retained hkeys hrows)
    refine ⟨res₂, ?_, ?_, ?_⟩
    · rw [List.foldlM_cons]
      simp only [bind, StateT.bind, hrun₁]
      exact hrun₂
    · rw [hscan₂, hscan₁, List.length_cons]
      omega
    · rw [hlast₂, hlast₁, List.foldl_cons]

theorem gcURLPathRow_congr {retained retained' : Db → UrlPath → Bool} (res : URLPathGCBatchResult)
    (h : retained db r = retained' db r) :
    gcURLPathRow retained holdSeconds now res r db =
      gcURLPathRow retained' holdSeconds now res r db := by
  unfold gcURLPathRow
  rw [Tx.get_bind, Tx.get_bind, h]

theorem gcURLPathRowTx_ok {sort : SortSlice Str} {ttlCutoff maxVersions : Int}
    {res res' : URLPathGCBatchResult} {db' : Db} {cache : TopNCache}
    (hcache : cache.Agrees sort maxVersions db)
    (h : gcURLPathRow (urlPathRetained sort ttlCutoff maxVersions) holdSeconds now res r db =
      .ok (res', db')) :
    ∃ cache', TopNCache.Agrees sort maxVersions db cache' ∧
      gcURLPathRowTx sort ttlCutoff maxVersions holdSeconds now (res, cache) r db =
        .ok ((res', cache'), db') := by
  have hspec : (urlPathRetainedTx sort ttlCutoff maxVersions db cache r).1 = _ ∧ _ :=
    urlPathRetainedTx_spec hcache r
  refine ⟨_, hspec.2, ?_⟩
  have hrow : gcURLPathRow (fun _ _ => (urlPathRetainedTx sort ttlCutoff maxVersions db cache r).1)
      holdSeconds now res r db = .ok (res', db') := (gcURLPathRow_congr res hspec.1).trans h
  unfold gcURLPathRowTx
  rw [Tx.get_bind]
  simp only [bind, StateT.bind, hrow]
  rfl

/-- The loop of a batch with the rankings that it remembers comes to the same. -/
theorem foldlM_gcURLPathRowTx (holdSeconds now : Int) (sort : SortSlice Str)
    (ttlCutoff maxVersions : Int) (res : URLPathGCBatchResult) {cache : TopNCache}
    (hkeys : (rows.map UrlPath.key).Nodup)
    (hrows : ∀ x ∈ rows, (db.urlPaths.find x.key).isSome = true)
    (hcache : cache.Agrees sort maxVersions db) :
    ∃ res' db' cache', rows.foldlM (gcURLPathRow (urlPathRetained sort ttlCutoff maxVersions)
        holdSeconds now) res db = .ok (res', db') ∧
      rows.foldlM (gcURLPathRowTx sort ttlCutoff maxVersions holdSeconds now) (res, cache) db =
        .ok ((res', cache'), db') := by
  induction rows generalizing db res cache with
  | nil => exact ⟨res, db, cache, rfl, rfl⟩
  | cons r rows ih =>
    obtain ⟨res₁, hrun₁, -, -⟩ := gcURLPathRow_ok
      (urlPathRetained sort ttlCutoff maxVersions) holdSeconds now res (hrows r List.mem_cons_self)
    obtain ⟨cache₁, hcache₁, hmemo₁⟩ := gcURLPathRowTx_ok hcache hrun₁
    -- no ranking reads the cached paths or the blobs
    obtain ⟨res₂, db₂, cache₂, hrun₂, hmemo₂⟩ := ih res₁
      (List.nodup_cons.mp hkeys).2
      (present_of_cons (urlPathRetained sort ttlCutoff maxVersions) hkeys hrows) hcache₁
    refine ⟨res₂, db₂, cache₂, ?_, ?_⟩
    · rw [List.foldlM_cons]
      simp only [bind, StateT.bind, hrun₁]
      exact hrun₂
    · rw [List.foldlM_cons]
      simp only [bind, StateT.bind, hmemo₁]
      exact hmemo₂

end Page

/-! ## The batch -/

theorem mem_gcPending {after : Option UrlKey} :
    r ∈ db.gcPending ttlCutoff after ↔ r ∈ db.urlPaths ∧ after.all (fun a => a.before r.key) ∧
      r.prefiltered ttlCutoff = false := by
  rw [Db.gcPending, mem_inOrder, mem_select]
  simp

theorem gcPending_nodup (db : Db) (ttlCutoff : Int) (after : Option UrlKey) :
    ((db.gcPending ttlCutoff after).map UrlPath.key).Nodup :=
  (perm_inOrder.map UrlPath.key).nodup_iff.mpr
    (db.urlPaths.nodup.sublist (List.filter_sublist.map UrlPath.key))

theorem gcPending_take (db : Db) (ttlCutoff : Int) (after : Option UrlKey) (n : ℕ) :
    (((db.gcPending ttlCutoff after).take n).map UrlPath.key).Nodup ∧
      ∀ x ∈ (db.gcPending ttlCutoff after).take n, (db.urlPaths.find x.key).isSome = true := by
  refine ⟨(gcPending_nodup db ttlCutoff after).sublist ((List.take_sublist _ _).map _), ?_⟩
  intro x hx
  rw [find_eq_some.mpr ⟨(mem_gcPending.mp (List.mem_of_mem_take hx)).1, rfl⟩]
  rfl

theorem runURLPathGCBatchTx_eq (sort : SortSlice Str)
    (batchSize ttlSeconds holdSeconds maxVersions : Int) (after : Option UrlKey) (now : Int) :
    runURLPathGCBatchTx sort batchSize ttlSeconds holdSeconds maxVersions after now =
      runURLPathGCBatch (urlPathRetained sort (now - ttlSeconds) (clampVersions maxVersions))
        batchSize ttlSeconds holdSeconds after now := by
  refine congrArg (Tx.ensure _ _ >>= ·) (funext fun _ => ?_)
  refine congrArg (Tx.ensure _ _ >>= ·) (funext fun _ => ?_)
  funext db
  rw [Tx.get_bind, Tx.get_bind]
  obtain ⟨hkeys, hrows⟩ := gcPending_take db (now - ttlSeconds) after batchSize.toNat
  obtain ⟨res, db', cache, hplain, hmemo⟩ := foldlM_gcURLPathRowTx holdSeconds now sort
    (now - ttlSeconds) (clampVersions maxVersions) ⟨0, 0, 0, 0, after⟩ hkeys hrows
    TopNCache.agrees_nil
  refine Eq.trans ?_ hplain.symm
  simp only [bind, StateT.bind, hmemo]
  rfl

/-- The page of a batch. -/
def Db.gcPage (db : Db) (batchSize ttlCutoff : Int) (after : Option UrlKey) : List UrlPath :=
  (db.gcPending ttlCutoff after).take batchSize.toNat

theorem runURLPathGCBatch_ok (retained : Db → UrlPath → Bool) {batchSize ttlSeconds : Int}
    (holdSeconds : Int) (after : Option UrlKey) (now : Int) (db : Db) (hsize : 1 ≤ batchSize)
    (httl : 0 < ttlSeconds) :
    ∃ res, runURLPathGCBatch retained batchSize ttlSeconds holdSeconds after now db =
        .ok (res, gcRows retained holdSeconds now
          (db.gcPage batchSize (now - ttlSeconds) after) db) ∧
      res.scanned = (db.gcPage batchSize (now - ttlSeconds) after).length ∧
      res.last =
        (db.gcPage batchSize (now - ttlSeconds) after).foldl (fun _ r => some r.key) after := by
  obtain ⟨hkeys, hrows⟩ := gcPending_take db (now - ttlSeconds) after batchSize.toNat
  obtain ⟨res, hrun, hscanned, hlast⟩ :=
    foldlM_gcURLPathRow retained holdSeconds now ⟨0, 0, 0, 0, after⟩ hkeys hrows
  refine ⟨res, ?_, hscanned.trans (Nat.zero_add _), hlast⟩
  rw [runURLPathGCBatch, Tx.ensure_bind hsize, Tx.ensure_bind httl, Tx.get_bind]
  exact hrun

/-! ## The sweep -/

theorem Str.lt_or_lt {a b : Str} (h : a ≠ b) : a < b ∨ b < a := by
  by_contra hlt
  rw [not_or, List.not_lt, List.not_lt] at hlt
  exact h (List.le_antisymm hlt.2 hlt.1)

theorem UrlKey.before_iff {a b : UrlKey} : a.before b = true ↔
    (a.scheme = .http ∧ b.scheme = .https) ∨
      (a.scheme = b.scheme ∧ (a.host < b.host ∨ (a.host = b.host ∧ a.path < b.path))) := by
  unfold UrlKey.before
  cases a.scheme <;> cases b.scheme <;> simp

theorem before_strictTotal : StrictTotal UrlKey.before where
  irrefl a := by
    rw [Bool.eq_false_iff]
    intro h
    rcases UrlKey.before_iff.mp h with ⟨hhttp, hhttps⟩ | ⟨-, hlt | ⟨-, hlt⟩⟩
    · rw [hhttp] at hhttps
      cases hhttps
    · exact List.lt_irrefl _ hlt
    · exact List.lt_irrefl _ hlt
  trans {a b c} hab hbc := by
    rw [UrlKey.before_iff] at hab hbc ⊢
    rcases hab with ⟨ha, hb⟩ | ⟨hs, hab⟩
    · rcases hbc with ⟨hb', -⟩ | ⟨hs', -⟩
      · rw [hb] at hb'
        cases hb'
      · exact .inl ⟨ha, hs' ▸ hb⟩
    · rcases hbc with ⟨hb, hc⟩ | ⟨hs', hbc⟩
      · exact .inl ⟨hs.trans hb, hc⟩
      · refine .inr ⟨hs.trans hs', ?_⟩
        rcases hab with hab | ⟨heq, hab⟩
        · rcases hbc with hbc | ⟨heq', -⟩
          · exact .inl (List.lt_trans hab hbc)
          · exact .inl (heq' ▸ hab)
        · rw [heq]
          exact hbc.imp_right fun h => ⟨h.1, List.lt_trans hab h.2⟩
  total {a b} hne := by
    rw [UrlKey.before_iff, UrlKey.before_iff]
    by_cases hs : a.scheme = b.scheme
    · by_cases hh : a.host = b.host
      · have hp : a.path ≠ b.path := fun hp => hne (by
          cases a
          cases b
          simp_all)
        rcases Str.lt_or_lt hp with hlt | hlt
        · exact .inl (.inr ⟨hs, .inr ⟨hh, hlt⟩⟩)
        · exact .inr (.inr ⟨hs.symm, .inr ⟨hh.symm, hlt⟩⟩)
      · rcases Str.lt_or_lt hh with hlt | hlt
        · exact .inl (.inr ⟨hs, .inl hlt⟩)
        · exact .inr (.inr ⟨hs.symm, .inl hlt⟩)
    · cases ha : a.scheme <;> cases hb : b.scheme <;> simp_all

/-- A selection that no row of a key is in is the same after the action on the row of that key. -/
theorem GcAction.select_paths (a : GcAction) (now : Int) {t : Table UrlPath UrlKey UrlPath.key}
    {p : UrlPath → Bool} (h : ∀ r : UrlPath, r.key = k → p r = false) :
    (a.paths now k t).select p = t.select p := by
  cases a with
  | keep => rfl
  | clear => exact select_updateAt h
  | stamp => exact select_updateAt h
  | delete => exact select_deleteAt h

/-- The action on the first pending row leaves the others pending behind its key. -/
theorem gcPending_run (a : GcAction) (now : Int) {after : Option UrlKey} {rest : List UrlPath}
    (h : db.gcPending ttlCutoff after = r :: rest) :
    (a.run now r db).gcPending ttlCutoff (some r.key) = rest := by
  have hafter : after.all (fun a => a.before r.key) = true :=
    (mem_gcPending.mp (h ▸ List.mem_cons_self)).2.1
  rw [← inOrder_tail before_strictTotal
    (db.urlPaths.nodup.sublist (List.filter_sublist.map UrlPath.key)) h]
  refine congrArg (inOrder UrlKey.before UrlPath.key) ?_
  refine (a.select_paths now fun x hx => ?_).trans ?_
  · rw [hx, Option.all_some, before_strictTotal.irrefl, Bool.false_and]
  · rw [select, List.filter_filter]
    refine List.filter_congr fun x _ => ?_
    rw [Option.all_some]
    -- a key behind that of `r` is behind the cursor
    cases hbefore : r.key.before x.key with
    | false => rfl
    | true =>
      have hx : after.all (fun a => a.before x.key) = true := by
        cases after with
        | none => rfl
        | some a => exact before_strictTotal.trans hafter hbefore
      rw [hx, Bool.true_and, Bool.true_and]

section Pass

variable {ttlCutoff : Int} (rule : RetentionRule ttlCutoff) (holdSeconds now : Int)

/-- The pass as a sweep over the rows that are not prefiltered. -/
def pathSweep : Sweep Db UrlKey UrlPath where
  key := UrlPath.key
  pending db after := db.gcPending ttlCutoff after
  act := gcRow rule.run holdSeconds now
  step h := gcPending_run _ now h

theorem page_urlPathCall (sort : SortSlice Str) {batchSize ttlSeconds : Int}
    (maxVersions : Int) (hsize : 1 ≤ batchSize) (httl : 0 < ttlSeconds) :
    (pathSweep (retention sort (now - ttlSeconds) (clampVersions maxVersions)) holdSeconds
      now).Page batchSize.toNat
        (urlPathCall sort batchSize ttlSeconds holdSeconds maxVersions now) := by
  intro after db
  obtain ⟨res, hrun, hscanned, hlast⟩ := runURLPathGCBatch_ok
    (urlPathRetained sort (now - ttlSeconds) (clampVersions maxVersions)) holdSeconds after now db
    hsize httl
  rw [← runURLPathGCBatchTx_eq] at hrun
  unfold urlPathCall
  rw [Tx.get_bind]
  simp only [bind, StateT.bind, hrun]
  show Except.ok ((res.scanned, _, res.last), _) = _
  rw [hscanned, hlast]
  rfl

/-! ## Every row at once -/

/-- Every row evaluated once, all against the same database. -/
def Db.gcOnce (db : Db) (retained : Db → UrlPath → Bool) (holdSeconds now : Int) : Db :=
  db.urlPaths.rows.foldl
    (fun db' r => (gcAction (retained db r) holdSeconds now r).run now r db') db

theorem gcRows_eq (rows : List UrlPath) (db : Db) :
    gcRows rule.run holdSeconds now rows db = rows.foldl
      (fun db' r => (gcAction (rule.run db r) holdSeconds now r).run now r db') db := by
  suffices h : ∀ db', rule.run db' = rule.run db →
      gcRows rule.run holdSeconds now rows db' = rows.foldl
        (fun db' r => (gcAction (rule.run db r) holdSeconds now r).run now r db') db' from
    h db rfl
  induction rows with
  | nil => exact fun _ _ => rfl
  | cons r rows ih =>
    intro db' hdb'
    have hverdict : gcRow rule.run holdSeconds now r db' =
        (gcAction (rule.run db r) holdSeconds now r).run now r db' := by rw [gcRow, hdb']
    show gcRows rule.run holdSeconds now rows (gcRow rule.run holdSeconds now r db') = _
    rw [List.foldl_cons, hverdict]
    exact ih _ ((rule.frame db' _ _).trans hdb')

end Pass

section Commute

variable {now : Int} {k k' : UrlKey} {t : Table UrlPath UrlKey UrlPath.key}

theorem GcAction.updateAt_paths (a : GcAction) (f : Assign UrlPath.key) (h : k ≠ k') :
    a.paths now k' (t.updateAt k f) = (a.paths now k' t).updateAt k f := by
  cases a with
  | keep => rfl
  | clear => exact updateAt_comm _ _ h
  | stamp => exact updateAt_comm _ _ h
  | delete => exact (deleteAt_updateAt f).symm

theorem GcAction.deleteAt_paths (a : GcAction) :
    a.paths now k' (t.deleteAt k) = (a.paths now k' t).deleteAt k := by
  cases a with
  | keep => rfl
  | clear => exact deleteAt_updateAt _
  | stamp => exact deleteAt_updateAt _
  | delete => exact deleteAt_comm

theorem GcAction.paths_comm (a a' : GcAction) (h : k ≠ k') :
    a'.paths now k' (a.paths now k t) = a.paths now k (a'.paths now k' t) := by
  cases a with
  | keep => rfl
  | clear => exact a'.updateAt_paths _ h
  | stamp => exact a'.updateAt_paths _ h
  | delete => exact a'.deleteAt_paths

theorem releaseBlob_cases (now : Int) (blobHash : Option Str) :
    (∀ blobs, releaseBlob now blobs blobHash = blobs) ∨
      ∃ h, ∀ blobs, releaseBlob now blobs blobHash = blobs.updateAt h (Blob.released now) := by
  cases blobHash with
  | none => exact .inl fun _ => rfl
  | some h =>
    by_cases hnil : h = []
    · exact .inl fun _ => if_pos hnil
    · exact .inr ⟨h, fun _ => if_neg hnil⟩

theorem releaseBlob_comm (now : Int) (blobs : Table Blob Str Blob.hash) (hash hash' : Option Str) :
    releaseBlob now (releaseBlob now blobs hash) hash' =
      releaseBlob now (releaseBlob now blobs hash') hash := by
  rcases releaseBlob_cases now hash with h | ⟨x, h⟩
  · rw [h, h]
  rcases releaseBlob_cases now hash' with h' | ⟨y, h'⟩
  · rw [h', h']
  by_cases hxy : x = y
  · rw [h, h, h', h', hxy]
  · rw [h, h, h', h', updateAt_comm _ _ hxy]

theorem GcAction.blobs_comm (a a' : GcAction) (hash hash' : Option Str)
    (blobs : Table Blob Str Blob.hash) :
    a'.blobs now hash' (a.blobs now hash blobs) = a.blobs now hash (a'.blobs now hash' blobs) := by
  cases a with
  | delete =>
    cases a' with
    | delete => exact releaseBlob_comm now blobs hash hash'
    | _ => rfl
  | _ => rfl

/-- The actions on different rows commute. -/
theorem GcAction.run_comm (a a' : GcAction) {r r' : UrlPath} (db : Db) (h : r.key ≠ r'.key) :
    a'.run now r' (a.run now r db) = a.run now r (a'.run now r' db) := by
  unfold GcAction.run
  rw [a.paths_comm a' h, a.blobs_comm a']

end Commute

theorem gcRows_gcPending (rule : RetentionRule ttlCutoff) (holdSeconds now : Int) (db : Db) :
    gcRows rule.run holdSeconds now (db.gcPending ttlCutoff none) db =
      db.gcOnce rule.run holdSeconds now := by
  rw [gcRows_eq]
  have hperm : (db.gcPending ttlCutoff none).Perm
      (db.urlPaths.rows.filter fun r => !r.prefiltered ttlCutoff) := perm_inOrder
  have hcomm : ∀ r ∈ db.gcPending ttlCutoff none, ∀ r' ∈ db.gcPending ttlCutoff none, ∀ db',
      (gcAction (rule.run db r') holdSeconds now r').run now r'
        ((gcAction (rule.run db r) holdSeconds now r).run now r db') =
      (gcAction (rule.run db r) holdSeconds now r).run now r
        ((gcAction (rule.run db r') holdSeconds now r').run now r' db') := by
    intro r hr r' hr' db'
    by_cases heq : r = r'
    · rw [heq]
    · refine GcAction.run_comm _ _ db' fun hkey => heq ?_
      exact eq_of_key (mem_gcPending.mp hr).1 (mem_gcPending.mp hr').1 hkey
  rw [hperm.foldl_eq' hcomm, List.foldl_filter, Db.gcOnce]
  -- a recent row is retained, and without a stamp nothing happens to it
  congr 1
  funext db' r
  by_cases hpre : r.prefiltered ttlCutoff = true
  · obtain ⟨hrecent, hnone⟩ := Bool.and_eq_true_iff.mp hpre
    rw [hpre, if_neg (by decide), rule.recent db r hrecent]
    rw [gcAction, if_pos rfl, if_neg (by rw [Option.isNone_iff_eq_none.mp hnone]; decide)]
    rfl
  · rw [if_pos (by rw [Bool.eq_false_of_not_eq_true hpre]; rfl)]

/-- The pass over the cached paths evaluates every row that is not prefiltered once, and comes to
the database that evaluating every row once gives, whatever the page size. -/
theorem paged_url_path_gc (sort : SortSlice Str)
    (batchSize ttlSeconds holdSeconds maxVersions now : Int) (db : Db)
    (hsize : 1 ≤ batchSize) (httl : 0 < ttlSeconds) :
    ∃ rows : List UrlPath, rows.Nodup ∧
      (∀ r, r ∈ rows ↔ r ∈ db.urlPaths ∧ r.prefiltered (now - ttlSeconds) = false) ∧
      ∀ fuel, rows.length < fuel →
        urlPathPass sort batchSize ttlSeconds holdSeconds maxVersions now fuel db =
          .ok ((true, rows), db.gcOnce
            (urlPathRetained sort (now - ttlSeconds) (clampVersions maxVersions))
            holdSeconds now) := by
  refine ⟨db.gcPending (now - ttlSeconds) none,
    List.Nodup.of_map _ (gcPending_nodup db (now - ttlSeconds) none), fun r => ?_,
    fun fuel hfuel => ?_⟩
  · rw [mem_gcPending]
    simp
  · rw [urlPathPass, Sweep.pages_done
      (page_urlPathCall holdSeconds now sort maxVersions hsize httl) (by omega) hfuel]
    exact congrArg (fun db' => Except.ok ((true, db.gcPending (now - ttlSeconds) none), db'))
      (gcRows_gcPending (retention sort (now - ttlSeconds) (clampVersions maxVersions)) holdSeconds
        now db)

/-- A recent row, a row to stamp and a row whose stamp is old enough. -/
def staleDb : Db :=
  { Db.empty with
    urlPaths := ⟨[⟨⟨.http, ['h'], ['a']⟩, none, false, some 95, 0, none, none⟩,
      ⟨⟨.http, ['h'], ['b']⟩, none, false, some 80, 0, none, none⟩,
      ⟨⟨.http, ['h'], ['c']⟩, none, false, some 80, 0, none, some 90⟩], by decide⟩ }

theorem paged_url_path_gc_staleDb :
    ∃ rows : List UrlPath, urlPathPass mergeSlice 1 10 5 3 100 (rows.length + 1) staleDb =
        .ok ((true, rows), staleDb.gcOnce (urlPathRetained mergeSlice 90 3) 5 100) ∧
      ∀ r ∈ staleDb.urlPaths, r ∈ rows ↔ r.key.path ≠ ['a'] := by
  obtain ⟨rows, -, hrows, hpass⟩ :=
    paged_url_path_gc mergeSlice 1 10 5 3 100 staleDb (by decide) (by decide)
  refine ⟨rows, hpass _ (by omega), fun r hr => ?_⟩
  rw [hrows, and_iff_right hr]
  revert r
  decide +kernel

end AptCacher.Cache
