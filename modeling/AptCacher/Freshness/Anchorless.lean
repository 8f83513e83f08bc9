import Mathlib.Data.List.Sort
import AptCacher.Aptpath.Sniff
import AptCacher.Cache.PathGc
import AptCacher.Freshness.Probe
import AptCacher.Spec.Sys

/-!
# The anchorless refresh

A flat suite for which upstream serves neither InRelease nor Release: its cached index rows are
asked for one by one, and the cached anchors that upstream no longer has are deleted. Others write to
the database all the time, so every write compares the row with the blob it was read with.

* `refreshAnchorlessRow`, `anchorlessRefresh`: the refresh, with its writes as pairs of databases. A
  write whose wait was given up is one of them if the writer makes it.
* `Compares`: a write touches only rows that still hold the blob they were read with.
* `refresh_leaves_none`: every write of a refresh compares; after a replaced index no anchor is
  left, unless its probe answered 200.
* `stale_release_kept`: a Release that upstream answers with an error page stays.
-/

namespace AptCacher

namespace Aptpath

/-- `SniffAnchorlessIndex`: whether the body passes, and whether there is a sniff for the name. -/
def sniffAnchorlessIndex (name head : Str) : Bool × Bool :=
  if flatIndexNames.contains name then (sniffFlatIndex name head, true)
  else if isContentsName name && name.contains '.' then
    (flatIndexMagic.any fun m => m.1.isSuffixOf name && m.2.isPrefixOf head, true)
  else (false, false)

end Aptpath

namespace Freshness

open Spec Cache Aptpath

/-! ## The refresh -/

/-- A `url_path` row as it was read before the probes. -/
structure ReadRow where
  key : UrlKey
  blobHash : Option Str
  etag : Option Str := none
  lastMod : Option Str := none
  deriving DecidableEq

/-- The row still holds the blob it was read with. -/
def ReadRow.Holds (r : ReadRow) (db : Db) : Prop :=
  (db.urlPaths.find r.key).map UrlPath.blobHash = some r.blobHash

instance ReadRow.decidableHolds (r : ReadRow) (db : Db) : Decidable (r.Holds db) :=
  inferInstanceAs (Decidable (_ = _))

inductive AnchorlessAnswer
  | unknown
  | kept
  | replaced
  | deleted
  | dropped
  deriving DecidableEq

/-- `answered`: a content answer. -/
def AnchorlessAnswer.answered : AnchorlessAnswer → Bool
  | .kept | .replaced | .deleted => true
  | _ => false

/-- How an index request ends. -/
inductive IndexAnswer
  /-- The wait for a body slot. -/
  | noSlot (err : ProbeErr)
  /-- `ErrConditionalBodyTooLarge`. -/
  | tooLarge
  | answer (a : Answer)

/-- What a request meets: its answer, what others do to the database before the pool write and
before the row's write, and how these end. -/
structure IndexTurn where
  answer : IndexAnswer
  beforePool : Db → Db := id
  poolErr : Option ProbeErr := none
  beforeWrite : Db → Db := id
  writeErr : Option ProbeErr := none
  /-- The error is that of a wait given up, and the writer makes the write all the same. -/
  abandoned : Bool := false
  now : Int := 0
  /-- The lifecycle context has ended. -/
  ended : Bool := false

/-- How a row's refresh ends, with its write to the row, if it made one: the database before and
after. -/
structure RowEnd where
  answer : AnchorlessAnswer
  err : Option ProbeErr
  db : Db
  writes : List (Db × Db) := []

/-- `RefreshURLPathBlob` of the row, and the answer if it is written and if it is not. -/
def IndexTurn.write (t : IndexTurn) (row : ReadRow) (new : Str) (yes : AnchorlessAnswer) (db : Db) :
    RowEnd :=
  let db := t.beforeWrite db
  let refreshed := refreshURLPathBlob row.key (row.blobHash.getD []) new t.now
  match t.writeErr with
  | some e =>
    if t.abandoned then
      let db' := refreshed.commit db
      { answer := .unknown, err := some e, db := db', writes := [(db, db')] }
    else { answer := .unknown, err := some e, db }
  | none =>
    match refreshed db with
    | .ok (updated, db') =>
      { answer := if updated then yes else .kept, err := none, db := db', writes := [(db, db')] }
    | .error _ => { answer := .unknown, err := some .other, db }

/-- The bytes of a body as text. -/
def text (b : Bytes) : Str := b.map fun x => Char.ofNat x.toNat

/-- The name of a row in its suite. -/
def Checker.nameOf (c : Checker) (row : ReadRow) : Str :=
  row.key.path.drop (c.suite.suitePath.length + 1)

def refreshAnchorlessRow (c : Checker) (row : ReadRow) (t : IndexTurn) (db : Db) : RowEnd :=
  let etag := row.etag.getD []
  let lastMod := row.lastMod.getD []
  match t.answer with
  | .noSlot e => { answer := .unknown, err := some e, db }
  | .tooLarge => { answer := .dropped, err := some .other, db }
  | .answer (.error e) =>
    if e = .status 404 ∨ e = .status 410 then { answer := .deleted, err := none, db }
    else { answer := .unknown, err := some e, db }
  | .answer (.ok res) =>
    if res.status = 304 ∧ (etag ≠ [] ∨ lastMod ≠ []) then { answer := .kept, err := none, db }
    else if res.status ≠ 200 then { answer := .unknown, err := some .unexpectedStatus, db }
    else
      let hash := hexOf (c.sha256 res.body)
      let sniff := sniffAnchorlessIndex (c.nameOf row) (text res.body)
      if !sniff.2 && some hash != row.blobHash then { answer := .dropped, err := some .other, db }
      else if sniff.2 && !sniff.1 then { answer := .unknown, err := some .other, db }
      else if some hash = row.blobHash then
        if etag = res.etag ∧ lastMod = res.lastModified then { answer := .kept, err := none, db }
        else t.write row hash .kept db
      else
        let db := t.beforePool db
        match t.poolErr with
        | some e => { answer := .unknown, err := some e, db }
        | none => t.write row hash .replaced ((putBlob hash res.body.length t.now).commit db)

/-- The counts of a refresh, its deletes, and its writes so far. -/
structure Tally where
  requests : ℕ := 0
  answered : ℕ := 0
  replaced : ℕ := 0
  answeredDeletes : ℕ := 0
  deletes : List ReadRow := []
  db : Db
  writes : List (Db × Db) := []
  cancelled : Bool := false

/-- One turn of the loop over the index rows; a shutdown ends the refresh. -/
def Tally.request (c : Checker) (s : Tally) (p : ReadRow × IndexTurn) : Tally :=
  if s.cancelled then s
  else
    let e := refreshAnchorlessRow c p.1 p.2 s.db
    let s := { s with requests := s.requests + 1, db := e.db, writes := s.writes ++ e.writes }
    if e.err = some .cancelled ∧ p.2.ended = true then { s with cancelled := true }
    else
      { s with
        answered := if e.answer.answered then s.answered + 1 else s.answered
        replaced := if e.answer = .replaced then s.replaced + 1 else s.replaced
        answeredDeletes := if e.answer = .deleted then s.answeredDeletes + 1 else s.answeredDeletes
        deletes :=
          if e.answer = .deleted ∨ e.answer = .dropped then s.deletes ++ [p.1] else s.deletes }

def anchorlessRank (name : Str) : ℕ :=
  if "Packages".toList.isPrefixOf name then 0 else if "Sources".toList.isPrefixOf name then 1 else 2

/-- The name of an anchor. -/
def AnchorFile.fileName : AnchorFile → Str
  | .inRelease => "InRelease".toList
  | .release => "Release".toList
  | .releaseGpg => "Release.gpg".toList

/-- What a refresh starts from: the suite's metadata rows and its cached anchors as they were read
before the probes, and the answers of the probes, which found no anchor. -/
structure Refresh (c : Checker) where
  rows : List ReadRow
  anchors : AnchorFile → Option ReadRow
  inRelease : Answer
  release : Answer
  absent : (classify inRelease (c.sniff .inRelease) false).cls = .absent ∧
    (classify release (c.sniff .release) false).cls = .absent
  /-- The anchors were looked up by their paths. -/
  keyed : ∀ f row, anchors f = some row → c.nameOf row = f.fileName

namespace Refresh

variable {c : Checker} (r : Refresh c)

/-- The cached index rows, Packages first. -/
def indexes : List ReadRow :=
  (r.rows.filter fun row =>
    (flatIndexNames.contains (c.nameOf row) || isContentsName (c.nameOf row)) &&
      row.blobHash.isSome).insertionSort fun a b =>
        anchorlessRank (c.nameOf a) ≤ anchorlessRank (c.nameOf b)

/-- The outcome of an anchor's probe. -/
def probe : AnchorFile → ProbeOutcome
  | .inRelease => classify r.inRelease (c.sniff .inRelease) false
  | _ => classify r.release (c.sniff .release) false

/-- The anchors to delete. -/
def anchorDeletes (answered : ℕ) : List ReadRow :=
  [AnchorFile.inRelease, .release].filterMap fun f =>
    (r.anchors f).filter fun _ =>
      (r.probe f).status == 404 || (r.probe f).status == 410 ||
        ((r.probe f).authDenied && decide (0 < answered))

/-- What the delete transaction meets. -/
structure DeleteTurn where
  before : Db → Db := id
  fails : Bool := false
  /-- It fails by a wait given up, and the writer makes the deletes all the same. -/
  abandoned : Bool := false
  now : Int := 0
  /-- The lifecycle context has ended. -/
  ended : Bool := false

/-- The transaction of the deletes. -/
def DeleteTurn.tx (t : DeleteTurn) (deletes : List ReadRow) : Tx Err Db ℕ :=
  deleteURLPathRows (deletes.map fun row => (row.key, row.blobHash)) t.now

/-- The rows to delete are deleted in one transaction, if there are any; how many there were. -/
def DeleteTurn.run (t : DeleteTurn) (deletes : List ReadRow) (db : Db) : Option (ℕ × Db) :=
  if deletes = [] then some (0, db) else if t.fails then none else (t.tx deletes db).toOption

/-- The write of deletes that the refresh takes for failed. -/
def DeleteTurn.late (t : DeleteTurn) (deletes : List ReadRow) (db : Db) : List (Db × Db) :=
  if t.fails && t.abandoned then [(db, (t.tx deletes).commit db)] else []

/-- How a refresh ends, with all its writes, and the database before and after the deletes if they
were reached and did not fail. -/
structure End where
  ending : AnchorlessEnd
  replaced : ℕ
  writes : List (Db × Db)
  deleted : Option (Db × Db)

/-- The requests of the refresh. -/
def requests (turns : ℕ → IndexTurn) (db : Db) : Tally :=
  (r.indexes.zipIdx.map fun p => (p.1, turns p.2)).foldl (Tally.request c) { db }

def anchorlessRefresh (turns : ℕ → IndexTurn) (last : DeleteTurn) (db : Db) : End :=
  let s := r.requests turns db
  if s.cancelled then ⟨.cancelled, s.replaced, s.writes, none⟩
  else
    let db := last.before s.db
    let deletes := s.deletes ++ r.anchorDeletes s.answered
    match last.run deletes db with
    | none =>
      let writes := s.writes ++ last.late deletes db
      if last.ended then ⟨.cancelled, s.replaced, writes, none⟩
      else if s.answered - s.answeredDeletes = 0 then ⟨.failed, s.replaced, writes, none⟩
      else ⟨.answered (0 < s.replaced), s.replaced, writes, none⟩
    | some (n, db') =>
      let writes := s.writes ++ [(db, db')]
      if 0 < s.requests ∧ s.answered = 0 then ⟨.failed, s.replaced, writes, some (db, db')⟩
      else ⟨.answered (0 < s.replaced + n), s.replaced, writes, some (db, db')⟩

/-! ## Writes that compare -/

/-- A row that was read before the probes. -/
def Read (row : ReadRow) : Prop := row ∈ r.rows ∨ ∃ f, r.anchors f = some row

/-- A write changes only rows that still hold the blob they were read with. -/
def Compares (w : Db × Db) : Prop :=
  ∀ k, w.2.urlPaths.find k ≠ w.1.urlPaths.find k → ∃ row, r.Read row ∧ row.key = k ∧ row.Holds w.1

end Refresh

theorem refreshURLPathBlob_find (k : UrlKey) (old new : Str) (now : Int) (db : Db) :
    Tx.Post (refreshURLPathBlob k old new now) db fun _ db' =>
      ∀ k', db'.urlPaths.find k' ≠ db.urlPaths.find k' →
        k = k' ∧ (db.urlPaths.find k).map UrlPath.blobHash = some (some old) := by
  unfold refreshURLPathBlob
  refine Tx.post_bind.mpr (Tx.post_ensure.mpr fun _ => ?_)
  refine Tx.post_bind.mpr (Tx.post_get.mpr ?_)
  cases hk : db.urlPaths.find k with
  | none => exact Tx.post_pure.mpr fun _ h => absurd rfl h
  | some u =>
    refine Tx.post_ite.mpr ⟨fun hold => ?_, fun _ => Tx.post_pure.mpr fun _ h => absurd rfl h⟩
    refine Tx.post_bind.mpr ?_
    unfold requireBlob
    refine Tx.post_bind.mpr (Tx.post_get.mpr (Tx.post_ensure.mpr fun _ => ?_))
    refine Tx.post_bind.mpr (Tx.post_modify.mpr (Tx.post_pure.mpr fun k' hne => ?_))
    refine ⟨by_contra fun hk' => hne ?_, by simp [hold]⟩
    rw [Table.find_updateAt, if_neg (Ne.symm hk')]

theorem deleteURLPathRows_find (rows : List (UrlKey × Option Str)) (now : Int) (db : Db) :
    Tx.Post (deleteURLPathRows rows now) db fun _ db' => ∀ k, db'.urlPaths.find k =
      if ∃ row ∈ rows, row.1 = k ∧ (db.urlPaths.find k).map UrlPath.blobHash = some row.2 then none
      else db.urlPaths.find k := by
  unfold deleteURLPathRows
  generalize (0 : ℕ) = n
  induction rows generalizing n db with
  | nil => exact Tx.post_pure.mpr fun k => by simp
  | cons row rows ih =>
    rw [List.foldlM_cons]
    -- the round of a row that is held, and the round of one that is not
    by_cases hheld : (db.urlPaths.find row.1).map UrlPath.blobHash = some row.2
    · obtain ⟨u, hu, hblob⟩ := Option.map_eq_some_iff.mp hheld
      refine Tx.post_bind.mpr (Tx.post_bind.mpr (Tx.post_get.mpr ?_))
      rw [hu]
      refine Tx.post_ite.mpr ⟨fun _ => ?_, fun hne => absurd hblob hne⟩
      refine Tx.post_bind.mpr fun _ db₁ hdel => Tx.post_pure.mpr ((ih db₁ (n + 1)).mono ?_)
      rw [deleteURLPathRowTx_ok _ _ (by simp [hu])] at hdel
      cases hdel
      rintro - db' hdb' k
      rw [hdb', Table.find_deleteAt]
      by_cases hk : k = row.1
      · subst hk
        simp [hheld]
      · simp only [if_neg hk, List.exists_mem_cons_iff, Ne.symm hk, false_and, false_or]
    · refine Tx.post_bind.mpr (Tx.post_bind.mpr (Tx.post_get.mpr ?_))
      have hskip : ∀ k, (∃ x ∈ row :: rows, x.1 = k ∧
          (db.urlPaths.find k).map UrlPath.blobHash = some x.2) ↔
          ∃ x ∈ rows, x.1 = k ∧ (db.urlPaths.find k).map UrlPath.blobHash = some x.2 := by
        intro k
        rw [List.exists_mem_cons_iff, or_iff_right]
        rintro ⟨rfl, h⟩
        exact hheld h
      simp only [hskip]
      cases hu : db.urlPaths.find row.1 with
      | none => exact Tx.post_pure.mpr (ih db n)
      | some u =>
        refine Tx.post_ite.mpr ⟨fun h => absurd (by simp [hu, h]) hheld, fun _ => ?_⟩
        exact Tx.post_pure.mpr (ih db n)

namespace Refresh

variable {c : Checker} {r : Refresh c} {row : ReadRow} {t : IndexTurn} {turns : ℕ → IndexTurn}
  {last : DeleteTurn} {db : Db}

theorem mem_indexes (h : row ∈ r.indexes) :
    row ∈ r.rows ∧ row.blobHash.isSome = true ∧
      (flatIndexNames.contains (c.nameOf row) || isContentsName (c.nameOf row)) = true := by
  obtain ⟨hrow, h⟩ := List.mem_filter.mp ((List.perm_insertionSort _ _).mem_iff.mp h)
  obtain ⟨hname, hblob⟩ := (Bool.and_eq_true _ _).mp h
  exact ⟨hrow, hblob, hname⟩

theorem compares_commit {α : Type} {m : Tx Err Db α}
    (h : ∀ a db', m db = .ok (a, db') → r.Compares (db, db')) : r.Compares (db, m.commit db) := by
  cases hm : m db with
  | error e =>
    rw [Tx.Fails.commit hm]
    exact fun k hne => absurd rfl hne
  | ok out =>
    rw [Tx.commit_of_ok hm]
    exact h _ _ hm

theorem compares_write (h : row ∈ r.indexes) (new : Str) (yes : AnchorlessAnswer) :
    ∀ w ∈ (t.write row new yes db).writes, r.Compares w := by
  obtain ⟨hrow, hblob, -⟩ := mem_indexes h
  obtain ⟨old, hold⟩ := Option.isSome_iff_exists.mp hblob
  have hrun : ∀ {updated db db'},
      refreshURLPathBlob row.key (row.blobHash.getD []) new t.now db = .ok (updated, db') →
      r.Compares (db, db') := fun hrun k hne => by
    obtain ⟨hk, hheld⟩ := refreshURLPathBlob_find _ _ _ _ _ _ _ hrun k hne
    refine ⟨row, .inl hrow, hk, hheld.trans (congrArg some ?_)⟩
    rw [hold, Option.getD_some]
  unfold IndexTurn.write
  dsimp only
  split
  · split
    · exact List.forall_mem_singleton.mpr (compares_commit fun _ _ => hrun)
    · exact List.forall_mem_nil _
  · split
    case h_2 => exact List.forall_mem_nil _
    case h_1 updated db' hok => exact List.forall_mem_singleton.mpr (hrun hok)

theorem compares_row (h : row ∈ r.indexes) :
    ∀ w ∈ (refreshAnchorlessRow c row t db).writes, r.Compares w := by
  unfold refreshAnchorlessRow
  dsimp only
  split
  · exact List.forall_mem_nil _
  · exact List.forall_mem_nil _
  · split <;> exact List.forall_mem_nil _
  · repeat' split
    all_goals first | exact compares_write h _ _ | exact List.forall_mem_nil _

/-- What the requests have done so far. -/
structure Going (r : Refresh c) (s : Tally) : Prop where
  compares : ∀ w ∈ s.writes, r.Compares w
  deletes : ∀ row ∈ s.deletes, row ∈ r.indexes
  answered : 0 < s.replaced → 0 < s.answered

theorem Going.request {s : Tally} {p : ReadRow × IndexTurn} (h : r.Going s) (hp : p.1 ∈ r.indexes) :
    r.Going (s.request c p) := by
  have hwrites : ∀ w ∈ s.writes ++ (refreshAnchorlessRow c p.1 p.2 s.db).writes, r.Compares w :=
    List.forall_mem_append.mpr ⟨h.compares, compares_row hp⟩
  unfold Tally.request
  dsimp only
  split
  · exact h
  split
  · exact ⟨hwrites, h.deletes, h.answered⟩
  · refine ⟨hwrites, ?_, ?_⟩
    · dsimp only
      split
      · exact List.forall_mem_append.mpr ⟨h.deletes, List.forall_mem_singleton.mpr hp⟩
      · exact h.deletes
    · dsimp only
      cases (refreshAnchorlessRow c p.1 p.2 s.db).answer with
      | unknown | dropped => exact h.answered
      | kept | replaced | deleted => exact fun _ => Nat.succ_pos _

theorem going_requests (turns : ℕ → IndexTurn) (db : Db) : r.Going (r.requests turns db) := by
  refine List.foldlRecOn (motive := r.Going) _ _
    ⟨List.forall_mem_nil _, List.forall_mem_nil _, fun h => absurd h (lt_irrefl 0)⟩ ?_
  intro s hs p hp
  obtain ⟨q, hq, rfl⟩ := List.mem_map.mp hp
  exact hs.request (List.fst_mem_of_mem_zipIdx hq)

/-! ## The deletes -/

theorem find_tx {deletes : List ReadRow} {n : ℕ} {db' : Db}
    (h : last.tx deletes db = .ok (n, db')) (k : UrlKey) :
    db'.urlPaths.find k =
      if ∃ row ∈ deletes, row.key = k ∧ row.Holds db then none else db.urlPaths.find k := by
  rw [deleteURLPathRows_find _ _ _ _ _ h k]
  simp only [List.mem_map, exists_exists_and_eq_and, ReadRow.Holds]
  exact if_congr (exists_congr fun row => and_congr_right fun _ =>
    and_congr_right fun hk => by rw [hk]) rfl rfl

theorem find_deleted {deletes : List ReadRow} {n : ℕ} {db' : Db}
    (h : last.run deletes db = some (n, db')) (k : UrlKey) :
    db'.urlPaths.find k =
      if ∃ row ∈ deletes, row.key = k ∧ row.Holds db then none else db.urlPaths.find k := by
  unfold DeleteTurn.run at h
  split at h
  case isTrue hnil =>
    cases h
    simp [hnil]
  case isFalse =>
  split at h
  · cases h
  · cases hr : last.tx deletes db with
    | error e => rw [hr] at h; cases h
    | ok out =>
      rw [hr] at h
      cases h
      exact find_tx hr k

/-- What the deletes leave compares, as far as they change only rows to delete. -/
theorem Going.compares_deletes {s : Tally} (h : r.Going s) {db' : Db}
    (hfind : ∀ k, db'.urlPaths.find k =
      if ∃ row ∈ s.deletes ++ r.anchorDeletes s.answered, row.key = k ∧ row.Holds db then none
      else db.urlPaths.find k) : r.Compares (db, db') := by
  intro k hne
  obtain ⟨row, hrow, hk, hheld⟩ := not_not.mp (mt (fun hno => (hfind k).trans (if_neg hno)) hne)
  refine ⟨row, ?_, hk, hheld⟩
  rcases List.mem_append.mp hrow with hrow | hrow
  · exact .inl (mem_indexes (h.deletes row hrow)).1
  · obtain ⟨f, -, hf⟩ := List.mem_filterMap.mp hrow
    exact .inr ⟨f, (Option.filter_eq_some_iff.mp hf).1⟩

theorem Going.compares_late {s : Tally} (h : r.Going s) :
    ∀ w ∈ s.writes ++ last.late (s.deletes ++ r.anchorDeletes s.answered) db, r.Compares w := by
  refine List.forall_mem_append.mpr ⟨h.compares, ?_⟩
  unfold DeleteTurn.late
  split
  · exact List.forall_mem_singleton.mpr
      (compares_commit fun _ _ hok => h.compares_deletes (find_tx hok))
  · exact List.forall_mem_nil _

theorem classify_absent {a : Answer} {sniff : Bytes → Bool}
    (h : (classify a sniff false).cls = .absent) :
    (classify a sniff false).status = 200 ∨ (classify a sniff false).status = 404 ∨
      (classify a sniff false).status = 410 ∨ (classify a sniff false).authDenied = true := by
  unfold classify at h ⊢
  split at h
  · split at h
    case isTrue hcode => rcases hcode with rfl | rfl | rfl | rfl <;> simp [ProbeOutcome.authDenied]
    case isFalse => cases h
  · cases h
  · split at h
    · cases h
    split at h
    · simp_all
    split at h <;> cases h

/-- An anchor goes exactly if its probe did not answer 200, once an index was replaced. -/
theorem mem_anchorDeletes {n : ℕ} (hn : 0 < n) (row : ReadRow) : row ∈ r.anchorDeletes n ↔
    ∃ f, f ≠ .releaseGpg ∧ r.anchors f = some row ∧ (r.probe f).status ≠ 200 := by
  have hgoes : ∀ f, ((r.probe f).status == 404 || (r.probe f).status == 410 ||
      ((r.probe f).authDenied && decide (0 < n))) = true ↔ (r.probe f).status ≠ 200 := by
    intro f
    have habs : (r.probe f).status = 200 ∨ (r.probe f).status = 404 ∨
        (r.probe f).status = 410 ∨ (r.probe f).authDenied = true := by
      cases f with
      | inRelease => exact classify_absent r.absent.1
      | release | releaseGpg => exact classify_absent r.absent.2
    simp only [ProbeOutcome.authDenied, Bool.or_eq_true, Bool.and_eq_true, beq_iff_eq,
      decide_eq_true_eq] at habs ⊢
    omega
  simp only [anchorDeletes, List.mem_filterMap, Option.filter_eq_some_iff, hgoes]
  constructor
  · rintro ⟨f, hf, hrow, hs⟩
    exact ⟨f, by rintro rfl; simp at hf, hrow, hs⟩
  · rintro ⟨f, hf, hrow, hs⟩
    exact ⟨f, by cases f <;> simp_all, hrow, hs⟩

theorem index_ne_anchor {f : AnchorFile} (h : row ∈ r.indexes) : c.nameOf row ≠ f.fileName := by
  intro hname
  have hindex := (mem_indexes h).2.2
  rw [hname] at hindex
  cases f <;> exact absurd hindex (by decide)

theorem fileName_inj {f g : AnchorFile} (h : f.fileName = g.fileName) : f = g := by
  cases f <;> cases g <;> first | rfl | exact absurd h (by decide)

theorem holds_deleted {s : Tally} (hs : r.Going s) (hreplaced : 0 < s.replaced) {n : ℕ} {db' : Db}
    (h : last.run (s.deletes ++ r.anchorDeletes s.answered) db = some (n, db')) {f : AnchorFile}
    (hf : f ≠ .releaseGpg) (hrow : r.anchors f = some row) :
    row.Holds db' ↔ (r.probe f).status = 200 ∧ row.Holds db := by
  have hmem := mem_anchorDeletes (r := r) (hs.answered hreplaced)
  have hfind := find_deleted h row.key
  unfold ReadRow.Holds at hfind ⊢
  rw [hfind]
  constructor
  · intro hheld
    split at hheld
    case isTrue => cases hheld
    case isFalse hno =>
      refine ⟨by_contra fun hst => hno ⟨row, ?_, rfl, hheld⟩, hheld⟩
      exact List.mem_append_right _ ((hmem row).mpr ⟨f, hf, hrow, hst⟩)
  · rintro ⟨hst, hheld⟩
    rw [if_neg]
    · exact hheld
    rintro ⟨d, hd, hk, -⟩
    have hname : c.nameOf d = f.fileName := by
      rw [← r.keyed f row hrow, Checker.nameOf, Checker.nameOf, hk]
    rcases List.mem_append.mp hd with hd | hd
    · exact index_ne_anchor (hs.deletes d hd) hname
    · obtain ⟨g, -, hg, hg200⟩ := (hmem d).mp hd
      obtain rfl : g = f := fileName_inj ((r.keyed g d hg).symm.trans hname)
      exact hg200 hst

end Refresh

/-- Every write of a refresh compares. If an index row was replaced and the deletes did not fail, no
cached InRelease or Release holds the blob it was read with, exactly if none of those whose probe
answered 200 held it before the deletes. -/
theorem refresh_leaves_none (c : Checker) (r : Refresh c) (turns : ℕ → IndexTurn)
    (last : Refresh.DeleteTurn) (db : Db) :
    (∀ w ∈ (r.anchorlessRefresh turns last db).writes, r.Compares w) ∧
    ∀ pre post, (r.anchorlessRefresh turns last db).deleted = some (pre, post) →
      0 < (r.anchorlessRefresh turns last db).replaced →
      ((∀ f row, f ≠ .releaseGpg → r.anchors f = some row → ¬ row.Holds post) ↔
        ∀ f row, f ≠ .releaseGpg → r.anchors f = some row → (r.probe f).status = 200 →
          ¬ row.Holds pre) := by
  have hs := Refresh.going_requests (r := r) turns db
  unfold Refresh.anchorlessRefresh
  dsimp only
  split
  · exact ⟨hs.compares, fun _ _ h => by cases h⟩
  split
  · split
    · exact ⟨hs.compares_late, fun _ _ h => by cases h⟩
    · split <;> exact ⟨hs.compares_late, fun _ _ h => by cases h⟩
  case h_2 n db' hdel =>
    have hwrites : ∀ w ∈ (r.requests turns db).writes ++
        [(last.before (r.requests turns db).db, db')], r.Compares w :=
      List.forall_mem_append.mpr ⟨hs.compares,
        List.forall_mem_singleton.mpr (hs.compares_deletes (Refresh.find_deleted hdel))⟩
    have hleft : 0 < (r.requests turns db).replaced →
        ((∀ f row, f ≠ .releaseGpg → r.anchors f = some row → ¬ row.Holds db') ↔
          ∀ f row, f ≠ .releaseGpg → r.anchors f = some row → (r.probe f).status = 200 →
            ¬ row.Holds (last.before (r.requests turns db).db)) := by
      intro hreplaced
      refine forall₂_congr fun f row => forall₂_congr fun hf hrow => ?_
      rw [Refresh.holds_deleted hs hreplaced hdel hf hrow, not_and]
    split
    all_goals
      refine ⟨hwrites, fun pre post h => ?_⟩
      cases h
      exact hleft

/-! ## Runs -/

/-- No body passes its sniff; a hash is made of the length. -/
def flatChecker : Checker where
  suite := ⟨.https, "h".toList, "/r".toList⟩
  flat := true
  cooldown := 0
  refresh := 0
  sha256 b := List.replicate 32 b.length.toUInt8
  sniff _ _ := false
  tooLarge _ := false

/-- A cached file of the suite, with an empty body. -/
def cachedFile (name : String) : ReadRow where
  key := ⟨.https, "h".toList, "/r/".toList ++ name.toList⟩
  blobHash := some (hexOf (flatChecker.sha256 []))

/-- The index and the Release are cached. -/
def flatDb : Db :=
  ["Packages", "Release"].foldl (fun db name => (putURLPath
    ⟨(cachedFile name).key, (cachedFile name).blobHash, true, none, 1, some 0, none⟩).commit db)
    ((putBlob (hexOf (flatChecker.sha256 [])) 0 0).commit Db.empty)

/-- The cached anchors. -/
def flatAnchors (f : AnchorFile) : Option ReadRow :=
  if f = .release then some (cachedFile "Release") else none

theorem flatAnchors_name (f : AnchorFile) (row : ReadRow) (h : flatAnchors f = some row) :
    flatChecker.nameOf row = f.fileName := by
  obtain ⟨rfl, hrow⟩ := Option.ite_none_right_eq_some.mp h
  cases hrow
  decide +kernel

/-- Upstream has no InRelease, and this answer for the Release. -/
def flatRefresh (release : Answer)
    (h : (classify release (flatChecker.sniff .release) false).cls = .absent) :
    Refresh flatChecker where
  rows := [cachedFile "Packages", cachedFile "Release"]
  anchors := flatAnchors
  inRelease := .error (.status 404)
  release := release
  absent := ⟨rfl, h⟩
  keyed := flatAnchors_name

/-- The index has changed. -/
def newIndex (_ : ℕ) : IndexTurn :=
  { answer := .answer (.ok ⟨200, "Package: a".toUTF8.toList, [], []⟩) }

/-- The Release is gone upstream: it is deleted. -/
theorem refresh_leaves_none_gone :
    ∃ pre post, ((flatRefresh (.error (.status 404)) rfl).anchorlessRefresh newIndex {}
        flatDb).deleted = some (pre, post) ∧ ¬ (cachedFile "Release").Holds post := by
  have hdel := eq_some_getD (flatDb, flatDb)
    (o := ((flatRefresh (.error (.status 404)) rfl).anchorlessRefresh newIndex {} flatDb).deleted)
    (by decide +kernel)
  refine ⟨_, _, hdel, ((refresh_leaves_none _ _ _ _ _).2 _ _ hdel (by decide +kernel)).mpr ?_
    .release _ (by decide) rfl⟩
  intro f row hf hrow hst
  cases f with
  | release => exact absurd hst (by decide)
  | inRelease | releaseGpg => cases hrow

/-- Upstream answers an error page for the Release: the index is replaced and the Release stays. -/
theorem stale_release_kept :
    ((flatRefresh (.ok ⟨200, "<html>".toUTF8.toList, [], []⟩) rfl).anchorlessRefresh newIndex {}
      flatDb).replaced = 1 ∧
    (((flatRefresh (.ok ⟨200, "<html>".toUTF8.toList, [], []⟩) rfl).anchorlessRefresh newIndex {}
      flatDb).deleted.any fun w => decide ((cachedFile "Release").Holds w.2)) = true := by
  decide +kernel

end Freshness
end AptCacher
