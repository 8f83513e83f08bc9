import AptCacher.Cache.Adoption
import AptCacher.Spec.Sys

/-!
# Snapshot GC, the legacy audit, and the writer

The operations that delete or quarantine snapshots, and the list of all writer operations. The
single writer runs them one after another; a failed one is rolled back. `sys` is that system: its
runs are the sequences of operations, with any arguments and any clock readings.
-/

namespace AptCacher.Cache

open Spec Aptpath

/-! ## Snapshot GC -/

/-- Delete the rows of snapshots, children first. -/
def deleteSnapshots (ids : List Nat) : Tx Unit :=
  modify fun db =>
    { db with
      members := db.members.delete fun m => ids.contains m.snapshotId
      skipped := db.skipped.delete fun m => ids.contains m.snapshotId
      packageHashes := db.packageHashes.delete fun p => ids.contains p.snapshotId
      snapshots := db.snapshots.delete fun s => ids.contains s.id }

/-- A candidate whose adoption has stopped writing heartbeats. -/
def Db.orphan (db : Db) (cutoff : Int) (s : Snapshot) : Bool :=
  s.adoptedAt.isNone && s.heartbeatAt.any (· < cutoff) && !db.isCurrent s.id

/-- A snapshot that was current, is not retired and does not wait for the audit. -/
def Db.displaced (db : Db) (s : Snapshot) : Bool :=
  s.adoptedAt.isSome && s.retiredAt.isNone && !db.isCurrent s.id && (db.audit.find s.id).isNone

/-- `s'` comes before `s` in `ORDER BY adopted_at DESC, snapshot_id DESC`. -/
def Snapshot.newer (s' s : Snapshot) : Bool :=
  s.adoptedAt.getD 0 < s'.adoptedAt.getD 0 ||
    (s.adoptedAt.getD 0 = s'.adoptedAt.getD 0 && s.id < s'.id)

/-- The displaced snapshots of a suite after the `keep` newest: `ROW_NUMBER() > keep`. -/
def Db.surplus (db : Db) (keep : Nat) (s : Snapshot) : Bool :=
  db.displaced s &&
    keep ≤ db.snapshots.count fun s' => db.displaced s' && s'.key == s.key && s'.newer s

/-- `RunSnapshotGCBatch`: orphaned candidates and surplus displaced snapshots; how many of
each. -/
def runSnapshotGCBatch (batchSize staleGraceSeconds keepDisplaced now : Int) : Tx (Nat × Nat) := do
  Tx.ensure (1 ≤ batchSize) .invalidArgument
  Tx.ensure (0 ≤ keepDisplaced) .invalidArgument
  let db ← get
  let orphans := (db.snapshots.select (db.orphan (now - staleGraceSeconds))).take batchSize.toNat
  let displaced := (db.snapshots.select (db.surplus keepDisplaced.toNat)).take
    (batchSize.toNat - orphans.length)
  deleteSnapshots ((orphans ++ displaced).map Snapshot.id)
  pure (orphans.length, displaced.length)

def effectiveChunkRows (maxRows : Int) : Nat := if maxRows ≤ 0 then 10000 else maxRows.toNat

/-- The smallest id of a retired snapshot that is not current. -/
def Db.nextRetired (db : Db) : Option Nat :=
  ((db.snapshots.select fun s => s.retiredAt.isSome && !db.isCurrent s.id).map Snapshot.id).min?

/-- `RunRetiredSnapshotGCChunk`: up to `maxRows` child rows of one retired snapshot, table by
table, and the snapshot itself when none is left; how many snapshots went, and whether there is
more to do. -/
def runRetiredSnapshotGCChunk (maxRows : Int) : Tx (Nat × Bool) := do
  let db ← get
  match db.nextRetired with
  | none => pure (0, false)
  | some id =>
    let left := effectiveChunkRows maxRows
    let ms := (db.members.select fun m => m.snapshotId == id).take left
    let left := left - ms.length
    let ks := (db.skipped.select fun m => m.snapshotId == id).take left
    let left := left - ks.length
    let ps := (db.packageHashes.select fun p => p.snapshotId == id).take left
    let left := left - ps.length
    modify fun db =>
      { db with
        members := db.members.delete fun m => ms.contains m
        skipped := db.skipped.delete fun m => ks.contains m
        packageHashes := db.packageHashes.delete fun p => ps.contains p }
    if 0 < left then
      modify fun db =>
        { db with snapshots := db.snapshots.delete fun s => s.id == id && s.retiredAt.isSome }
      pure (1, true)
    else pure (0, true)

/-! ## The legacy trust audit -/

inductive LegacyAuditOutcome
  | keep
  | drop
  | quarantine
  | quarantineSigned
  deriving DecidableEq

structure LegacyAuditDecision where
  snapshotId : Nat
  outcome : LegacyAuditOutcome
  dropAnchorRows : Bool
  deriving DecidableEq

/-- `markSnapshotBaseTx`: mark the base of a signed snapshot whose suite is tracked. -/
def markSnapshotBaseTx (id : Nat) : Tx Unit := do
  let db ← get
  match db.snapshots.find id with
  | none => pure ()
  | some s =>
    if s.form ≠ .unsigned ∧ (db.suites.find s.key).isSome then
      markSignedSeen s.key.mark (s.adoptedAt.getD s.createdAt)
    else pure ()

/-- `quarantineSnapshotTx`: no suite points at the snapshot any more, its pins are released if
one did, and it is retired. -/
def quarantineSnapshotTx (id : Nat) (now : Int) : Tx Bool := do
  let wasCurrent := (← get).isCurrent id
  modify fun db =>
    { db with
      suites := db.suites.update (fun r => r.current == some id) (Suite.pointed none) }
  Tx.onlyIf (wasCurrent = true) (decrementSnapshotRefcountsTx id now)
  modify fun db =>
    { db with
      snapshots := db.snapshots.update (fun s => s.id == id && s.retiredAt.isNone)
        (Snapshot.retired now) }
  pure wasCurrent

/-- `dropAnchorBlobRowsTx`: the cached paths that hold the snapshot's single anchor. -/
def dropAnchorBlobRowsTx (id : Nat) (now : Int) : Tx Unit := do
  let db ← get
  match (db.snapshots.find id).bind Snapshot.inReleaseHash with
  | none => pure ()
  | some h =>
    if h = [] then pure ()
    else (db.urlPaths.select fun u => u.blobHash == some h).forM fun u =>
      deleteURLPathRowTx u.key (some h) now

/-- What a decision does to its snapshot. -/
def LegacyAuditDecision.act (now : Int) (d : LegacyAuditDecision) : Tx Unit :=
  match d.outcome with
  | .keep => markSnapshotBaseTx d.snapshotId
  | .drop => pure ()
  | .quarantine | .quarantineSigned => do
    let _ ← quarantineSnapshotTx d.snapshotId now
    Tx.onlyIf (d.dropAnchorRows = true) (dropAnchorBlobRowsTx d.snapshotId now)
    Tx.onlyIf (d.outcome = .quarantineSigned) (markSnapshotBaseTx d.snapshotId)

/-- One decision of `ApplyLegacyAuditDecisions`. -/
def applyLegacyAuditDecision (now : Int) (d : LegacyAuditDecision) : Tx Unit := do
  Tx.ensure (d.dropAnchorRows = true → d.outcome = .quarantine ∨ d.outcome = .quarantineSigned)
    .invalidArgument
  d.act now
  modify fun db => { db with audit := db.audit.deleteAt d.snapshotId }

def applyLegacyAuditDecisions (decisions : List LegacyAuditDecision) (now : Int) : Tx Unit :=
  decisions.forM (applyLegacyAuditDecision now)

def enqueueLegacyTrustAudit (ids : List Nat) : Tx Unit :=
  ids.forM fun id => modify fun db => { db with audit := db.audit.upsert id ⟨fun r => r, fun _ => rfl⟩ }

/-! ## The writer -/

/-- The writer operations with their arguments and clock readings. `PutRepresentation`,
`UpdateSuiteFreshness` and the operations on adoption failures write no column of `Db`. -/
inductive Op
  | putBlob (hash : Str) (size now : Int)
  | heartbeatBlobs (hashes : List Str) (now : Int)
  | runBlobGCBatch (batchSize graceSeconds now : Int)
  | putURLPath (u : UrlPath)
  | touchURLPath (k : UrlKey) (now : Int)
  | refreshURLPathBlob (k : UrlKey) (old new : Str) (now : Int)
  | evictURLPath (k : UrlKey) (now : Int)
  | deleteSuiteMetadataRows (ks : List UrlKey) (now : Int)
  | deleteURLPathRows (rows : List (UrlKey × Option Str)) (now : Int)
  | runURLPathGCBatch (retained : Db → UrlPath → Bool) (batchSize ttlSeconds holdSeconds : Int)
      (after : Option UrlKey) (now : Int)
  | markSignedSeenBatch (marks : List Marker)
  | deleteOrphanMarkers (keys : List MarkKey) (cutoff : Int)
  | reapIdleSuite (key : SuiteKey) (wantCurrent : Option Nat) (cutoff : Option Int) (now : Int)
  | forgetSuite (key : SuiteKey) (wantCurrent : Option Nat) (now : Int)
  | createSuite (seed : SuiteSeed) (caps : SuiteCaps) (held : Option SuiteKey) (now : Int)
  | storeFetched (m : FetchedRow) (caps : SuiteCaps) (held : Option SuiteKey) (now : Int)
  | touchSuite (key : SuiteKey) (now : Int)
  | invalidateLegacyMetadata (key : SuiteKey) (anchorPath oldHash : Str) (now : UrlKey → Int)
  | insertCandidateSnapshot (sc : SnapshotCandidate) (now : Int)
  | heartbeatSnapshot (id : Nat) (now : Int)
  | commitAdoption (id : Nat) (members : List Member) (skipped : List Skipped)
      (packageHashes : List PackageHash) (prefetched : List (UrlKey × Str)) (coverage : Bool)
      (skipNow now : Int)
  | insertReconciledMembers (id : Nat) (members : List Member) (packageHashes : List PackageHash)
  | repairSkippedMember (id : Nat) (skippedPath : Str) (members : List Member)
  | bumpSkippedMemberRetry (id : Nat) (path : Str)
  | runSnapshotGCBatch (batchSize staleGraceSeconds keepDisplaced now : Int)
  | runRetiredSnapshotGCChunk (maxRows : Int)
  | applyLegacyAuditDecisions (decisions : List LegacyAuditDecision) (now : Int)
  | enqueueLegacyTrustAudit (ids : List Nat)

/-- The transaction of an operation, without its result. -/
def Op.tx : Op → Tx Unit
  | .putBlob hash size now => Cache.putBlob hash size now
  | .heartbeatBlobs hashes now => Cache.heartbeatBlobs hashes now
  | .runBlobGCBatch n grace now => discard (Cache.runBlobGCBatch n grace now)
  | .putURLPath u => Cache.putURLPath u
  | .touchURLPath k now => Cache.touchURLPath k now
  | .refreshURLPathBlob k old new now => discard (Cache.refreshURLPathBlob k old new now)
  | .evictURLPath k now => Cache.evictURLPath k now
  | .deleteSuiteMetadataRows ks now => discard (Cache.deleteSuiteMetadataRows ks now)
  | .deleteURLPathRows rows now => discard (Cache.deleteURLPathRows rows now)
  | .runURLPathGCBatch retained n ttl hold after now =>
    discard (Cache.runURLPathGCBatch retained n ttl hold after now)
  | .markSignedSeenBatch marks => Cache.markSignedSeenBatch marks
  | .deleteOrphanMarkers keys cutoff => Cache.deleteOrphanMarkers keys cutoff
  | .reapIdleSuite key want cutoff now => discard (Cache.reapIdleSuite key want cutoff now)
  | .forgetSuite key want now => discard (Cache.forgetSuite key want now)
  | .createSuite seed caps held now => discard (Cache.createSuiteTx seed caps held now)
  | .storeFetched m caps held now => discard (Cache.storeFetchedTx m caps held now)
  | .touchSuite key now => Cache.touchSuite key now
  | .invalidateLegacyMetadata key anchor old now => Cache.invalidateLegacyMetadata key anchor old now
  | .insertCandidateSnapshot sc now => discard (Cache.insertCandidateSnapshot sc now)
  | .heartbeatSnapshot id now => Cache.heartbeatSnapshot id now
  | .commitAdoption id ms ks ps ups coverage skipNow now =>
    Cache.commitAdoption id ms ks ps ups coverage skipNow now
  | .insertReconciledMembers id ms ps => Cache.insertReconciledMembers id ms ps
  | .repairSkippedMember id path ms => Cache.repairSkippedMember id path ms
  | .bumpSkippedMemberRetry id path => Cache.bumpSkippedMemberRetry id path
  | .runSnapshotGCBatch n grace keep now => discard (Cache.runSnapshotGCBatch n grace keep now)
  | .runRetiredSnapshotGCChunk maxRows => discard (Cache.runRetiredSnapshotGCChunk maxRows)
  | .applyLegacyAuditDecisions ds now => Cache.applyLegacyAuditDecisions ds now
  | .enqueueLegacyTrustAudit ids => Cache.enqueueLegacyTrustAudit ids

/-- The writer from an empty database: any operation, with any arguments, at any time. -/
def sys : Sys Db Op where
  init db := db = Db.empty
  step db op := some (op.tx.commit db)

end AptCacher.Cache
