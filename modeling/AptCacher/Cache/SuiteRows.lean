import AptCacher.Cache.UrlPath

/-!
# Suite rows and signed-seen markers

A suite is tracked while it has a row. A signed-seen marker records that the base of a suite was
once signed; it outlives the row, and `refuseUnsignedDowngrade` reads it under both schemes.

* `markSignedSeen`, `refuseUnsignedDowngrade`, `deleteOrphanMarkers`: the markers.
* `deleteSuiteTx`: the one delete of a suite row, for eviction, the reaper and forgetting.
* `createSuiteTx`, `storeFetchedTx`: the one insert, with the caps.
* `reapIdleSuite`, `forgetSuite`, `invalidateLegacyMetadata`.
-/

namespace AptCacher.Cache

open Spec Aptpath

/-! ## Markers -/

/-- `markSignedSeen`: an upsert that never lowers a stamp. -/
def markSignedSeen (k : MarkKey) (seenAt : Int) : Tx Unit :=
  modify fun db =>
    { db with
      markers := db.markers.upsert ⟨k, seenAt⟩
        ⟨fun m => { m with lastSeenAt := max m.lastSeenAt seenAt }, fun _ => rfl⟩ }

/-- `MarkSignedSeenBatch`: one of its transactions. -/
def markSignedSeenBatch (marks : List Marker) : Tx Unit :=
  marks.forM fun m => markSignedSeen m.key m.lastSeenAt

/-- The marker key of a suite. -/
def SuiteKey.mark (k : SuiteKey) : MarkKey := ⟨k.scheme, k.host, markerBase k.suitePath⟩

/-- A marker of the host's base under either scheme. -/
def Db.markedAt (db : Db) (host base : Str) : Bool :=
  db.markers.any fun m => m.key.host == host && m.key.base == base

/-- An adopted, non-retired signed snapshot of the host at the base or its flat twin. -/
def Db.signedAt (db : Db) (host base : Str) : Bool :=
  db.snapshots.any fun s =>
    s.key.host == host && (s.key.suitePath == base || s.key.suitePath == base ++ "/.".toList) &&
      s.signedHistory

/-- `refuseUnsignedDowngrade`: fail if the base has signed history under either scheme. -/
def refuseUnsignedDowngrade (host suite : Str) : Tx Unit := do
  let db ← get
  let base := markerBase suite
  Tx.ensure (¬ db.markedAt host base = true) .unsignedDowngradeRefused
  Tx.ensure (¬ db.signedAt host base = true) .unsignedDowngradeRefused

/-- `deleteOrphanMarkers`: one transaction of `SweepOrphanMarkers`; a marker goes if it is older
than the cutoff and no suite row is left at its base. -/
def deleteOrphanMarkers (keys : List MarkKey) (cutoff : Int) : Tx Unit :=
  keys.forM fun k =>
    modify fun db =>
      { db with
        markers := db.markers.delete fun m =>
          m.key == k && m.lastSeenAt < cutoff && !db.suitesAt k.host k.base }

/-! ## Deleting a suite row -/

/-- What `deleteSuiteTx` did. -/
inductive DeleteOutcome
  | suiteKept
  | suiteDeleted
  | suiteNoRow
  deriving DecidableEq

/-- `markSnapshotHistoryTx`: the suite's signed snapshot history becomes a marker. -/
def markSnapshotHistoryTx (key : SuiteKey) (now : Int) : Tx Unit := do
  if (← get).snapshots.any (fun s => s.key == key && s.signedHistory) then
    markSignedSeen key.mark now
  else pure ()

/-- `retireSuiteSnapshotsTx`: release the current snapshot's pins and retire all snapshots. -/
def retireSuiteSnapshotsTx (key : SuiteKey) (current : Option Nat) (now : Int) : Tx Unit := do
  match current with
  | some id => decrementSnapshotRefcountsTx id now
  | none => pure ()
  modify fun db =>
    { db with
      snapshots := db.snapshots.update (fun s => s.key == key && s.retiredAt.isNone)
        (Snapshot.retired now) }

/-- `stampBaseMarkersTx`: the base's markers, under both schemes, move up to `now`. -/
def stampBaseMarkersTx (key : SuiteKey) (now : Int) : Tx Unit :=
  modify fun db =>
    { db with
      markers := db.markers.update
        (fun m => m.key.host == key.host && m.key.base == markerBase key.suitePath)
        ⟨fun m => { m with lastSeenAt := max m.lastSeenAt now }, fun _ => rfl⟩ }

/-- `deleteSuiteTx`: delete the row if it was not requested after the cutoff (`none` is
`ReapRegardless`) and still has the expected current snapshot. -/
def deleteSuiteTx (key : SuiteKey) (wantCurrent : Option Nat) (cutoff : Option Int) (now : Int) :
    Tx DeleteOutcome := do
  match (← get).suites.find key with
  | none => pure .suiteNoRow
  | some r =>
    if cutoff.any (fun c => r.lastRequestedAt.all (c < ·)) then pure .suiteKept
    else if r.current ≠ wantCurrent then pure .suiteKept
    else
      markSnapshotHistoryTx key now
      retireSuiteSnapshotsTx key r.current now
      modify fun db => { db with suites := db.suites.deleteAt key }
      stampBaseMarkersTx key now
      pure .suiteDeleted

def reapIdleSuite (key : SuiteKey) (wantCurrent : Option Nat) (cutoff : Option Int) (now : Int) :
    Tx DeleteOutcome :=
  deleteSuiteTx key wantCurrent cutoff now

/-- The anchor files of a suite. -/
def anchorNames : List Str := ["InRelease", "Release", "Release.gpg"].map String.toList

/-- `deleteBaseAnchorsTx`: the cached anchors of the base and its twin, under both schemes. -/
def deleteBaseAnchorsTx (host base : Str) (now : Int) : Tx Unit :=
  [Scheme.http, Scheme.https].forM fun scheme =>
    [base, base ++ "/.".toList].forM fun suite =>
      anchorNames.forM fun name => do
        let _ ← deleteCachedRowTx ⟨scheme, host, suite ++ '/' :: name⟩ now
        pure ()

/-- `ForgetSuite`: delete the row whatever its age; when no row is left for the base or its twin,
delete the base's anchors and markers. -/
def forgetSuite (key : SuiteKey) (wantCurrent : Option Nat) (now : Int) : Tx DeleteOutcome := do
  let out ← deleteSuiteTx key wantCurrent none now
  let base := markerBase key.suitePath
  if out = .suiteDeleted ∧ ¬ (← get).suitesAt key.host base = true then
    deleteBaseAnchorsTx key.host base now
    modify fun db =>
      { db with
        markers := db.markers.delete fun m => m.key.host == key.host && m.key.base == base }
    pure out
  else pure out

/-! ## Creating a suite row -/

/-- A cached anchor that the creator of a suite read and sniffed. -/
structure CachedAnchor where
  path : Str
  blobHash : Str
  signed : Bool
  seenAt : Int
  deriving DecidableEq

structure SuiteSeed where
  key : SuiteKey
  requestedAt : Int
  signedSeenAt : Int
  cached : List CachedAnchor
  deriving DecidableEq

/-- `SuiteCaps`; a cap that is not positive is off. -/
structure SuiteCaps where
  global : Int
  perHost : Int
  deriving DecidableEq

inductive CreateOutcome
  | created
  | suiteExists
  | rejectedGlobal
  | rejectedHost
  deriving DecidableEq

structure CreateResult where
  outcome : CreateOutcome
  evicted : Option SuiteKey
  unproven : Bool
  heldGone : Bool
  heldKept : Bool
  deriving DecidableEq

/-- The newest stamp among the signed metadata that a creation knows of, and whether a listed row
changed since the caller read it. -/
def SuiteSeed.seen (db : Db) (seed : SuiteSeed) : Int × Bool :=
  seed.cached.foldl (fun acc a =>
    let cur := ((db.urlPaths.find ⟨seed.key.scheme, seed.key.host, a.path⟩).bind
      UrlPath.blobHash).getD []
    if cur ≠ a.blobHash then (acc.1, acc.2 || cur != [])
    else if a.signed ∧ a.blobHash ≠ [] then
      (max acc.1 (if a.seenAt ≤ 0 then seed.requestedAt else a.seenAt), acc.2)
    else acc) (seed.signedSeenAt, false)

/-- `markCreated`: the new suite's base is marked with the row, once. -/
def markCreated (seed : SuiteSeed) : Tx Bool := do
  let (seen, unproven) := seed.seen (← get)
  if seen = 0 then pure unproven
  else
    markSignedSeen seed.key.mark seen
    pure unproven

/-- The insert with its trigger: the new row takes the next metadata generation. -/
def insertSuiteRow (key : SuiteKey) (requestedAt : Int) : Tx Unit := do
  let db ← get
  let rowid := (db.suites.rows.map Suite.rowid).foldl max 0 + 1
  let suites ← Tx.getOr (db.suites.insert?
    ⟨key, rowid, none, some requestedAt, db.metadataClock + 1⟩) .constraint
  modify fun db => { db with suites := suites, metadataClock := db.metadataClock + 1 }

/-- `suiteEvictIdle` in seconds: 24 hours. -/
def suiteEvictIdle : Int := 86400

/-- `createSuiteTx`: the per-host cap first, then the global one, which may evict `held`. -/
def createSuiteTx (seed : SuiteSeed) (caps : SuiteCaps) (held : Option SuiteKey) (now : Int) :
    Tx CreateResult := do
  let db ← get
  if (db.suites.find seed.key).isSome then pure ⟨.suiteExists, none, false, false, false⟩
  else if 0 < caps.perHost ∧ caps.perHost ≤ db.suites.count (fun r => r.key.host == seed.key.host)
  then pure ⟨.rejectedHost, none, false, false, false⟩
  else if 0 < caps.global ∧ caps.global ≤ db.suites.count (fun _ => true) then
    match held with
    | none => pure ⟨.rejectedGlobal, none, false, false, false⟩
    | some k =>
      let out ← deleteSuiteTx k none (some (now - suiteEvictIdle)) now
      if out ≠ .suiteDeleted then
        pure ⟨.rejectedGlobal, none, false, out = .suiteNoRow, out = .suiteKept⟩
      else if caps.global ≤ (db.suites.count (fun _ => true) : Int) - 1 then
        pure ⟨.rejectedGlobal, some k, false, false, false⟩
      else
        insertSuiteRow seed.key seed.requestedAt
        let unproven ← markCreated seed
        pure ⟨.created, some k, unproven, false, false⟩
  else
    insertSuiteRow seed.key seed.requestedAt
    let unproven ← markCreated seed
    pure ⟨.created, none, unproven, false, false⟩

/-- `MetadataGeneration`: the row id and generation that a fetch started from. -/
structure MetadataGeneration where
  rowid : Nat
  generation : Nat
  deriving DecidableEq

/-- `FetchedRow`: what a miss stores before its body is served. -/
structure FetchedRow where
  row : UrlPath
  generation : Option MetadataGeneration
  suite : Option SuiteKey
  create : Option SuiteSeed
  markSeenAt : Int
  deriving DecidableEq

/-- The row id and generation of the suite now; zeros without a row. -/
def Db.metadataGeneration (db : Db) (key : Option SuiteKey) : MetadataGeneration :=
  match key.bind db.suites.find with
  | some r => ⟨r.rowid, r.generation⟩
  | none => ⟨0, 0⟩

/-- The creation that a miss asks for, if any. -/
def FetchedRow.createTx (m : FetchedRow) (caps : SuiteCaps) (held : Option SuiteKey) (now : Int) :
    Tx (Option CreateResult) :=
  match m.create with
  | none => pure none
  | some seed => some <$> createSuiteTx seed caps held now

/-- `storeFetchedTx`: the `url_path` row, the suite row under the caps, and the marker. -/
def storeFetchedTx (m : FetchedRow) (caps : SuiteCaps) (held : Option SuiteKey) (now : Int) :
    Tx (Option CreateResult) := do
  Tx.ensure (m.create.all (fun seed => m.suite == some seed.key) = true) .invalidArgument
  let db ← get
  Tx.ensure (m.generation.all (fun g => g == db.metadataGeneration m.suite) = true)
    .metadataChanged
  putURLPathStmt m.row
  let created ← m.createTx caps held now
  match m.suite with
  | none => pure created
  | some k =>
    if m.markSeenAt ≠ 0 ∧ ((← get).suites.find k).isSome then
      markSignedSeen k.mark m.markSeenAt
      pure created
    else pure created

def touchSuite (key : SuiteKey) (now : Int) : Tx Unit :=
  modify fun db =>
    { db with
      suites := db.suites.updateAt key ⟨fun r => { r with lastRequestedAt := some now }, fun _ => rfl⟩ }

/-- The row of the suite takes the next generation. -/
def Db.nextGeneration (db : Db) (key : SuiteKey) : Db :=
  { db with
    metadataClock := db.metadataClock + 1
    suites := db.suites.updateAt key
      ⟨fun r => { r with generation := db.metadataClock + 1 }, fun _ => rfl⟩ }

/-- `InvalidateLegacyMetadata`: a suite without a snapshot loses its cached metadata, by-hash
paths apart, and takes the next generation. The clock is read for each row. -/
def invalidateLegacyMetadata (key : SuiteKey) (anchorPath oldHash : Str) (now : UrlKey → Int) :
    Tx Unit := do
  Tx.ensure (isCanonicalSuitePath key.suitePath = true ∧
    (anchorPath = key.suitePath ++ "/InRelease".toList ∨
      anchorPath = key.suitePath ++ "/Release".toList) ∧ validBlobHash oldHash = true)
    .invalidArgument
  let db ← get
  let r ← Tx.getOr (db.suites.find key) .notFound
  Tx.ensure (r.current = none) .invalidArgument
  let u ← Tx.getOr (db.urlPaths.find ⟨key.scheme, key.host, anchorPath⟩) .notFound
  Tx.ensure (u.blobHash = some oldHash) .metadataChanged
  let doomed := db.urlPaths.select fun u =>
    u.isMetadata && u.key.scheme == key.scheme && u.key.host == key.host &&
      suitePath u.key.path == key.suitePath && !contains "/by-hash/".toList u.key.path
  doomed.forM fun u => do
    let _ ← deleteCachedRowTx u.key (now u.key)
    pure ()
  modify fun db => db.nextGeneration key

end AptCacher.Cache
