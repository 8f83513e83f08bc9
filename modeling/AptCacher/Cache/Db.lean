import AptCacher.Aptpath.Suite
import AptCacher.Spec.Table
import AptCacher.Spec.Tx

/-!
# The cache database

The tables of schema version 8 and the statements that several writer operations share. The
writer runs one operation at a time, each in one transaction (`Tx`), so an operation is a function
on the whole database that fails or succeeds; the clock readings it takes are its arguments.

Columns that no operation here reads are left out: validators, check and failure stamps of a
suite, upstream URLs. `INTEGER` timestamps and counters are `Int`, row ids are `Nat`.

* `Blob`, `UrlPath`, `Suite`, `Snapshot`, `Member`, `Skipped`, `PackageHash`, `Marker`: the rows.
* `Db`: the tables with their primary keys, and the counters SQLite keeps.
* `Db.binds`, `Db.isCurrent`: the two subqueries that the refcount statements use.
-/

namespace AptCacher.Cache

open Spec Aptpath

/-! ## Keys and rows -/

/-- The canonical schemes. -/
inductive Scheme
  | http
  | https
  deriving DecidableEq

/-- The identity of a suite. -/
structure SuiteKey where
  scheme : Scheme
  host : Str
  suitePath : Str
  deriving DecidableEq

/-- The identity of a cached path. -/
structure UrlKey where
  scheme : Scheme
  host : Str
  path : Str
  deriving DecidableEq

/-- The identity of a signed-seen marker. -/
structure MarkKey where
  scheme : Scheme
  host : Str
  base : Str
  deriving DecidableEq

/-- `validBlobHash`: lower-case SHA-256 hex. -/
def validBlobHash (h : Str) : Bool := isHex 64 h

/-- A row of `blob`. -/
structure Blob where
  hash : Str
  size : Int
  createdAt : Int
  refcount : Int
  /-- `refcount_zeroed_at`, the clock of the blob grace. -/
  zeroedAt : Option Int
  deriving DecidableEq

/-- A row of `url_path`. -/
structure UrlPath where
  key : UrlKey
  blobHash : Option Str
  isMetadata : Bool
  lastRequestedAt : Option Int
  requestCount : Int
  lastFetchedAt : Option Int
  droppedAt : Option Int
  deriving DecidableEq

/-- A row of `suite_freshness`. -/
structure Suite where
  key : SuiteKey
  rowid : Nat
  /-- `current_snapshot_id`. -/
  current : Option Nat
  lastRequestedAt : Option Int
  /-- `metadata_generation`. -/
  generation : Nat
  deriving DecidableEq

/-- `anchor_form`. -/
inductive AnchorForm
  | inline
  | detached
  | unsigned
  deriving DecidableEq

/-- A row of `suite_snapshot`. -/
structure Snapshot where
  id : Nat
  key : SuiteKey
  /-- The single anchor of the inline and the unsigned form. -/
  inReleaseHash : Option Str
  releaseHash : Option Str
  releaseGpgHash : Option Str
  form : AnchorForm
  createdAt : Int
  adoptedAt : Option Int
  retiredAt : Option Int
  heartbeatAt : Option Int
  /-- `package_coverage_complete`. -/
  coverage : Bool
  deriving DecidableEq

/-- A row of `snapshot_member`. -/
structure Member where
  snapshotId : Nat
  path : Str
  blobHash : Str
  declared : Str
  deriving DecidableEq

/-- A row of `snapshot_skipped_member`. -/
structure Skipped where
  snapshotId : Nat
  path : Str
  declared : Str
  size : Int
  reason : Str
  skippedAt : Int
  retryCount : Int
  deriving DecidableEq

/-- A row of `package_hash`. -/
structure PackageHash where
  url : UrlKey
  snapshotId : Nat
  declared : Str
  packageName : Str
  architecture : Str
  version : Str
  flatFilename : Str
  deriving DecidableEq

/-- A row of `suite_signed_seen`. -/
structure Marker where
  key : MarkKey
  lastSeenAt : Int
  deriving DecidableEq

namespace Snapshot

/-- The anchor content, `COALESCE(inrelease_hash, release_hash)`. -/
def content (s : Snapshot) : Option Str := s.inReleaseHash <|> s.releaseHash

/-- The `CHECK` of the table: one anchor, or a Release with its signature. -/
def checked (s : Snapshot) : Bool :=
  (s.inReleaseHash.isSome && s.releaseHash.isNone && s.releaseGpgHash.isNone) ||
    (s.inReleaseHash.isNone && s.releaseHash.isSome && s.releaseGpgHash.isSome)

/-- The blob columns name `h`. -/
def names (s : Snapshot) (h : Str) : Bool :=
  s.inReleaseHash == some h || s.releaseHash == some h || s.releaseGpgHash == some h

/-- `signedHistorySnapshotSQL`: adopted, not retired, inline or detached. -/
def signedHistory (s : Snapshot) : Bool :=
  s.adoptedAt.isSome && s.retiredAt.isNone && (s.form == .inline || s.form == .detached)

/-- What the suite pointers and the never-downgrade rule depend on. -/
structure Head where
  id : Nat
  key : SuiteKey
  content : Option Str
  form : AnchorForm
  adoptedAt : Option Int
  retiredAt : Option Int

/-- The head of a snapshot row. -/
def head (s : Snapshot) : Head := ⟨s.id, s.key, s.content, s.form, s.adoptedAt, s.retiredAt⟩

end Snapshot

/-- What the pins depend on in a suite row. -/
def Suite.pointer (r : Suite) : SuiteKey × Option Nat := (r.key, r.current)

/-! ## The database -/

/-- The database: its tables, and the counters behind `AUTOINCREMENT` and `metadata_clock`. -/
structure Db where
  blobs : Table Blob Str Blob.hash
  urlPaths : Table UrlPath UrlKey UrlPath.key
  suites : Table Suite SuiteKey Suite.key
  snapshots : Table Snapshot Nat Snapshot.id
  members : Table Member (Nat × Str) fun m => (m.snapshotId, m.path)
  skipped : Table Skipped (Nat × Str) fun m => (m.snapshotId, m.path)
  packageHashes : Table PackageHash (UrlKey × Nat) fun p => (p.url, p.snapshotId)
  markers : Table Marker MarkKey Marker.key
  /-- `legacy_trust_audit`. -/
  audit : Table Nat Nat id
  /-- The largest snapshot id ever given out. -/
  snapshotSeq : Nat
  metadataClock : Nat

/-- An empty version-8 database. -/
def Db.empty : Db where
  blobs := .empty
  urlPaths := .empty
  suites := .empty
  snapshots := .empty
  members := .empty
  skipped := .empty
  packageHashes := .empty
  markers := .empty
  audit := .empty
  snapshotSeq := 0
  metadataClock := 0

/-- Why an operation fails. -/
inductive Err
  | notFound
  | invalidHash
  /-- A primary key, `UNIQUE`, `CHECK` or foreign key constraint. -/
  | constraint
  | invalidArgument
  | invalidAnchorForm
  | snapshotNotFound (id : Nat)
  | naturalKeyAdopted (id : Nat)
  | snapshotAlreadyAdopted
  | snapshotRetired (id : Nat)
  | snapshotNotCurrent (id : Nat)
  | unsignedDowngradeRefused
  | suiteGone
  | memberConflict (path : Str)
  | metadataChanged
  deriving DecidableEq

/-- A writer transaction. -/
abbrev Tx := Spec.Tx Err Db

namespace Db

/-- `EXISTS (SELECT 1 FROM snapshot_member WHERE snapshot_id = id AND blob_hash = h)`. -/
def binds (db : Db) (id : Nat) (h : Str) : Bool :=
  db.members.any fun m => m.snapshotId == id && m.blobHash == h

/-- `EXISTS (SELECT 1 FROM suite_freshness WHERE current_snapshot_id = id)`. -/
def isCurrent (db : Db) (id : Nat) : Bool := db.suites.any fun r => r.current == some id

/-- The suite rows whose current snapshot has a member with the blob `h`. -/
def pins (db : Db) (h : Str) : Nat :=
  db.suites.count fun r => r.current.any fun id => db.binds id h

/-- A suite row at the base or at its flat twin, under either scheme (`orphanSuiteRowSQL`,
`baseSuiteRowsTx`). -/
def suitesAt (db : Db) (host base : Str) : Bool :=
  db.suites.any fun r =>
    r.key.host == host && (r.key.suitePath == base || r.key.suitePath == base ++ "/.".toList)

end Db

/-! ## Statements on blobs -/

/-- `refcount = refcount + 1`, and the clock is cleared when the count becomes positive. -/
def Blob.bump (b : Blob) : Blob :=
  { b with
    refcount := b.refcount + 1
    zeroedAt := if b.refcount + 1 > 0 then none else b.zeroedAt }

/-- `refcount = refcount - 1`, and the clock starts at the first count that is not positive. -/
def Blob.release (now : Int) (b : Blob) : Blob :=
  { b with
    refcount := b.refcount - 1
    zeroedAt := b.zeroedAt <|> if b.refcount - 1 ≤ 0 then some now else none }

/-- The bump as an assignment. -/
abbrev Blob.bumped : Assign Blob.hash := ⟨Blob.bump, fun _ => rfl⟩

/-- The release as an assignment. -/
abbrev Blob.released (now : Int) : Assign Blob.hash := ⟨Blob.release now, fun _ => rfl⟩

/-- `SET current_snapshot_id = current`. -/
abbrev Suite.pointed (current : Option Nat) : Assign Suite.key :=
  ⟨fun r => { r with current := current }, fun _ => rfl⟩

/-- `SET adopted_at = stamp`. -/
abbrev Snapshot.adopted (stamp : Int) : Assign Snapshot.id :=
  ⟨fun s => { s with adoptedAt := some stamp }, fun _ => rfl⟩

/-- `SET retired_at = now`. -/
abbrev Snapshot.retired (now : Int) : Assign Snapshot.id :=
  ⟨fun s => { s with retiredAt := some now }, fun _ => rfl⟩

/-- `decrementSnapshotRefcountsTx`: release the blobs that a snapshot's members name, each once. -/
def decrementSnapshotRefcountsTx (id : Nat) (now : Int) : Tx Unit :=
  modify fun db =>
    { db with blobs := db.blobs.update (fun b => db.binds id b.hash) (Blob.released now) }

/-- The blob is there: a foreign key. -/
def requireBlob (h : Str) : Tx Unit := do
  Tx.ensure (((← get).blobs.find h).isSome = true) .constraint

/-- A blob column that may be NULL. -/
def requireBlobs (hs : List (Option Str)) : Tx Unit :=
  hs.forM fun h => h.elim (pure ()) requireBlob

end AptCacher.Cache
