import AptCacher.Cache.SuiteRows

/-!
# Adoption

A candidate snapshot is inserted, its files are fetched, and `commitAdoption` makes it current in
one transaction: the flip. A current snapshot can grow later, when skipped members are repaired
or an index is reconciled.

* `insertCandidateSnapshot`, `heartbeatSnapshot`: the candidate.
* `commitAdoption`: members, skip records and package hashes, the ordering stamp, the anchors'
  cached rows, the pins of the new snapshot, the pointer, the marker, the pins of the prior one.
* `insertReconciledMembers`, `repairSkippedMember`: growth of a current snapshot, one pin for each
  blob it did not name yet.
-/

namespace AptCacher.Cache

open Spec Aptpath

/-! ## Candidates -/

structure SnapshotCandidate where
  key : SuiteKey
  inReleaseHash : Option Str
  releaseHash : Option Str
  releaseGpgHash : Option Str
  /-- `none` is the empty form, which the hashes decide. -/
  form : Option AnchorForm
  coverage : Bool
  deriving DecidableEq

/-- `candidateForm`: the form fits the hashes; the unsigned one is never derived. -/
def candidateForm (sc : SnapshotCandidate) : Option AnchorForm :=
  let single := sc.inReleaseHash.isSome && sc.releaseHash.isNone && sc.releaseGpgHash.isNone
  let detached := sc.inReleaseHash.isNone && sc.releaseHash.isSome && sc.releaseGpgHash.isSome
  match sc.form with
  | none => if single then some .inline else if detached then some .detached else none
  | some .inline => if single then some .inline else none
  | some .unsigned => if single then some .unsigned else none
  | some .detached => if detached then some .detached else none

/-- The new row of a candidate. -/
def SnapshotCandidate.row (sc : SnapshotCandidate) (id : Nat) (form : AnchorForm) (now : Int) :
    Snapshot where
  id := id
  key := sc.key
  inReleaseHash := sc.inReleaseHash
  releaseHash := sc.releaseHash
  releaseGpgHash := sc.releaseGpgHash
  form := form
  createdAt := now
  adoptedAt := none
  retiredAt := none
  heartbeatAt := some now
  coverage := sc.coverage

/-- The partial unique index `idx_suite_snapshot_natural_v7`: the rows that collide with `s`. -/
def Db.collides (db : Db) (s : Snapshot) : Option Snapshot :=
  db.snapshots.rows.find? fun s' =>
    s'.retiredAt.isNone && s'.key == s.key && s'.form == s.form && s.content.isSome &&
      s'.content == s.content

/-- `InsertCandidateSnapshot`: a fresh row, or the unadopted row of the same content; the id and
whether it was reused. -/
def insertCandidateSnapshot (sc : SnapshotCandidate) (now : Int) : Tx (Nat × Bool) := do
  let form ← Tx.getOr (candidateForm sc) .invalidAnchorForm
  let db ← get
  let id := db.snapshotSeq + 1
  let row := sc.row id form now
  match db.collides row with
  | none =>
    Tx.ensure (row.checked = true) .constraint
    requireBlobs [row.inReleaseHash, row.releaseHash, row.releaseGpgHash]
    let snapshots ← Tx.getOr (db.snapshots.insert? row) .constraint
    modify fun db => { db with snapshots := snapshots, snapshotSeq := id }
    pure (id, false)
  | some s =>
    Tx.ensure (s.adoptedAt = none) (.naturalKeyAdopted s.id)
    Tx.ensure ({ s with releaseGpgHash := sc.releaseGpgHash }.checked = true) .constraint
    requireBlobs [sc.releaseGpgHash]
    modify fun db =>
      { db with
        snapshots := db.snapshots.updateAt s.id
          ⟨fun s => { s with releaseGpgHash := sc.releaseGpgHash, heartbeatAt := some now }, fun _ => rfl⟩ }
    pure (s.id, true)

def heartbeatSnapshot (id : Nat) (now : Int) : Tx Unit :=
  modify fun db =>
    { db with
      snapshots := db.snapshots.updateAt id ⟨fun s => { s with heartbeatAt := some now }, fun _ => rfl⟩ }

/-! ## The flip -/

/-- One `INSERT INTO snapshot_member`, with its foreign keys and its primary key. -/
def insertMemberRow (m : Member) : Tx Unit := do
  let db ← get
  Tx.ensure ((db.snapshots.find m.snapshotId).isSome = true) .constraint
  requireBlob m.blobHash
  let members ← Tx.getOr (db.members.insert? m) .constraint
  modify fun db => { db with members := members }

/-- Step 2: the members of the candidate. -/
def commitMembers (id : Nat) (members : List Member) : Tx Unit :=
  members.forM fun m => do
    Tx.ensure (validBlobHash m.blobHash = true) .invalidHash
    Tx.ensure (validBlobHash m.declared = true) .invalidHash
    insertMemberRow { m with snapshotId := id }

/-- Step 2a: the declared members that were not fetched. -/
def commitSkipped (id : Nat) (skipped : List Skipped) (now : Int) : Tx Unit :=
  skipped.forM fun m => do
    Tx.ensure (validBlobHash m.declared = true) .invalidHash
    let db ← get
    let rows ← Tx.getOr (db.skipped.insert?
      { m with snapshotId := id, skippedAt := now, retryCount := 0 }) .constraint
    modify fun db => { db with skipped := rows }

/-- Step 3: the declared package hashes. -/
def commitPackageHashes (id : Nat) (packageHashes : List PackageHash) : Tx Unit :=
  packageHashes.forM fun p => do
    Tx.ensure (validBlobHash p.declared = true) .invalidHash
    let db ← get
    let rows ← Tx.getOr (db.packageHashes.insert? { p with snapshotId := id }) .constraint
    modify fun db => { db with packageHashes := rows }

/-- `max(stamp, a + 1)` over the stamps of a list. -/
def floorAbove (stamp : Int) (l : List Int) : Int := l.foldl (fun m a => max m (a + 1)) stamp

/-- `adoptionStampTx`: above every adoption of the suite that is still stored, retired ones
included; without a current snapshot also above the fetches of its cached anchors. -/
def Db.adoptionStamp (db : Db) (key : SuiteKey) (now : Int) : Int :=
  let stamp := floorAbove now
    ((db.snapshots.select fun s => s.key == key).filterMap Snapshot.adoptedAt)
  if ((db.suites.find key).bind Suite.current).isSome then stamp
  else floorAbove stamp (anchorNames.filterMap fun name =>
    (db.urlPaths.find ⟨key.scheme, key.host, key.suitePath ++ '/' :: name⟩).bind
      UrlPath.lastFetchedAt)

/-- Step 3a: the warmed packages; the hotness columns of an existing row stay. -/
def commitPrefetched (prefetched : List (UrlKey × Str)) (now : Int) : Tx Unit :=
  prefetched.forM fun up => do
    Tx.ensure (validBlobHash up.2 = true) .invalidHash
    requireBlob up.2
    modify fun db =>
      { db with
        urlPaths := db.urlPaths.upsert ⟨up.1, some up.2, false, none, 0, some now, none⟩
          ⟨fun r => { r with
            blobHash := some up.2
            lastFetchedAt := some now
            droppedAt := none }, fun _ => rfl⟩ }

/-- `AnchorPaths`: the anchor files of a form. -/
def AnchorForm.anchorPaths : AnchorForm → List Str
  | .inline => ["InRelease".toList]
  | .detached => ["Release".toList, "Release.gpg".toList]
  | .unsigned => ["Release".toList]

/-- `anchorHash`: the blob of an anchor file of the snapshot. -/
def Snapshot.anchorHash (s : Snapshot) (name : Str) : Option Str :=
  match s.form with
  | .inline => if name = "InRelease".toList then s.inReleaseHash else none
  | .unsigned => if name = "Release".toList then s.inReleaseHash else none
  | .detached =>
    if name = "Release".toList then s.releaseHash
    else if name = "Release.gpg".toList then s.releaseGpgHash
    else none

/-- Step 3c: the cached rows of the anchors point at the adopted blobs. -/
def seedAnchors (s : Snapshot) (now : Int) : Tx Unit :=
  s.form.anchorPaths.forM fun name =>
    match s.anchorHash name with
    | none => pure ()
    | some h =>
      if h = [] then pure ()
      else do
        requireBlob h
        modify fun db =>
          { db with
            urlPaths := db.urlPaths.upsert
              ⟨⟨s.key.scheme, s.key.host, s.key.suitePath ++ '/' :: name⟩,
                some h, true, none, 0, some now, none⟩
              ⟨fun r => { r with
                blobHash := some h
                isMetadata := true
                lastFetchedAt := some now
                droppedAt := none }, fun _ => rfl⟩ }

/-- Steps 4 to 8: pin the blobs of `s`, flip the pointer, stamp the adoption, mark a signed base,
and release the blobs of the snapshot that was current. -/
def flipPointer (s : Snapshot) (stamp now : Int) : Tx Unit := do
  modify fun db =>
    { db with blobs := db.blobs.update (fun b => db.binds s.id b.hash) Blob.bumped }
  let r ← Tx.getOr ((← get).suites.find s.key) .suiteGone
  modify fun db =>
    { db with
      suites := db.suites.updateAt s.key (Suite.pointed (some s.id)) }
  modify fun db =>
    { db with
      snapshots := db.snapshots.updateAt s.id (Snapshot.adopted stamp) }
  Tx.onlyIf (s.form = .inline ∨ s.form = .detached) (markSignedSeen s.key.mark now)
  match r.current with
  | some prior => decrementSnapshotRefcountsTx prior now
  | none => pure ()

/-- `CommitAdoption`; `skipNow` and `now` are its two clock readings. -/
def commitAdoption (id : Nat) (members : List Member) (skipped : List Skipped)
    (packageHashes : List PackageHash) (prefetched : List (UrlKey × Str)) (coverage : Bool)
    (skipNow now : Int) : Tx Unit := do
  let s ← Tx.getOr ((← get).snapshots.find id) (.snapshotNotFound id)
  Tx.ensure (s.adoptedAt = none) .snapshotAlreadyAdopted
  Tx.ensure (s.retiredAt = none) (.snapshotRetired id)
  Tx.onlyIf (s.form = .unsigned) (refuseUnsignedDowngrade s.key.host s.key.suitePath)
  commitMembers id members
  commitSkipped id skipped skipNow
  commitPackageHashes id packageHashes
  let stamp := (← get).adoptionStamp s.key now
  commitPrefetched prefetched now
  modify fun db =>
    { db with
      snapshots := db.snapshots.updateAt id ⟨fun s => { s with coverage := coverage }, fun _ => rfl⟩ }
  seedAnchors s now
  flipPointer s stamp now

/-! ## Growth of a current snapshot -/

/-- The bump of a blob that a current snapshot is about to name, unless it names it already. -/
def bumpUnlessBound (id : Nat) (h : Str) : Tx Unit :=
  modify fun db =>
    { db with
      blobs := db.blobs.update (fun b => b.hash == h && !db.binds id h) Blob.bumped }

/-- A column of a package row that is empty on one side, or the same on both. -/
def agrees (have' want : Str) : Bool := have' == [] || want == [] || have' == want

/-- `insertPackageHashTx`: insert the row, or fill the empty identity columns of the row of the
same hash that is there. -/
def insertPackageHashTx (p : PackageHash) : Tx Unit := do
  Tx.ensure (validBlobHash p.declared = true) .invalidHash
  let db ← get
  match db.packageHashes.find (p.url, p.snapshotId) with
  | some e =>
    Tx.ensure (e.declared = p.declared ∧ agrees e.packageName p.packageName ∧
      agrees e.architecture p.architecture ∧ agrees e.version p.version) (.memberConflict p.url.path)
    modify fun db =>
      { db with
        packageHashes := db.packageHashes.updateAt (p.url, p.snapshotId)
          ⟨fun e => { e with
            packageName := if e.packageName = [] then p.packageName else e.packageName
            architecture := if e.architecture = [] then p.architecture else e.architecture
            version := if e.version = [] then p.version else e.version }, fun _ => rfl⟩ }
  | none =>
    Tx.ensure ((db.snapshots.find p.snapshotId).isSome = true) .constraint
    let rows ← Tx.getOr (db.packageHashes.insert? p) .constraint
    modify fun db => { db with packageHashes := rows }

/-- One member of `InsertReconciledMembers`; an identical row is skipped. -/
def reconcileMember (id : Nat) (m : Member) : Tx Unit := do
  Tx.ensure (m.snapshotId = id) .invalidArgument
  Tx.ensure (validBlobHash m.blobHash = true) .invalidHash
  Tx.ensure (validBlobHash m.declared = true) .invalidHash
  match (← get).members.find (id, m.path) with
  | some e => Tx.ensure (e.blobHash = m.blobHash) (.memberConflict m.path)
  | none =>
    bumpUnlessBound id m.blobHash
    insertMemberRow m

def insertReconciledMembers (id : Nat) (members : List Member) (packageHashes : List PackageHash) :
    Tx Unit := do
  Tx.ensure ((← get).isCurrent id = true) (.snapshotNotCurrent id)
  members.forM (reconcileMember id)
  packageHashes.forM insertPackageHashTx

/-- One member of `RepairSkippedMember`: `ON CONFLICT DO NOTHING`, and the row that is there must
be the same. -/
def repairMember (m : Member) : Tx Unit := do
  match (← get).members.find (m.snapshotId, m.path) with
  | some e =>
    Tx.ensure (e.blobHash = m.blobHash ∧ e.declared = m.declared) (.memberConflict m.path)
  | none => insertMemberRow m

/-- `RepairSkippedMember`: the members take the place of the skip record. -/
def repairSkippedMember (id : Nat) (skippedPath : Str) (members : List Member) : Tx Unit := do
  Tx.ensure ((← get).isCurrent id = true) (.snapshotNotCurrent id)
  let row ← Tx.getOr ((← get).skipped.find (id, skippedPath)) .notFound
  Tx.ensure (validBlobHash row.declared = true) .invalidHash
  Tx.ensure (∀ m ∈ members, m.snapshotId = id ∧ m.blobHash = row.declared ∧
    m.declared = row.declared) .invalidArgument
  Tx.ensure (∃ m ∈ members, m.path = skippedPath) .invalidArgument
  modify fun db => { db with skipped := db.skipped.deleteAt (id, skippedPath) }
  bumpUnlessBound id row.declared
  members.forM repairMember

def bumpSkippedMemberRetry (id : Nat) (path : Str) : Tx Unit :=
  modify fun db =>
    { db with
      skipped := db.skipped.updateAt (id, path) ⟨fun m => { m with retryCount := m.retryCount + 1 }, fun _ => rfl⟩ }

end AptCacher.Cache
