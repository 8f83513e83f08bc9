import AptCacher.Cache.Db
import Mathlib.Data.List.Sort

/-!
# Blobs and cached paths

The writer operations on `blob` and `url_path`. A refcount goes up only when a snapshot becomes
current or grows; every delete of a `url_path` row takes one off, although no insert added one.

* `putBlob`, `heartbeatBlobs`, `runBlobGCBatch`: the blob rows and their grace clock.
* `putURLPath`, `touchURLPath`, `refreshURLPathBlob`: the cached paths.
* `deleteURLPathRowTx` and its callers `evictURLPath`, `deleteURLPathRows`,
  `deleteSuiteMetadataRows`, `runURLPathGCBatch`.
-/

namespace AptCacher.Cache

open Spec

/-! ## Blobs -/

/-- `PutBlob`: the file of the hash is in the pool. A blob nobody pins gets a fresh clock. -/
def putBlob (hash : Str) (size now : Int) : Tx Unit := do
  Tx.ensure (validBlobHash hash = true) .invalidHash
  modify fun db =>
    { db with
      blobs := db.blobs.upsert ⟨hash, size, now, 0, some now⟩
        ⟨fun b => if b.refcount ≤ 0 then { b with zeroedAt := some now } else b, fun b => by split <;> rfl⟩ }

/-- `HeartbeatBlobs`: a fresh clock for the blobs of the list that nobody pins. -/
def heartbeatBlobs (hashes : List Str) (now : Int) : Tx Unit :=
  let valid := hashes.filter validBlobHash
  modify fun db =>
    { db with
      blobs := db.blobs.update (fun b => b.refcount ≤ 0 && valid.contains b.hash)
        ⟨fun b => { b with zeroedAt := some now }, fun _ => rfl⟩ }

/-- The rows that name a blob: `url_path.blob_hash`, `snapshot_member.blob_hash` and the hash
columns of `suite_snapshot`. -/
def Db.references (db : Db) (h : Str) : Bool :=
  db.urlPaths.any (fun u => u.blobHash == some h) || db.members.any (fun m => m.blobHash == h) ||
    db.snapshots.any fun s => s.names h

/-- The predicate of blob GC: nobody pins the blob, its clock is before the cutoff, and no row
names it. -/
def Db.reapable (db : Db) (cutoff : Int) (b : Blob) : Bool :=
  b.refcount ≤ 0 && b.zeroedAt.any (· < cutoff) && !db.references b.hash

/-- `RunBlobGCBatch`: delete up to `batchSize` reapable rows, the oldest clock first, and return
them; their files are unlinked afterwards. -/
def runBlobGCBatch (batchSize graceSeconds now : Int) : Tx (List (Str × Int)) := do
  Tx.ensure (1 ≤ batchSize) .invalidArgument
  let db ← get
  let cutoff := now - graceSeconds
  let chosen := ((db.blobs.select (db.reapable cutoff)).insertionSort
    (fun a b => a.zeroedAt.getD 0 ≤ b.zeroedAt.getD 0)).take batchSize.toNat
  let hashes := chosen.map Blob.hash
  modify fun db =>
    { db with blobs := db.blobs.delete fun b => hashes.contains b.hash && db.reapable cutoff b }
  pure (chosen.map fun b => (b.hash, b.size))

/-! ## Cached paths -/

/-- `putURLPathSQL`: a fetch or serve (re-)establishes the row, and a hold-grace stamp goes. -/
def putURLPathStmt (u : UrlPath) : Tx Unit := do
  requireBlobs [u.blobHash]
  modify fun db =>
    { db with
      urlPaths := db.urlPaths.upsert { u with droppedAt := none }
        ⟨fun r => { u with key := r.key, droppedAt := none }, fun _ => rfl⟩ }

def putURLPath (u : UrlPath) : Tx Unit := putURLPathStmt u

def touchURLPath (k : UrlKey) (now : Int) : Tx Unit :=
  modify fun db =>
    { db with
      urlPaths := db.urlPaths.updateAt k
        ⟨fun r => { r with
          requestCount := r.requestCount + 1
          lastRequestedAt := some now
          droppedAt := none }, fun _ => rfl⟩ }

/-- `RefreshURLPathBlob`: the row takes a new blob if it still has the old one. -/
def refreshURLPathBlob (k : UrlKey) (old new : Str) (now : Int) : Tx Bool := do
  Tx.ensure (validBlobHash old = true ∧ validBlobHash new = true) .invalidHash
  match (← get).urlPaths.find k with
  | none => pure false
  | some r =>
    if r.blobHash = some old then
      requireBlob new
      modify fun db =>
        { db with
          urlPaths := db.urlPaths.updateAt k
            ⟨fun r => { r with
              blobHash := some new
              lastFetchedAt :=
                if old = new then r.lastFetchedAt else some (max now (r.lastFetchedAt.getD 0 + 1)) }, fun _ => rfl⟩ }
      pure true
    else pure false

/-- `deleteURLPathRowTx`: delete the row and take one off the blob it named. -/
def deleteURLPathRowTx (k : UrlKey) (blobHash : Option Str) (now : Int) : Tx Unit := do
  match (← get).urlPaths.find k with
  | none => pure ()
  | some _ =>
    modify fun db => { db with urlPaths := db.urlPaths.deleteAt k }
    match blobHash with
    | some h =>
      if h = [] then pure ()
      else modify fun db =>
        { db with blobs := db.blobs.updateAt h (Blob.released now) }
    | none => pure ()

/-- `deleteCachedRowTx`: the same, for a row read in this transaction; whether there was one. -/
def deleteCachedRowTx (k : UrlKey) (now : Int) : Tx Bool := do
  match (← get).urlPaths.find k with
  | none => pure false
  | some r =>
    deleteURLPathRowTx k r.blobHash now
    pure true

def evictURLPath (k : UrlKey) (now : Int) : Tx Unit := do
  let _ ← deleteCachedRowTx k now
  pure ()

/-- `deleteURLPathRows`: one batch of `DeleteSuiteMetadata`; how many rows there were. -/
def deleteSuiteMetadataRows (ks : List UrlKey) (now : Int) : Tx Nat :=
  ks.foldlM (fun n k => do
    let deleted ← deleteCachedRowTx k now
    pure (if deleted then n + 1 else n)) 0

/-- `DeleteURLPathRows`: the rows that still have the blob the caller read. -/
def deleteURLPathRows (rows : List (UrlKey × Option Str)) (now : Int) : Tx Nat :=
  rows.foldlM (fun n row => do
    match (← get).urlPaths.find row.1 with
    | none => pure n
    | some r =>
      if r.blobHash = row.2 then
        deleteURLPathRowTx row.1 r.blobHash now
        pure (n + 1)
      else pure n) 0

/-! ## Retention -/

/-- The order of `(canonical_scheme, canonical_host, path)`. -/
def UrlKey.before (a b : UrlKey) : Bool :=
  match a.scheme, b.scheme with
  | .http, .https => true
  | .https, .http => false
  | _, _ => a.host < b.host || (a.host = b.host && a.path < b.path)

structure URLPathGCBatchResult where
  scanned : Nat
  stamped : Nat
  cleared : Nat
  deleted : Nat
  /-- The cursor for the next batch. -/
  last : Option UrlKey
  deriving DecidableEq

/-- What a batch of `url_path` GC does with one row: `retained` is the rule that keeps it
(`urlPathRetainedTx`), `holdSeconds` the grace after the first pass that did not. -/
def gcURLPathRow (retained : Db → UrlPath → Bool) (holdSeconds now : Int)
    (res : URLPathGCBatchResult) (r : UrlPath) : Tx URLPathGCBatchResult := do
  let res := { res with scanned := res.scanned + 1, last := some r.key }
  if retained (← get) r then
    if r.droppedAt.isSome then
      modify fun db =>
        { db with
          urlPaths := db.urlPaths.updateAt r.key ⟨fun r => { r with droppedAt := none }, fun _ => rfl⟩ }
      pure { res with cleared := res.cleared + 1 }
    else pure res
  else if holdSeconds ≤ 0 ∨ r.droppedAt.any (fun d => now - d ≥ holdSeconds) then
    deleteURLPathRowTx r.key r.blobHash now
    pure { res with deleted := res.deleted + 1 }
  else if r.droppedAt.isNone then
    modify fun db =>
      { db with
        urlPaths := db.urlPaths.updateAt r.key ⟨fun r => { r with droppedAt := some now }, fun _ => rfl⟩ }
    pure { res with stamped := res.stamped + 1 }
  else pure res

/-- `RunURLPathGCBatch`: one page of rows after the cursor that are not both recent and
unstamped. -/
def runURLPathGCBatch (retained : Db → UrlPath → Bool) (batchSize ttlSeconds holdSeconds : Int)
    (after : Option UrlKey) (now : Int) : Tx URLPathGCBatchResult := do
  Tx.ensure (1 ≤ batchSize) .invalidArgument
  Tx.ensure (0 < ttlSeconds) .invalidArgument
  let ttlCutoff := now - ttlSeconds
  let rows := ((← get).urlPaths.select fun r =>
    after.all (fun a => a.before r.key) &&
      !(r.lastRequestedAt.any (ttlCutoff ≤ ·) && r.droppedAt.isNone)).insertionSort
    (fun a b => !b.key.before a.key)
  (rows.take batchSize.toNat).foldlM (gcURLPathRow retained holdSeconds now) ⟨0, 0, 0, 0, after⟩

end AptCacher.Cache
