import AptCacher.Handler.Effect

/-!
# The bodies of the shared calls

What the leader of a singleflight call runs: the download of a miss, the recovery of a snapshot
member whose pool file is gone, and the onboarding of a suite. Requests that arrive meanwhile take
over the result.

* `declaredHashesForPath`, `classifyStrictMode`: the reads behind the package checks.
* `runFetch`: the miss, with a check before the download and the authoritative one after it.
* `runSnapshotMemberFetch`: the recovery, against the hash that the member declares.
* `runOnboard`: the row of an untracked suite whose anchor is cached.
-/

namespace AptCacher.Handler

open Spec Cache Aptpath Proxy

/-- What the handler is configured with. -/
structure Config where
  adoptionEnabled : Bool
  /-- `refuse_unvouched_debs`. -/
  refuseUnvouchedDebs : Bool
  /-- The flip barrier is on. -/
  barrier : Bool
  /-- `serve_stale_when_upstream_down`. -/
  serveStale : Bool
  /-- The adoption tracker is wired. -/
  adoptions : Bool
  keepDisplaced : Int
  maxSuites : Int
  hostAllowed : Str → Bool

def Config.suiteCaps (cfg : Config) : SuiteCaps := ⟨cfg.maxSuites, cfg.maxSuites.tdiv 10⟩

/-- Why a shared call fails. -/
inductive SfErr
  | fetch (e : FetchErr)
  | unvouchedRetryable
  | unvouchedDebRefused
  | packageHashConflict
  | packageHashMismatch
  | snapshotMemberMismatch
  | metadataChanged
  /-- A local step failed. -/
  | failed
  deriving DecidableEq

/-- What a shared call leaves to the requests that share it. -/
structure Fetched where
  blobHash : Str
  /-- The suite has a row. -/
  tracked : Bool
  /-- The creation of the row left a cached anchor unchecked. -/
  unproven : Bool
  deriving DecidableEq

/-- The result of a shared call. -/
abbrev Result := Except SfErr Fetched

/-- Programs that share no call. -/
abbrev M (B : Type) := Prog (Eff B)

variable {B : Type}

/-! ## Effects as programs -/

/-- One read. -/
def read {β : Type} (q : Query β) : M B (Option β) := Prog.perform (.read q)

/-- One write. -/
def write {β : Type} (w : Write β) : M B (Except (Option Err) β) := Prog.perform (.write w)

/-- Open a pool file. -/
def openBlob (h : Str) : M B (Option B) := Prog.perform (.openBlob h)

/-- Ask another component. -/
def ask (q : Ask) : M B Bool := Prog.perform (.ask q)

/-- The wall clock. -/
def clock : M B Int := Prog.perform .clock

/-! ## Package checks -/

/-- `DeclaredHashesForPath`: the exact lookup, then the one by suffix. -/
def declaredHashesForPath (u : UrlKey) : M B (Option (List DeclaredHash)) := do
  match ← read (.declaredHashesExact u) with
  | none => pure none
  | some rows => if rows = [] then read (.declaredHashesBySuffix u) else pure (some rows)

/-- `strictModeOutcome`. -/
inductive StrictMode
  | inactive
  | refuse
  | passthrough
  | canceled
  deriving DecidableEq

/-- The verdict on the coverage of the host's current snapshots. -/
def strictMode (rows : List (Nat × Bool)) : StrictMode :=
  if rows = [] then .inactive else if rows.any (fun r => !r.2) then .passthrough else .refuse

def classifyStrictMode (cfg : Config) (req : Request) : M B StrictMode :=
  if cfg.refuseUnvouchedDebs && cfg.adoptionEnabled then do
    match ← read (.hostCurrentSnapshotsCoverage req.scheme req.host) with
    | some rows => pure (strictMode rows)
    | none => if ← ask .ctxEnded then pure .canceled else pure .inactive
  else pure .inactive

/-- What the check before a download says. -/
inductive Prefetch
  | stop (e : SfErr)
  /-- Download; `unread`: the declared hashes could not be read. -/
  | go (unread : Bool)
  deriving DecidableEq

/-- `prefetchRecheck`: the second look before a refusal. -/
def prefetchRecheck (req : Request) : M B Prefetch := do
  match ← declaredHashesForPath req.url with
  | none => pure (.stop .unvouchedDebRefused)
  | some rows =>
    if 2 ≤ (distinctDeclared rows).length then pure (.stop .packageHashConflict)
    else if rows = [] then pure (.stop .unvouchedDebRefused)
    else pure (.go false)

def prefetchCheck (cfg : Config) (req : Request) : M B Prefetch := do
  match ← declaredHashesForPath req.url with
  | none => pure (.go true)
  | some rows =>
    if 2 ≤ (distinctDeclared rows).length then pure (.stop .packageHashConflict)
    else if distinctDeclared rows ≠ [] ∨ isDebPath req.path = false then pure (.go false)
    else do
      match ← classifyStrictMode cfg req with
      | .refuse =>
        if cfg.adoptions then
          if ← ask (.adoptionsInFlight req.host) then pure (.stop .unvouchedRetryable)
          else prefetchRecheck req
        else pure (.stop .unvouchedDebRefused)
      | _ => pure (.go false)

/-- `strictAfterDownload`: the refusal, if there is one. -/
def strictAfterDownload (cfg : Config) (req : Request) : M B (Option SfErr) := do
  match ← classifyStrictMode cfg req with
  | .refuse =>
    if cfg.adoptions then
      if ← ask (.adoptionsInFlight req.host) then pure (some .unvouchedRetryable)
      else pure (some .unvouchedDebRefused)
    else pure (some .unvouchedDebRefused)
  | _ => pure none

/-- Promote a download; the hash it has in the pool. -/
def promoted (expected : Option Str) (b : B) : M B (Except SfErr Str) := do
  match ← Prog.perform (.finalize expected b) with
  | .ok h => pure (.ok h)
  | .error _ => pure (.error .failed)

/-- The authoritative check of `runFetch`, after the download and before the promotion. -/
def promoteFetched (c : Content B) (cfg : Config) (req : Request) (unread : Bool) (b : B) :
    M B (Except SfErr Str) :=
  if req.isMetadata then promoted none b
  else do
    match ← declaredHashesForPath req.url with
    | none => promoted none b
    | some rows =>
      match distinctDeclared rows with
      | [] =>
        if unread && isDebPath req.path then do
          match ← strictAfterDownload cfg req with
          | some e => pure (.error e)
          | none => promoted none b
        else promoted none b
      | [h] =>
        if h = c.sha256 b then promoted (some h) b else pure (.error .packageHashMismatch)
      | _ => pure (.error .packageHashConflict)

/-! ## Suite rows -/

def lastUse (u : UrlPath) : Int := max (u.lastRequestedAt.getD 0) (u.lastFetchedAt.getD 0)

/-- `readCachedAnchor`: the cached row at the path and whether its file is signed; `none` if a
read fails. -/
def readCachedAnchor (c : Content B) (key : SuiteKey) (path : Str) :
    M B (Option (Option (UrlPath × Str) × Bool)) := do
  match ← read (.lookupURL ⟨key.scheme, key.host, path⟩) with
  | none => pure none
  | some none => pure (some (none, false))
  | some (some row) =>
    match row.blobHash with
    | none => pure (some (none, false))
    | some h => do
      match ← openBlob h with
      | none => pure none
      | some b => pure (some (some (row, h), c.sniff (classifySuiteFile key.suitePath path) path b))

/-- The signed anchors of a suite, `except` apart. -/
def signedAnchors (key : SuiteKey) (except : Str) : List Str :=
  ["/InRelease", "/Release.gpg"].map (fun name => key.suitePath ++ name.toList) |>.filter (· ≠ except)

/-- One entry of `cachedAnchors`; a row that is missing or could not be read has no blob. -/
def cachedAnchor (c : Content B) (key : SuiteKey) (path : Str) : M B CachedAnchor := do
  match ← readCachedAnchor c key path with
  | some (some (row, h), signed) => pure ⟨path, h, signed, lastUse row⟩
  | _ => pure ⟨path, [], false, 0⟩

def cachedAnchors (c : Content B) (key : SuiteKey) (except : Str) : M B (List CachedAnchor) :=
  (signedAnchors key except).mapM (cachedAnchor c key)

/-- The mark that a cached anchor earns in `markCachedSignedAnchors`. -/
def anchorMark (c : Content B) (key : SuiteKey) (path : Str) : M B (Option Marker) := do
  match ← readCachedAnchor c key path with
  | some (some (row, _), true) =>
    if 0 < lastUse row then pure (some ⟨key.mark, lastUse row⟩)
    else do pure (some ⟨key.mark, ← clock⟩)
  | _ => pure none

/-- `markCachedSignedAnchors`: the backstop of an unproven creation. -/
def markCachedSignedAnchors (c : Content B) (req : Request) : M B Unit := do
  let marks ← (signedAnchors req.suite req.path).mapM (anchorMark c req.suite)
  if marks.reduceOption = [] then pure ()
  else do
    let _ ← write (.markSignedSeenBatch marks.reduceOption)
    pure ()

/-- `CreateSuite`: once more if the held candidate was gone or kept. -/
def createSuite (cfg : Config) (seed : SuiteSeed) : M B (Except (Option Err) CreateResult) := do
  match ← write (.createSuite seed cfg.suiteCaps) with
  | .ok r =>
    if r.heldGone || r.heldKept then write (.createSuite seed cfg.suiteCaps) else pure (.ok r)
  | .error e => pure (.error e)

/-- `StoreFetched`: once more if the held candidate was gone or kept. -/
def storeFetched (cfg : Config) (m : FetchedRow) : M B (Except (Option Err) FetchedResult) := do
  match ← write (.storeFetched m cfg.suiteCaps) with
  | .ok r =>
    if r.create.any (fun cr => cr.heldGone || cr.heldKept) then
      write (.storeFetched m cfg.suiteCaps)
    else pure (.ok r)
  | .error e => pure (.error e)

def runOnboard (c : Content B) (cfg : Config) (req : Request) : M B Result := do
  let now ← clock
  let cached ← cachedAnchors c req.suite req.path
  match ← createSuite cfg ⟨req.suite, now, if req.file.marks then now else 0, cached⟩ with
  | .error _ => pure (.error .failed)
  | .ok r => pure (.ok ⟨[], r.outcome = .created ∨ r.outcome = .suiteExists,
      r.outcome = .created ∧ r.unproven⟩)

/-! ## The miss -/

/-- The `url_path` row of a miss. -/
def missRow (req : Request) (hash : Str) (now : Int) : UrlPath :=
  ⟨req.url, some hash, req.isMetadata, some now, 1, some now, none⟩

/-- The suite's part of a miss's transaction: the creation and the marker that a sniff-passing
suite file earns. -/
def fetchedRow (c : Content B) (cfg : Config) (req : Request)
    (generation : Option MetadataGeneration) (trackedAtStart : Bool) (hash : Str) (now : Int) :
    M B (Except SfErr FetchedRow) :=
  let plain : FetchedRow := ⟨missRow req hash now, generation, some req.suite, none, 0⟩
  if req.file = .notSuiteFile then pure (.ok plain)
  else do
    match ← openBlob hash with
    | none =>
      if req.file.marks then pure (.error (.fetch .cacheWriteFailed)) else pure (.ok plain)
    | some b =>
      if c.sniff req.file req.path b then do
        let marked := { plain with markSeenAt := if req.file.marks then now else 0 }
        if !trackedAtStart && req.file.createsRow cfg.adoptionEnabled then
          if ← ask (.rejected req.suite) then pure (.ok marked)
          else do
            let cached ← cachedAnchors c req.suite req.path
            pure (.ok { marked with create := some ⟨req.suite, now, 0, cached⟩ })
        else pure (.ok marked)
      else pure (.ok plain)

/-- The rows of a miss whose file is in the pool. -/
def storeMiss (c : Content B) (cfg : Config) (req : Request)
    (generation : Option MetadataGeneration) (trackedAtStart : Bool) (b : B) (hash : Str) :
    M B Result := do
  match ← write (.putBlob hash (c.size b)) with
  | .error _ => pure (.error .failed)
  | .ok _ => do
    let now ← clock
    match ← fetchedRow c cfg req generation trackedAtStart hash now with
    | .error e => pure (.error e)
    | .ok m =>
      match ← storeFetched cfg m with
      | .error (some .metadataChanged) => pure (.error .metadataChanged)
      | .error _ => pure (.error .failed)
      | .ok r => pure (.ok ⟨hash, r.tracked,
          r.create.any fun cr => cr.outcome = .created ∧ cr.unproven⟩)

/-- The download of a miss, its check and its rows. -/
def downloadMiss (c : Content B) (cfg : Config) (req : Request)
    (generation : Option MetadataGeneration) (trackedAtStart unread : Bool) : M B Result := do
  if ← ask .newTempBlob then
    match ← Prog.perform (.fetch req) with
    | .error e => pure (.error (.fetch e))
    | .ok b =>
      match ← promoteFetched c cfg req unread b with
      | .error e => pure (.error e)
      | .ok hash => storeMiss c cfg req generation trackedAtStart b hash
  else pure (.error .failed)

/-- `runFetch` with the host slot held. -/
def fetchMiss (c : Content B) (cfg : Config) (req : Request)
    (generation : Option MetadataGeneration) (trackedAtStart : Bool) : M B Result :=
  if req.isMetadata then downloadMiss c cfg req generation trackedAtStart false
  else do
    match ← prefetchCheck cfg req with
    | .stop e => pure (.error e)
    | .go unread => downloadMiss c cfg req generation trackedAtStart unread

/-- `runFetch` after the read of the metadata generation. -/
def slotMiss (c : Content B) (cfg : Config) (req : Request)
    (generation : Option MetadataGeneration) (trackedAtStart : Bool) : M B Result := do
  if ← ask (.acquireSlot req.host) then fetchMiss c cfg req generation trackedAtStart
  else pure (.error (.fetch .canceled))

def runFetch (c : Content B) (cfg : Config) (req : Request) (trackedAtStart : Bool) :
    M B Result :=
  if !cfg.adoptionEnabled && req.ofSuite && !contains "/by-hash/".toList req.path then do
    match ← read (.metadataGeneration req.suite) with
    | none => pure (.error .failed)
    | some g => slotMiss c cfg req (some g) trackedAtStart
  else slotMiss c cfg req none trackedAtStart

/-! ## Recovery -/

/-- The promotion and the rows of a recovery. -/
def storeRecovered (c : Content B) (req : Request) (declared : Str) (b : B) : M B Result := do
  match ← Prog.perform (.finalize (some declared) b) with
  | .error .hashMismatch => pure (.error .snapshotMemberMismatch)
  | .error _ => pure (.error .failed)
  | .ok hash =>
    match ← write (.putBlob hash (c.size b)) with
    | .error _ => pure (.error .failed)
    | .ok _ =>
      if ← ask (.putRepresentation req.url) then pure (.ok ⟨hash, false, false⟩)
      else pure (.error .failed)

def runSnapshotMemberFetch (c : Content B) (req : Request) (declared : Str) : M B Result := do
  if ← ask (.acquireSlot req.host) then
    if ← ask .newTempBlob then
      match ← Prog.perform (.fetch req) with
      | .error e => pure (.error (.fetch e))
      | .ok b => storeRecovered c req declared b
    else pure (.error .failed)
  else pure (.error (.fetch .canceled))

end AptCacher.Handler
