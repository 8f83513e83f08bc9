import AptCacher.Handler.Fetch

/-!
# Serving a request

`ServeHTTP` as a program over the effects: the registration with the flip barrier, the lookups of
the hit path in their order, and the miss. What a request knows of its suite is passed on
explicitly (`SuiteReq`); a lookup that does not answer returns no response. Touches and freshness
checks that run beside the response are steps of the environment.

* `Response`, `Source`: what is sent, and where a body comes from.
* `trySnapshotHit`: the snapshot path, with `tryDisplacedByHash` and the recovery.
* `checkPackageHash`, `tryURLPathHit`, `tryByHashContentAddressed`: the other lookups.
* `serveCacheMiss`, `respondError`: the miss.
* `serveHTTP`, `server`: the request, and the system that serves any number of them.
-/

namespace AptCacher.Handler

open Spec Cache Aptpath Proxy
open Flight (lift)

/-! ## Answers, calls, programs -/

/-- Where a body comes from. -/
inductive Source
  /-- A member of the current snapshot. -/
  | snapshot (id : Nat)
  /-- A by-hash member of a displaced snapshot. -/
  | displaced (id : Nat)
  /-- A member of the current snapshot, fetched again. -/
  | recovered (id : Nat)
  /-- The `url_path` row of the request. -/
  | urlPath
  /-- The pool, by the hash in the path. -/
  | byHash
  /-- The `url_path` row, upstream being down. -/
  | stale
  /-- A miss. -/
  | fetched
  deriving DecidableEq

/-- What is sent: an error status, or a body or a part of it. -/
inductive Response (B : Type)
  | error (status : Nat)
  | body (source : Source) (b : B)
  deriving DecidableEq

/-- The keys of the shared calls. -/
inductive Key
  | miss (u : UrlKey)
  | recovery (u : UrlKey) (declared : Str)
  | onboard (key : SuiteKey)
  deriving DecidableEq

/-- The programs of requests. -/
abbrev H (B : Type) := Prog (Flight.Shared (Eff B) Key Result)

variable {B : Type}

/-- Share the call of the key; its result, and whether another request led it. -/
def share (key : Key) (body : M B Result) : H B (Result × Bool) := Prog.perform (.flight key body)

/-- `suiteReq`: what a request knows about its suite. -/
structure SuiteReq where
  /-- The suite has a row, as the request last read or wrote it. -/
  tracked : Bool
  /-- The request is registered with the flip barrier. -/
  tok : Bool
  deriving DecidableEq

/-- Serve a pool file, if it is there. -/
def serveBlob (source : Source) (h : Str) : M B (Option (Response B)) := do
  match ← openBlob h with
  | some b => pure (some (.body source b))
  | none => pure none

/-! ## The flip barrier -/

def barrierAnchor (cfg : Config) (req : Request) : Bool :=
  cfg.barrier && req.ofSuite &&
    (req.path == req.suitePath ++ "/InRelease".toList || req.path == req.suitePath ++ "/Release".toList)

/-- `anchorStart`: whether the request holds a token now. A failed read registers too, unless the
client left during it; its token then does nothing, and the caller answers a client abort. -/
def anchorStart (cfg : Config) (req : Request) : M B Bool :=
  if barrierAnchor cfg req then do
    match ← read (.hasSuiteRow req.suite) with
    | some false => pure false
    | some true => do
      let _ ← ask (.anchorStart req.suite)
      pure true
    | none => do
      if ← ask .ctxEnded then pure true
      else do
        let _ ← ask (.anchorStart req.suite)
        pure true
  else pure false

/-- `registerLate`: whether the request registered now. -/
def registerLate (cfg : Config) (req : Request) (sr : SuiteReq) : M B (Bool × SuiteReq) :=
  if sr.tok || !sr.tracked then pure (false, sr)
  else do
    let t ← anchorStart cfg req
    pure (t, { sr with tok := t })

/-! ## The snapshot path -/

/-- The loop of `tryDisplacedByHash`: the first member whose blob is there and, for a SHA256 name,
is the one that the name says. -/
def serveDisplaced (name : ByHash) : List Member → M B (Option (Response B))
  | [] => pure none
  | m :: ms =>
    if name = .sha256 m.blobHash ∨ name = .sha512 then do
      match ← openBlob m.blobHash with
      | some b => pure (some (.body (.displaced m.snapshotId) b))
      | none => serveDisplaced name ms
    else serveDisplaced name ms

def tryDisplacedByHash (cfg : Config) (req : Request) (current : Nat) :
    M B (Option (Response B)) :=
  if cfg.keepDisplaced ≤ 0 then pure none
  else match byHashMember req.member with
    | none => pure none
    | some name => do
      match ← read (.displacedSnapshotMembers req.suite req.member current (cfg.keepDisplaced + 1)) with
      | none => pure none
      | some ms => serveDisplaced name ms

/-- `serveSnapshotMemberMiss`: fetch a member of the current snapshot again. -/
def serveSnapshotMemberMiss (c : Content B) (req : Request) (m : Member) (id : Nat) :
    H B (Response B) := do
  match ← share (.recovery req.url m.declared) (runSnapshotMemberFetch c req m.declared) with
  | (.error _, _) => pure (.error 502)
  | (.ok f, _) => do
    match ← lift (openBlob f.blobHash) with
    | some b => pure (.body (.recovered id) b)
    | none => pure (.error 502)

/-- `trySnapshotHit` once the current snapshot is known: it answers in any case. -/
def serveSnapshot (c : Content B) (cfg : Config) (req : Request) (id : Nat) : H B (Response B) := do
  match ← lift (read (.getSnapshotMember id req.member)) with
  | none => pure (.error 502)
  | some none => do
    match ← lift (tryDisplacedByHash cfg req id) with
    | some r => pure r
    | none => pure (.error 404)
  | some (some m) => do
    match ← lift (openBlob m.blobHash) with
    | some b => pure (.body (.snapshot id) b)
    | none => serveSnapshotMemberMiss c req m id

/-- `trySnapshotHit`. An anchor serve of a tracked suite that is not registered is handed back. -/
def trySnapshotHit (c : Content B) (cfg : Config) (req : Request) (sr : SuiteReq) :
    H B (Option (Response B) × SuiteReq) := do
  match ← lift (read (.getSuiteFreshness req.suite)) with
  | none => pure (some (.error 502), sr)
  | some none => pure (none, { sr with tracked := false })
  | some (some suite) =>
    if !sr.tok && barrierAnchor cfg req then pure (none, { sr with tracked := true })
    else match suite.current with
      | none => pure (none, { sr with tracked := true })
      | some id => do
        let r ← serveSnapshot c cfg req id
        pure (some r, { sr with tracked := true })

/-- What follows a late registration: a client that left, or the snapshot path again. -/
def redispatch (c : Content B) (cfg : Config) (req : Request) (sr : SuiteReq) :
    H B (Option (Response B) × SuiteReq) := do
  if ← lift (ask .ctxEnded) then pure (some (.error 503), sr) else trySnapshotHit c cfg req sr

/-! ## Package checks of a hit -/

/-- What `checkPackageHash` says of a cached package. -/
inductive Check
  /-- An error was sent. -/
  | refuse (status : Nat)
  /-- The row was evicted: go on to the miss. -/
  | evicted
  | serve
  deriving DecidableEq

def checkDeclared (req : Request) (hash : Str) (rows : List DeclaredHash) : M B Check :=
  match distinctDeclared rows with
  | [h] =>
    if h = hash then pure .serve
    else do
      let _ ← write (.evictURLPath req.url)
      pure .evicted
  | _ => pure (.refuse 502)

/-- `recheckRefusal`: the second look before a refusal. -/
def recheckRefusal (req : Request) (hash : Str) : M B Check := do
  match ← declaredHashesForPath req.url with
  | none => if ← ask .ctxEnded then pure (.refuse 503) else pure (.refuse 502)
  | some rows => if rows = [] then pure (.refuse 502) else checkDeclared req hash rows

/-- `checkPackageHashWait`, with what it does when strict mode refuses. -/
def checkPackageHashWith (cfg : Config) (req : Request) (hash : Str) (refusal : M B Check) :
    M B Check := do
  match ← declaredHashesForPath req.url with
  | none => if ← ask .ctxEnded then pure (.refuse 503) else pure .serve
  | some rows =>
    if rows = [] then
      if isDebPath req.path then do
        match ← classifyStrictMode cfg req with
        | .canceled => pure (.refuse 503)
        | .refuse => refusal
        | _ => pure .serve
      else pure .serve
    else checkDeclared req hash rows

/-- A refusal of `checkPackageHashWait` with `mayWait`: wait for the host's adoptions and run the
check once more, or look again at once. -/
def waitRefusal (cfg : Config) (req : Request) (hash : Str) : M B Check :=
  if cfg.adoptions then do
    if ← ask (.adoptionsInFlight req.host) then do
      let waited ← ask (.waitHostAdoptions req.host)
      if ← ask .ctxEnded then pure (.refuse 503)
      else if waited then checkPackageHashWith cfg req hash (pure (.refuse 502))
      else pure (.refuse 502)
    else recheckRefusal req hash
  else pure (.refuse 502)

def checkPackageHash (cfg : Config) (req : Request) (hash : Str) : M B Check :=
  checkPackageHashWith cfg req hash (waitRefusal cfg req hash)

/-! ## The other lookups -/

/-- `onboard`: create the row of an untracked suite whose anchor is cached; whether the request
registered after it. -/
def onboard (c : Content B) (cfg : Config) (req : Request) (sr : SuiteReq) (hash : Str) :
    H B (Bool × SuiteReq) := do
  if sr.tracked || !req.file.createsRow cfg.adoptionEnabled then pure (false, sr)
  else do
    if ← lift (ask (.rejected req.suite)) then pure (false, sr)
    else do
      match ← lift (openBlob hash) with
      | none => pure (false, sr)
      | some b =>
        if c.sniff req.file req.path b then do
          match ← share (.onboard req.suite) (runOnboard c cfg req) with
          | (.error _, _) => pure (false, sr)
          | (.ok f, shared) =>
            if f.tracked then do
              let (late, sr) ← lift (registerLate cfg req { sr with tracked := true })
              if f.unproven && !shared then do
                lift (markCachedSignedAnchors c req)
                pure (late, sr)
              else pure (late, sr)
            else pure (false, sr)
        else pure (false, sr)

/-- The metadata part of `tryURLPathHit`. -/
def serveCachedMetadata (c : Content B) (cfg : Config) (req : Request) (sr : SuiteReq) (hash : Str) :
    H B (Option (Response B) × SuiteReq) := do
  let (late, sr) ← onboard c cfg req sr hash
  if late then do
    match ← redispatch c cfg req sr with
    | (some r, sr) => pure (some r, sr)
    | (none, sr) => do pure (← lift (serveBlob .urlPath hash), sr)
  else do pure (← lift (serveBlob .urlPath hash), sr)

/-- The package part of `tryURLPathHit`. -/
def serveCachedPackage (cfg : Config) (req : Request) (hash : Str) : M B (Option (Response B)) := do
  match ← checkPackageHash cfg req hash with
  | .refuse status => pure (some (.error status))
  | .evicted => pure none
  | .serve => serveBlob .urlPath hash

/-- The blob of a cached row, if it has one. -/
def cachedBlob (row : Option (Option UrlPath)) : Option Str :=
  row.join.bind UrlPath.blobHash |>.filter (· ≠ [])

def tryURLPathHit (c : Content B) (cfg : Config) (req : Request) (sr : SuiteReq) :
    H B (Option (Response B) × SuiteReq) := do
  match cachedBlob (← lift (read (.lookupURL req.url))) with
  | none => pure (none, sr)
  | some hash =>
    if req.isMetadata then serveCachedMetadata c cfg req sr hash
    else do pure (← lift (serveCachedPackage cfg req hash), sr)

def tryByHashContentAddressed (cfg : Config) (req : Request) (sr : SuiteReq) :
    M B (Option (Response B)) :=
  if req.suitePath ≠ [] ∧ sr.tracked = true ∧ cfg.hostAllowed req.host = true then
    match byHashSuffix req.path with
    | none => pure none
    | some hash => do
      match ← openBlob hash with
      | none => pure none
      | some _ => do
        match ← read (.hostHasBlob req.scheme req.host hash) with
        | some true => serveBlob .byHash hash
        | _ => pure none
  else pure none

/-- `tryCacheHit` after the snapshot path. -/
def tryCachedRows (c : Content B) (cfg : Config) (req : Request) (sr : SuiteReq) :
    H B (Option (Response B) × SuiteReq) := do
  match ← tryURLPathHit c cfg req sr with
  | (some r, sr) => pure (some r, sr)
  | (none, sr) =>
    if req.isMetadata then do pure (← lift (tryByHashContentAddressed cfg req sr), sr)
    else pure (none, sr)

def tryCacheHit (c : Content B) (cfg : Config) (req : Request) (sr : SuiteReq) :
    H B (Option (Response B) × SuiteReq) := do
  if req.ofSuite then do
    match ← trySnapshotHit c cfg req sr with
    | (some r, sr) => pure (some r, sr)
    | (none, sr) => do
      let (late, sr) ← lift (registerLate cfg req sr)
      if late then do
        match ← redispatch c cfg req sr with
        | (some r, sr) => pure (some r, sr)
        | (none, sr) => tryCachedRows c cfg req sr
      else tryCachedRows c cfg req sr
  else tryCachedRows c cfg req sr

/-! ## The miss -/

def tryServeStale (cfg : Config) (req : Request) : M B (Option (Response B)) :=
  if req.isMetadata && cfg.serveStale then do
    match cachedBlob (← read (.lookupURL req.url)) with
    | none => pure none
    | some hash => serveBlob .stale hash
  else pure none

def respondUpstreamUnreachable (cfg : Config) (req : Request) : M B (Response B) := do
  match ← tryServeStale cfg req with
  | some r => pure r
  | none => pure (.error 502)

def respondError (cfg : Config) (req : Request) : SfErr → M B (Response B)
  | .metadataChanged => pure (.error 503)
  | .fetch .hostNotAllowed => pure (.error 403)
  | .fetch .targetDenied => pure (.error 403)
  | .fetch (.upstreamStatus code) => pure (.error code)
  | .fetch .unreachable => respondUpstreamUnreachable cfg req
  | .fetch .canceled => pure (.error 503)
  | .failed => do
    if ← ask .deadlineExceeded then respondUpstreamUnreachable cfg req else pure (.error 502)
  | _ => pure (.error 502)

/-- The body of a miss. -/
def serveMissBody (hash : Str) : M B (Response B) := do
  match ← openBlob hash with
  | some b => pure (.body .fetched b)
  | none => pure (.error 500)

/-- `serveCacheMiss` after a late registration, if there was one. -/
def serveMiss (c : Content B) (cfg : Config) (req : Request) (sr : SuiteReq) (late : Bool)
    (hash : Str) : H B (Response B) := do
  if late then do
    match ← redispatch c cfg req sr with
    | (some r, _) => pure r
    | (none, _) => lift (serveMissBody hash)
  else lift (serveMissBody hash)

/-- `serveCacheMiss` with the result of the shared call. -/
def serveResult (c : Content B) (cfg : Config) (req : Request) (sr : SuiteReq) :
    Result × Bool → H B (Response B)
  | (.error e, _) => lift (respondError cfg req e)
  | (.ok f, shared) => do
    let (late, sr) ← lift (registerLate cfg req { sr with tracked := sr.tracked || f.tracked })
    if f.unproven && !shared then do
      lift (markCachedSignedAnchors c req)
      serveMiss c cfg req sr late f.blobHash
    else serveMiss c cfg req sr late f.blobHash

/-- `serveCacheMiss` after an attempt that can be retried: wait for the host's adoptions, then one
more call. -/
def retryMiss (c : Content B) (cfg : Config) (req : Request) (sr : SuiteReq) : H B (Response B) := do
  let waited ← lift (if cfg.adoptions then ask (.waitHostAdoptions req.host) else pure false)
  if ← lift (ask .ctxEnded) then lift (respondError cfg req (.fetch .canceled))
  else if waited then do
    match ← share (.miss req.url) (runFetch c cfg req sr.tracked) with
    | (.error .unvouchedRetryable, _) => lift (respondError cfg req .unvouchedDebRefused)
    | res => serveResult c cfg req sr res
  else lift (respondError cfg req .unvouchedDebRefused)

def serveCacheMiss (c : Content B) (cfg : Config) (req : Request) (sr : SuiteReq) :
    H B (Response B) := do
  match ← share (.miss req.url) (runFetch c cfg req sr.tracked) with
  | (.error .unvouchedRetryable, _) => retryMiss c cfg req sr
  | res => serveResult c cfg req sr res

/-! ## Requests -/

/-- `ServeHTTP` after the registration. -/
def serveRegistered (c : Content B) (cfg : Config) (req : Request) (sr : SuiteReq) :
    H B (Response B) := do
  match ← tryCacheHit c cfg req sr with
  | (some r, _) => pure r
  | (none, sr) =>
    if cfg.hostAllowed req.host then serveCacheMiss c cfg req sr else pure (.error 403)

def serveHTTP (c : Content B) (cfg : Config) (req : Request) : H B (Response B) := do
  if ← lift (anchorStart cfg req) then do
    if ← lift (ask .ctxEnded) then pure (.error 503) else serveRegistered c cfg req ⟨false, true⟩
  else serveRegistered c cfg req ⟨false, false⟩

/-- The worlds of the handler. -/
abbrev World (B : Type) := Flight.World (Eff B) (Store B) Event Key Result Request (Response B)

/-- The actions. -/
abbrev Act (B : Type) := Flight.Act Request (Pick B) (EnvAct B)

/-- The handler: any requests, any schedule, any environment. -/
def server (c : Content B) (cfg : Config) (f : Faults) : Sys (World B) (Act B) :=
  Flight.server (sem c f) (serveHTTP c cfg) (env c)

/-! ## Runs -/

/-- A store without requests. -/
def World.start (s : Store B) : World B := ⟨s, [], []⟩

/-- The world after the actions, if each is possible. -/
def World.after (c : Content B) (cfg : Config) (f : Faults) (s : Store B) (as : List (Act B)) :
    World B :=
  ((server c cfg f).exec (World.start s) as).getD (World.start s)

theorem World.after_reach {c : Content B} {cfg : Config} {f : Faults} {s : Store B}
    {as : List (Act B)} (h : ((server c cfg f).exec (World.start s) as).isSome = true) :
    (server c cfg f).Reach (World.after c cfg f s as) :=
  .exec ⟨rfl, rfl⟩ (eq_some_getD _ h)

/-- Bodies that are their own hash, for concrete runs. -/
def texts : Content Str := ⟨id, fun b => b.length, fun _ _ _ => false⟩

end AptCacher.Handler
