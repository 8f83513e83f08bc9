import AptCacher.Cache.Walk
import AptCacher.Proxy.Request
import AptCacher.Spec.Flight

/-!
# The effects of a request

What the handler reads, writes and asks while it serves a request, one effect for each statement,
file operation or call to another component. Between two effects of a request anything else can
happen: effects of other requests, writer operations, files that come and go.

* `Store`: the database and the pool. A pool file is named by the SHA-256 of its content.
* `Query`, `Write`, `Ask`, `Eff`: the effects.
* `Faults`, `Pick`, `sem`: what an effect does, given what is left open (whether a read fails, the
  clock, what upstream answers).
* `EnvAct`, `env`: what happens without a request.
-/

namespace AptCacher.Handler

open Spec Cache Aptpath Proxy

/-! ## The store -/

/-- What the handler can compute of a body. -/
structure Content (B : Type) where
  sha256 : B → Str
  size : B → Int
  /-- The sniff of a suite file, given the request path. -/
  sniff : SuiteFile → Str → B → Bool

/-- The database, and the contents of the pool files. -/
structure Store (B : Type) where
  db : Db
  pool : List B
  agree : db.Agree

variable {B : Type}

namespace Store

/-- The content of `pool/<h>`. -/
def file (c : Content B) (s : Store B) (h : Str) : Option B := s.pool.find? fun b => c.sha256 b == h

/-- A writer operation commits, or is rolled back. -/
def commit (s : Store B) (op : Op) (h : op.agrees = true) : Store B where
  db := op.tx.commit s.db
  pool := s.pool
  agree := s.agree.commit h

/-- A temp file is promoted; a file of its name that is there stays. -/
def promote (c : Content B) (s : Store B) (b : B) : Store B :=
  if (s.file c (c.sha256 b)).isSome then s else { s with pool := b :: s.pool }

/-- `pool/<h>` goes. -/
def vanish (c : Content B) (s : Store B) (h : Str) : Store B :=
  { s with pool := s.pool.filter fun b => c.sha256 b != h }

/-- The current snapshot of a suite. -/
def current (s : Store B) (key : SuiteKey) : Option Nat := (s.db.suites.find key).bind Suite.current

end Store

/-! ## Effects -/

/-- The reads of the database, one statement each. -/
inductive Query : Type → Type
  | getSuiteFreshness (key : SuiteKey) : Query (Option Suite)
  | hasSuiteRow (key : SuiteKey) : Query Bool
  | getSnapshotMember (id : Nat) (path : Str) : Query (Option Member)
  | displacedSnapshotMembers (key : SuiteKey) (path : Str) (current : Nat) (limit : Int) :
      Query (List Member)
  | lookupURL (u : UrlKey) : Query (Option UrlPath)
  | hostHasBlob (scheme : Scheme) (host hash : Str) : Query Bool
  | declaredHashesExact (u : UrlKey) : Query (List DeclaredHash)
  | declaredHashesBySuffix (u : UrlKey) : Query (List DeclaredHash)
  | hostCurrentSnapshotsCoverage (scheme : Scheme) (host : Str) : Query (List (Nat × Bool))
  | metadataGeneration (key : SuiteKey) : Query MetadataGeneration

/-- What a read finds. -/
def Query.eval {β : Type} : Query β → Db → β
  | .getSuiteFreshness key, db => db.suites.find key
  | .hasSuiteRow key, db => (db.suites.find key).isSome
  | .getSnapshotMember id path, db => db.members.find (id, path)
  | .displacedSnapshotMembers key path current limit, db =>
    db.displacedMembers key path current limit
  | .lookupURL u, db => db.urlPaths.find u
  | .hostHasBlob scheme host hash, db => db.hostHasBlob scheme host hash
  | .declaredHashesExact u, db => db.declaredExact u
  | .declaredHashesBySuffix u, db => db.declaredBySuffix u
  | .hostCurrentSnapshotsCoverage scheme host, db => db.hostCoverage scheme host
  | .metadataGeneration key, db => db.metadataGeneration (some key)

/-- `FetchedResult`: what a miss's transaction did for the suite. -/
structure FetchedResult where
  create : Option CreateResult
  /-- The suite has a row after the transaction. -/
  tracked : Bool
  deriving DecidableEq

/-- The writes of the database, one transaction each. -/
inductive Write : Type → Type
  | putBlob (hash : Str) (size : Int) : Write Unit
  | evictURLPath (u : UrlKey) : Write Unit
  | createSuite (seed : SuiteSeed) (caps : SuiteCaps) : Write CreateResult
  | storeFetched (m : FetchedRow) (caps : SuiteCaps) : Write FetchedResult
  | markSignedSeenBatch (marks : List Marker) : Write Unit

/-- The writer operation of a write; `held` is the eviction candidate that the caller holds. -/
def Write.op {β : Type} (now : Int) (held : Option SuiteKey) : Write β → Op
  | .putBlob hash size => .putBlob hash size now
  | .evictURLPath u => .evictURLPath u now
  | .createSuite seed caps => .createSuite seed caps held now
  | .storeFetched m caps => .storeFetched m caps held now
  | .markSignedSeenBatch marks => .markSignedSeenBatch marks

/-- What a write returns. -/
def Write.answer {β : Type} (now : Int) (held : Option SuiteKey) (db : Db) : Write β → Except Err β
  | .putBlob hash size => (Cache.putBlob hash size now db).map Prod.fst
  | .evictURLPath u => (Cache.evictURLPath u now db).map Prod.fst
  | .createSuite seed caps => (createSuiteTx seed caps held now db).map Prod.fst
  | .storeFetched m caps => (storeFetchedTx m caps held now db).map fun y =>
    ⟨y.1, (m.suite.bind y.2.suites.find).isSome⟩
  | .markSignedSeenBatch marks => (Cache.markSignedSeenBatch marks db).map Prod.fst

theorem Write.op_agrees {β : Type} (w : Write β) (now : Int) (held : Option SuiteKey) :
    (w.op now held).agrees = true := by
  cases w <;> rfl

/-- What the handler asks of other components. -/
inductive Ask
  /-- `r.Context().Err() != nil`. -/
  | ctxEnded
  /-- `flipGate.AnchorStart`: a registration, perhaps after a hold. -/
  | anchorStart (key : SuiteKey)
  | adoptionsInFlight (host : Str)
  | waitHostAdoptions (host : Str)
  /-- `sem.Acquire`. -/
  | acquireSlot (host : Str)
  | newTempBlob
  /-- The cache of cap rejections lists the suite. -/
  | rejected (key : SuiteKey)
  /-- `PutRepresentation`: a table that nothing here reads. -/
  | putRepresentation (u : UrlKey)
  /-- The error of a failed step is an expired deadline. -/
  | deadlineExceeded
  deriving DecidableEq

/-- How a fetch fails. -/
inductive FetchErr
  | hostNotAllowed
  | targetDenied
  /-- A 4xx status. -/
  | upstreamStatus (code : Nat)
  /-- No answer, a 5xx status or a timeout. -/
  | unreachable
  | cacheWriteFailed
  | canceled
  /-- An invalid URL, a blocked redirect, anything unclassified. -/
  | other
  deriving DecidableEq

/-- How a promotion fails. -/
inductive FinalizeErr
  | invalidHash
  | hashMismatch
  | io
  deriving DecidableEq

/-- The effects of a request and of the calls it shares. -/
inductive Eff (B : Type) : Type → Type 1
  /-- A read; `none` if it fails. -/
  | read {β : Type} (q : Query β) : Eff B (Option β)
  /-- A write; no error of the writer if it fails before it runs. -/
  | write {β : Type} (w : Write β) : Eff B (Except (Option Err) β)
  /-- Open `pool/<h>`; `none` if it is missing or cannot be opened. -/
  | openBlob (h : Str) : Eff B (Option B)
  /-- Download the request's path. -/
  | fetch (req : Request) : Eff B (Except FetchErr B)
  /-- `Finalize`, or `FinalizeExpectingHash` with the expected hash. -/
  | finalize (expected : Option Str) (b : B) : Eff B (Except FinalizeErr Str)
  | clock : Eff B Int
  | ask (q : Ask) : Eff B Bool

/-! ## Semantics -/

/-- What can go wrong besides files, writes and upstream. -/
structure Faults where
  /-- Reads of the database can fail. -/
  reads : Bool
  /-- Contexts can end. -/
  contexts : Bool
  deriving DecidableEq

/-- What an effect leaves open. -/
inductive Pick (B : Type)
  | ok
  | fault
  | yes
  | no
  | bytes (b : B)
  | upstream (e : FetchErr)
  /-- The clock, and the eviction candidate of a creation. -/
  | time (now : Int) (held : Option SuiteKey)

/-- What a request records of its effects. -/
inductive Event
  /-- `DeclaredHashesForPath` returned these rows. -/
  | declared (u : UrlKey) (rows : List DeclaredHash)
  /-- `HostCurrentSnapshotsCoverage` returned these rows. -/
  | coverage (scheme : Scheme) (host : Str) (rows : List (Nat × Bool))
  /-- A download was received. -/
  | download
  deriving DecidableEq

/-- A promotion. -/
def finalize (c : Content B) (s : Store B) (expected : Option Str) (b : B) :
    Except FinalizeErr Str × Store B :=
  match expected with
  | none => (.ok (c.sha256 b), s.promote c b)
  | some h =>
    if validBlobHash h = false then (.error .invalidHash, s)
    else if c.sha256 b ≠ h then (.error .hashMismatch, s)
    else (.ok h, s.promote c b)

/-- What an effect does. -/
def run {β : Type} (c : Content B) (f : Faults) : Eff B β → Store B → Pick B → Option (β × Store B)
  | .read q, s, .ok => some (some (q.eval s.db), s)
  | .read _, s, .fault => if f.reads then some (none, s) else none
  | .write w, s, .time now held =>
    some ((w.answer now held s.db).mapError some, s.commit (w.op now held) (w.op_agrees now held))
  | .write _, s, .fault => some (.error none, s)
  | .openBlob h, s, .ok => some (s.file c h, s)
  | .openBlob _, s, .fault => some (none, s)
  | .fetch _, s, .bytes b => some (.ok b, s)
  | .fetch _, s, .upstream e => some (.error e, s)
  | .finalize expected b, s, .ok => some (finalize c s expected b)
  | .finalize _ _, s, .fault => some (.error .io, s)
  | .clock, s, .time now _ => some (now, s)
  | .ask q, s, .yes => if q = .ctxEnded ∧ f.contexts = false then none else some (true, s)
  | .ask _, s, .no => some (false, s)
  | _, _, _ => none

/-- What a request records of an effect. A lookup by suffix is the second half of
`DeclaredHashesForPath`, made only if the first half found no row. -/
def note {β : Type} : Eff B β → β → List Event
  | .read (.declaredHashesExact u), some rows => if rows = [] then [] else [.declared u rows]
  | .read (.declaredHashesBySuffix u), some rows => [.declared u rows]
  | .read (.hostCurrentSnapshotsCoverage scheme host), some rows => [.coverage scheme host rows]
  | .fetch _, .ok _ => [.download]
  | _, _ => []

/-- The semantics of the effects. -/
def sem (c : Content B) (f : Faults) : Flight.Sem (Eff B) (Store B) (Pick B) Event where
  run := run c f
  note := note

/-! ## The environment -/

/-- What happens without a request. -/
inductive EnvAct (B : Type)
  /-- A writer operation of another component. -/
  | commit (op : Op)
  /-- A file of another download. -/
  | promote (b : B)
  /-- A pool file goes: blob GC, the integrity scanner, an operator. -/
  | vanish (h : Str)

/-- The environment. -/
def env (c : Content B) (s : Store B) : EnvAct B → Option (Store B)
  | .commit op => if h : op.agrees = true then some (s.commit op h) else none
  | .promote b => some (s.promote c b)
  | .vanish h => some (s.vanish c h)

end AptCacher.Handler
