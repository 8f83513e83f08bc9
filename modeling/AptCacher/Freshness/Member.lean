import AptCacher.Spec.Fail
import AptCacher.Cache.Db

/-!
# Adoption of a member

`adoptMember` finds the bytes of a declared member in the pool or fetches them, from the by-hash URL
and then from the plain one, and returns their SHA-256. Each of the three ways makes its own checks.

The pool is a map from names to bytes: a file can be absent, correct (its bytes hash to its name) or
corrupt. Every local call can fail (`Faults`), and upstream can answer anything (`Upstream`).

* `MemberWriter`: the temp file and the two hashers beside it.
* `verifyMember`, `tryByHashFetch`, `fetchMemberURL`, `adoptMember`: as in the source.
* `Verified`: what the result and the pool afterwards have to be.
* `member_verification`: it holds if and only if no pool file of the declared hash has a length that
  differs from the declared one. The reuse of a pool file compares its hashes, not its length.
-/

namespace AptCacher.Freshness

open Spec Cache

/-- Contents of a file. -/
abbrev Bytes := List UInt8

/-- The two hash functions, in hex. -/
structure Digests where
  sha256 : Bytes → Str
  sha512 : Bytes → Str
  /-- Sixty-four lower-case hex digits. -/
  valid : ∀ b, validBlobHash (sha256 b) = true

/-- `ReleaseMember`; an empty hash is not declared. -/
structure ReleaseMember where
  path : Str
  sha256 : Str
  sha512 : Str
  size : Int
  deriving DecidableEq

/-- `pool/`. -/
abbrev Pool := Str → Option Bytes

/-- The local calls that can fail. -/
inductive Call
  | blobExists
  | rehash
  | putBlob
  | evict
  | hostSem
  | newTempBlob
  | sync
  | close
  | mkdir
  | stat
  | rename
  | putRepresentation
  | putMemberRepresentation
  deriving DecidableEq

/-- Which calls fail: in `adoptMember` itself, in the probe and in the plain fetch. -/
structure Faults where
  adopt : Call → Bool
  probe : Call → Bool
  plain : Call → Bool

/-- The errors of `fetch.Client`. -/
inductive FetchErr
  /-- `StatusError`. -/
  | status (code : Nat)
  /-- `ErrCacheWriteFailed`. -/
  | cacheWriteFailed
  | other
  deriving DecidableEq

/-- `"SHA256"` or `"SHA512"`. -/
inductive Algo
  | sha256
  | sha512
  deriving DecidableEq

/-- The errors of this module. -/
inductive MemberErr
  /-- `ErrAdoptionDBFailed`: a local fault. -/
  | dbFailed (call : Call)
  | fetch (e : FetchErr)
  /-- `ContentLength` is not the declared size. -/
  | served (contentLength declared : Int)
  | undeclared (path : Str)
  /-- `memberHashMismatch`. -/
  | hashMismatch (algo : Algo) (declared actual : Str)
  /-- `ErrSizeMismatch`. -/
  | sizeMismatch (written : Nat) (expected : Int)
  /-- `ErrInvalidHash`. -/
  | invalidHash (hash : Str)
  /-- A call on the temp file, the bucket or the pool file. -/
  | io (call : Call)
  | hostSem
  /-- `errAdoptionMemberSkipped`. -/
  | skipped
  /-- `ErrAdoptionMemberFetchFailed`. -/
  | memberFetchFailed (path : Str) (cause : MemberErr)
  /-- `ErrAdoptionMemberMismatch`. -/
  | memberMismatch (path : Str) (algo : Algo) (declared actual : Str)
  deriving DecidableEq

/-- `errors.Is(err, ErrAdoptionDBFailed)`. -/
def MemberErr.isLocal : MemberErr → Bool
  | .dbFailed _ => true
  | _ => false

abbrev M := Fail MemberErr Pool

/-- A call that fails if `faults` says so. -/
def call (faults : Call → Bool) (c : Call) (e : MemberErr) : M Unit := Fail.ensure (faults c = false) e

/-! ## The writer -/

/-- `memberWriter` with its `BlobWriter`: the temp file, what each hasher was fed, and the count. -/
structure MemberWriter where
  file : Bytes
  fed256 : Bytes
  fed512 : Bytes
  written : Nat
  deriving DecidableEq

/-- What `Truncate` fails at. -/
inductive TruncateFault
  | truncate
  | seek
  deriving DecidableEq

/-- What a fetch does to its destination. -/
inductive DstOp
  /-- The bytes that a `Write` took. -/
  | write (p : Bytes)
  | truncate (fault : Option TruncateFault)
  deriving DecidableEq

namespace MemberWriter

/-- `newMemberWriter`. -/
def new : MemberWriter := ⟨[], [], [], 0⟩

def write (w : MemberWriter) (p : Bytes) : MemberWriter :=
  ⟨w.file ++ p, w.fed256 ++ p, w.fed512 ++ p, w.written + p.length⟩

/-- `Truncate`, and whether it succeeds. -/
def truncate (w : MemberWriter) : Option TruncateFault → MemberWriter × Bool
  | none => (new, true)
  | some .truncate => (w, false)
  | some .seek => ({ w with file := [] }, false)

/-- A fetch ends at the first `Truncate` that fails. -/
def feed (w : MemberWriter) : List DstOp → Option MemberWriter
  | [] => some w
  | .write p :: ops => (w.write p).feed ops
  | .truncate fault :: ops =>
    match w.truncate fault with
    | (w', true) => w'.feed ops
    | (_, false) => none

end MemberWriter

/-- What upstream makes of a fetch: what arrives, and how it ends, with the content length. -/
structure Upstream where
  ops : List DstOp
  outcome : Except FetchErr Int

def fetch (u : Upstream) (w : MemberWriter) : Except MemberErr (MemberWriter × Int) :=
  match w.feed u.ops, u.outcome with
  | none, _ => .error (.fetch .cacheWriteFailed)
  | some _, .error e => .error (.fetch e)
  | some w', .ok contentLength => .ok (w', contentLength)

/-! ## The finalizers -/

section Finalize

variable (D : Digests) (faults : Call → Bool)

/-- The size check, `Sync` and `Close` of both finalizers. -/
def flush (w : MemberWriter) (expectedSize : Int) : M Unit := do
  Fail.ensure (expectedSize ≤ 0 ∨ (w.written : Int) = expectedSize) (.sizeMismatch w.written expectedSize)
  call faults .sync (.io .sync)
  call faults .close (.io .close)

/-- The move into the pool of both finalizers; a file that is there is kept unread. -/
def place (w : MemberWriter) : M Str := do
  let hashHex := D.sha256 w.fed256
  call faults .mkdir (.io .mkdir)
  if (← get) hashHex ≠ none ∧ faults .stat = false then
    pure hashHex
  else
    call faults .rename (.io .rename)
    modify fun pool => Function.update pool hashHex (some w.file)
    pure hashHex

def finalize (w : MemberWriter) (expectedSize : Int) : M Str := do
  flush faults w expectedSize
  place D faults w

def finalizeExpectingHash (w : MemberWriter) (expected : Str) (expectedSize : Int) : M Str := do
  Fail.ensure (validBlobHash expected = true) (.invalidHash expected)
  flush faults w expectedSize
  let hashHex := D.sha256 w.fed256
  Fail.ensure (hashHex = expected) (.hashMismatch .sha256 expected hashHex)
  place D faults w

/-- `rehashPooledBlob`: a corrupt file of the derived hash is removed. -/
def rehashPooledBlob (derived : Str) : M Unit := do
  match (← get) derived with
  | none => pure ()
  | some b =>
    call faults .rehash (.dbFailed .rehash)
    if D.sha256 b = derived then
      pure ()
    else
      call faults .evict (.dbFailed .evict)
      modify fun pool => Function.update pool derived none

def verifyMember (w : MemberWriter) (m : ReleaseMember) (size : Int) : M Str := do
  Fail.ensure (m.sha256 ≠ [] ∨ m.sha512 ≠ []) (.undeclared m.path)
  Fail.ensure (m.sha512 = [] ∨ D.sha512 w.fed512 = m.sha512)
    (.hashMismatch .sha512 m.sha512 (D.sha512 w.fed512))
  if m.sha256 = [] then
    rehashPooledBlob D faults (D.sha256 w.fed256)
    finalize D faults w size
  else
    finalizeExpectingHash D faults w m.sha256 size

end Finalize

/-! ## The fetches -/

section Fetch

variable (D : Digests) (faults : Call → Bool)

/-- `tryByHashFetch`, the probe. -/
def tryByHashFetch (u : Upstream) (m : ReleaseMember) : M Str := do
  call faults .newTempBlob (.dbFailed .newTempBlob)
  let (w, _) ← Fail.ofExcept (fetch u .new)
  let hashHex ← verifyMember D faults w m m.size
  call faults .putBlob (.dbFailed .putBlob)
  call faults .putRepresentation (.dbFailed .putRepresentation)
  call faults .putMemberRepresentation (.dbFailed .putMemberRepresentation)
  pure hashHex

/-- How `fetchMemberURL` reports a fetch that failed. -/
def fetchError (m : ReleaseMember) : MemberErr → MemberErr
  | .fetch (.status code) =>
    if code = 404 ∨ code = 410 then .skipped else .memberFetchFailed m.path (.fetch (.status code))
  | e => .memberFetchFailed m.path e

/-- How `fetchMemberURL` reports bytes that do not verify. -/
def verifyError (m : ReleaseMember) : MemberErr → MemberErr
  | .dbFailed c => .dbFailed c
  | .hashMismatch algo declared actual => .memberMismatch m.path algo declared actual
  | e => .memberFetchFailed m.path e

def fetchMemberURL (u : Upstream) (m : ReleaseMember) : M Str := do
  call faults .newTempBlob (.dbFailed .newTempBlob)
  let (w, contentLength) ← Fail.withError (fetchError m) (Fail.ofExcept (fetch u .new))
  Fail.ensure (m.size ≤ 0 ∨ contentLength ≤ 0 ∨ contentLength = m.size)
    (.memberFetchFailed m.path (.served contentLength m.size))
  let hashHex ← Fail.withError (verifyError m) (verifyMember D faults w m m.size)
  call faults .putBlob (.dbFailed .putBlob)
  call faults .putRepresentation (.dbFailed .putRepresentation)
  pure hashHex

end Fetch

section Adopt

variable (D : Digests) (faults : Faults)

/-- The reuse of a pool file in `adoptMember`: the hash of a file that is confirmed. A corrupt one is
removed. -/
def reusePooled (m : ReleaseMember) : M (Option Str) := do
  if m.sha256 = [] then
    pure none
  else
    Fail.ensure (validBlobHash m.sha256 = true) (.dbFailed .blobExists)
    call faults.adopt .blobExists (.dbFailed .blobExists)
    match (← get) m.sha256 with
    | none => pure none
    | some b =>
      call faults.adopt .rehash (.dbFailed .rehash)
      if D.sha256 b = m.sha256 then
        Fail.ensure (m.sha512 = [] ∨ D.sha512 b = m.sha512)
          (.memberMismatch m.path .sha512 m.sha512 (D.sha512 b))
        call faults.adopt .putBlob (.dbFailed .putBlob)
        pure (some m.sha256)
      else
        call faults.adopt .evict (.dbFailed .evict)
        modify fun pool => Function.update pool m.sha256 none
        pure none

/-- The fetches of `adoptMember`: the probe, and after it the plain path unless a local call failed. -/
def fetchMember (probe plain : Upstream) (m : ReleaseMember) (acquireByHash : Bool) : M Str := do
  call faults.adopt .hostSem .hostSem
  if acquireByHash = true ∧ m.path ≠ [] then
    Fail.orElse (tryByHashFetch D faults.probe probe m) fun e =>
      if e.isLocal then throw e else fetchMemberURL D faults.plain plain m
  else
    fetchMemberURL D faults.plain plain m

def adoptMember (probe plain : Upstream) (m : ReleaseMember) (acquireByHash : Bool) : M Str := do
  match ← reusePooled D faults m with
  | some h => pure h
  | none => fetchMember D faults probe plain m acquireByHash

end Adopt

/-! ## What it has to ensure -/

/-- The bytes are what the member declares. -/
structure Meets (D : Digests) (m : ReleaseMember) (b : Bytes) : Prop where
  sha256 : m.sha256 ≠ [] → D.sha256 b = m.sha256
  sha512 : m.sha512 ≠ [] → D.sha512 b = m.sha512
  size : 0 < m.size → (b.length : Int) = m.size

/-- The pool file `h` is absent or correct. -/
def Correct (D : Digests) (pool : Pool) (h : Str) : Prop := ∀ b, pool h = some b → D.sha256 b = h

/-- The result `h` has a pool file of the declared bytes. -/
def Settled (D : Digests) (m : ReleaseMember) (pool : Pool) (h : Str) : Prop :=
  ∃ b, pool h = some b ∧ D.sha256 b = h ∧ Meets D m b

/-- A run of `adoptMember` on `pool` that left `pool'`. -/
structure Verified (D : Digests) (m : ReleaseMember) (pool : Pool) (result : Except MemberErr Str)
    (pool' : Pool) : Prop where
  returned : ∀ h, result = .ok h → Settled D m pool' h
  correct : ∀ h, Correct D pool h → Correct D pool' h
  added : ∀ h b, pool' h = some b → pool h = some b ∨ Meets D m b

/-- A pool file has the declared hashes and another length than the declared one. -/
def Mismeasured (D : Digests) (m : ReleaseMember) (pool : Pool) : Prop :=
  m.sha256 ≠ [] ∧ ∃ b, pool m.sha256 = some b ∧ D.sha256 b = m.sha256 ∧
    (m.sha512 = [] ∨ D.sha512 b = m.sha512) ∧ 0 < m.size ∧ (b.length : Int) ≠ m.size

/-- SHA-256 tells what upstream sends apart from the pool file of the same hash. -/
def Apart (D : Digests) (pool : Pool) (u : Upstream) : Prop :=
  ∀ w contentLength, fetch u .new = .ok (w, contentLength) →
    ∀ b, pool (D.sha256 w.file) = some b → D.sha256 b = D.sha256 w.file → b = w.file

/-! ## The writer hashes what it writes -/

/-- The hashers and the count agree with the file. -/
structure MemberWriter.Sound (w : MemberWriter) : Prop where
  fed256 : w.fed256 = w.file
  fed512 : w.fed512 = w.file
  written : w.written = w.file.length

theorem MemberWriter.Sound.feed {w w' : MemberWriter} (h : w.Sound) {ops : List DstOp}
    (hf : w.feed ops = some w') : w'.Sound := by
  induction ops generalizing w with
  | nil =>
    cases hf
    exact h
  | cons op ops ih =>
    cases op with
    | write p =>
      refine ih ⟨?_, ?_, ?_⟩ hf
      · simp [write, h.fed256]
      · simp [write, h.fed512]
      · simp [write, h.written]
    | truncate fault =>
      cases fault with
      | none => exact ih ⟨rfl, rfl, rfl⟩ hf
      | some fault => cases fault <;> cases hf

theorem fetch_sound {u : Upstream} {w : MemberWriter} {n : Int} (h : fetch u .new = .ok (w, n)) :
    w.Sound := by
  unfold fetch at h
  split at h
  · cases h
  · cases h
  · rename_i w' _ hfeed _
    cases h
    exact MemberWriter.Sound.feed (w := .new) ⟨rfl, rfl, rfl⟩ hfeed

/-! ## What a run does to the pool -/

/-- Files were removed, and nothing else. -/
def Fewer (pool pool' : Pool) : Prop := ∀ h, pool' h = pool h ∨ pool' h = none

/-- Files were removed, and files of the declared bytes were added. -/
def Tends (D : Digests) (m : ReleaseMember) (pool pool' : Pool) : Prop :=
  ∀ h, pool' h = pool h ∨ pool' h = none ∨ Settled D m pool' h

section Pool

variable {D : Digests} {m : ReleaseMember} {pool pool' pool'' : Pool}

theorem Fewer.refl (pool : Pool) : Fewer pool pool := fun _ => .inl rfl

theorem Fewer.evict (pool : Pool) (h : Str) : Fewer pool (Function.update pool h none) := by
  intro x
  by_cases hx : x = h
  · subst hx
    exact .inr (Function.update_self ..)
  · exact .inl (Function.update_of_ne hx ..)

theorem Fewer.some (h : Fewer pool pool') {x : Str} {b : Bytes} (hb : pool' x = some b) :
    pool x = some b := by
  rcases h x with hx | hx
  · exact hx ▸ hb
  · rw [hx] at hb
    cases hb

theorem Fewer.tends (h : Fewer pool pool') : Tends D m pool pool' := fun x =>
  (h x).imp_right .inl

theorem Fewer.trans_tends (h : Fewer pool pool') (h' : Tends D m pool' pool'') : Tends D m pool pool'' := by
  intro x
  rcases h' x with hx | hx
  · rw [hx]
    exact (h x).imp_right .inl
  · exact .inr hx

theorem Tends.correct (h : Tends D m pool pool') {x : Str} (hc : Correct D pool x) : Correct D pool' x := by
  intro b hb
  rcases h x with hx | hx | ⟨b', hx, hd, -⟩
  · exact hc b (hx ▸ hb)
  · rw [hx] at hb
    cases hb
  · rw [hx] at hb
    cases hb
    exact hd

theorem Tends.added (h : Tends D m pool pool') {x : Str} {b : Bytes} (hb : pool' x = some b) :
    pool x = some b ∨ Meets D m b := by
  rcases h x with hx | hx | ⟨b', hx, -, hm⟩
  · exact .inl (hx ▸ hb)
  · rw [hx] at hb
    cases hb
  · rw [hx] at hb
    cases hb
    exact .inr hm

end Pool

/-! ## One rule per function -/

section Rules

open Fail

variable {D : Digests} {m : ReleaseMember} {pool : Pool} {faults : Call → Bool} {w : MemberWriter}

theorem ends_call {c : Call} {e : MemberErr} {Q : Unit → Pool → Prop} {R : MemberErr → Pool → Prop}
    (hQ : Q () pool) (hR : R e pool) : Ends (call faults c e) pool Q R :=
  ends_ensure.mpr ⟨fun _ => hQ, fun _ => hR⟩

/-- `flush` leaves the pool alone and lets only the declared size through. -/
theorem flush_ends {size : Int} : Ends (flush faults w size) pool
    (fun _ pool' => pool' = pool ∧ (0 < size → (w.written : Int) = size)) fun e pool' =>
      pool' = pool ∧ e.isLocal = false := by
  refine ends_bind.mpr (ends_ensure.mpr ⟨fun hs => ?_, fun _ => ⟨rfl, rfl⟩⟩)
  refine ends_bind.mpr (ends_call (ends_call ⟨rfl, fun hpos => ?_⟩ ⟨rfl, rfl⟩) ⟨rfl, rfl⟩)
  rcases hs with hs | hs
  · omega
  · exact hs

theorem place_ends (hw : w.Sound) (hm : Meets D m w.file)
    (hsame : ∀ b, pool (D.sha256 w.file) = some b → b = w.file) :
    Ends (place D faults w) pool (fun h pool' => Tends D m pool pool' ∧ Settled D m pool' h)
      fun e pool' => pool' = pool ∧ e.isLocal = false := by
  unfold place
  rw [hw.fed256]
  refine ends_bind.mpr (ends_call (ends_bind.mpr (ends_get.mpr ?_)) ⟨rfl, rfl⟩)
  split
  · rename_i hthere
    obtain ⟨b, hb⟩ := Option.ne_none_iff_exists'.mp hthere.1
    refine ends_pure.mpr ⟨(Fewer.refl pool).tends, b, hb, ?_⟩
    rw [hsame b hb]
    exact ⟨rfl, hm⟩
  · refine ends_bind.mpr (ends_call (ends_bind.mpr (ends_modify.mpr (ends_pure.mpr ?_))) ⟨rfl, rfl⟩)
    have hset : Settled D m (Function.update pool (D.sha256 w.file) (some w.file)) (D.sha256 w.file) :=
      ⟨w.file, Function.update_self .., rfl, hm⟩
    refine ⟨fun h => ?_, hset⟩
    by_cases hh : h = D.sha256 w.file
    · exact .inr (.inr (hh ▸ hset))
    · exact .inl (Function.update_of_ne hh ..)

/-- After the hook the pool file of the derived hash is absent or correct. -/
theorem rehashPooledBlob_ends {derived : Str} : Ends (rehashPooledBlob D faults derived) pool
    (fun _ pool' => Fewer pool pool' ∧ Correct D pool' derived) fun _ pool' => Fewer pool pool' := by
  refine ends_bind.mpr (ends_get.mpr ?_)
  split
  · rename_i hnone
    refine ends_pure.mpr ⟨.refl pool, fun b hb => ?_⟩
    rw [hnone] at hb
    cases hb
  · rename_i b hsome
    refine ends_bind.mpr (ends_call ?_ (.refl pool))
    split
    · rename_i hd
      refine ends_pure.mpr ⟨.refl pool, fun b' hb' => ?_⟩
      rw [hsome] at hb'
      cases hb'
      exact hd
    · refine ends_bind.mpr (ends_call (ends_modify.mpr ⟨.evict pool derived, fun b' hb' => ?_⟩)
        (.refl pool))
      rw [Function.update_self] at hb'
      cases hb'

theorem verifyMember_ends (hw : w.Sound) (hclear : m.sha256 ≠ [] → pool m.sha256 = none)
    (hapart : ∀ b, pool (D.sha256 w.file) = some b → D.sha256 b = D.sha256 w.file → b = w.file) :
    Ends (verifyMember D faults w m m.size) pool
      (fun h pool' => Tends D m pool pool' ∧ Settled D m pool' h) fun _ pool' => Fewer pool pool' := by
  refine ends_bind.mpr (ends_ensure.mpr ⟨fun _ => ?_, fun _ => .refl pool⟩)
  refine ends_bind.mpr (ends_ensure.mpr ⟨fun h512 => ?_, fun _ => .refl pool⟩)
  rw [hw.fed512] at h512
  have hmeets (h256 : m.sha256 ≠ [] → D.sha256 w.file = m.sha256)
      (hsize : 0 < m.size → (w.written : Int) = m.size) : Meets D m w.file :=
    ⟨h256, fun hne => h512.resolve_left hne, fun hpos => hw.written ▸ hsize hpos⟩
  split
  · rename_i hnone
    rw [hw.fed256]
    refine ends_bind.mpr (rehashPooledBlob_ends.mono (fun _ pool₁ h₁ => ?_) fun _ _ h => h)
    obtain ⟨hfewer, hcorrect⟩ := h₁
    refine ends_bind.mpr (flush_ends.mono (fun _ pool₂ h₂ => ?_) fun _ _ h => h.1 ▸ hfewer)
    obtain ⟨rfl, hsize⟩ := h₂
    refine (place_ends hw (hmeets (fun hne => absurd hnone hne) hsize) fun b hb => ?_).mono
      (fun _ _ h => ⟨hfewer.trans_tends h.1, h.2⟩) fun _ _ h => h.1 ▸ hfewer
    exact hapart b (hfewer.some hb) (hcorrect b hb)
  · rename_i hdecl
    refine ends_bind.mpr (ends_ensure.mpr ⟨fun _ => ?_, fun _ => .refl pool⟩)
    refine ends_bind.mpr (flush_ends.mono (fun _ pool₂ h₂ => ?_) fun _ _ h => h.1 ▸ .refl pool)
    obtain ⟨rfl, hsize⟩ := h₂
    refine ends_bind.mpr (ends_ensure.mpr ⟨fun h256 => ?_, fun _ => .refl _⟩)
    rw [hw.fed256] at h256
    refine (place_ends hw (hmeets (fun _ => h256) hsize) fun b hb => ?_).mono
      (fun _ _ h => h) fun _ _ h => h.1 ▸ .refl _
    -- `adoptMember` has removed a corrupt file, and has returned if there was a correct one.
    rw [h256, hclear hdecl] at hb
    cases hb

/-- How a fetch of a member ends: an error that is not local has added no file. -/
def Fetches (D : Digests) (m : ReleaseMember) (pool : Pool) (p : M Str) : Prop :=
  Ends p pool (fun h pool' => Tends D m pool pool' ∧ Settled D m pool' h) fun e pool' =>
    Tends D m pool pool' ∧ (e.isLocal = false → Fewer pool pool')

theorem ends_local {pool' : Pool} {c : Call} {Q : Unit → Pool → Prop} (ht : Tends D m pool pool')
    (hQ : Q () pool') : Ends (call faults c (.dbFailed c)) pool' Q fun e pool' =>
      Tends D m pool pool' ∧ (e.isLocal = false → Fewer pool pool') :=
  ends_call hQ ⟨ht, fun hl => by cases hl⟩

theorem failed {pool' : Pool} {e : MemberErr} (h : Fewer pool pool') :
    Tends D m pool pool' ∧ (e.isLocal = false → Fewer pool pool') := ⟨h.tends, fun _ => h⟩

theorem tryByHashFetch_ends {u : Upstream} (hclear : m.sha256 ≠ [] → pool m.sha256 = none)
    (hapart : Apart D pool u) : Fetches D m pool (tryByHashFetch D faults u m) := by
  refine ends_bind.mpr (ends_call ?_ (failed (.refl pool)))
  refine ends_bind.mpr (ends_ofExcept.mpr ⟨fun ⟨w, n⟩ hf => ?_, fun _ _ => failed (.refl pool)⟩)
  refine ends_bind.mpr ((verifyMember_ends (fetch_sound hf) hclear (hapart w n hf)).mono
    (fun h pool' hv => ?_) fun _ _ hv => failed hv)
  refine ends_bind.mpr (ends_local hv.1 (ends_bind.mpr (ends_local hv.1 ?_)))
  exact ends_bind.mpr (ends_local hv.1 (ends_pure.mpr hv))

theorem fetchMemberURL_ends {u : Upstream} (hclear : m.sha256 ≠ [] → pool m.sha256 = none)
    (hapart : Apart D pool u) : Fetches D m pool (fetchMemberURL D faults u m) := by
  refine ends_bind.mpr (ends_call ?_ (failed (.refl pool)))
  refine ends_bind.mpr (ends_withError.mpr (ends_ofExcept.mpr
    ⟨fun ⟨w, n⟩ hf => ?_, fun _ _ => failed (.refl pool)⟩))
  refine ends_bind.mpr (ends_ensure.mpr ⟨fun _ => ?_, fun _ => failed (.refl pool)⟩)
  refine ends_bind.mpr (ends_withError.mpr ((verifyMember_ends (fetch_sound hf) hclear
    (hapart w n hf)).mono (fun h pool' hv => ?_) fun _ _ hv => failed hv))
  exact ends_bind.mpr (ends_local hv.1 (ends_bind.mpr (ends_local hv.1 (ends_pure.mpr hv))))

end Rules

section Adopt

open Fail

variable {D : Digests} {m : ReleaseMember} {pool : Pool} {faults : Faults} {probe plain : Upstream}
  {acquireByHash : Bool}

/-- After the probe has failed the pool has no more files than before, so the plain fetch starts from
the same facts. -/
theorem fetchMember_ends (hclear : m.sha256 ≠ [] → pool m.sha256 = none)
    (hprobe : Apart D pool probe) (hplain : Apart D pool plain) :
    Ends (fetchMember D faults probe plain m acquireByHash) pool
      (fun h pool' => Tends D m pool pool' ∧ Settled D m pool' h) fun _ pool' =>
        Tends D m pool pool' := by
  refine ends_bind.mpr (ends_call ?_ (Fewer.refl pool).tends)
  split
  · refine ends_orElse.mpr ((tryByHashFetch_ends hclear hprobe).mono (fun _ _ h => h)
      fun e pool₁ he => ?_)
    split
    · exact ends_throw.mpr he.1
    · rename_i hl
      have hfewer : Fewer pool pool₁ := he.2 (by simpa using hl)
      have hclear₁ (hne : m.sha256 ≠ []) : pool₁ m.sha256 = none :=
        (hfewer m.sha256).elim (fun h => h.trans (hclear hne)) id
      refine (fetchMemberURL_ends hclear₁ fun w n hf b hb => hplain w n hf b (hfewer.some hb)).mono
        (fun _ _ h => ⟨hfewer.trans_tends h.1, h.2⟩) fun _ _ h => hfewer.trans_tends h.1
  · exact (fetchMemberURL_ends hclear hplain).mono (fun _ _ h => h) fun _ _ h => h.1

/-- The reuse confirms both hashes; without a confirmation it leaves no file of the declared hash. -/
theorem reusePooled_ends : Ends (reusePooled D faults m) pool
    (fun r pool' => (∀ h, r = some h → pool' = pool ∧ h = m.sha256 ∧ m.sha256 ≠ [] ∧
        ∃ b, pool h = some b ∧ D.sha256 b = h ∧ (m.sha512 = [] ∨ D.sha512 b = m.sha512)) ∧
      (r = none → Fewer pool pool' ∧ (m.sha256 ≠ [] → pool' m.sha256 = none)))
    fun _ pool' => Fewer pool pool' := by
  unfold reusePooled
  split
  · rename_i hempty
    exact ends_pure.mpr ⟨(fun _ hn => by cases hn), fun _ => ⟨.refl pool, fun hne => absurd hempty hne⟩⟩
  · rename_i hdecl
    refine ends_bind.mpr (ends_ensure.mpr ⟨fun _ => ?_, fun _ => .refl pool⟩)
    refine ends_bind.mpr (ends_call (ends_bind.mpr (ends_get.mpr ?_)) (.refl pool))
    split
    · rename_i hnone
      exact ends_pure.mpr ⟨(fun _ hn => by cases hn), fun _ => ⟨.refl pool, fun _ => hnone⟩⟩
    · rename_i b hsome
      refine ends_bind.mpr (ends_call ?_ (.refl pool))
      split
      · rename_i hd
        refine ends_bind.mpr (ends_ensure.mpr ⟨fun h512 => ?_, fun _ => .refl pool⟩)
        refine ends_bind.mpr (ends_call (ends_pure.mpr ⟨?_, fun hn => by cases hn⟩) (.refl pool))
        rintro h ⟨⟩
        exact ⟨rfl, rfl, hdecl, b, hsome, hd, h512⟩
      · refine ends_bind.mpr (ends_call (ends_bind.mpr (ends_modify.mpr (ends_pure.mpr
          ⟨(fun _ hn => by cases hn), fun _ => ⟨.evict pool _, fun _ => Function.update_self ..⟩⟩))) (.refl pool))

theorem adoptMember_ends (hlen : ¬ Mismeasured D m pool) (hprobe : Apart D pool probe)
    (hplain : Apart D pool plain) :
    Ends (adoptMember D faults probe plain m acquireByHash) pool
      (fun h pool' => Tends D m pool pool' ∧ Settled D m pool' h) fun _ pool' =>
        Tends D m pool pool' := by
  refine ends_bind.mpr (reusePooled_ends.mono (fun r pool₁ hr => ?_) fun _ _ h => h.tends)
  cases r with
  | some h =>
    obtain ⟨rfl, rfl, hdecl, b, hb, hd, h512⟩ := hr.1 h rfl
    refine ends_pure.mpr ⟨(Fewer.refl _).tends, b, hb, hd, fun _ => hd, fun hne => h512.resolve_left hne,
      fun hpos => ?_⟩
    by_contra hne
    exact hlen ⟨hdecl, b, hb, hd, h512, hpos, hne⟩
  | none =>
    obtain ⟨hfewer, hclear⟩ := hr.2 rfl
    exact (fetchMember_ends hclear (fun w n hf b hb => hprobe w n hf b (hfewer.some hb))
      fun w n hf b hb => hplain w n hf b (hfewer.some hb)).mono
        (fun _ _ h => ⟨hfewer.trans_tends h.1, h.2⟩) fun _ _ h => hfewer.trans_tends h

/-- Without faults a pool file with the declared hashes is returned as it is. -/
theorem adoptMember_reused {b : Bytes} (hdecl : m.sha256 ≠ []) (hb : pool m.sha256 = some b)
    (hd : D.sha256 b = m.sha256) (h512 : m.sha512 = [] ∨ D.sha512 b = m.sha512) :
    adoptMember D ⟨fun _ => false, fun _ => false, fun _ => false⟩ probe plain m acquireByHash pool =
      (.ok m.sha256, pool) := by
  have hv : validBlobHash m.sha256 = true := hd ▸ D.valid b
  have hcall {c : Call} {e : MemberErr} {Q : Unit → Pool → Prop} (hQ : Q () pool) :
      Ends (call (fun _ => false) c e) pool Q fun _ _ => False :=
    ends_ensure.mpr ⟨fun _ => hQ, fun hn => hn rfl⟩
  refine eq_of_ends (ends_bind.mpr ?_)
  unfold reusePooled
  rw [if_neg hdecl]
  refine ends_bind.mpr (ends_ensure.mpr ⟨fun _ => ?_, fun hn => hn hv⟩)
  refine ends_bind.mpr (hcall (ends_bind.mpr (ends_get.mpr ?_)))
  rw [hb]
  refine ends_bind.mpr (hcall ?_)
  rw [if_pos hd]
  refine ends_bind.mpr (ends_ensure.mpr ⟨fun _ => ?_, fun hn => hn h512⟩)
  exact ends_bind.mpr (hcall (ends_pure.mpr (ends_pure.mpr ⟨rfl, rfl⟩)))

/-- Every run of `adoptMember` verifies its member, whatever local calls fail, if and only if no pool
file has the declared hashes and another length than the declared one. -/
theorem member_verification (hprobe : Apart D pool probe) (hplain : Apart D pool plain) :
    (∀ faults, Verified D m pool (adoptMember D faults probe plain m acquireByHash pool).1
      (adoptMember D faults probe plain m acquireByHash pool).2) ↔ ¬ Mismeasured D m pool := by
  constructor
  · rintro h ⟨hdecl, b, hb, hd, h512, hpos, hne⟩
    have hv := h ⟨fun _ => false, fun _ => false, fun _ => false⟩
    rw [adoptMember_reused hdecl hb hd h512] at hv
    obtain ⟨b', hb', -, hm⟩ := hv.returned m.sha256 rfl
    have hsame : b' = b := Option.some.inj (hb'.symm.trans hb)
    exact hne (hsame ▸ hm.size hpos)
  · intro hlen faults
    have hends : Ends (adoptMember D faults probe plain m acquireByHash) pool _ _ :=
      adoptMember_ends hlen hprobe hplain
    unfold Ends at hends
    split at hends
    · rename_i h pool' hrun
      rw [hrun]
      refine ⟨?_, fun x => hends.1.correct, fun x b => hends.1.added⟩
      rintro x ⟨⟩
      exact hends.2
    · rename_i e pool' hrun
      rw [hrun]
      exact ⟨(fun _ hn => by cases hn), fun x => hends.correct, fun x b => hends.added⟩

end Adopt

/-! ## Runs -/

/-- Digests that look at the first byte only. -/
def headDigests : Digests where
  sha256 b := List.replicate 64 (if b.head? = some 1 then 'b' else 'a')
  sha512 b := List.replicate 128 (if b.head? = some 1 then 'b' else 'a')
  valid b := by split <;> decide

/-- A member of two bytes. -/
def twoBytes : ReleaseMember := ⟨"main/Packages".toList, List.replicate 64 'a', [], 2⟩

/-- Upstream sends a byte, starts over and sends two. -/
def restarted : Upstream := ⟨[.write [7], .truncate none, .write [0], .write [0]], .ok (-1)⟩

/-- A pool with one file, of the member's hash. -/
def poolOf (b : Bytes) : Pool := Function.update (fun _ => none) twoBytes.sha256 (some b)

theorem poolOf_self (b : Bytes) : poolOf b twoBytes.sha256 = some b := Function.update_self ..

theorem apart_restarted {b : Bytes} (h : headDigests.sha256 b ≠ twoBytes.sha256) :
    Apart headDigests (poolOf b) restarted := by
  intro w n hf b' hb' hd
  have hw : w = ⟨[0, 0], [0, 0], [0, 0], 2⟩ := by
    have hrun : fetch restarted .new = .ok (⟨[0, 0], [0, 0], [0, 0], 2⟩, -1) := by decide +kernel
    rw [hrun] at hf
    cases hf
    rfl
  subst hw
  have heq : b' = b := Option.some.inj (hb'.symm.trans (poolOf_self b))
  exact absurd (heq ▸ hd) h

/-- A corrupt pool file is replaced by the bytes that upstream sends. -/
theorem member_verification_replaced :
    Apart headDigests (poolOf [1]) restarted ∧ ¬ Mismeasured headDigests twoBytes (poolOf [1]) ∧
    (∀ faults, Verified headDigests twoBytes (poolOf [1])
      (adoptMember headDigests faults restarted restarted twoBytes true (poolOf [1])).1
      (adoptMember headDigests faults restarted restarted twoBytes true (poolOf [1])).2) := by
  have hcorrupt : headDigests.sha256 [1] ≠ twoBytes.sha256 := by decide +kernel
  have hapart := apart_restarted hcorrupt
  have hlen : ¬ Mismeasured headDigests twoBytes (poolOf [1]) := by
    rintro ⟨-, b, hb, hd, -⟩
    have heq : b = [1] := Option.some.inj (hb.symm.trans (poolOf_self [1]))
    exact hcorrupt (heq ▸ hd)
  exact ⟨hapart, hlen, (member_verification hapart hapart).mpr hlen⟩

/-- A pool file of one byte is returned for the member of two. -/
theorem mismeasured_reused :
    (adoptMember headDigests ⟨fun _ => false, fun _ => false, fun _ => false⟩ restarted restarted
      twoBytes true (poolOf [0])).1 = .ok twoBytes.sha256 ∧
    ¬ Verified headDigests twoBytes (poolOf [0])
      (adoptMember headDigests ⟨fun _ => false, fun _ => false, fun _ => false⟩ restarted restarted
        twoBytes true (poolOf [0])).1
      (adoptMember headDigests ⟨fun _ => false, fun _ => false, fun _ => false⟩ restarted restarted
        twoBytes true (poolOf [0])).2 := by
  rw [adoptMember_reused (by decide) (poolOf_self [0]) (by decide +kernel) (.inl rfl)]
  refine ⟨rfl, fun hv => ?_⟩
  obtain ⟨b, hb', -, hm⟩ := hv.returned _ rfl
  have heq : b = [0] := Option.some.inj (hb'.symm.trans (poolOf_self [0]))
  have hsize := hm.size (by decide)
  rw [heq] at hsize
  exact absurd hsize (by decide)

end AptCacher.Freshness
