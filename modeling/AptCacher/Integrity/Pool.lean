import AptCacher.Spec.Threads
import AptCacher.Freshness.Member

/-!
# Removing corrupt pool files

The integrity scan, the reuse of pool files by adoptions and the finalizing downloads work on the
same file names without a lock. A file is removed as corrupt after its bytes were hashed; whoever
hashed it first does not know what another one has moved in since.

* `Eff`: the steps on pool files, each of them atomic, and the calls between them.
* `verifyOne`, `reusePooled`, `rehashPooledBlob`, `finalize`, `finalizeExpectingHash`,
  `verifyMember`, `adoptMember`, `writeBlobBytes`: as in the source.
* `careful`: a program removes a file right after it found it corrupt; all of them are careful.
* `calm`: no bytes are moved in under a name whose removal is pending.
* `removed_is_corrupt`: in runs of such steps no good bytes are removed; `scan_removes_good`: a run
  in which a scan removes the bytes that an adoption has just verified and moved in.
-/

namespace AptCacher.Integrity

open Spec Cache
open Freshness (Bytes Digests ReleaseMember MemberWriter Pool MemberErr Upstream Algo)

/-! ## Effects -/

/-- What hashing a pool file gives: its two digests, that there is none, or another error. -/
inductive Hashed
  | absent
  | failed
  | digests (sha256 sha512 : Str)
  deriving DecidableEq

/-- The steps of the programs. -/
inductive Eff : Type → Type
  /-- `hashFile`, `hashFileDigests`. -/
  | hash (h : Str) : Eff Hashed
  /-- `os.Remove`, and whether it succeeds; a missing file is no error. -/
  | remove (h : Str) : Eff Bool
  /-- `os.Stat`: whether the file is there, or an error. -/
  | stat (h : Str) : Eff (Option Bool)
  /-- `os.Rename` of a temp file with these bytes. -/
  | rename (h : Str) (bytes : Bytes) : Eff Bool
  /-- A local call that touches no pool file, and whether it succeeds. -/
  | call : Eff Bool
  /-- `Fetch` into a new temp file. -/
  | fetch : Eff (Except MemberErr (MemberWriter × Int))

/-- What an effect leaves open. -/
inductive Pick
  | ok
  | fail
  | upstream (u : Upstream)

/-- The file at `pool/<h>`, hashed. -/
def hashed (D : Digests) (pool : Pool) (h : Str) : Hashed :=
  match pool h with
  | none => .absent
  | some b => .digests (D.sha256 b) (D.sha512 b)

/-- What the effects do to the pool. -/
def sem (D : Digests) : Prog.Sem Eff Pool Pick := fun e pool pick =>
  match e, pick with
  | .hash h, .ok => some (hashed D pool h, pool)
  | .hash _, .fail => some (.failed, pool)
  | .remove h, .ok => some (true, Function.update pool h none)
  | .remove _, .fail => some (false, pool)
  | .stat h, .ok => some (some (pool h).isSome, pool)
  | .stat _, .fail => some (none, pool)
  | .rename h b, .ok => some (true, Function.update pool h (some b))
  | .rename _ _, .fail => some (false, pool)
  | .call, .ok => some (true, pool)
  | .call, .fail => some (false, pool)
  | .fetch, .upstream u => some (Freshness.fetch u .new, pool)
  | _, _ => none

/-! ## Tasks -/

/-- A program that can fail. -/
abbrev Task (ε α : Type) := ExceptT ε (Prog Eff) α

section Task

variable {ε ε' α : Type}

/-- One step. -/
def eff (e : Eff α) : Task ε α := ExceptT.lift (Prog.perform e)

/-- Go on only if `c` holds. -/
def ensure (c : Prop) [Decidable c] (e : ε) : Task ε Unit := if c then pure () else throw e

/-- A local call, or its error. -/
def callOr (e : ε) : Task ε Unit := do
  if ← eff .call then pure () else throw e

/-- What to do about an error. -/
def handle (m : Task ε α) (f : ε → Task ε' α) : Task ε' α :=
  ExceptT.mk (m.run >>= fun r => match r with
    | .ok a => pure (.ok a)
    | .error e => (f e).run)

end Task

/-! ## The integrity scan -/

/-- `verifyOne`, with `DiscardFinalizedBlob`. -/
def verifyOne (h : Str) : Prog Eff Unit := do
  match ← Prog.perform (.hash h) with
  | .absent | .failed => pure ()
  | .digests got _ =>
    if got = h then pure ()
    else if validBlobHash h then
      let _ ← Prog.perform (.remove h)
      pure ()
    else pure ()

/-! ## Finalizing downloads -/

section Finalize

variable (D : Digests)

/-- The size check, `Sync` and `Close` of both finalizers. -/
def flush (w : MemberWriter) (expectedSize : Int) : Task MemberErr Unit := do
  ensure (expectedSize ≤ 0 ∨ (w.written : Int) = expectedSize)
    (.sizeMismatch w.written expectedSize)
  callOr (.io .sync)
  callOr (.io .close)

/-- The move into the pool of both finalizers; a file that is there is kept unread. -/
def place (w : MemberWriter) : Task MemberErr Str := do
  callOr (.io .mkdir)
  match ← eff (.stat (D.sha256 w.fed256)) with
  | some true => pure (D.sha256 w.fed256)
  | _ =>
    if ← eff (.rename (D.sha256 w.fed256) w.file) then pure (D.sha256 w.fed256)
    else throw (.io .rename)

def finalize (w : MemberWriter) (expectedSize : Int) : Task MemberErr Str := do
  flush w expectedSize
  place D w

def finalizeExpectingHash (w : MemberWriter) (expected : Str) (expectedSize : Int) :
    Task MemberErr Str := do
  ensure (validBlobHash expected = true) (.invalidHash expected)
  flush w expectedSize
  ensure (D.sha256 w.fed256 = expected) (.hashMismatch .sha256 expected (D.sha256 w.fed256))
  place D w

end Finalize

/-! ## Adoptions -/

section Adopt

variable (D : Digests)

/-- `rehashPooledBlob`: a corrupt file of the derived hash is removed. -/
def rehashPooledBlob (derived : Str) : Task MemberErr Unit := do
  match ← eff (.hash derived) with
  | .absent => pure ()
  | .failed => throw (.dbFailed .rehash)
  | .digests actual _ =>
    if actual = derived then pure ()
    else
      if ← eff (.remove derived) then pure () else throw (.dbFailed .evict)

def verifyMember (w : MemberWriter) (m : ReleaseMember) (size : Int) : Task MemberErr Str := do
  ensure (m.sha256 ≠ [] ∨ m.sha512 ≠ []) (.undeclared m.path)
  ensure (m.sha512 = [] ∨ D.sha512 w.fed512 = m.sha512)
    (.hashMismatch .sha512 m.sha512 (D.sha512 w.fed512))
  if m.sha256 = [] then
    rehashPooledBlob (D.sha256 w.fed256)
    finalize D w size
  else
    finalizeExpectingHash D w m.sha256 size

/-- `tryByHashFetch`, the probe. -/
def tryByHashFetch (m : ReleaseMember) : Task MemberErr Str := do
  callOr (.dbFailed .newTempBlob)
  match ← eff .fetch with
  | .error e => throw e
  | .ok (w, _) =>
    let hashHex ← verifyMember D w m m.size
    callOr (.dbFailed .putBlob)
    callOr (.dbFailed .putRepresentation)
    callOr (.dbFailed .putMemberRepresentation)
    pure hashHex

def fetchMemberURL (m : ReleaseMember) : Task MemberErr Str := do
  callOr (.dbFailed .newTempBlob)
  match ← eff .fetch with
  | .error e => throw (Freshness.fetchError m e)
  | .ok (w, contentLength) =>
    ensure (m.size ≤ 0 ∨ contentLength ≤ 0 ∨ contentLength = m.size)
      (.memberFetchFailed m.path (.served contentLength m.size))
    let hashHex ← handle (verifyMember D w m m.size) fun e => throw (Freshness.verifyError m e)
    callOr (.dbFailed .putBlob)
    callOr (.dbFailed .putRepresentation)
    pure hashHex

/-- The reuse of a pool file in `adoptMember`: the hash of a file that is confirmed. A corrupt one
is removed. -/
def reusePooled (m : ReleaseMember) : Task MemberErr (Option Str) := do
  if m.sha256 = [] then pure none
  else
    ensure (validBlobHash m.sha256 = true) (.dbFailed .blobExists)
    match ← eff (.stat m.sha256) with
    | none => throw (.dbFailed .blobExists)
    | some false => pure none
    | some true =>
      match ← eff (.hash m.sha256) with
      | .absent | .failed => throw (.dbFailed .rehash)
      | .digests actual actual512 =>
        if actual = m.sha256 then
          ensure (m.sha512 = [] ∨ actual512 = m.sha512)
            (.memberMismatch m.path .sha512 m.sha512 actual512)
          callOr (.dbFailed .putBlob)
          pure (some m.sha256)
        else
          if ← eff (.remove m.sha256) then pure none else throw (.dbFailed .evict)

def adoptMember (m : ReleaseMember) (acquireByHash : Bool) : Task MemberErr Str := do
  match ← reusePooled m with
  | some h => pure h
  | none =>
    callOr .hostSem
    if acquireByHash = true ∧ m.path ≠ [] then
      handle (tryByHashFetch D m) fun e => if e.isLocal then throw e else fetchMemberURL D m
    else
      fetchMemberURL D m

/-- The errors of `writeBlobBytes`. -/
inductive WriteErr
  | blobExists
  | rehash
  | putBlob
  | evict
  | newTempBlob
  | write
  | finalize (e : MemberErr)
  /-- The finalizer's hash is not that of the bytes. -/
  | sanity (expected final : Str)
  deriving DecidableEq

/-- The temp file, `Finalize` and the row of `writeBlobBytes`. -/
def storeBlobBytes (content : Bytes) : Task WriteErr Str := do
  callOr .newTempBlob
  callOr .write
  let final ← handle (finalize D (MemberWriter.new.write content) content.length) fun e =>
    throw (.finalize e)
  ensure (final = D.sha256 content) (.sanity (D.sha256 content) final)
  callOr .putBlob
  pure (D.sha256 content)

def writeBlobBytes (content : Bytes) : Task WriteErr Str := do
  match ← eff (.stat (D.sha256 content)) with
  | none => throw .blobExists
  | some false => storeBlobBytes D content
  | some true =>
    match ← eff (.hash (D.sha256 content)) with
    | .absent | .failed => throw .rehash
    | .digests actual _ =>
      if actual = D.sha256 content then
        callOr .putBlob
        pure (D.sha256 content)
      else
        if ← eff (.remove (D.sha256 content)) then storeBlobBytes D content else throw .evict

end Adopt

/-! ## The system -/

/-- What can be started. -/
inductive Req
  | scan (h : Str)
  | adopt (m : ReleaseMember) (acquireByHash : Bool)
  | write (content : Bytes)
  | finalize (bytes : Bytes) (expectedSize : Int)
  | finalizeExpectingHash (bytes : Bytes) (expected : Str) (expectedSize : Int)

/-- The program of a request; its result goes to the caller. -/
def start (D : Digests) : Req → Prog Eff Unit
  | .scan h => verifyOne h
  | .adopt m acquireByHash => (fun _ => ()) <$> (adoptMember D m acquireByHash).run
  | .write content => (fun _ => ()) <$> (writeBlobBytes D content).run
  | .finalize bytes size => (fun _ => ()) <$> (finalize D (MemberWriter.new.write bytes) size).run
  | .finalizeExpectingHash bytes expected size =>
    (fun _ => ()) <$> (finalizeExpectingHash D (MemberWriter.new.write bytes) expected size).run

/-- The programs in any interleaving, on any pool; nobody else touches it. -/
def sys (D : Digests) : Sys (Threads.World Eff Pool) (Threads.Act Req Empty Pick) :=
  Threads.sys (sem D) (start D) (fun _ a => a.elim) fun _ => True

/-- The file that an effect removes. -/
def Eff.removes {β : Type} : Eff β → Option Str
  | .remove h => some h
  | _ => none

/-- The file that an effect moves in. -/
def Eff.renames {β : Type} : Eff β → Option Str
  | .rename h _ => some h
  | _ => none

/-- The file that a program is about to remove. -/
def pending : Prog Eff Unit → Option Str
  | .op e _ => e.removes
  | .ret _ => none

/-- No bytes are moved in under a name whose removal is pending. -/
def calm (wd : Threads.World Eff Pool) : Threads.Act Req Empty Pick → Bool
  | .step i _ =>
    match wd.threads[i]? with
    | some (.op e _) => wd.threads.all fun p => e.renames = none || pending p != e.renames
    | _ => true
  | _ => true

/-! ## Every program is careful -/

/-- The file that is known to be corrupt after its bytes were hashed. -/
def Hashed.finding (h : Str) : Hashed → Option Str
  | .digests actual _ => if actual = h then none else some h
  | _ => none

/-- A file is removed only right after it was found corrupt. -/
def careful : Prog.Wp Eff (Option Str) := fun {_} e i Q =>
  match e with
  | .hash h => ∀ d, Q d (d.finding h)
  | .remove h => i = some h ∧ ∀ ok, Q ok none
  | .stat _ => ∀ r, Q r none
  | .rename _ _ => ∀ ok, Q ok none
  | .call => ∀ ok, Q ok none
  | .fetch => ∀ r, Q r none

/-- The program is careful, whatever was found before it. -/
def Careful {α : Type} (p : Prog Eff α) : Prop := ∀ i, Prog.Sat careful p i fun _ _ => True

theorem careful_monotone : Prog.Wp.Monotone careful := by
  intro β e i Q Q' hq h
  cases e with
  | hash h' => exact fun d => hq d _ (h d)
  | remove h' => exact ⟨h.1, fun ok => hq ok _ (h.2 ok)⟩
  | stat h' => exact fun r => hq r _ (h r)
  | rename h' b => exact fun ok => hq ok _ (h ok)
  | call => exact fun ok => hq ok _ (h ok)
  | fetch => exact fun r => hq r _ (h r)

section Careful

variable {α β ε ε' : Type}

theorem Careful.bind {p : Prog Eff α} {f : α → Prog Eff β} (hp : Careful p)
    (hf : ∀ a, Careful (f a)) : Careful (p >>= f) := fun i =>
  Prog.sat_bind.mpr ((hp i).mono careful_monotone fun a i' _ => hf a i')

/-- A step that removes nothing, and what follows it. -/
theorem Careful.step {e : Eff α} {k : α → Prog Eff β} (he : e.removes = none)
    (hk : ∀ a, Careful (k a)) : Careful (.op e k) := by
  intro i
  cases e with
  | hash h => exact fun d => hk d _
  | remove h => cases he
  | stat h => exact fun r => hk r _
  | rename h b => exact fun ok => hk ok _
  | call => exact fun ok => hk ok _
  | fetch => exact fun r => hk r _

/-- A file is hashed; what follows may remove it if it is corrupt. -/
theorem Careful.rehash {h : Str} {k : Hashed → Prog Eff β} (habsent : Careful (k .absent))
    (hfailed : Careful (k .failed)) (hgood : ∀ d, Careful (k (.digests h d)))
    (hcorrupt : ∀ actual d, actual ≠ h →
      Prog.Sat careful (k (.digests actual d)) (some h) fun _ _ => True) :
    Careful (.op (.hash h) k) := by
  intro i d
  cases d with
  | absent => exact habsent _
  | failed => exact hfailed _
  | digests actual d =>
    by_cases hactual : actual = h
    · subst hactual
      exact hgood d _
    · rw [Hashed.finding, if_neg hactual]
      exact hcorrupt actual d hactual

/-- A file that was found corrupt is removed. -/
theorem Careful.remove {h : Str} {f : Bool → Prog Eff β} (hf : ∀ ok, Careful (f ok)) :
    Prog.Sat careful (.op (.remove h) f) (some h) fun _ _ => True := ⟨rfl, fun ok => hf ok none⟩

theorem eff_bind_run (e : Eff α) (k : α → Task ε β) :
    (eff e >>= k).run = .op e fun a => (k a).run := rfl

theorem Careful.eff_bind {e : Eff α} {k : α → Task ε β} (he : e.removes = none)
    (hk : ∀ a, Careful (k a).run) : Careful (eff e >>= k).run := .step he hk

theorem Careful.task_bind {m : Task ε α} {f : α → Task ε β} (hm : Careful m.run)
    (hf : ∀ a, Careful (f a).run) : Careful (m >>= f).run := by
  refine Careful.bind (p := m.run) (f := ExceptT.bindCont f) hm fun r => ?_
  cases r with
  | ok a => exact hf a
  | error e => exact fun i => trivial

theorem Careful.pure (a : α) : Careful (pure a : Task ε α).run := fun _ => trivial

theorem Careful.throw (e : ε) : Careful (throw e : Task ε α).run := fun _ => trivial

theorem Careful.ensure (c : Prop) [Decidable c] (e : ε) : Careful (ensure c e).run := by
  unfold Integrity.ensure
  split
  · exact .pure _
  · exact .throw e

theorem Careful.callOr (e : ε) : Careful (callOr e).run := by
  refine .step rfl fun ok => ?_
  cases ok
  · exact .throw e
  · exact .pure _

theorem Careful.handle {m : Task ε α} {f : ε → Task ε' α} (hm : Careful m.run)
    (hf : ∀ e, Careful (f e).run) : Careful (handle m f).run := by
  refine Careful.bind (p := m.run) hm fun r => ?_
  cases r with
  | ok a => exact .pure a
  | error e => exact hf e

end Careful

section Programs

variable (D : Digests)

theorem verifyOne_careful (h : Str) : Careful (verifyOne h) := by
  refine .rehash (fun _ => trivial) (fun _ => trivial) (fun d => ?_) fun actual d hactual => ?_
  · show Careful (if h = h then pure () else _)
    rw [if_pos rfl]
    exact fun _ => trivial
  · show Prog.Sat careful (if actual = h then pure () else _) _ _
    rw [if_neg hactual]
    split
    · exact Careful.remove fun _ _ => trivial
    · trivial

theorem flush_careful (w : MemberWriter) (size : Int) : Careful (flush w size).run :=
  .task_bind (.ensure _ _) fun _ => .task_bind (.callOr _) fun _ => .callOr _

theorem place_careful (w : MemberWriter) : Careful (place D w).run := by
  refine .task_bind (.callOr _) fun _ => .eff_bind rfl fun r => ?_
  split
  · exact .pure _
  · refine .eff_bind rfl fun ok => ?_
    cases ok
    · exact .throw _
    · exact .pure _

theorem finalize_careful (w : MemberWriter) (size : Int) : Careful (finalize D w size).run :=
  .task_bind (flush_careful w size) fun _ => place_careful D w

theorem finalizeExpectingHash_careful (w : MemberWriter) (expected : Str) (size : Int) :
    Careful (finalizeExpectingHash D w expected size).run :=
  .task_bind (.ensure _ _) fun _ => .task_bind (flush_careful w size) fun _ =>
    .task_bind (.ensure _ _) fun _ => place_careful D w

theorem rehashPooledBlob_careful (derived : Str) : Careful (rehashPooledBlob derived).run := by
  unfold rehashPooledBlob
  rw [eff_bind_run]
  refine .rehash (.pure _) (.throw _) (fun d => ?_) fun actual d hactual => ?_
  · dsimp only
    rw [if_pos rfl]
    exact .pure _
  · dsimp only
    rw [if_neg hactual, eff_bind_run]
    refine Careful.remove fun ok => ?_
    cases ok
    · exact .throw _
    · exact .pure _

theorem verifyMember_careful (w : MemberWriter) (m : ReleaseMember) (size : Int) :
    Careful (verifyMember D w m size).run := by
  refine .task_bind (.ensure _ _) fun _ => .task_bind (.ensure _ _) fun _ => ?_
  split
  · exact .task_bind (rehashPooledBlob_careful _) fun _ => finalize_careful D w size
  · exact finalizeExpectingHash_careful D w m.sha256 size

theorem tryByHashFetch_careful (m : ReleaseMember) : Careful (tryByHashFetch D m).run := by
  refine .task_bind (.callOr _) fun _ => .eff_bind rfl fun r => ?_
  split
  · exact .throw _
  · exact .task_bind (verifyMember_careful D _ m m.size) fun _ => .task_bind (.callOr _) fun _ =>
      .task_bind (.callOr _) fun _ => .task_bind (.callOr _) fun _ => .pure _

theorem fetchMemberURL_careful (m : ReleaseMember) : Careful (fetchMemberURL D m).run := by
  refine .task_bind (.callOr _) fun _ => .eff_bind rfl fun r => ?_
  split
  · exact .throw _
  · exact .task_bind (.ensure _ _) fun _ =>
      .task_bind (.handle (verifyMember_careful D _ m m.size) fun _ => .throw _) fun _ =>
        .task_bind (.callOr _) fun _ => .task_bind (.callOr _) fun _ => .pure _

theorem reusePooled_careful (m : ReleaseMember) : Careful (reusePooled m).run := by
  unfold reusePooled
  split
  · exact .pure _
  · refine .task_bind (.ensure _ _) fun _ => .eff_bind rfl fun r => ?_
    split
    · exact .throw _
    · exact .pure _
    · rw [eff_bind_run]
      refine .rehash (.throw _) (.throw _) (fun d => ?_) fun actual d hactual => ?_
      · dsimp only
        rw [if_pos rfl]
        exact .task_bind (.ensure _ _) fun _ => .task_bind (.callOr _) fun _ => .pure _
      · dsimp only
        rw [if_neg hactual, eff_bind_run]
        refine Careful.remove fun ok => ?_
        cases ok
        · exact .throw _
        · exact .pure _

theorem adoptMember_careful (m : ReleaseMember) (acquireByHash : Bool) :
    Careful (adoptMember D m acquireByHash).run := by
  refine .task_bind (reusePooled_careful m) fun r => ?_
  split
  · exact .pure _
  · refine .task_bind (.callOr _) fun _ => ?_
    split
    · refine .handle (tryByHashFetch_careful D m) fun e => ?_
      split
      · exact .throw _
      · exact fetchMemberURL_careful D m
    · exact fetchMemberURL_careful D m

theorem storeBlobBytes_careful (content : Bytes) : Careful (storeBlobBytes D content).run :=
  .task_bind (.callOr _) fun _ => .task_bind (.callOr _) fun _ =>
    .task_bind (.handle (finalize_careful D _ _) fun _ => .throw _) fun _ =>
      .task_bind (.ensure _ _) fun _ => .task_bind (.callOr _) fun _ => .pure _

theorem writeBlobBytes_careful (content : Bytes) : Careful (writeBlobBytes D content).run := by
  refine .eff_bind rfl fun r => ?_
  split
  · exact .throw _
  · exact storeBlobBytes_careful D content
  · rw [eff_bind_run]
    refine .rehash (.throw _) (.throw _) (fun d => ?_) fun actual d hactual => ?_
    · dsimp only
      rw [if_pos rfl]
      exact .task_bind (.callOr _) fun _ => .pure _
    · dsimp only
      rw [if_neg hactual, eff_bind_run]
      refine Careful.remove fun ok => ?_
      cases ok
      · exact .throw _
      · exact storeBlobBytes_careful D content

theorem start_careful (r : Req) : Careful (start D r) := by
  cases r with
  | scan h => exact verifyOne_careful h
  | adopt m acquireByHash => exact .bind (adoptMember_careful D m acquireByHash) fun _ _ => trivial
  | write content => exact .bind (writeBlobBytes_careful D content) fun _ _ => trivial
  | finalize bytes size => exact .bind (finalize_careful D _ size) fun _ _ => trivial
  | finalizeExpectingHash bytes expected size =>
    exact .bind (finalizeExpectingHash_careful D _ expected size) fun _ _ => trivial

end Programs

/-! ## What is removed -/

/-- What is known of the pool: the file that was found is not one of good bytes. -/
def Known (D : Digests) (pool : Pool) (i : Option Str) : Prop :=
  ∀ h, i = some h → ∀ b, pool h = some b → D.sha256 b ≠ h

section Removal

variable {D : Digests} {pool pool' : Pool}

theorem hashed_known (h : Str) : Known D pool ((hashed D pool h).finding h) := by
  intro h' hfound b hb
  unfold hashed at hfound
  split at hfound
  · cases hfound
  · rename_i c hc
    simp only [Hashed.finding] at hfound
    split at hfound
    · cases hfound
    · rename_i hne
      obtain rfl := Option.some.inj hfound
      rw [hc] at hb
      obtain rfl := Option.some.inj hb
      exact hne

/-- A file of another name than what the effect moves in was there before. -/
theorem sem_file {β : Type} {e : Eff β} {x : Pick} {r : β} (h : sem D e pool x = some (r, pool'))
    {f : Str} (hf : e.renames ≠ some f) {b : Bytes} (hb : pool' f = some b) : pool f = some b := by
  cases e with
  | remove f' =>
    cases x <;> cases h
    · by_cases hff : f = f'
      · subst hff
        rw [Function.update_self] at hb
        cases hb
      · rwa [Function.update_of_ne hff] at hb
    · exact hb
  | rename f' c =>
    cases x <;> cases h
    · rwa [Function.update_of_ne (fun hff => hf (congrArg some hff.symm))] at hb
    · exact hb
  | hash f' => cases x <;> cases h <;> exact hb
  | stat f' => cases x <;> cases h <;> exact hb
  | call => cases x <;> cases h <;> exact hb
  | fetch => cases x <;> cases h; exact hb

/-- A program that is not about to remove a file needs to know nothing. -/
theorem sat_of_not_pending {p : Prog Eff Unit} {i : Option Str} (hp : pending p = none)
    (h : Prog.Sat careful p i fun _ _ => True) : Prog.Sat careful p none fun _ _ => True := by
  cases p with
  | ret a => trivial
  | op e k =>
    cases e with
    | remove f => cases hp
    | hash f => exact h
    | stat f => exact h
    | rename f b => exact h
    | call => exact h
    | fetch => exact h

/-- A program that is about to remove a file knows it to be corrupt. -/
theorem known_of_pending {p : Prog Eff Unit} {f : Str} (hp : pending p = some f)
    (h : Threads.Informed careful (Known D) pool p) :
    Prog.Sat careful p (some f) (fun _ _ => True) ∧ Known D pool (some f) := by
  obtain ⟨i, hsat, hknown⟩ := h
  cases p with
  | ret a => cases hp
  | op e k =>
    cases e with
    | remove f' =>
      obtain rfl := Option.some.inj hp
      obtain ⟨rfl, hk⟩ := hsat
      exact ⟨⟨rfl, hk⟩, hknown⟩
    | hash f' => cases hp
    | stat f' => cases hp
    | rename f' b => cases hp
    | call => cases hp
    | fetch => cases hp

theorem informed_of_calm {wd wd' : Threads.World Eff Pool} {i : Nat} {x : Pick}
    (hcalm : calm wd (.step i x) = true) (hstep : Threads.stepThread (sem D) wd i x = some wd')
    {p : Prog Eff Unit} (hp : p ∈ wd.threads)
    (h : Threads.Informed careful (Known D) wd.store p) :
    Threads.Informed careful (Known D) wd'.store p := by
  cases hpending : pending p with
  | none =>
    obtain ⟨j, hsat, -⟩ := h
    exact ⟨none, sat_of_not_pending hpending hsat, fun _ hf => by cases hf⟩
  | some f =>
    obtain ⟨hsat, hknown⟩ := known_of_pending hpending h
    refine ⟨some f, hsat, fun f' hf' b hb => ?_⟩
    unfold Threads.stepThread at hstep
    split at hstep
    swap
    · cases hstep
    rename_i β e k hi
    obtain ⟨⟨r, pool'⟩, hs, rfl⟩ := Option.map_eq_some_iff.mp hstep
    simp only [calm, hi, List.all_eq_true, Bool.or_eq_true, decide_eq_true_eq, bne_iff_ne] at hcalm
    have hne : e.renames ≠ some f' := by
      intro hrenames
      rcases hcalm p hp with hnone | hother
      · rw [hnone] at hrenames
        cases hrenames
      · exact hother (hpending.trans (hf'.trans hrenames.symm))
    exact hknown f' hf' b (sem_file hs hne hb)

theorem informed_step {β : Type} (e : Eff β) (k : β → Prog Eff Unit) (pool : Pool) (i : Option Str)
    (x : Pick) (r : β) (pool' : Pool) (hsat : Prog.Sat careful (.op e k) i fun _ _ => True)
    (hs : sem D e pool x = some (r, pool')) : Threads.Informed careful (Known D) pool' (k r) := by
  have blank : Known D pool' none := fun _ hf => by cases hf
  cases e with
  | hash h =>
    cases x with
    | ok =>
      cases hs
      exact ⟨_, hsat _, hashed_known h⟩
    | fail =>
      cases hs
      exact ⟨_, hsat _, blank⟩
    | upstream u => cases hs
  | remove h => exact ⟨none, hsat.2 r, blank⟩
  | stat h => exact ⟨none, hsat r, blank⟩
  | rename h b => exact ⟨none, hsat r, blank⟩
  | call => exact ⟨none, hsat r, blank⟩
  | fetch => exact ⟨none, hsat r, blank⟩

/-- In every run in which no bytes are moved in under a name whose removal is pending, the file that
a program is about to remove as corrupt does not hold the bytes of its name. -/
theorem removed_is_corrupt (D : Digests) {wd : Threads.World Eff Pool}
    (hr : ((sys D).guard fun wd a => calm wd a = true).Reach wd) {p : Prog Eff Unit}
    (hp : p ∈ wd.threads) {h : Str} (hpending : pending p = some h) :
    ∀ b, wd.store h = some b → D.sha256 b ≠ h := by
  have hinformed : Threads.Informed careful (Known D) wd.store p := by
    refine Threads.informed ?_ ?_ ?_ ?_ hr p hp
    · exact fun r _ => ⟨none, start_careful D r none, fun _ hf => by cases hf⟩
    · exact fun _ a => a.elim
    · exact fun e k s i x r s' _ hsat hs => informed_step e k s i x r s' hsat hs
    · exact fun wd i x wd' hcalm hstep p hp h => informed_of_calm hcalm hstep hp h
  exact (known_of_pending hpending hinformed).2 h rfl

end Removal

/-! ## Runs -/

/-- The bytes of the blob. -/
def goodBytes : Bytes := [0, 0]

/-- The name of its pool file. -/
def goodHash : Str := List.replicate 64 'a'

/-- A pool with one file, which is corrupt. -/
def rottenPool : Pool := Function.update (fun _ => none) goodHash (some [1])

/-- A scan hashes the corrupt file. -/
def scanned : List (Threads.Act Req Empty Pick) := [.start (.scan goodHash), .step 0 .ok]

/-- An adoption stores the blob: it finds the corrupt file, removes it and moves its own bytes
in. -/
def stored : List (Threads.Act Req Empty Pick) :=
  .start (.write goodBytes) :: List.replicate 10 (.step 1 .ok)

/-- The world after the run. -/
def worldAfter (run : List (Threads.Act Req Empty Pick)) : Threads.World Eff Pool :=
  ((sys Freshness.headDigests).exec ⟨rottenPool, []⟩ run).getD ⟨rottenPool, []⟩

/-- A scan is about to remove the bytes that an adoption has verified and moved in since; then it
does, and the pool has no file of the blob. -/
theorem scan_removes_good :
    (sys Freshness.headDigests).Reach (worldAfter (scanned ++ stored)) ∧
    (∃ p ∈ (worldAfter (scanned ++ stored)).threads, pending p = some goodHash) ∧
    (worldAfter (scanned ++ stored)).store goodHash = some goodBytes ∧
    Freshness.headDigests.sha256 goodBytes = goodHash ∧
    (worldAfter (scanned ++ stored ++ [.step 0 .ok])).store goodHash = none := by
  refine ⟨.exec ⟨trivial, rfl⟩ (Spec.eq_some_getD _ (by decide +kernel)), ?_⟩
  decide +kernel

/-- While a scan is about to remove the corrupt file, an adoption finds it corrupt as well: the run
is calm, and the file is not one of good bytes. -/
theorem removed_is_corrupt_scanned :
    ∃ p ∈ (worldAfter (scanned ++ stored.take 3)).threads, pending p = some goodHash ∧
      ∀ b, (worldAfter (scanned ++ stored.take 3)).store goodHash = some b →
        Freshness.headDigests.sha256 b ≠ goodHash := by
  have hexec : ((sys Freshness.headDigests).guard fun wd a => calm wd a = true).exec
      ⟨rottenPool, []⟩ (scanned ++ stored.take 3) =
        some (worldAfter (scanned ++ stored.take 3)) := rfl
  have hr : ((sys Freshness.headDigests).guard fun wd a => calm wd a = true).Reach
      (worldAfter (scanned ++ stored.take 3)) := .exec ⟨trivial, rfl⟩ hexec
  have hp : ∃ p ∈ (worldAfter (scanned ++ stored.take 3)).threads, pending p = some goodHash := by
    decide +kernel
  obtain ⟨p, hp, hpending⟩ := hp
  exact ⟨p, hp, hpending, removed_is_corrupt Freshness.headDigests hr hp hpending⟩

end AptCacher.Integrity
