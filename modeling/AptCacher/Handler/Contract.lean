import AptCacher.Cache.Pointer
import AptCacher.Handler.Rules

/-!
# The snapshot is the contract

While its suite has a current snapshot, a metadata request is answered with an error or with bytes
that a snapshot of the suite binds to its path. Every failure of a read ends the request, and an
anchor serve that was not registered with the flip barrier registers and reads the snapshot pointer
again; no path leads to a cached row, to the pool by name, to a stale copy or to a download that
nothing verified.

* `Contract`: what may be sent.
* `serveSnapshot_contract`, `trySnapshotHit_contract`, `serveHTTP_contract`: the programs keep it.
* `snapshot_contract`: every answer of every run does.
-/

namespace AptCacher

namespace Cache

/-- The blob that a snapshot binds to a path. -/
def Db.bound (db : Db) (id : Nat) (path : Str) : Option Str :=
  (db.members.find (id, path)).map Member.blobHash

end Cache

namespace Handler

open Spec Cache Aptpath Proxy
open Prog (Sat sat_bind)
open Flight (lift wpStore wpReq wpBody sat_lift sat_body sat_of_forall Honest)

variable {B : Type}

/-! ## What may be sent -/

/-- A body of a snapshot of the suite. -/
def Source.verified : Source → Bool
  | .snapshot _ | .displaced _ | .recovered _ => true
  | _ => false

/-- A snapshot that is current for the request's suite at a moment of the request binds `h` to its
path. -/
def CurrentBinds (F : Set (Store B)) (req : Request) (h : Str) : Prop :=
  ∃ s₁ ∈ F, ∃ id, s₁.current req.suite = some id ∧
    ∃ s₂ ∈ F, s₂.db.bound id req.member = some h

/-- The path is a by-hash name that such a snapshot lacks, and a displaced one, adopted and not
retired, of the same suite binds `h` to it; a SHA256 name is `h`. -/
def DisplacedBinds (F : Set (Store B)) (req : Request) (h : Str) : Prop :=
  (byHashMember req.member = some (.sha256 h) ∨ byHashMember req.member = some .sha512) ∧
    (∃ s₁ ∈ F, ∃ id, s₁.current req.suite = some id ∧
      ∃ s₂ ∈ F, s₂.db.bound id req.member = none) ∧
    ∃ s ∈ F, ∃ snap ∈ s.db.snapshots, snap.key = req.suite ∧ snap.adoptedAt ≠ none ∧
      snap.retiredAt = none ∧ s.current req.suite ≠ some snap.id ∧
      s.db.bound snap.id req.member = some h

/-- What may be sent to a request whose stores are in `F`. -/
def Contract (c : Content B) (F : Set (Store B)) (req : Request) : Response B → Prop
  | .error status => 400 ≤ status
  | .body source b => source.verified = true ∧
    (CurrentBinds F req (c.sha256 b) ∨ DisplacedBinds F req (c.sha256 b))

/-! ## The programs -/

/-- A recovery yields the hash that its key names. -/
def Recovers : Key → Log B → Result → Prop
  | .recovery _ declared, _, .ok fetched => fetched.blobHash = declared
  | _, _, _ => True

section Programs

variable {c : Content B} {f : Faults} {cfg : Config} {req : Request}
  {rules : Flight.Rules (Eff B) (Store B) Event Key} {F : Set (Store B)} {l : Log B}

theorem runSnapshotMemberFetch_recovers (declared : Str) :
    Sat (wpStore (sem c f) rules F) (runSnapshotMemberFetch c req declared) l
      fun r l' => Recovers (.recovery req.url declared) l' r := by
  refine sat_bind.mpr (sat_ask fun slot => ?_)
  cases slot with
  | false => trivial
  | true =>
    refine sat_bind.mpr (sat_ask fun temp => ?_)
    cases temp with
    | false => trivial
    | true =>
      refine sat_bind.mpr (sat_fetch (fun s _ b => ?_) fun e => trivial)
      refine sat_bind.mpr (sat_finalize (fun hexp => ?_) fun e => ?_)
      · refine sat_bind.mpr (sat_write fun r => ?_)
        cases r with
        | error e => trivial
        | ok u =>
          refine sat_bind.mpr (sat_ask fun stored => ?_)
          cases stored with
          | false => trivial
          | true => exact (hexp declared rfl).symm
      · cases e <;> trivial

theorem bodies_recover : Bodies c cfg f rules (Recovers (B := B)) where
  miss _ _ := sat_body.mpr (sat_of_forall fun _ _ => trivial)
  recovery _ declared := sat_body.mpr (runSnapshotMemberFetch_recovers declared)
  onboard _ := sat_body.mpr (sat_of_forall fun _ _ => trivial)

/-- A response of the loop over displaced members comes from one of them. -/
def OneOf (c : Content B) (name : ByHash) (ms : List Member) (r : Option (Response B)) : Prop :=
  ∀ resp, r = some resp → ∃ m ∈ ms, (name = .sha256 m.blobHash ∨ name = .sha512) ∧
    ∃ b, c.sha256 b = m.blobHash ∧ resp = .body (.displaced m.snapshotId) b

theorem serveDisplaced_oneOf {name : ByHash} {ms : List Member} :
    Sat (wpStore (sem c f) rules F) (serveDisplaced name ms) l fun r _ => OneOf c name ms r := by
  induction ms with
  | nil => exact fun resp h => nomatch h
  | cons m ms ih =>
    have rest : Sat (wpStore (sem c f) rules F) (serveDisplaced name ms) l
        fun r _ => OneOf c name (m :: ms) r := by
      refine ih.mono (Flight.wpStore_mono F) fun r _ h resp hr => ?_
      obtain ⟨m', hm', hrest⟩ := h resp hr
      exact ⟨m', List.mem_cons_of_mem m hm', hrest⟩
    unfold serveDisplaced
    split
    · rename_i hname
      refine sat_bind.mpr (sat_openBlob (fun b hb => ?_) rest)
      rintro resp ⟨⟩
      exact ⟨m, List.mem_cons_self, hname, b, hb, rfl⟩
    · exact rest

/-- The displaced snapshot may have become current again since the pointer was read: it then binds
the path as a current one. -/
theorem displaced_binds {s : Store B} (hs : s ∈ F) {m : Member} {current : Nat} {limit : Int}
    (hm : m ∈ s.db.displacedMembers req.suite req.member current limit)
    (hname : byHashMember req.member = some (.sha256 m.blobHash) ∨
      byHashMember req.member = some .sha512)
    (hlacks : ∃ s₁ ∈ F, ∃ id, s₁.current req.suite = some id ∧
      ∃ s₂ ∈ F, s₂.db.bound id req.member = none) :
    CurrentBinds F req m.blobHash ∨ DisplacedBinds F req m.blobHash := by
  obtain ⟨hmem, hpath, snap, hsnap, hid, hkey, had, hre, -⟩ := Db.mem_displacedMembers hm
  have hfind : s.db.bound m.snapshotId req.member = some m.blobHash := by
    have : s.db.members.find (m.snapshotId, req.member) = some m :=
      Table.find_eq_some.mpr ⟨hmem, by rw [hpath]⟩
    simp only [Db.bound, this, Option.map_some]
  by_cases hcur : s.current req.suite = some m.snapshotId
  · exact .inl ⟨s, hs, _, hcur, s, hs, hfind⟩
  · refine .inr ⟨hname, hlacks, s, hs, snap, hsnap, hkey, had, hre, ?_, ?_⟩
    · rw [hid]
      exact hcur
    · rw [hid]
      exact hfind

/-- `tryDisplacedByHash` for a path that the current snapshot lacks. -/
theorem tryDisplacedByHash_contract {id : Nat}
    (hlacks : ∃ s₁ ∈ F, ∃ id, s₁.current req.suite = some id ∧
      ∃ s₂ ∈ F, s₂.db.bound id req.member = none) :
    Sat (wpStore (sem c f) rules F) (tryDisplacedByHash cfg req id) l
      fun r _ => ∀ resp, r = some resp → Contract c F req resp := by
  unfold tryDisplacedByHash
  split
  · exact fun resp h => nomatch h
  · split
    · exact fun resp h => nomatch h
    · rename_i name hname
      refine sat_bind.mpr (sat_read rfl (fun s hs => ?_) fun _ resp h => nomatch h)
      refine serveDisplaced_oneOf.mono (Flight.wpStore_mono F) fun r _ h resp hr => ?_
      obtain ⟨m, hm, hcase, b, hb, rfl⟩ := h resp hr
      refine ⟨rfl, ?_⟩
      rw [hb]
      refine displaced_binds hs hm ?_ hlacks
      rcases hcase with rfl | rfl
      · exact .inl hname
      · exact .inr hname

/-- Once the current snapshot is known, the snapshot path answers within the contract. -/
theorem serveSnapshot_contract {id : Nat} {s₁ : Store B} (hs₁ : s₁ ∈ F)
    (hcur : s₁.current req.suite = some id) :
    Sat (wpReq (sem c f) rules Recovers F) (serveSnapshot c cfg req id) l
      fun r _ => Contract c F req r := by
  refine sat_bind.mpr (sat_lift.mpr (sat_read rfl (fun s hs => ?_) fun _ => (by decide : 400 ≤ 502)))
  simp only [Query.eval]
  cases hrow : s.db.members.find (id, req.member) with
  | none =>
    have hlacks : s.db.bound id req.member = none := by simp only [Db.bound, hrow, Option.map_none]
    refine sat_bind.mpr (sat_lift.mpr ((tryDisplacedByHash_contract
      ⟨s₁, hs₁, id, hcur, s, hs, hlacks⟩).mono (Flight.wpStore_mono F) fun r _ hr => ?_))
    cases r with
    | none => exact (by decide : 400 ≤ 404)
    | some resp => exact hr resp rfl
  | some m =>
    have hbound : s.db.bound id req.member = some m.blobHash := by
      simp only [Db.bound, hrow, Option.map_some]
    refine sat_bind.mpr (sat_lift.mpr (sat_openBlob (fun b hb => ?_) ?_))
    · exact ⟨rfl, .inl ⟨s₁, hs₁, id, hcur, s, hs, by rw [hb, hbound]⟩⟩
    · refine sat_bind.mpr (sat_share fun l₀ l₁ r shared _ _ hres => ?_)
      cases r with
      | error e => exact (by decide : 400 ≤ 502)
      | ok fetched =>
        refine sat_bind.mpr (sat_lift.mpr (sat_openBlob (fun b hb => ?_) ?_))
        · -- the member declares the blob that it names
          have hsha : c.sha256 b = m.blobHash := by
            have hdecl : fetched.blobHash = m.declared := hres
            rw [hb, hdecl, s.agree m (Table.find_eq_some.mp hrow).1]
          exact ⟨rfl, .inl ⟨s₁, hs₁, id, hcur, s, hs, by rw [hsha, hbound]⟩⟩
        · exact (by decide : 400 ≤ 502)

/-- What `trySnapshotHit` leaves to its caller while the suite has a current snapshot: an anchor
serve that is not registered yet. -/
theorem trySnapshotHit_contract (hF : ∀ s ∈ F, s.current req.suite ≠ none) {sr : SuiteReq} :
    Sat (wpReq (sem c f) rules Recovers F) (trySnapshotHit c cfg req sr) l fun y _ =>
      (∃ r, y.1 = some r ∧ Contract c F req r) ∨
        (y = (none, { sr with tracked := true }) ∧ sr.tok = false ∧ barrierAnchor cfg req = true) := by
  refine sat_bind.mpr (sat_lift.mpr (sat_read rfl (fun s hs => ?_) fun _ => ?_))
  · have hcur := hF s hs
    simp only [Store.current] at hcur
    simp only [Query.eval]
    cases hrow : s.db.suites.find req.suite with
    | none => simp [hrow] at hcur
    | some suite =>
      rw [hrow] at hcur
      dsimp only
      split
      · rename_i hunreg
        simp only [Bool.and_eq_true, Bool.not_eq_true'] at hunreg
        exact .inr ⟨rfl, hunreg⟩
      · cases hid : suite.current with
        | none => exact absurd hid hcur
        | some id =>
          have hs₁ : s.current req.suite = some id := by
            simp only [Store.current, hrow, Option.bind_some, hid]
          refine sat_bind.mpr ((serveSnapshot_contract hs hs₁).mono (Flight.wpReq_mono F)
            fun r _ hr => .inl ⟨r, rfl, hr⟩)
  · exact .inl ⟨_, rfl, (by decide : 400 ≤ 502)⟩

theorem anchorStart_registers (hF : ∀ s ∈ F, s.current req.suite ≠ none) :
    Sat (wpStore (sem c f) rules F) (anchorStart cfg req) l
      fun t _ => barrierAnchor cfg req = true → t = true := by
  unfold anchorStart
  split
  · refine sat_bind.mpr (sat_read rfl (fun s hs => ?_) fun _ => ?_)
    · have hrow : (Query.hasSuiteRow req.suite).eval s.db = true := by
        obtain ⟨id, hid⟩ := Option.ne_none_iff_exists'.mp (hF s hs)
        obtain ⟨suite, hsuite, -⟩ := Option.bind_eq_some_iff.mp hid
        simp only [Query.eval, hsuite, Option.isSome_some]
      rw [hrow]
      exact sat_bind.mpr (sat_ask fun _ _ => rfl)
    · refine sat_bind.mpr (sat_ask fun ended => ?_)
      cases ended with
      | true => exact fun _ => rfl
      | false => exact sat_bind.mpr (sat_ask fun _ _ => rfl)
  · exact fun h => absurd h ‹_›

theorem tryCacheHit_contract (hsuite : req.ofSuite = true)
    (hF : ∀ s ∈ F, s.current req.suite ≠ none) {sr : SuiteReq} :
    Sat (wpReq (sem c f) rules Recovers F) (tryCacheHit c cfg req sr) l fun y _ =>
      ∃ r, y.1 = some r ∧ Contract c F req r := by
  unfold tryCacheHit
  rw [if_pos hsuite]
  refine sat_bind.mpr ((trySnapshotHit_contract hF).mono (Flight.wpReq_mono F) fun y l' hy => ?_)
  rcases hy with ⟨r, hr, hcon⟩ | ⟨rfl, htok, hanchor⟩
  · obtain ⟨_, sr'⟩ := y
    cases hr
    exact ⟨r, rfl, hcon⟩
  · -- the serve registers late, and the snapshot path then answers
    refine sat_bind.mpr (sat_lift.mpr ?_)
    unfold registerLate
    rw [htok]
    refine sat_bind.mpr ((anchorStart_registers hF).mono (Flight.wpStore_mono F) fun t l'' ht => ?_)
    cases ht hanchor
    refine sat_bind.mpr (sat_bind.mpr (sat_lift.mpr (sat_ask fun ended => ?_)))
    cases ended with
    | true => exact ⟨_, rfl, (by decide : 400 ≤ 503)⟩
    | false =>
      refine (trySnapshotHit_contract hF).mono (Flight.wpReq_mono F) fun y l₃ hy => ?_
      rcases hy with ⟨r, hr, hcon⟩ | ⟨-, hreg, -⟩
      · obtain ⟨_, sr'⟩ := y
        cases hr
        exact ⟨r, rfl, hcon⟩
      · cases hreg

theorem serveHTTP_contract (hsuite : req.ofSuite = true)
    (hF : ∀ s ∈ F, s.current req.suite ≠ none) :
    Sat (wpReq (sem c f) rules Recovers F) (serveHTTP c cfg req) l fun r _ => Contract c F req r := by
  have registered : ∀ sr l, Sat (wpReq (sem c f) rules Recovers F) (serveRegistered c cfg req sr) l
      fun r _ => Contract c F req r := by
    intro sr l
    refine sat_bind.mpr ((tryCacheHit_contract hsuite hF).mono (Flight.wpReq_mono F) fun y _ hy => ?_)
    obtain ⟨r, hr, hcon⟩ := hy
    obtain ⟨_, sr'⟩ := y
    cases hr
    exact hcon
  refine sat_bind.mpr (sat_lift.mpr ((anchorStart_registers hF).mono (Flight.wpStore_mono F)
    fun t l' _ => ?_))
  cases t with
  | false => exact registered _ _
  | true =>
    refine sat_bind.mpr (sat_lift.mpr (sat_ask fun ended => ?_))
    cases ended with
    | true => exact (by decide : 400 ≤ 503)
    | false => exact registered _ _

end Programs

/-- The answer of a metadata request whose suite has a current snapshot from its arrival to its
answer, in every run, with any failures, is within the contract. -/
theorem snapshot_contract {c : Content B} {cfg : Config} {f : Faults} {w : World B}
    (h : (server c cfg f).Reach w) {t} (ht : t ∈ w.threads) {a : Response B}
    (ha : t.phase.answer = some a) (hsuite : t.req.ofSuite = true)
    (hadopted : ∀ s ∈ t.seen, s.current t.req.suite ≠ none) :
    Contract c {s | s ∈ t.seen} t.req a :=
  Flight.answered_free Recovers
    (fun (req : Request) F => req.ofSuite = true ∧ ∀ s ∈ F, s.current req.suite ≠ none)
    (fun req F a _ => Contract c F req a) bodies_recover.serveHTTP
    (fun _ _ hpre => serveHTTP_contract hpre.1 hpre.2) h ht ha ⟨hsuite, hadopted⟩

/-! ## A run -/

/-- The adopted suite of `Cache.adoptedDb`, with the file of its index. -/
def adoptedStore : Store Str where
  db := adoptedDb
  pool := [digest 'b']
  agree := Db.agree_of_all (by decide +kernel)

/-- Adoption with the flip barrier. -/
def adopting : Config where
  adoptionEnabled := true
  refuseUnvouchedDebs := true
  barrier := true
  serveStale := true
  adoptions := true
  keepDisplaced := 2
  maxSuites := 100
  hostAllowed _ := true

/-- The index of the suite. -/
def indexRequest : Request := ⟨.http, "deb".toList, "/debian/dists/stable/main/Packages".toList⟩

/-- The request reads the pointer and the member, and opens the file. -/
def indexRun : List (Act Str) :=
  [.arrive indexRequest, .step 0 .ok, .step 0 .ok, .step 0 .ok]

/-- The world after `indexRun`. -/
def indexServed : World Str := .after texts adopting ⟨true, true⟩ adoptedStore indexRun

theorem snapshot_contract_indexServed :
    ∃ t ∈ indexServed.threads, t.phase.answer = some (.body (.snapshot 1) (digest 'b')) ∧
      Contract texts {s | s ∈ t.seen} t.req (.body (.snapshot 1) (digest 'b')) := by
  have hrun : (indexServed.threads.head?.map fun t => (t.phase.answer, t.req.ofSuite,
      t.seen.all fun s => (s.current t.req.suite).isSome)) =
      some (some (.body (.snapshot 1) (digest 'b')), true, true) := by decide +kernel
  obtain ⟨t, ht, hy⟩ := Option.map_eq_some_iff.mp hrun
  obtain ⟨ha, hsuite, hseen⟩ := Prod.mk.injEq .. ▸ Prod.mk.injEq .. ▸ hy
  refine ⟨t, List.mem_of_mem_head? ht, ha, snapshot_contract (World.after_reach (by decide +kernel))
    (List.mem_of_mem_head? ht) ha hsuite fun s hs => ?_⟩
  exact Option.isSome_iff_ne_none.mp (List.all_eq_true.mp hseen s hs)

end Handler
end AptCacher
