import AptCacher.Cache.Walk
import Mathlib.Data.List.Sort

/-!
# Creating a suite under the caps

A hit and a miss create suite rows through one attempt: it holds an eviction candidate outside the
writer, runs one transaction with it, and releases the hold. The transaction checks the per-host
cap, then the global one, and evicts the held suite only if it is still idle and without a snapshot.

* `Creates`, `createSuiteTx_creates`, `Creation.tx_creates`: what a creation does to the suite rows.
* `holdEvictionCandidate`, `Attempt`: the hold, the submit, the look at the row and the release.
* `creating`: any number of attempts beside any operations of the writer.
* `suite_caps`: the caps, and the release of each hold exactly once.
* `released_too_early`: a failed submit may commit after the row was read.
-/

namespace AptCacher.Cache

open Spec Table

/-! ## The transaction -/

variable {db : Db}

theorem Frame.suites_eq {W : Tab → Bool} {db' : Db} (h : Frame W db db') (hs : W .suites = false) :
    db'.suites = db.suites :=
  (Prod.mk.inj (h .suites hs)).1

/-- `deleteSuiteTx` deletes the row only if it has the expected snapshot and is idle. -/
theorem deleteSuiteTx_suites (key : SuiteKey) (want : Option Nat) (cutoff : Option Int) (now : Int)
    (db : Db) : Tx.Post (deleteSuiteTx key want cutoff now) db fun out db' =>
      (out ≠ .suiteDeleted ∧ db'.suites = db.suites) ∨
      (out = .suiteDeleted ∧ db'.suites = db.suites.deleteAt key ∧ ∃ r ∈ db.suites, r.key = key ∧
        r.current = want ∧ ∀ c, cutoff = some c → ∃ t, r.lastRequestedAt = some t ∧ t ≤ c) := by
  have retired : Tx.Within (Frame (· != .suites)) (modify fun db => { db with
      snapshots := db.snapshots.update (fun s => s.key == key && s.retiredAt.isNone)
        (Snapshot.retired now) } : Tx Unit) := .modify fun _ => .snapshots rfl
  have retire : ∀ current, Tx.Within (Frame (· != .suites)) (retireSuiteSnapshotsTx key current now) := by
    intro current
    cases current with
    | none => exact retired
    | some id => exact .bind (.modify fun _ => .blobs rfl) fun _ => retired
  have marked : Tx.Within (Frame (· != .suites)) (markSnapshotHistoryTx key now) :=
    .marks (markSnapshotHistoryTx_within _ _) rfl
  have stamped : Tx.Within (Frame (· != .suites)) (stampBaseMarkersTx key now) :=
    .marks (stampBaseMarkersTx_within _ _) rfl
  refine Tx.post_bind.mpr (Tx.post_get.mpr ?_)
  cases hfind : db.suites.find key with
  | none => exact Tx.post_pure.mpr (.inl ⟨DeleteOutcome.noConfusion, rfl⟩)
  | some r =>
    obtain ⟨hr, hkey⟩ := find_eq_some.mp hfind
    refine Tx.post_ite.mpr ⟨fun _ => Tx.post_pure.mpr (.inl ⟨DeleteOutcome.noConfusion, rfl⟩),
      fun hidle => ?_⟩
    refine Tx.post_ite.mpr ⟨fun _ => Tx.post_pure.mpr (.inl ⟨DeleteOutcome.noConfusion, rfl⟩),
      fun hcur => ?_⟩
    refine Tx.post_bind.mpr ((marked db).mono fun _ db₁ h₁ => ?_)
    refine Tx.post_bind.mpr ((retire _ db₁).mono fun _ db₂ h₂ => ?_)
    refine Tx.post_bind.mpr (Tx.post_modify.mpr (Tx.post_bind.mpr ?_))
    refine (stamped _).mono fun _ db₃ h₃ => Tx.post_pure.mpr ?_
    refine .inr ⟨rfl, ?_, r, hr, hkey, not_not.mp hcur, fun c hc => ?_⟩
    · rw [h₃.suites_eq rfl, h₂.suites_eq rfl, h₁.suites_eq rfl]
    · subst hc
      cases ht : r.lastRequestedAt with
      | none => simp [ht] at hidle
      | some t => exact ⟨t, rfl, by simpa [ht] using hidle⟩

/-- The row may be evicted at `now`: no current snapshot, and no request for `suiteEvictIdle`. -/
def Suite.Evictable (now : Int) (r : Suite) : Prop :=
  r.current = none ∧ ∃ t, r.lastRequestedAt = some t ∧ t ≤ now - suiteEvictIdle

/-- The rows of `suite_freshness`. -/
abbrev SuiteTable := Table Suite SuiteKey Suite.key

namespace SuiteCaps

variable (caps : SuiteCaps) (t : SuiteTable)

/-- The host is below its cap. -/
def HostRoom (host : Str) : Prop :=
  caps.perHost ≤ 0 ∨ t.count (fun r => r.key.host == host) < caps.perHost

/-- The table is below the global cap. -/
def Room : Prop := caps.global ≤ 0 ∨ t.count (fun _ => true) < caps.global

end SuiteCaps

/-- What a creation of `key` with the candidate `held` did to the suite rows. -/
inductive Creates (key : SuiteKey) (caps : SuiteCaps) (held : Option SuiteKey) (now : Int)
    (t t' : SuiteTable) (res : CreateResult) : Prop
  /-- Nothing: the row was there, or a cap refused it. -/
  | kept : t' = t → res.evicted = none → Creates key caps held now t t' res
  /-- There was room. -/
  | inserted (r : Suite) : t.insert? r = some t' → r.key = key → caps.HostRoom t key.host →
      caps.Room t → res.outcome = .created → res.evicted = none → Creates key caps held now t t' res
  /-- Above the cap the candidate goes, and the new suite is still refused. -/
  | evicted (r : Suite) : held = some r.key → r ∈ t → r.Evictable now →
      caps.global < t.count (fun _ => true) → t' = t.deleteAt r.key →
      res.outcome = .rejectedGlobal → res.evicted = some r.key → Creates key caps held now t t' res
  /-- At the cap the new suite takes the candidate's place. -/
  | replaced (r r' : Suite) : held = some r.key → r ∈ t → r.Evictable now →
      t.count (fun _ => true) ≤ caps.global → caps.HostRoom t key.host →
      (t.deleteAt r.key).insert? r' = some t' → r'.key = key → t.find key = none →
      res.outcome = .created → res.evicted = some r.key → Creates key caps held now t t' res

theorem insertAndMark_suites (seed : SuiteSeed) (f : Bool → CreateResult) (db : Db) : Tx.Post (do
    insertSuiteRow seed.key seed.requestedAt
    let unproven ← markCreated seed
    pure (f unproven)) db fun res db' =>
      (∃ u, res = f u) ∧ ∃ r, r.key = seed.key ∧ db.suites.insert? r = some db'.suites := by
  refine Tx.post_bind.mpr (Tx.post_bind.mpr (Tx.post_get.mpr (Tx.post_bind.mpr
    (Tx.post_getOr.mpr fun suites hs => Tx.post_modify.mpr ?_))))
  have marked : Tx.Within (Frame (· != .suites)) (markCreated seed) := .marks (markCreated_within _) rfl
  refine Tx.post_bind.mpr ((marked _).mono fun u db' h => Tx.post_pure.mpr ⟨⟨u, rfl⟩, ?_⟩)
  rw [h.suites_eq rfl]
  exact ⟨_, rfl, hs⟩

theorem createSuiteTx_creates (seed : SuiteSeed) (caps : SuiteCaps) (held : Option SuiteKey)
    (now : Int) (db : Db) : Tx.Post (createSuiteTx seed caps held now) db fun res db' =>
      Creates seed.key caps held now db.suites db'.suites res := by
  refine Tx.post_bind.mpr (Tx.post_get.mpr (Tx.post_ite.mpr ⟨fun _ => ?_, fun hnew => ?_⟩))
  · exact Tx.post_pure.mpr (.kept rfl rfl)
  refine Tx.post_ite.mpr ⟨fun _ => Tx.post_pure.mpr (.kept rfl rfl), fun hhost => ?_⟩
  have room : caps.HostRoom db.suites seed.key.host := by
    unfold SuiteCaps.HostRoom
    omega
  refine Tx.post_ite.mpr ⟨fun hfull => ?_, fun hglobal => ?_⟩
  · cases held with
    | none => exact Tx.post_pure.mpr (.kept rfl rfl)
    | some k =>
      refine Tx.post_bind.mpr ((deleteSuiteTx_suites _ _ _ _ db).mono fun out mid hmid => ?_)
      refine Tx.post_ite.mpr ⟨fun hout => Tx.post_pure.mpr ?_, fun hout => ?_⟩
      · obtain ⟨-, hsuites⟩ | ⟨hdel, -⟩ := hmid
        · exact .kept hsuites rfl
        · exact absurd hdel hout
      obtain ⟨hkept, -⟩ | ⟨-, hsuites, r, hr, rfl, hcur, hidle⟩ := hmid
      · exact absurd hkept hout
      have idle : r.Evictable now := ⟨hcur, hidle _ rfl⟩
      refine Tx.post_ite.mpr ⟨fun habove => Tx.post_pure.mpr ?_, fun hat => ?_⟩
      · have above : caps.global < db.suites.count fun _ => true := by omega
        exact .evicted r rfl hr idle above hsuites rfl rfl
      · have full : db.suites.count (fun _ => true) ≤ caps.global := by omega
        refine (insertAndMark_suites seed (fun u => ⟨.created, some r.key, u, false, false⟩) mid).mono ?_
        rintro _ db' ⟨⟨u, rfl⟩, r', hkey', hins⟩
        have absent : db.suites.find seed.key = none := Option.not_isSome_iff_eq_none.mp hnew
        exact .replaced r r' rfl hr idle full room (hsuites ▸ hins) hkey' absent rfl rfl
  · have below : caps.Room db.suites := by
      unfold SuiteCaps.Room
      omega
    refine (insertAndMark_suites seed (fun u => ⟨.created, none, u, false, false⟩) db).mono ?_
    rintro _ db' ⟨⟨u, rfl⟩, r', hkey', hins⟩
    exact .inserted r' hins hkey' room below rfl rfl

/-- A creation: `CreateSuite` on a hit, `StoreFetched` on a miss. -/
inductive Creation
  | createSuite (seed : SuiteSeed)
  | storeFetched (m : FetchedRow)
  deriving DecidableEq

namespace Creation

/-- The suite to create, if there is one. -/
def seed : Creation → Option SuiteSeed
  | .createSuite seed => some seed
  | .storeFetched m => m.create

/-- The body of its transaction. -/
def tx (caps : SuiteCaps) (held : Option SuiteKey) (now : Int) : Creation → Tx (Option CreateResult)
  | .createSuite seed => some <$> createSuiteTx seed caps held now
  | .storeFetched m => storeFetchedTx m caps held now

theorem tx_creates (c : Creation) (caps : SuiteCaps) (held : Option SuiteKey) (now : Int) (db : Db) :
    Tx.Post (c.tx caps held now) db fun res db' =>
      ∀ r, res = some r → ∃ key, Creates key caps held now db.suites db'.suites r := by
  have created : ∀ seed db, Tx.Post (some <$> createSuiteTx seed caps held now) db fun res db' =>
      ∀ r, res = some r → Creates seed.key caps held now db.suites db'.suites r := by
    intro seed db
    rw [map_eq_pure_bind]
    refine Tx.post_bind.mpr ((createSuiteTx_creates seed caps held now db).mono fun res db' h => ?_)
    exact Tx.post_pure.mpr fun r hr => Option.some.inj hr ▸ h
  cases c with
  | createSuite seed => exact (created seed db).mono fun _ _ h r hr => ⟨_, h r hr⟩
  | storeFetched m =>
    refine Tx.post_bind.mpr (Tx.post_ensure.mpr fun _ => Tx.post_bind.mpr (Tx.post_get.mpr ?_))
    refine Tx.post_bind.mpr (Tx.post_ensure.mpr fun _ => Tx.post_bind.mpr ?_)
    have put : Tx.Within (Frame (· != .suites)) (putURLPathStmt m.row) :=
      .of_stmts (putURLPathStmt_stmts rfl fun _ _ => trivial)
    refine (put db).mono fun _ db₁ h₁ => Tx.post_bind.mpr ?_
    have asked : Tx.Post (m.createTx caps held now) db₁ fun res db' =>
        ∀ r, res = some r → ∃ key, Creates key caps held now db.suites db'.suites r := by
      rw [← h₁.suites_eq rfl]
      unfold FetchedRow.createTx
      split
      · exact Tx.post_pure.mpr fun r hr => (Option.some_ne_none r hr.symm).elim
      · exact (created _ db₁).mono fun _ _ h r hr => ⟨_, h r hr⟩
    refine asked.mono fun res db₂ h₂ => ?_
    split
    · exact Tx.post_pure.mpr h₂
    · rename_i k _
      have marked : Tx.Within (Frame (· != .suites)) (markSignedSeen k.mark m.markSeenAt) :=
        .marks (markSignedSeen_within _ _) rfl
      refine Tx.post_bind.mpr (Tx.post_get.mpr (Tx.post_ite.mpr ⟨fun _ => ?_, fun _ => Tx.post_pure.mpr h₂⟩))
      refine Tx.post_bind.mpr ((marked db₂).mono fun _ db₃ h₃ => Tx.post_pure.mpr ?_)
      rw [h₃.suites_eq rfl]
      exact h₂

end Creation

/-! ## The caps -/

/-- The number of suite rows. -/
def Db.suiteRows (db : Db) : Nat := db.suites.count fun _ => true

/-- The number of suite rows of a host. -/
def Db.hostRows (db : Db) (host : Str) : Nat := db.suites.count fun r => r.key.host == host

/-- The caps over one committed creation. -/
structure Capped (caps : SuiteCaps) (now : Int) (db db' : Db) (res : CreateResult) : Prop where
  /-- The table does not grow above the cap. -/
  total : (db'.suiteRows : Int) ≤ max (db.suiteRows : Int) caps.global
  /-- A row is inserted only when its host was below the cap. -/
  host : ∀ r ∈ db'.suites, db.tracks r.key = false → db.hostRows r.key.host < caps.perHost
  /-- Above the cap an eviction leaves one row fewer, and none is inserted. -/
  above : caps.global < db.suiteRows → res.evicted ≠ none →
    db'.suiteRows + 1 = db.suiteRows ∧ ∀ k, db'.tracks k = true → db.tracks k = true
  /-- A refusal for the host cap evicts nothing. -/
  refused : res.outcome = .rejectedHost → res.evicted = none
  /-- Only the evicted suite's row goes. -/
  gone : ∀ k, db.tracks k = true → (db'.tracks k = false ↔ res.evicted = some k)
  /-- An evicted suite had no current snapshot and was idle. -/
  idle : ∀ k, res.evicted = some k → ∃ r ∈ db.suites, r.key = k ∧ r.Evictable now

theorem tracks_eq_false {key : SuiteKey} :
    db.tracks key = false ↔ ∀ r ∈ db.suites, r.key ≠ key := by
  rw [← Bool.not_eq_true, tracks_iff]
  simp

namespace Creates

variable {key : SuiteKey} {caps : SuiteCaps} {held : Option SuiteKey} {now : Int} {t t' : SuiteTable}
  {res : CreateResult}

/-- A row that was not there before is the one inserted. -/
theorem new_row (h : Creates key caps held now t t' res) {r : Suite} (hr : r ∈ t') (hnew : r ∉ t) :
    r.key = key ∧ caps.HostRoom t key.host ∧ res.outcome = .created := by
  cases h with
  | kept ht => exact absurd (ht ▸ hr) hnew
  | inserted r' hins hkey hroom _ hout =>
    rcases (mem_insert hins).mp hr with rfl | hold
    · exact ⟨hkey, hroom, hout⟩
    · exact absurd hold hnew
  | evicted r' _ _ _ _ ht => exact absurd (mem_deleteAt.mp (ht ▸ hr)).1 hnew
  | replaced r₀ r' _ _ _ _ hroom hins hkey _ hout =>
    rcases (mem_insert hins).mp hr with rfl | hold
    · exact ⟨hkey, hroom, hout⟩
    · exact absurd (mem_deleteAt.mp hold).1 hnew

/-- A suite that had a row has one now, unless it was evicted. -/
theorem old_row (h : Creates key caps held now t t' res) {r : Suite} (hr : r ∈ t) :
    (∃ r' ∈ t', r'.key = r.key) ↔ res.evicted ≠ some r.key := by
  have none_evicted : res.evicted = none → res.evicted ≠ some r.key := fun h => h ▸ (Option.some_ne_none _).symm
  have stays : ∀ {k}, some k ≠ some r.key → r ∈ t.deleteAt k := fun hne =>
    mem_deleteAt.mpr ⟨hr, fun h => hne (congrArg some h.symm)⟩
  have gone : ∀ {k r'}, r' ∈ t.deleteAt k → r'.key = r.key → some k ≠ some r.key := fun hr' hk heq =>
    (mem_deleteAt.mp hr').2 (hk.trans (Option.some.inj heq).symm)
  cases h with
  | kept ht hev => exact iff_of_true ⟨r, ht ▸ hr, rfl⟩ (none_evicted hev)
  | inserted r' hins _ _ _ _ hev =>
    exact iff_of_true ⟨r, (mem_insert hins).mpr (.inr hr), rfl⟩ (none_evicted hev)
  | evicted r₀ _ _ _ _ ht _ hev =>
    rw [hev, ht]
    exact ⟨fun ⟨r', hr', hk⟩ => gone hr' hk, fun hne => ⟨r, stays hne, rfl⟩⟩
  | replaced r₀ r₁ _ _ _ _ _ hins hkey habs _ hev =>
    rw [hev]
    refine ⟨fun ⟨r', hr', hk⟩ => ?_, fun hne => ⟨r, (mem_insert hins).mpr (.inr (stays hne)), rfl⟩⟩
    rcases (mem_insert hins).mp hr' with rfl | hold
    · exact absurd (hk.symm.trans hkey) (find_eq_none.mp habs r hr)
    · exact gone hold hk

/-- The number of rows stays, or grows by one below the cap, or falls by one above it. -/
theorem rows (h : Creates key caps held now t t' res) (hcap : 0 < caps.global) :
    t'.count (fun _ => true) = t.count (fun _ => true) ∧
      (res.evicted ≠ none → t.count (fun _ => true) ≤ caps.global) ∨
    t'.count (fun _ => true) = t.count (fun _ => true) + 1 ∧ t.count (fun _ => true) < caps.global ∨
    t'.count (fun _ => true) + 1 = t.count (fun _ => true) ∧ caps.global < t.count (fun _ => true) ∧
      res.outcome ≠ .created := by
  cases h with
  | kept ht hev => exact .inl ⟨by rw [ht], fun h => absurd hev h⟩
  | inserted r' hins _ _ hroom =>
    have hrows := count_insert (p := fun _ => true) hins
    simp only [if_true] at hrows
    exact .inr (.inl ⟨hrows, hroom.resolve_left hcap.not_ge⟩)
  | evicted r₀ _ hr₀ _ habove ht hout =>
    have hrows := count_deleteAt (p := fun _ => true) hr₀ rfl
    simp only [if_true] at hrows
    exact .inr (.inr ⟨ht ▸ hrows, habove, hout ▸ CreateOutcome.noConfusion⟩)
  | replaced r₀ r₁ _ hr₀ _ hfull _ hins =>
    have hrows := count_insert (p := fun _ => true) hins
    have hrows₀ := count_deleteAt (p := fun _ => true) hr₀ rfl
    simp only [if_true] at hrows hrows₀
    exact .inl ⟨hrows.trans hrows₀, fun _ => hfull⟩

end Creates

/-- A committed creation keeps the caps. -/
theorem Creates.capped {key : SuiteKey} {caps : SuiteCaps} {held : Option SuiteKey} {now : Int}
    {db' : Db} {res : CreateResult} (h : Creates key caps held now db.suites db'.suites res)
    (hglobal : 0 < caps.global) (hhost : 0 < caps.perHost) : Capped caps now db db' res where
  total := by
    have := h.rows hglobal
    unfold Db.suiteRows
    omega
  host r hr hnew := by
    have hnot : r ∉ db.suites := fun hold => tracks_eq_false.mp hnew r hold rfl
    obtain ⟨hkey, hroom, -⟩ := h.new_row hr hnot
    rw [hkey]
    exact hroom.resolve_left hhost.not_ge
  above habove hev := by
    unfold Db.suiteRows at *
    rcases h.rows hglobal with ⟨-, hle⟩ | ⟨-, hlt⟩ | ⟨hone, -, hout⟩
    · exact absurd (hle hev) habove.not_ge
    · exact absurd hlt habove.not_gt
    · refine ⟨hone, fun k hk => ?_⟩
      obtain ⟨r, hr, rfl⟩ := tracks_iff.mp hk
      by_cases hold : r ∈ db.suites
      · exact tracks_iff.mpr ⟨r, hold, rfl⟩
      · exact absurd (h.new_row hr hold).2.2 hout
  refused hout := by
    cases h with
    | kept _ hev => exact hev
    | inserted _ _ _ _ _ hout' => cases hout.symm.trans hout'
    | evicted _ _ _ _ _ _ hout' => cases hout.symm.trans hout'
    | replaced _ _ _ _ _ _ _ _ _ _ hout' => cases hout.symm.trans hout'
  gone k hk := by
    obtain ⟨r, hr, rfl⟩ := tracks_iff.mp hk
    rw [← Bool.not_eq_true, tracks_iff, h.old_row hr, not_not]
  idle k hk := by
    cases h with
    | kept _ hev => cases hk.symm.trans hev
    | inserted _ _ _ _ _ _ hev => cases hk.symm.trans hev
    | evicted r _ hr hidle _ _ _ hev => exact ⟨r, hr, Option.some.inj (hev.symm.trans hk), hidle⟩
    | replaced r _ _ hr hidle _ _ _ _ _ _ hev => exact ⟨r, hr, Option.some.inj (hev.symm.trans hk), hidle⟩

/-! ## The hold -/

deriving instance Ord for Scheme

def suiteEvictCandidates : Nat := 8

/-- `ORDER BY last_requested_at, canonical_scheme, canonical_host, suite_path`. -/
def Suite.order (r r' : Suite) : Ordering :=
  (compare (r.lastRequestedAt.getD 0) (r'.lastRequestedAt.getD 0)).then <|
    (compare r.key.scheme r'.key.scheme).then <|
    (compare r.key.host r'.key.host).then <| compare r.key.suitePath r'.key.suitePath

/-- The idle suites without a snapshot, the least recently requested first. -/
def Db.evictionCandidates (db : Db) (now : Int) : List SuiteKey :=
  let idle := db.suites.select fun r =>
    r.current.isNone && r.lastRequestedAt.any (· ≤ now - suiteEvictIdle)
  ((idle.insertionSort fun r r' => r.order r' ≠ .gt).take suiteEvictCandidates).map Suite.key

/-- `holdEvictionCandidate`, where `n` rows were counted: near the cap, the first candidate that
the guard takes at once. A nil guard takes every one. -/
def holdEvictionCandidate (db : Db) (n : Nat) (caps : SuiteCaps) (guard : SuiteKey → Bool) (now : Int) :
    Option SuiteKey :=
  if caps.global ≤ 0 then none
  else if n < caps.global - suiteEvictCandidates then none
  else (db.evictionCandidates now).find? guard

/-- What the writer did with the operation of an attempt. -/
inductive Ran
  | no
  | rolledBack
  | committed (res : Option CreateResult)
  deriving DecidableEq

/-- What `afterCreate` went by: the result of the submit, or nothing after a failed one, and whether
it read the candidate's row as absent. -/
inductive Look
  | result (res : CreateResult) (absent : Bool)
  | failed (absent : Bool)
  deriving DecidableEq

/-- `gone` of `afterCreate`. -/
def Look.gone : Look → Bool
  | .result res absent => res.evicted.isSome || res.heldGone || (!res.heldKept && absent)
  | .failed absent => absent

/-- Where the creating goroutine is; `ended none` after a panic. -/
inductive Phase
  | submitted
  | looked (l : Look)
  | ended (l : Option Look)
  deriving DecidableEq

/-- `creationAttempt` from its hold on. The writer may run its operation after it gave up. -/
structure Attempt where
  creation : Creation
  caps : SuiteCaps
  held : Option SuiteKey
  ran : Ran
  phase : Phase
  settled : Bool
  /-- The arguments of the calls of the guard's release. -/
  releases : List Bool
  deriving DecidableEq

namespace Attempt

/-- `settle`: release the hold, once. -/
def settle (deleted : Bool) (a : Attempt) : Attempt :=
  if a.held.isNone || a.settled then a
  else { a with settled := true, releases := a.releases ++ [deleted] }

/-- `suiteRowGone` of the candidate; a failed read answers no. -/
def suiteRowGone (db : Db) (read : Bool) (a : Attempt) : Bool :=
  a.held.any fun k => read && !db.tracks k

/-- What happens in an attempt. -/
inductive Move
  /-- The writer runs the operation; it is rolled back if its context ended or a statement fails. -/
  | run (now : Int) (live : Bool)
  /-- The submit returns the result; `read` is whether the row can be read. -/
  | answer (read : Bool)
  /-- The submit returns an error. -/
  | giveUp (read : Bool)
  /-- The release, and the deferred one. -/
  | finish
  /-- A panic before the release, which runs the deferred one. -/
  | panic
  deriving DecidableEq

/-- One move of an attempt. -/
def step (db : Db) (a : Attempt) : Move → Option (Db × Attempt)
  | .run now live =>
    if a.ran = .no then
      match live, a.creation.tx a.caps a.held now db with
      | true, .ok (res, db') => some (db', { a with ran := .committed res })
      | _, _ => some (db, { a with ran := .rolledBack })
    else none
  | .answer read =>
    match a.phase, a.ran with
    | .submitted, .committed (some res) =>
      some (db, { a with phase := .looked (.result res (a.suiteRowGone db read)) })
    | _, _ => none
  | .giveUp read =>
    if a.phase = .submitted then
      some (db, { a with phase := .looked (.failed (a.suiteRowGone db read)) })
    else none
  | .finish =>
    match a.phase with
    | .looked l => some (db, { (a.settle l.gone).settle false with phase := .ended (some l) })
    | _ => none
  | .panic =>
    match a.phase with
    | .ended _ => none
    | _ => some (db, { a.settle false with phase := .ended none })

end Attempt

/-- The database and the creation attempts. -/
structure Creating where
  db : Db
  attempts : List Attempt

/-- A new attempt, a move of one, or another operation of the writer. -/
inductive Creating.Act
  | start (c : Creation) (caps : SuiteCaps) (n : Nat) (guard : SuiteKey → Bool) (now : Int)
  | move (i : Nat) (m : Attempt.Move)
  | write (op : Op)

/-- Any interleaving, from any database. -/
def creating : Sys Creating Creating.Act where
  init s := s.attempts = []
  step s
    | .start c caps n guard now =>
      if c.seed.isSome then
        let held := holdEvictionCandidate s.db n caps guard now
        some { s with attempts := s.attempts ++ [⟨c, caps, held, .no, .submitted, false, []⟩] }
      else none
    | .move i m => do
      let a ← s.attempts[i]?
      let p ← a.step s.db m
      some ⟨p.1, s.attempts.set i p.2⟩
    | .write op => some { s with db := op.tx.commit s.db }

/-! ## The release -/

namespace Attempt

/-- Nothing is released before the end, and at the end what the attempt went by is. -/
structure Inv (a : Attempt) : Prop where
  before : (∀ l, a.phase ≠ .ended l) → a.settled = false ∧ a.releases = []
  after : ∀ l, a.phase = .ended l → a.held.isSome → a.releases = [l.elim false Look.gone]
  told : ∀ res absent, a.phase = .looked (.result res absent) ∨
    a.phase = .ended (some (.result res absent)) → a.ran = .committed (some res)

variable {a : Attempt} {d : Bool}

theorem settle_releases {k : SuiteKey} (hk : a.held = some k) (hs : a.settled = false) :
    (a.settle d).releases = a.releases ++ [d] := by
  simp [settle, hk, hs]

theorem settle_settle {d' : Bool} : (a.settle d).settle d' = a.settle d := by
  unfold settle
  split <;> simp

@[simp] theorem settle_ran : (a.settle d).ran = a.ran := by
  unfold settle
  split <;> rfl

@[simp] theorem settle_held : (a.settle d).held = a.held := by
  unfold settle
  split <;> rfl

/-- The end of an attempt that has not released its hold. -/
theorem Inv.ended (h : a.Inv) (hopen : ∀ l, a.phase ≠ .ended l) (l : Option Look)
    (hl : ∀ res absent, l = some (.result res absent) → a.ran = .committed (some res)) :
    Inv { a.settle (l.elim false Look.gone) with phase := .ended l } where
  before hne := absurd rfl (hne l)
  after l' hl' hheld := by
    obtain rfl : l = l' := Phase.ended.inj hl'
    obtain ⟨hs, hr⟩ := h.before hopen
    obtain ⟨k, hk⟩ := Option.isSome_iff_exists.mp (settle_held ▸ hheld)
    show (a.settle _).releases = _
    rw [settle_releases hk hs, hr]
    rfl
  told res absent hph := by
    rcases hph with hph | hph
    · cases hph
    · exact settle_ran.trans (hl res absent (Phase.ended.inj hph))

theorem Inv.step {a' : Attempt} {db db' : Db} {m : Move} (h : a.Inv)
    (hst : a.step db m = some (db', a')) : a'.Inv := by
  cases m with
  | run now live =>
    simp only [Attempt.step] at hst
    split at hst
    · rename_i hran
      -- the writer only sets `ran`, and it was not set before
      have told : ∀ ran, Inv { a with ran := ran } := fun ran =>
        ⟨h.before, h.after, fun res absent hph => absurd (h.told res absent hph) (hran ▸ Ran.noConfusion)⟩
      split at hst <;> (cases hst; exact told _)
    · cases hst
  | answer read =>
    simp only [Attempt.step] at hst
    split at hst
    · rename_i res hph hran
      cases hst
      refine ⟨fun _ => h.before (hph ▸ fun l => Phase.noConfusion), fun l hl => Phase.noConfusion hl, ?_⟩
      rintro res' absent (hl | hl)
      · cases hl
        exact hran
      · cases hl
    · cases hst
  | giveUp read =>
    simp only [Attempt.step] at hst
    split at hst
    · rename_i hph
      cases hst
      refine ⟨fun _ => h.before (hph ▸ fun l => Phase.noConfusion), fun l hl => Phase.noConfusion hl, ?_⟩
      rintro res' absent (hl | hl) <;> cases hl
    · cases hst
  | finish =>
    simp only [Attempt.step] at hst
    split at hst
    · rename_i l hph
      cases hst
      rw [settle_settle]
      refine h.ended (hph ▸ fun l => Phase.noConfusion) (some l) fun res absent hl => ?_
      obtain rfl := Option.some.inj hl
      exact h.told res absent (.inl hph)
    · cases hst
  | panic =>
    simp only [Attempt.step] at hst
    split at hst
    · cases hst
    · rename_i hopen
      cases hst
      exact h.ended hopen none fun res absent hl => (Option.some_ne_none _ hl.symm).elim

end Attempt

theorem creating_inductive : creating.Inductive fun s => ∀ a ∈ s.attempts, a.Inv where
  init s hs a ha := by
    rw [show s.attempts = [] from hs] at ha
    exact (List.not_mem_nil ha).elim
  step s act s' h hst := by
    cases act with
    | start c caps n guard now =>
      simp only [creating] at hst
      split at hst
      · cases hst
        intro a ha
        rcases List.mem_append.mp ha with ha | ha
        · exact h a ha
        · rw [List.mem_singleton.mp ha]
          refine ⟨fun _ => ⟨rfl, rfl⟩, fun l hl => Phase.noConfusion hl, ?_⟩
          rintro res absent (hl | hl) <;> cases hl
      · cases hst
    | move i m =>
      obtain ⟨a, ha, hst⟩ := Option.bind_eq_some_iff.mp hst
      obtain ⟨⟨db', a'⟩, hstep, hst⟩ := Option.bind_eq_some_iff.mp hst
      cases hst
      intro b hb
      rcases List.mem_or_eq_of_mem_set hb with hb | rfl
      · exact h b hb
      · exact (h a (List.mem_of_getElem? ha)).step hstep
    | write op =>
      cases hst
      exact h

/-- The hold of `k` is released once, and as deleted if the submit returned a result that says so or
the row was read as absent after a failed one. -/
structure Attempt.Released (a : Attempt) (k : SuiteKey) : Prop where
  atMostOnce : a.releases.length ≤ 1
  once : ∀ l, a.phase = .ended l → a.releases.length = 1
  told : ∀ res absent, a.phase = .ended (some (.result res absent)) →
    a.ran = .committed (some res) ∧ (res.evicted = some k → a.releases = [true])
  read : ∀ absent, a.phase = .ended (some (.failed absent)) → a.releases = [absent]
  /-- After a panic the guard is told that the row stays. -/
  panicked : a.phase = .ended none → a.releases = [false]

theorem Attempt.Inv.released {a : Attempt} {k : SuiteKey} (h : a.Inv) (hk : a.held = some k) :
    a.Released k := by
  have hheld : a.held.isSome := Option.isSome_iff_exists.mpr ⟨k, hk⟩
  refine ⟨?_, fun l hl => ?_, fun res absent hph => ⟨h.told res absent (.inr hph), fun hev => ?_⟩,
    (fun absent hph => h.after _ hph hheld), fun hph => h.after none hph hheld⟩
  · by_cases hopen : ∀ l, a.phase ≠ .ended l
    · rw [(h.before hopen).2]
      exact Nat.zero_le 1
    · obtain ⟨l, hl⟩ := not_forall_not.mp hopen
      rw [h.after l hl hheld]
      exact le_rfl
  · rw [h.after l hl hheld]
    rfl
  · rw [h.after _ hph hheld]
    simp [Look.gone, hev]

/-- In every interleaving, a creation that commits keeps the caps, and the hold of its candidate is
released once. -/
theorem suite_caps {s : Creating} (h : creating.Reach s) {a : Attempt} (ha : a ∈ s.attempts) :
    (∀ now live db' a' res, a.step s.db (.run now live) = some (db', a') →
      a'.ran = .committed (some res) → 0 < a.caps.global → 0 < a.caps.perHost →
      Capped a.caps now s.db db' res) ∧
    ∀ k, a.held = some k → a.Released k := by
  refine ⟨fun now live db' a' res hst hran hglobal hhost => ?_, fun k hk =>
    (creating_inductive.reach h a ha).released hk⟩
  simp only [Attempt.step] at hst
  split at hst
  · split at hst
    · rename_i hrun
      cases hst
      obtain rfl := Ran.committed.inj hran
      obtain ⟨key, hcreates⟩ := a.creation.tx_creates a.caps a.held now s.db _ _ hrun res rfl
      exact hcreates.capped hglobal hhost
    · cases hst
      cases hran
  · cases hst

/-- A suite that is not asked for again. -/
def bullseye : SuiteKey := ⟨.http, "deb".toList, "/debian/dists/bullseye".toList⟩

/-- A creation of a suite. -/
def asked (path : String) (now : Int) : Creation := .createSuite ⟨⟨.http, "deb".toList, path.toList⟩, now, 0, []⟩

/-- One suite fills the cache; a day later another creation holds it. -/
def fullRun : List Creating.Act :=
  [.start (asked "/debian/dists/bullseye" 0) ⟨1, 1000⟩ 0 (fun _ => true) 0, .move 0 (.run 0 true),
    .move 0 (.answer true), .move 0 .finish,
    .start (asked "/debian/dists/trixie" 90000) ⟨1, 1000⟩ 1 (fun _ => true) 90000]

/-- The cache after `fullRun` and the moves of the second creation. -/
def fullCache (moves : List Attempt.Move) : Creating :=
  (creating.exec ⟨Db.empty, []⟩ (fullRun ++ moves.map (.move 1))).getD ⟨Db.empty, []⟩

/-- The second creation after the moves. -/
def second (moves : List Attempt.Move) : Attempt :=
  ((fullCache moves).attempts[1]?).getD ⟨asked "" 0, ⟨0, 0⟩, none, .no, .submitted, false, []⟩

theorem fullCache_reach {moves : List Attempt.Move}
    (h : (creating.exec ⟨Db.empty, []⟩ (fullRun ++ moves.map (.move 1))).isSome = true) :
    creating.Reach (fullCache moves) := by
  have hinit : creating.init ⟨Db.empty, []⟩ := rfl
  exact .exec hinit (eq_some_getD _ h)

/-- It evicts the suite that it holds, and tells the guard so. -/
theorem suite_caps_full :
    let a := second [.run 90000 true, .answer true, .finish]
    a ∈ (fullCache [.run 90000 true, .answer true, .finish]).attempts ∧ a.held = some bullseye ∧
    a.releases = [true] := by
  have hmem : second [.run 90000 true, .answer true, .finish] ∈
      (fullCache [.run 90000 true, .answer true, .finish]).attempts :=
    List.mem_of_getElem? (i := 1) (eq_some_getD _ (by decide +kernel))
  have hheld : (second [.run 90000 true, .answer true, .finish]).held = some bullseye := by
    decide +kernel
  have hreach : creating.Reach (fullCache [.run 90000 true, .answer true, .finish]) :=
    fullCache_reach (by decide +kernel)
  have hend : (second [.run 90000 true, .answer true, .finish]).phase =
      .ended (some (.result ⟨.created, some bullseye, false, false, false⟩ true)) := by decide +kernel
  exact ⟨hmem, hheld, (((suite_caps hreach hmem).2 _ hheld).told _ _ hend).2 rfl⟩

/-- The submit fails while the commit is in flight: the row is read before it goes, and the guard is
told that it stays. -/
theorem released_too_early :
    creating.Reach (fullCache [.giveUp true, .run 90000 true, .finish]) ∧
    let a := second [.giveUp true, .run 90000 true, .finish]
    a ∈ (fullCache [.giveUp true, .run 90000 true, .finish]).attempts ∧ a.held = some bullseye ∧
    a.ran = .committed (some ⟨.created, some bullseye, false, false, false⟩) ∧
    (fullCache [.giveUp true, .run 90000 true, .finish]).db.tracks bullseye = false ∧
    a.releases = [false] := by
  refine ⟨fullCache_reach (by decide +kernel),
    List.mem_of_getElem? (i := 1) (eq_some_getD _ (by decide +kernel)), ?_, ?_, ?_, ?_⟩ <;>
    decide +kernel

end AptCacher.Cache
