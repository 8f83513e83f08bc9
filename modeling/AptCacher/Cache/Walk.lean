import Mathlib.Data.List.ReduceOption
import AptCacher.Cache.Stmt

/-!
# The statements of every operation

The one walk over the operations of the writer: each is a sequence of statements, with the rows, the
tables and the clock readings that it is given. What an invariant needs of an operation follows from
its statements.

* `Op.given`, `Op.commit_stmts`: what an operation is given, and its statements.
* `Op.tables`, `Op.commit_frame`: the tables that it leaves alone.
* `Op.commit_changes`, `Op.commit_forgets`: the changes that it makes.
* `Op.commit_added`: the only new member rows are those that an operation is given.
-/

namespace AptCacher.Cache

open Spec Table

variable {g : Given} {db : Db}

/-! ## Blobs and cached paths -/

section Walk

variable {now : Int}

theorem stmts_keep {α : Type} {m : Tx α} (h : Tx.Within Eq m) : Tx.Within (Stmts g) m :=
  h.mono fun _ _ h => h ▸ .refl

theorem stmts_marks {α : Type} {m : Tx α} (h : Tx.Within Marks m) (hk : g.tab .markers = true) :
    Tx.Within (Stmts g) m :=
  h.mono fun db db' h => by
    obtain ⟨markers, rfl, h⟩ := h
    exact .single (.mark hk h)

theorem requireBlob_keep (h : Str) : Tx.Within Eq (requireBlob h) :=
  .bind .get fun _ => .ensure _ _

theorem requireBlobs_keep (hs : List (Option Str)) : Tx.Within Eq (requireBlobs hs) :=
  .forM fun h _ => by
    cases h with
    | none => exact .pure ()
    | some h => exact requireBlob_keep h

theorem putBlob_stmts (hash : Str) (size : Int) (hb : g.tab .blobs = true) (hT : g.clock now) :
    Tx.Within (Stmts g) (putBlob hash size now) := by
  refine .bind (.ensure _ _) fun _ => .modify fun db => .single (.blobs hb ⟨fun b' hb' => ?_,
    fun _ b hb => ?_⟩)
  · rcases mem_upsert hb' with hb | ⟨rfl, -⟩ | ⟨b, hb, -, rfl⟩
    · exact .inr ⟨b', hb, rfl, Int.le_refl _, id⟩
    · exact .inl ⟨Int.le_refl _, rfl⟩
    · dsimp only
      split
      · exact .inl ⟨‹_›, rfl⟩
      · exact .inr ⟨b, hb, rfl, Int.le_refl _, id⟩
  · unfold Table.upsert
    cases hi : db.blobs.insert? ⟨hash, size, now, 0, some now⟩ with
    | some t => exact ⟨b, (mem_insert hi).mpr (.inr hb), rfl, id⟩
    | none =>
      refine kept_update (fun b hs => ?_) b hb
      dsimp only
      split
      · rintro z ⟨⟩
        exact hT
      · exact hs

theorem heartbeatBlobs_stmts (hashes : List Str) (hb : g.tab .blobs = true) (hT : g.clock now) :
    Tx.Within (Stmts g) (heartbeatBlobs hashes now) := by
  refine .modify fun _ => .single (.blobs hb ⟨.update_clock fun b hb => ?_, fun _ =>
    kept_update fun b hs => ?_⟩)
  · simp_all
  · rintro z ⟨⟩
    exact hT

theorem runBlobGCBatch_stmts (n grace now : Int) (hb : g.tab .blobs = true)
    (hc : g.collects = true) : Tx.Within (Stmts g) (runBlobGCBatch n grace now) :=
  .bind (.ensure _ _) fun _ => .bind .get fun _ => .bind (.modify fun _ =>
    .single (.blobs hb ⟨.delete, fun h => by cases hc.symm.trans h⟩)) fun _ => .pure _

theorem putURLPathStmt_stmts {u : UrlPath} (hu : g.tab .urlPaths = true)
    (h : ∀ h, u.blobHash = some h → g.path u.key h) : Tx.Within (Stmts g) (putURLPathStmt u) :=
  .bind (stmts_keep (requireBlobs_keep _)) fun _ => .modify fun _ =>
    .single (.paths hu (.upsert h (fun _ _ => rfl) rfl fun _ => rfl))

theorem refreshURLPathBlob_stmts {k : UrlKey} (old : Str) {new : Str} (now : Int)
    (hu : g.tab .urlPaths = true) (h : g.path k new) :
    Tx.Within (Stmts g) (refreshURLPathBlob k old new now) := by
  refine .bind (.ensure _ _) fun _ => .bind .get fun _ => ?_
  split
  · exact .pure _
  · refine .ite (fun _ => .bind (stmts_keep (requireBlob_keep _)) fun _ => .bind (.modify fun db =>
      .single (.paths hu (.updateAt (fun u hash hh => ?_) fun _ _ _ hd => hd))) fun _ => .pure _)
      fun _ => .pure _
    cases hh
    exact .inr h

/-- Cached paths may go, and take one off their blobs at the time `now`. -/
structure Given.Drops (g : Given) (now : Int) : Prop where
  paths : g.tab .urlPaths = true
  blobs : g.tab .blobs = true
  clock : g.clock now

theorem deleteURLPathRowTx_stmts (k : UrlKey) (blobHash : Option Str) (hg : g.Drops now) :
    Tx.Within (Stmts g) (deleteURLPathRowTx k blobHash now) := by
  refine .bind .get fun _ => ?_
  split
  · exact .pure _
  · refine .bind (.modify fun _ => .single (.paths hg.paths .deleteAt)) fun _ => ?_
    split
    · exact .ite (fun _ => .pure _) fun _ => .modify fun _ =>
        .single (.blobs hg.blobs (.release hg.clock))
    · exact .pure _

theorem deleteCachedRowTx_stmts (k : UrlKey) (hg : g.Drops now) :
    Tx.Within (Stmts g) (deleteCachedRowTx k now) := by
  refine .bind .get fun _ => ?_
  split
  · exact .pure _
  · exact .bind (deleteURLPathRowTx_stmts _ _ hg) fun _ => .pure _

theorem deleteBaseAnchorsTx_stmts (host base : Str) (hg : g.Drops now) :
    Tx.Within (Stmts g) (deleteBaseAnchorsTx host base now) :=
  .forM fun _ _ => .forM fun _ _ => .forM fun _ _ =>
    .bind (deleteCachedRowTx_stmts _ hg) fun _ => .pure _

theorem deleteSuiteMetadataRows_stmts (ks : List UrlKey) (hg : g.Drops now) :
    Tx.Within (Stmts g) (deleteSuiteMetadataRows ks now) :=
  .foldlM fun _ _ _ => .bind (deleteCachedRowTx_stmts _ hg) fun _ => .pure _

theorem deleteURLPathRows_stmts (rows : List (UrlKey × Option Str)) (hg : g.Drops now) :
    Tx.Within (Stmts g) (deleteURLPathRows rows now) := by
  refine .foldlM fun _ _ _ => .bind .get fun _ => ?_
  split
  · exact .pure _
  · exact .ite (fun _ => .bind (deleteURLPathRowTx_stmts _ _ hg) fun _ => .pure _) fun _ => .pure _

theorem runURLPathGCBatch_stmts (retained : Db → UrlPath → Bool) (n ttl hold : Int)
    (after : Option UrlKey) (hg : g.Drops now) (hs : g.stamps = true) :
    Tx.Within (Stmts g) (runURLPathGCBatch retained n ttl hold after now) := by
  refine .bind (.ensure _ _) fun _ => .bind (.ensure _ _) fun _ => .bind .get fun _ =>
    .foldlM fun _ _ _ => .bind .get fun _ => ?_
  have stamp : ∀ k stamp, Tx.Within (Stmts g) (modify fun db => { db with
      urlPaths := db.urlPaths.updateAt k ⟨fun r => { r with droppedAt := stamp }, fun _ => rfl⟩ } :
      Tx Unit) := fun _ _ => .modify fun _ => .single (.paths hg.paths
    (.updateAt (fun _ _ => .inl) fun h => by cases hs.symm.trans h))
  refine .ite (fun _ => .ite (fun _ => .bind (stamp _ _) fun _ => .pure _) fun _ => .pure _)
    fun _ => .ite (fun _ => .bind (deleteURLPathRowTx_stmts _ _ hg) fun _ => .pure _)
    fun _ => .ite (fun _ => .bind (stamp _ _) fun _ => .pure _) fun _ => .pure _

/-! ## Suite rows -/

/-- A suite row may go, with its pins, and markers are written. -/
structure Given.Reaps (g : Given) (now : Int) : Prop extends g.Moves now where
  markers : g.tab .markers = true

theorem retireSuiteSnapshotsTx_post {key : SuiteKey} {current : Option Nat} :
    Tx.Post (retireSuiteSnapshotsTx key current now) db fun _ db' =>
      db' = { db with
        blobs := db.unpinned current now db.blobs
        snapshots := db.retire (fun s => s.key == key) now } := by
  cases current with
  | none => exact Tx.post_bind.mpr (Tx.post_pure.mpr (Tx.post_modify.mpr rfl))
  | some id => exact Tx.post_bind.mpr (Tx.post_modify.mpr (Tx.post_modify.mpr rfl))

theorem deleteSuiteTx_stmts (key : SuiteKey) (want : Option Nat) (cutoff : Option Int)
    (hg : g.Reaps now) : Tx.Within (Stmts g) (deleteSuiteTx key want cutoff now) := by
  intro db
  refine Tx.post_bind.mpr (Tx.post_get.mpr ?_)
  split
  · exact Tx.post_pure.mpr .refl
  · rename_i r hr
    obtain ⟨hmem, rfl⟩ := find_eq_some.mp hr
    refine Tx.post_ite.mpr ⟨fun _ => Tx.post_pure.mpr .refl, fun _ => ?_⟩
    refine Tx.post_ite.mpr ⟨fun _ => Tx.post_pure.mpr .refl, fun _ => ?_⟩
    refine Tx.post_bind.mpr ((markSnapshotHistoryTx_within r.key now db).mono fun _ db₁ h₁ => ?_)
    obtain ⟨markers, rfl, h₁⟩ := h₁
    refine Tx.post_bind.mpr (retireSuiteSnapshotsTx_post.mono fun _ db₂ h₂ => ?_)
    subst h₂
    refine Tx.post_bind.mpr (Tx.post_modify.mpr (Tx.post_bind.mpr
      ((stmts_marks (stampBaseMarkersTx_within r.key now) hg.markers _).mono fun _ db₃ h₃ =>
        Tx.post_pure.mpr ?_)))
    exact ((Stmt.mark hg.markers h₁).one.tail (Stmt.untrack hg.toMoves hmem)).trans h₃

theorem insertSuiteRow_stmts (key : SuiteKey) (requestedAt : Int) (hs : g.tab .suites = true) :
    Tx.Within (Stmts g) (insertSuiteRow key requestedAt) := by
  intro db
  refine Tx.post_bind.mpr (Tx.post_get.mpr (Tx.post_bind.mpr (Tx.post_getOr.mpr ?_)))
  intro suites hins
  exact Tx.post_modify.mpr (.single (.track hs hins rfl (Nat.succ_pos _) rfl))

theorem insertAndMark_stmts (seed : SuiteSeed) (f : Bool → CreateResult) (hg : g.Reaps now) :
    Tx.Within (Stmts g) (do
      insertSuiteRow seed.key seed.requestedAt
      let unproven ← markCreated seed
      pure (f unproven)) :=
  .bind (insertSuiteRow_stmts _ _ hg.suites) fun _ =>
    .bind (stmts_marks (markCreated_within _) hg.markers) fun _ => .pure _

theorem createSuiteTx_stmts (seed : SuiteSeed) (caps : SuiteCaps) (held : Option SuiteKey)
    (hg : g.Reaps now) : Tx.Within (Stmts g) (createSuiteTx seed caps held now) := by
  refine .bind .get fun _ => .ite (fun _ => .pure _) fun _ => .ite (fun _ => .pure _) fun _ =>
    .ite (fun _ => ?_) fun _ =>
      insertAndMark_stmts seed (fun u => ⟨.created, none, u, false, false⟩) hg
  split
  · exact .pure _
  · rename_i k
    refine .bind (deleteSuiteTx_stmts _ _ _ hg) fun _ => .ite (fun _ => .pure _) fun _ =>
      .ite (fun _ => .pure _) fun _ => ?_
    exact insertAndMark_stmts seed (fun u => ⟨.created, some k, u, false, false⟩) hg

theorem storeFetchedTx_stmts {m : FetchedRow} (caps : SuiteCaps) (held : Option SuiteKey)
    (hg : g.Reaps now) (hu : g.tab .urlPaths = true)
    (h : ∀ h, m.row.blobHash = some h → g.path m.row.key h) :
    Tx.Within (Stmts g) (storeFetchedTx m caps held now) := by
  refine .bind (.ensure _ _) fun _ => .bind .get fun _ => .bind (.ensure _ _) fun _ =>
    .bind (putURLPathStmt_stmts hu h) fun _ => .bind ?_ fun _ => ?_
  · unfold FetchedRow.createTx
    split
    · exact .pure _
    · rw [map_eq_pure_bind]
      exact .bind (createSuiteTx_stmts _ _ _ hg) fun _ => .pure _
  · split
    · exact .pure _
    · refine .bind .get fun _ => .ite (fun _ => ?_) fun _ => .pure _
      exact .bind (stmts_marks (markSignedSeen_within _ _) hg.markers) fun _ => .pure _

theorem forgetSuite_stmts (key : SuiteKey) (want : Option Nat) (hg : g.Reaps now)
    (hu : g.tab .urlPaths = true) (hf : g.forgets = true) :
    Tx.Within (Stmts g) (forgetSuite key want now) := by
  refine .bind (deleteSuiteTx_stmts _ _ _ hg) fun _ => .bind .get fun _ =>
    .ite (fun _ => ?_) fun _ => .pure _
  exact .bind (deleteBaseAnchorsTx_stmts _ _ ⟨hu, hg.blobs, hg.clock⟩) fun _ =>
    .bind (.modify fun _ => .single (.unmark hg.markers hf)) fun _ => .pure _

theorem invalidateLegacyMetadata_stmts (key : SuiteKey) (anchor old : Str) {now : UrlKey → Int}
    (hg : ∀ k, g.Drops (now k)) (hs : g.tab .suites = true) :
    Tx.Within (Stmts g) (invalidateLegacyMetadata key anchor old now) :=
  .bind (.ensure _ _) fun _ => .bind .get fun _ => .bind (.getOr _ _) fun _ =>
    .bind (.ensure _ _) fun _ => .bind (.getOr _ _) fun _ => .bind (.ensure _ _) fun _ =>
    .bind (.forM fun _ _ => .bind (deleteCachedRowTx_stmts _ (hg _)) fun _ => .pure _) fun _ =>
    .modify fun _ => .single (.next key hs)

/-! ## Candidates and the flip -/

variable {s : Snapshot} {h : Str} {sc : SnapshotCandidate} {id : Nat} {m : Member}
  {members : List Member}

theorem names_iff : s.names h = true ↔
    s.inReleaseHash = some h ∨ s.releaseHash = some h ∨ s.releaseGpgHash = some h := by
  simp only [Snapshot.names, Bool.or_eq_true, beq_iff_eq, or_assoc]

theorem candidateForm_content {form : AnchorForm} (h : (sc.row id form now).checked = true) :
    (sc.row id form now).content.isSome = true := by
  simp only [Snapshot.checked, SnapshotCandidate.row, Snapshot.content] at h ⊢
  cases h1 : sc.inReleaseHash <;> cases h2 : sc.releaseHash <;> simp_all

/-- The reused row of a candidate keeps its content and takes the new signature. -/
theorem Anchored.reuse {form : AnchorForm} {f : Assign Snapshot.id}
    (hcol : db.collides (sc.row id form now) = some s)
    (hf : ∀ s, f.run s = { s with releaseGpgHash := sc.releaseGpgHash, heartbeatAt := some now })
    (h : ∀ h, sc.releaseGpgHash = some h → g.anchor sc.key h) :
    Anchored g db.snapshots (db.snapshots.updateAt s.id f) := by
  have hkey : s.key = sc.key := by
    have hp := List.find?_some hcol
    simp only [Bool.and_eq_true, beq_iff_eq] at hp
    exact hp.1.1.1.2
  have hmem : s ∈ db.snapshots := List.mem_of_find?_eq_some hcol
  intro s' hs' hash hn
  rcases mem_updateAt.mp hs' with ⟨hs', -⟩ | ⟨s₀, hs₀, hid, rfl⟩
  · exact .inl ⟨s', hs', rfl, rfl, hn⟩
  · have heq : s₀ = s := eq_of_key hs₀ hmem hid
    rw [hf] at hn ⊢
    rcases names_iff.mp hn with hn | hn | hn
    · exact .inl ⟨s₀, hs₀, rfl, rfl, names_iff.mpr (.inl hn)⟩
    · exact .inl ⟨s₀, hs₀, rfl, rfl, names_iff.mpr (.inr (.inl hn))⟩
    · refine .inr ?_
      show g.anchor s₀.key hash
      rw [heq, hkey]
      exact h hash hn

theorem insertCandidateSnapshot_stmts (hs : g.tab .snapshots = true)
    (h : ∀ h, sc.inReleaseHash = some h ∨ sc.releaseHash = some h ∨ sc.releaseGpgHash = some h →
      g.anchor sc.key h) : Tx.Within (Stmts g) (insertCandidateSnapshot sc now) := by
  intro db
  refine Tx.post_bind.mpr (Tx.post_getOr.mpr fun form _ => Tx.post_bind.mpr (Tx.post_get.mpr ?_))
  dsimp only
  split
  · rename_i hcol
    refine Tx.post_bind.mpr (Tx.post_ensure.mpr fun hchk => ?_)
    refine Tx.post_bind.mpr ((requireBlobs_keep _ db).mono fun _ db₁ h₁ => ?_)
    subst h₁
    refine Tx.post_bind.mpr (Tx.post_getOr.mpr fun snapshots hins => ?_)
    exact Tx.post_bind.mpr (Tx.post_modify.mpr (Tx.post_pure.mpr (.single (.candidate hs hins rfl rfl
      (candidateForm_content hchk) hcol fun hash hn => h hash (names_iff.mp hn)))))
  · rename_i hcol
    refine Tx.post_bind.mpr (Tx.post_ensure.mpr fun _ => ?_)
    refine Tx.post_bind.mpr (Tx.post_ensure.mpr fun _ => ?_)
    refine Tx.post_bind.mpr ((requireBlobs_keep _ db).mono fun _ db₁ h₁ => ?_)
    subst h₁
    exact Tx.post_bind.mpr (Tx.post_modify.mpr (Tx.post_pure.mpr (.single (.heads hs
      (.map rfl fun _ => by split <;> rfl)
      (.reuse hcol (fun _ => rfl) fun hash hh => h hash (.inr (.inr hh)))))))

/-- Statements before the flip: the heads of the snapshots stay. -/
def Prepares (g : Given) (db db' : Db) : Prop :=
  Stmts g db db' ∧ SameBy Snapshot.head db.snapshots db'.snapshots

instance prepares_refl : Std.Refl (Prepares g) where
  refl _ := ⟨.refl, .refl _⟩

instance prepares_trans : IsTrans Db (Prepares g) where
  trans _ _ _ h₁ h₂ := ⟨h₁.1.trans h₂.1, Eq.trans h₁.2 h₂.2⟩

theorem Prepares.single (h : Stmt g db db') (hs : db'.snapshots = db.snapshots) : Prepares g db db' :=
  ⟨.single h, hs ▸ .refl _⟩

theorem Prepares.heads {snapshots} (hs : g.tab .snapshots = true)
    (hh : SameBy Snapshot.head db.snapshots snapshots) (ha : Anchored g db.snapshots snapshots) :
    Prepares g db { db with snapshots := snapshots } := ⟨.single (.heads hs hh ha), hh⟩

theorem Prepares.keep {α : Type} {m : Tx α} (h : Tx.Within Eq m) : Tx.Within (Prepares g) m :=
  h.mono fun db _ h => h ▸ Std.Refl.refl db

theorem Frame.of_prepares {α : Type} {m : Tx α} {W : Tab → Bool}
    (h : Tx.Within (Prepares (.within W)) m) : Tx.Within (Frame W) m :=
  h.mono fun _ _ h => h.1.frame

theorem insertMemberRow_post :
    Tx.Post (insertMemberRow m) db fun _ db' => ∃ members, db' = { db with members := members } ∧
      ∀ m', m' ∈ members ↔ m' = m ∨ m' ∈ db.members := by
  refine Tx.post_bind.mpr (Tx.post_get.mpr (Tx.post_bind.mpr (Tx.post_ensure.mpr fun _ => ?_)))
  refine Tx.post_bind.mpr ((requireBlob_keep _ db).mono fun _ db₁ h₁ => ?_)
  subst h₁
  refine Tx.post_bind.mpr (Tx.post_getOr.mpr fun members hm => Tx.post_modify.mpr ?_)
  exact ⟨members, rfl, fun m' => mem_insert hm⟩

theorem insertMemberRow_stmts (he : g.tab .members = true) (hN : g.member m) :
    Tx.Within (Prepares g) (insertMemberRow m) := fun _ =>
  insertMemberRow_post.mono fun _ _ h => by
    obtain ⟨_, rfl, hm⟩ := h
    refine .single (.members he (fun m hm' => (hm m).mpr (.inr hm')) fun m' hm' => ?_) rfl
    rcases (hm m').mp hm' with rfl | hm'
    · exact .inr hN
    · exact .inl hm'

theorem commitMembers_stmts (he : g.tab .members = true)
    (hN : ∀ m ∈ members, g.member { m with snapshotId := id }) :
    Tx.Within (Prepares g) (commitMembers id members) :=
  .forM fun m hm => .bind (.ensure _ _) fun _ => .bind (.ensure _ _) fun _ =>
    insertMemberRow_stmts he (hN m hm)

theorem commitSkipped_stmts (id : Nat) (skipped : List Skipped) (now : Int)
    (hk : g.tab .skipped = true) : Tx.Within (Prepares g) (commitSkipped id skipped now) :=
  .forM fun _ _ => .bind (.ensure _ _) fun _ => .bind .get fun _ => .bind (.getOr _ _) fun _ =>
    .modify fun _ => .single (.skipped hk) rfl

theorem Stmt.insertPackage {p q : PackageHash} {packageHashes} (hp : g.tab .packageHashes = true)
    (hP : g.package p) (hins : db.packageHashes.insert? q = some packageHashes)
    (hq : p.entry = q.entry) : Stmt g db { db with packageHashes := packageHashes } := by
  refine .packages hp fun p' hp' => ?_
  rcases (mem_insert hins).mp hp' with rfl | hmem
  · exact ⟨p, .inr hP, hq⟩
  · exact ⟨p', .inl hmem, rfl⟩

theorem commitPackageHashes_stmts (id : Nat) {rows : List PackageHash}
    (hp : g.tab .packageHashes = true) (hP : ∀ p ∈ rows, g.package p) :
    Tx.Within (Prepares g) (commitPackageHashes id rows) := by
  refine .forM fun p hmem => .bind (.ensure _ _) fun _ db => ?_
  refine Tx.post_bind.mpr (Tx.post_get.mpr (Tx.post_bind.mpr (Tx.post_getOr.mpr fun t ht => ?_)))
  exact Tx.post_modify.mpr (.single (.insertPackage hp (hP p hmem) ht rfl) rfl)

theorem commitPrefetched_stmts {prefetched : List (UrlKey × Str)} (hu : g.tab .urlPaths = true)
    (h : ∀ up ∈ prefetched, g.path up.1 up.2) :
    Tx.Within (Prepares g) (commitPrefetched prefetched now) :=
  .forM fun up hup => .bind (.ensure _ _) fun _ => .bind (.keep (requireBlob_keep _)) fun _ =>
    .modify fun _ => .single (.paths hu (.upsert (by rintro _ ⟨⟩; exact h up hup) (fun _ _ => rfl) rfl
      fun _ => rfl)) rfl

/-- The cached path of an anchor file of a suite. -/
def SuiteKey.anchorUrl (k : SuiteKey) (name : Str) : UrlKey :=
  ⟨k.scheme, k.host, k.suitePath ++ '/' :: name⟩

theorem seedAnchors_stmts (hu : g.tab .urlPaths = true)
    (h : ∀ name ∈ s.form.anchorPaths, ∀ h, s.anchorHash name = some h →
      g.path (s.key.anchorUrl name) h) : Tx.Within (Prepares g) (seedAnchors s now) := by
  refine .forM fun name hname => ?_
  split
  · exact .pure _
  · rename_i hash hh
    exact .ite (fun _ => .pure _) fun _ => .bind (.keep (requireBlob_keep _)) fun _ =>
      .modify fun _ => .single (.paths hu (.upsert (by rintro _ ⟨⟩; exact h name hname hash hh)
        (fun _ _ => rfl) rfl fun _ => rfl)) rfl

theorem refuseUnsignedDowngrade_keep (host suite : Str) :
    Tx.Within Eq (refuseUnsignedDowngrade host suite) :=
  .bind .get fun _ => .bind (.ensure _ _) fun _ => .ensure _ _

theorem flipPointer_post {stamp : Int} (hg : g.Reaps now)
    (hs : ∃ s₀ ∈ db.snapshots, s₀.id = s.id ∧ s₀.key = s.key ∧ s₀.adoptedAt = none ∧
      s₀.retiredAt = none)
    (hst : ∀ s' ∈ db.snapshots, s'.key = s.key → ∀ a, s'.adoptedAt = some a → a < stamp) :
    Tx.Post (flipPointer s stamp now) db fun _ db' => Stmts g db db' := by
  refine Tx.post_bind.mpr (Tx.post_modify.mpr (Tx.post_bind.mpr (Tx.post_get.mpr ?_)))
  refine Tx.post_bind.mpr (Tx.post_getOr.mpr fun r hfind => ?_)
  obtain ⟨hmem, hkey⟩ := find_eq_some.mp hfind
  refine Tx.post_bind.mpr (Tx.post_modify.mpr (Tx.post_bind.mpr (Tx.post_modify.mpr ?_)))
  refine Tx.post_bind.mpr ((Tx.Within.onlyIf (fun _ => markSignedSeen_within _ _) _).mono
    fun _ db₁ h₁ => ?_)
  obtain ⟨markers, rfl, hk⟩ := h₁
  -- the marker is written before the prior pins are released; the two do not touch
  have flip : ∀ blobs, blobs = db.unpinned r.current now (db.pinned s.id) → Stmts g db { db with
      blobs := blobs
      suites := db.suites.updateAt s.key (Suite.pointed (some s.id))
      snapshots := db.snapshots.updateAt s.id (Snapshot.adopted stamp)
      markers := markers } := by
    rintro _ rfl
    exact (Stmt.adopt hg.toMoves hs hmem hkey hst).one.tail (.mark hg.markers hk)
  cases hc : r.current with
  | none => exact Tx.post_pure.mpr (flip _ (by rw [hc]; rfl))
  | some prior => exact Tx.post_modify.mpr (flip _ (by rw [hc]; rfl))

/-- The flip adds the members, packages and paths that it is given, and the paths of the anchors of
the candidate. -/
theorem commitAdoption_post (skipped : List Skipped) {packageHashes : List PackageHash}
    {prefetched : List (UrlKey × Str)} (coverage : Bool) (skipNow : Int) (hg : g.Reaps now)
    (hu : g.tab .urlPaths = true) (he : g.tab .members = true) (hk : g.tab .skipped = true)
    (hp : g.tab .packageHashes = true) (hN : ∀ m ∈ members, g.member { m with snapshotId := id })
    (hP : ∀ p ∈ packageHashes, g.package p) (hup : ∀ up ∈ prefetched, g.path up.1 up.2)
    (ha : ∀ s ∈ db.snapshots, s.id = id → ∀ name ∈ s.form.anchorPaths, ∀ h,
      s.anchorHash name = some h → g.path (s.key.anchorUrl name) h) :
    Tx.Post (commitAdoption id members skipped packageHashes prefetched coverage skipNow now) db
      fun _ db' => Stmts g db db' := by
  refine Tx.post_bind.mpr (Tx.post_get.mpr (Tx.post_bind.mpr (Tx.post_getOr.mpr fun s hfind => ?_)))
  obtain ⟨hmem, rfl⟩ := find_eq_some.mp hfind
  refine Tx.post_bind.mpr (Tx.post_ensure.mpr fun had => Tx.post_bind.mpr (Tx.post_ensure.mpr
    fun hre => ?_))
  refine Tx.post_bind.mpr ((Tx.Within.onlyIf
    (fun _ => refuseUnsignedDowngrade_keep s.key.host s.key.suitePath) db).mono fun _ db₁ h₁ => ?_)
  subst h₁
  refine Tx.post_bind.mpr ((commitMembers_stmts he hN db).mono fun _ db₁ h₁ => ?_)
  refine Tx.post_bind.mpr ((commitSkipped_stmts _ _ _ hk db₁).mono fun _ db₂ h₂ => ?_)
  refine Tx.post_bind.mpr ((commitPackageHashes_stmts _ hp hP db₂).mono fun _ db₃ h₃ => ?_)
  refine Tx.post_bind.mpr (Tx.post_get.mpr ?_)
  refine Tx.post_bind.mpr ((commitPrefetched_stmts hu hup db₃).mono fun _ db₄ h₄ => ?_)
  refine Tx.post_bind.mpr (Tx.post_modify.mpr ?_)
  refine Tx.post_bind.mpr ((seedAnchors_stmts hu (ha s hmem rfl) _).mono fun _ db₆ h₆ => ?_)
  have h₅ : Prepares g db₄ { db₄ with
      snapshots := db₄.snapshots.updateAt s.id
        ⟨fun s => { s with coverage := coverage }, fun _ => rfl⟩ } :=
    .heads hg.snapshots (.map rfl fun _ => by split <;> rfl) (.update fun _ => ⟨rfl, fun _ => rfl⟩)
  have h₃₆ : Prepares g db₃ db₆ := IsTrans.trans _ _ _ h₄ (IsTrans.trans _ _ _ h₅ h₆)
  have h₀₆ : Prepares g db db₆ :=
    IsTrans.trans _ _ _ h₁ (IsTrans.trans _ _ _ h₂ (IsTrans.trans _ _ _ h₃ h₃₆))
  refine (flipPointer_post hg ?_ ?_).mono fun _ db₇ h₇ => h₀₆.1.trans h₇
  · obtain ⟨s₀, hs₀, hh⟩ := h₀₆.2.symm.mem hmem
    obtain ⟨hid, hkey, -, -, had', hre'⟩ := Snapshot.head_eq.mp hh
    exact ⟨s₀, hs₀, hid, hkey, had'.trans had, hre'.trans hre⟩
  · -- the stamp was taken before the cached rows were written, over the same snapshots
    intro s' hs' hk a ha'
    obtain ⟨s₀, hs₀, hh⟩ := h₃₆.2.mem hs'
    obtain ⟨-, hkey, -, -, had', -⟩ := Snapshot.head_eq.mp hh
    exact lt_adoptionStamp hs₀ (hkey.trans hk) (had'.trans ha')

/-! ## Growth of a current snapshot -/

theorem insertPackageHashTx_stmts {p : PackageHash} (hp : g.tab .packageHashes = true)
    (hP : g.package p) : Tx.Within (Stmts g) (insertPackageHashTx p) := by
  refine .bind (.ensure _ _) fun _ db => Tx.post_bind.mpr (Tx.post_get.mpr ?_)
  split
  · refine Tx.post_bind.mpr (Tx.post_ensure.mpr fun _ => Tx.post_modify.mpr
      (.single (.packages hp fun p' hp' => ?_)))
    obtain ⟨q, hq, rfl⟩ := mem_update.mp hp'
    exact ⟨q, .inl hq, by split <;> rfl⟩
  · refine Tx.post_bind.mpr (Tx.post_ensure.mpr fun _ => Tx.post_bind.mpr (Tx.post_getOr.mpr
      fun t ht => ?_))
    exact Tx.post_modify.mpr (.single (.insertPackage hp hP ht rfl))

/-- The members of a snapshot that grows: one with the blob `h` is there afterwards. -/
structure Grows (g : Given) (id : Nat) (h : Str) (old new : Table Member (Nat × Str)
    fun m => (m.snapshotId, m.path)) : Prop where
  kept : ∀ m ∈ old, m ∈ new
  given : ∀ m ∈ new, m ∈ old ∨ g.member m
  named : ∃ m ∈ new, m.snapshotId = id ∧ m.blobHash = h

/-- The bump and the members that go with it: one pin if the blob is new to the snapshot. -/
theorem Stmts.grow {members} (he : g.tab .members = true) (hb : g.tab .blobs = true)
    (hc : db.isCurrent id = true) (hm : Grows g id h db.members members) :
    Stmts g db { db with
      blobs := db.blobs.update (fun b => b.hash == h && !db.binds id h) Blob.bumped
      members := members } := by
  cases hbinds : db.binds id h with
  | false =>
    simp only [Bool.not_false, Bool.and_true]
    exact .single (.grow he hb hc hbinds hm.kept hm.given hm.named)
  | true =>
    have eased : Eased db.blobs
        (db.blobs.update (fun b => b.hash == h && !true) Blob.bumped) := by
      intro b' hb'
      obtain ⟨b, hb, rfl⟩ := mem_update.mp hb'
      simp only [Bool.not_true, Bool.and_false, Bool.false_eq_true, if_false]
      exact .inr ⟨b, hb, rfl, Int.le_refl _, fun h => h⟩
    have bump : Stmts g db { db with
        blobs := db.blobs.update (fun b => b.hash == h && !true) Blob.bumped } :=
      .single (.blobs hb ⟨eased, fun _ => kept_update fun _ hs => hs.bump⟩)
    exact bump.tail (.members he hm.kept hm.given)

theorem insertMemberRow_grows (hN : g.member m) :
    Tx.Post (insertMemberRow m) db fun _ db' => ∃ members, db' = { db with members := members } ∧
      Grows g m.snapshotId m.blobHash db.members members := by
  refine insertMemberRow_post.mono fun _ db' h => ?_
  obtain ⟨members, rfl, hm⟩ := h
  refine ⟨members, rfl, fun m' h' => (hm m').mpr (.inr h'), fun m' h' => ?_,
    m, (hm m).mpr (.inl rfl), rfl, rfl⟩
  rcases (hm m').mp h' with rfl | h'
  · exact .inr hN
  · exact .inl h'

theorem reconcileMember_post (he : g.tab .members = true) (hb : g.tab .blobs = true)
    (hc : db.isCurrent id = true) (hN : g.member m) :
    Tx.Post (reconcileMember id m) db fun _ db' => Stmts g db db' ∧ db'.suites = db.suites := by
  refine Tx.post_bind.mpr (Tx.post_ensure.mpr fun hid => Tx.post_bind.mpr
    (Tx.post_ensure.mpr fun _ => Tx.post_bind.mpr (Tx.post_ensure.mpr fun _ => ?_)))
  subst hid
  refine Tx.post_bind.mpr (Tx.post_get.mpr ?_)
  split
  · exact Tx.post_ensure.mpr fun _ => ⟨.refl, rfl⟩
  · refine Tx.post_bind.mpr (Tx.post_modify.mpr ((insertMemberRow_grows hN).mono fun _ db' h => ?_))
    obtain ⟨members, rfl, hm⟩ := h
    exact ⟨.grow he hb hc hm, rfl⟩

theorem insertReconciledMembers_stmts (id : Nat) {packageHashes : List PackageHash}
    (he : g.tab .members = true) (hb : g.tab .blobs = true) (hp : g.tab .packageHashes = true)
    (hN : ∀ m ∈ members, g.member m) (hP : ∀ p ∈ packageHashes, g.package p) :
    Tx.Within (Stmts g) (insertReconciledMembers id members packageHashes) := by
  intro db
  refine Tx.post_bind.mpr (Tx.post_get.mpr (Tx.post_bind.mpr (Tx.post_ensure.mpr fun hc => ?_)))
  have loop : Tx.Post (members.forM (reconcileMember id)) db
      fun _ db' => Stmts g db db' ∧ db'.suites = db.suites := by
    refine Tx.Post.forM (I := fun db' => Stmts g db db' ∧ db'.suites = db.suites) ⟨.refl, rfl⟩ ?_
    rintro m hm db₁ ⟨h₁, hs₁⟩
    refine (reconcileMember_post he hb (by rw [isCurrent_congr hs₁, hc]) (hN m hm)).mono
      fun _ db₂ h₂ => ?_
    exact ⟨h₁.trans h₂.1, h₂.2.trans hs₁⟩
  refine Tx.post_bind.mpr (loop.mono fun _ db₁ h₁ => ?_)
  exact (Tx.Within.forM (fun p hmem => insertPackageHashTx_stmts hp (hP p hmem)) db₁).mono
    fun _ db₂ h₂ => h₁.1.trans h₂

theorem repairMember_post (hN : g.member m) :
    Tx.Post (repairMember m) db fun _ db' => ∃ members, db' = { db with members := members } ∧
      Grows g m.snapshotId m.blobHash db.members members := by
  refine Tx.post_bind.mpr (Tx.post_get.mpr ?_)
  split
  · rename_i e he
    obtain ⟨hmem, hk⟩ := find_eq_some.mp he
    refine Tx.post_ensure.mpr fun hsame => ?_
    exact ⟨db.members, rfl, fun _ h => h, fun _ => .inl, e, hmem, (Prod.mk.inj hk).1, hsame.1⟩
  · exact insertMemberRow_grows hN

theorem repairMembers_post {ms : List Member} (hne : ms ≠ [])
    (hms : ∀ m ∈ ms, m.snapshotId = id ∧ m.blobHash = h) (hN : ∀ m ∈ ms, g.member m) :
    Tx.Post (ms.forM repairMember) db fun _ db' => ∃ members, db' = { db with members := members } ∧
      Grows g id h db.members members := by
  obtain ⟨m, ms, rfl⟩ := List.exists_cons_of_ne_nil hne
  obtain ⟨rfl, rfl⟩ := hms m List.mem_cons_self
  refine Tx.post_bind.mpr ((repairMember_post (hN m List.mem_cons_self)).mono fun _ db₁ h₁ => ?_)
  -- what the first member established, the others keep
  refine Tx.Post.forM (I := fun db' => ∃ members, db' = { db with members := members } ∧
    Grows g m.snapshotId m.blobHash db.members members) h₁ ?_
  rintro m₂ hm₂ _ ⟨members, rfl, hgrows⟩
  refine (repairMember_post (hN m₂ (List.mem_cons_of_mem _ hm₂))).mono fun _ db₃ h₃ => ?_
  obtain ⟨members₃, rfl, hgrows₃⟩ := h₃
  obtain ⟨m', hm', hm''⟩ := hgrows.named
  exact ⟨members₃, rfl, fun m₀ h₀ => hgrows₃.kept m₀ (hgrows.kept m₀ h₀),
    fun m₀ h₀ => (hgrows₃.given m₀ h₀).elim (hgrows.given m₀) .inr, m', hgrows₃.kept m' hm', hm''⟩

theorem repairSkippedMember_stmts (id : Nat) (skippedPath : Str) (he : g.tab .members = true)
    (hb : g.tab .blobs = true) (hk : g.tab .skipped = true) (hN : ∀ m ∈ members, g.member m) :
    Tx.Within (Stmts g) (repairSkippedMember id skippedPath members) := by
  intro db
  refine Tx.post_bind.mpr (Tx.post_get.mpr (Tx.post_bind.mpr (Tx.post_ensure.mpr fun hc => ?_)))
  refine Tx.post_bind.mpr (Tx.post_get.mpr (Tx.post_bind.mpr (Tx.post_getOr.mpr fun row _ => ?_)))
  refine Tx.post_bind.mpr (Tx.post_ensure.mpr fun _ => Tx.post_bind.mpr
    (Tx.post_ensure.mpr fun hms => Tx.post_bind.mpr (Tx.post_ensure.mpr fun hcan => ?_)))
  refine Tx.post_bind.mpr (Tx.post_modify.mpr (Tx.post_bind.mpr (Tx.post_modify.mpr ?_)))
  have hne : members ≠ [] := by
    rintro rfl
    simp at hcan
  refine (repairMembers_post hne (fun m hm => ⟨(hms m hm).1, (hms m hm).2.1⟩) hN).mono
    fun _ db₂ h₂ => ?_
  obtain ⟨members₂, rfl, hm⟩ := h₂
  have skip : Stmts g db { db with skipped := db.skipped.deleteAt (id, skippedPath) } :=
    .single (.skipped hk)
  exact skip.trans (Stmts.grow he hb (by exact hc) hm)

/-! ## Snapshot GC and the audit -/

/-- The tables of snapshots and their children may be written. -/
structure Given.Purges (g : Given) : Prop where
  members : g.tab .members = true
  skipped : g.tab .skipped = true
  packages : g.tab .packageHashes = true
  snapshots : g.tab .snapshots = true

/-- Children of snapshots that are not current go. -/
theorem Stmts.children (hg : g.Purges) {p q r}
    (h : ∀ m ∈ db.members, p m = true → db.isCurrent m.snapshotId = false) :
    Stmts g db { db with
      members := db.members.delete p
      skipped := db.skipped.delete q
      packageHashes := db.packageHashes.delete r } := by
  have members : Stmts g db { db with members := db.members.delete p } :=
    .single (.shrink hg.members h)
  have skips : Stmts g db { db with
      members := db.members.delete p, skipped := db.skipped.delete q } :=
    members.tail (.skipped hg.skipped)
  exact skips.tail (.packages hg.packages fun p hp => ⟨p, .inl (mem_delete.mp hp).1, rfl⟩)

theorem deleteSnapshots_post {ids : List Nat} (hg : g.Purges)
    (h : ∀ id ∈ ids, db.isCurrent id = false) :
    Tx.Post (deleteSnapshots ids) db fun _ db' => Stmts g db db' := by
  have children : Stmts g db { db with
      members := db.members.delete fun m => ids.contains m.snapshotId
      skipped := db.skipped.delete fun m => ids.contains m.snapshotId
      packageHashes := db.packageHashes.delete fun p => ids.contains p.snapshotId } :=
    .children hg fun m _ hm => h _ (by simpa using hm)
  exact Tx.post_modify.mpr (children.tail (.purge hg.snapshots fun s _ hs => h _ (by simpa using hs)))

theorem runSnapshotGCBatch_stmts (n grace keep now : Int) (hg : g.Purges) :
    Tx.Within (Stmts g) (runSnapshotGCBatch n grace keep now) := by
  intro db
  refine Tx.post_bind.mpr (Tx.post_ensure.mpr fun _ => Tx.post_bind.mpr
    (Tx.post_ensure.mpr fun _ => Tx.post_bind.mpr (Tx.post_get.mpr (Tx.post_bind.mpr ?_))))
  refine (deleteSnapshots_post hg fun id hid => ?_).mono fun _ _ h => Tx.post_pure.mpr h
  obtain ⟨s, hs, rfl⟩ := List.mem_map.mp hid
  rcases List.mem_append.mp hs with hs | hs
  · have := (mem_select.mp (List.mem_of_mem_take hs)).2
    simp only [Db.orphan, Bool.and_eq_true, Bool.not_eq_true'] at this
    exact this.2
  · have := (mem_select.mp (List.mem_of_mem_take hs)).2
    simp only [Db.surplus, Db.displaced, Bool.and_eq_true, Bool.not_eq_true'] at this
    exact this.1.1.2

theorem nextRetired_notCurrent (h : db.nextRetired = some id) :
    db.isCurrent id = false := by
  obtain ⟨s, hs, rfl⟩ := List.mem_map.mp (List.min?_mem h)
  have := (mem_select.mp hs).2
  simp only [Bool.and_eq_true, Bool.not_eq_true'] at this
  exact this.2

theorem runRetiredSnapshotGCChunk_stmts (maxRows : Int) (hg : g.Purges) :
    Tx.Within (Stmts g) (runRetiredSnapshotGCChunk maxRows) := by
  intro db
  refine Tx.post_bind.mpr (Tx.post_get.mpr ?_)
  split
  · exact Tx.post_pure.mpr .refl
  · rename_i id hid
    have hcur := nextRetired_notCurrent hid
    have chunk : ∀ (n : Nat) (ks : List Skipped) (ps : List PackageHash), Stmts g db { db with
        members := db.members.delete fun m =>
          ((db.members.select fun m => m.snapshotId == id).take n).contains m
        skipped := db.skipped.delete fun m => ks.contains m
        packageHashes := db.packageHashes.delete fun p => ps.contains p } := by
      refine fun n ks ps => .children hg fun m _ hm => ?_
      have hsel := (mem_select.mp (List.mem_of_mem_take (List.contains_iff_mem.mp hm))).2
      rw [beq_iff_eq.mp hsel]
      exact hcur
    refine Tx.post_bind.mpr (Tx.post_modify.mpr ?_)
    refine Tx.post_ite.mpr ⟨fun _ => ?_, fun _ => Tx.post_pure.mpr (chunk _ _ _)⟩
    refine Tx.post_bind.mpr (Tx.post_modify.mpr (Tx.post_pure.mpr ((chunk _ _ _).tail
      (.purge hg.snapshots fun s _ hs => ?_))))
    simp only [Bool.and_eq_true, beq_iff_eq] at hs
    rw [hs.1]
    exact hcur

theorem quarantineSnapshotTx_stmts (id : Nat) (hg : g.Moves now) :
    Tx.Within (Stmts g) (quarantineSnapshotTx id now) := by
  intro db
  refine Tx.post_bind.mpr (Tx.post_get.mpr (Tx.post_bind.mpr (Tx.post_modify.mpr ?_)))
  have quarantine : ∀ blobs,
      blobs = db.unpinned (if db.isCurrent id then some id else none) now db.blobs →
      Stmts g db { db with
        suites := db.suites.update (fun r => r.current == some id) (Suite.pointed none)
        blobs := blobs
        snapshots := db.retire (fun s => s.id == id) now } := by
    rintro _ rfl
    exact .single (.quarantine hg)
  cases hc : db.isCurrent id with
  | true => exact Tx.post_bind.mpr (Tx.post_modify.mpr (Tx.post_bind.mpr (Tx.post_modify.mpr
      (Tx.post_pure.mpr (quarantine _ (by rw [hc]; rfl))))))
  | false => exact Tx.post_bind.mpr (Tx.post_pure.mpr (Tx.post_bind.mpr (Tx.post_modify.mpr
      (Tx.post_pure.mpr (quarantine _ (by rw [hc]; rfl))))))

theorem dropAnchorBlobRowsTx_stmts (id : Nat) (hg : g.Drops now) :
    Tx.Within (Stmts g) (dropAnchorBlobRowsTx id now) := by
  refine .bind .get fun _ => ?_
  split
  · exact .pure _
  · exact .ite (fun _ => .pure _) fun _ => .forM fun _ _ => deleteURLPathRowTx_stmts _ _ hg

theorem applyLegacyAuditDecisions_stmts (decisions : List LegacyAuditDecision) (hg : g.Reaps now)
    (hu : g.tab .urlPaths = true) (ha : g.tab .audit = true) :
    Tx.Within (Stmts g) (applyLegacyAuditDecisions decisions now) := by
  refine .forM fun d _ => .bind (.ensure _ _) fun _ => .bind ?_ fun _ =>
    .modify fun _ => .single (.audit ha)
  have mark : Tx.Within (Stmts g) (markSnapshotBaseTx d.snapshotId) :=
    stmts_marks (markSnapshotBaseTx_within d.snapshotId) hg.markers
  have quarantine : Tx.Within (Stmts g) (do
      let _ ← quarantineSnapshotTx d.snapshotId now
      Tx.onlyIf (d.dropAnchorRows = true) (dropAnchorBlobRowsTx d.snapshotId now)
      Tx.onlyIf (d.outcome = .quarantineSigned) (markSnapshotBaseTx d.snapshotId)) :=
    .bind (quarantineSnapshotTx_stmts _ hg.toMoves) fun _ =>
      .bind (.onlyIf fun _ => dropAnchorBlobRowsTx_stmts _ ⟨hu, hg.blobs, hg.clock⟩)
        fun _ => .onlyIf fun _ => mark
  unfold LegacyAuditDecision.act
  split
  · exact mark
  · exact .pure _
  · exact quarantine
  · exact quarantine

end Walk

/-! ## Every operation -/

namespace Op

/-- The tables that an operation may write. -/
def tables : Op → List Tab
  | .putBlob .. | .heartbeatBlobs .. | .runBlobGCBatch .. => [.blobs]
  | .putURLPath .. | .touchURLPath .. | .refreshURLPathBlob .. => [.urlPaths]
  | .evictURLPath .. | .deleteSuiteMetadataRows .. | .deleteURLPathRows .. | .runURLPathGCBatch .. =>
    [.urlPaths, .blobs]
  | .markSignedSeenBatch .. | .deleteOrphanMarkers .. => [.markers]
  | .reapIdleSuite .. | .createSuite .. => [.suites, .snapshots, .blobs, .markers]
  | .forgetSuite .. | .storeFetched .. => [.urlPaths, .suites, .snapshots, .blobs, .markers]
  | .touchSuite .. => [.suites]
  | .invalidateLegacyMetadata .. => [.urlPaths, .suites, .blobs]
  | .insertCandidateSnapshot .. | .heartbeatSnapshot .. => [.snapshots]
  | .commitAdoption .. =>
    [.urlPaths, .suites, .snapshots, .blobs, .markers, .members, .skipped, .packageHashes]
  | .insertReconciledMembers .. => [.blobs, .members, .packageHashes]
  | .repairSkippedMember .. => [.blobs, .members, .skipped]
  | .bumpSkippedMemberRetry .. => [.skipped]
  | .runSnapshotGCBatch .. | .runRetiredSnapshotGCChunk .. =>
    [.members, .skipped, .packageHashes, .snapshots]
  | .applyLegacyAuditDecisions .. => [.urlPaths, .suites, .snapshots, .blobs, .markers, .audit]
  | .enqueueLegacyTrustAudit .. => [.audit]

/-- The operations that delete markers. -/
def forgets : Op → Bool
  | .forgetSuite .. | .deleteOrphanMarkers .. => true
  | _ => false

/-- The operation that deletes blob rows. -/
def collects : Op → Bool
  | .runBlobGCBatch .. => true
  | _ => false

/-- A batch of `url_path` GC. -/
def isPathGc : Op → Bool
  | .runURLPathGCBatch .. => true
  | _ => false

/-- The cached paths that an operation is given, and those of the anchors that it adopts. -/
def paths (db : Db) : Op → List (UrlKey × Str)
  | .putURLPath u => (u.blobHash.map fun h => (u.key, h)).toList
  | .refreshURLPathBlob k _ new _ => [(k, new)]
  | .storeFetched m _ _ _ => (m.row.blobHash.map fun h => (m.row.key, h)).toList
  | .commitAdoption id _ _ _ prefetched _ _ _ =>
    prefetched ++ ((db.snapshots.find id).toList.flatMap fun s =>
      s.form.anchorPaths.filterMap fun name => (s.anchorHash name).map fun h => (s.key.anchorUrl name, h))
  | _ => []

/-- The member rows that an operation is given. -/
def members : Op → List Member
  | .commitAdoption id members .. => members.map fun m => { m with snapshotId := id }
  | .insertReconciledMembers _ members _ => members
  | .repairSkippedMember _ _ members => members
  | _ => []

/-- The anchors of a candidate that an operation is given. -/
def anchors : Op → List (SuiteKey × Str)
  | .insertCandidateSnapshot sc _ =>
    [sc.inReleaseHash, sc.releaseHash, sc.releaseGpgHash].reduceOption.map fun h => (sc.key, h)
  | _ => []

/-- The package rows that an operation is submitted with. -/
def packageRows : Op → List PackageHash
  | .commitAdoption _ _ _ rows _ _ _ _ => rows
  | .insertReconciledMembers _ _ rows => rows
  | _ => []

/-- `T` holds of the clock readings that the operation can start the clock of a blob with. -/
def Clocks (T : Int → Prop) : Op → Prop
  | .putBlob _ _ now | .heartbeatBlobs _ now | .evictURLPath _ now | .deleteSuiteMetadataRows _ now
  | .deleteURLPathRows _ now | .runURLPathGCBatch _ _ _ _ _ now | .reapIdleSuite _ _ _ now
  | .forgetSuite _ _ now | .createSuite _ _ _ now | .storeFetched _ _ _ now
  | .commitAdoption _ _ _ _ _ _ _ now | .applyLegacyAuditDecisions _ now => T now
  | .invalidateLegacyMetadata _ _ _ now => ∀ k, T (now k)
  | _ => True

theorem clocks_true (op : Op) : op.Clocks fun _ => True := by
  cases op <;> first | trivial | exact fun _ => trivial

/-- What the operation may write. -/
def given (op : Op) (db : Db) (T : Int → Prop) : Given where
  tab := op.tables.contains
  path k h := (k, h) ∈ op.paths db
  member m := m ∈ op.members
  anchor k h := (k, h) ∈ op.anchors
  package p := p ∈ op.packageRows
  clock := T
  collects := op.collects
  stamps := op.isPathGc
  forgets := op.forgets

theorem post_stmts (op : Op) (db : Db) {T : Int → Prop} (hT : op.Clocks T) :
    Tx.Post op.tx db fun _ db' => Stmts (op.given db T) db db' := by
  cases op with
  | putBlob => exact putBlob_stmts _ _ rfl hT db
  | heartbeatBlobs => exact heartbeatBlobs_stmts _ rfl hT db
  | runBlobGCBatch => exact (runBlobGCBatch_stmts _ _ _ rfl rfl).discard db
  | putURLPath u =>
    refine putURLPathStmt_stmts rfl (fun h hh => ?_) db
    simp [given, paths, hh]
  | touchURLPath =>
    exact Tx.post_modify.mpr (.single (.paths rfl (.updateAt (fun _ _ => .inl) fun _ _ _ hd => by cases hd)))
  | refreshURLPathBlob => exact (refreshURLPathBlob_stmts _ _ rfl List.mem_cons_self).discard db
  | evictURLPath => exact (deleteCachedRowTx_stmts _ ⟨rfl, rfl, hT⟩).discard db
  | deleteSuiteMetadataRows => exact (deleteSuiteMetadataRows_stmts _ ⟨rfl, rfl, hT⟩).discard db
  | deleteURLPathRows => exact (deleteURLPathRows_stmts _ ⟨rfl, rfl, hT⟩).discard db
  | runURLPathGCBatch => exact (runURLPathGCBatch_stmts _ _ _ _ _ ⟨rfl, rfl, hT⟩ rfl).discard db
  | markSignedSeenBatch => exact stmts_marks (markSignedSeenBatch_within _) rfl db
  | deleteOrphanMarkers =>
    exact (Tx.Within.forM fun _ _ => .modify fun _ => .single (.unmark rfl rfl)) db
  | reapIdleSuite => exact (deleteSuiteTx_stmts _ _ _ ⟨⟨rfl, rfl, rfl, hT⟩, rfl⟩).discard db
  | forgetSuite => exact (forgetSuite_stmts _ _ ⟨⟨rfl, rfl, rfl, hT⟩, rfl⟩ rfl rfl).discard db
  | createSuite => exact (createSuiteTx_stmts _ _ _ ⟨⟨rfl, rfl, rfl, hT⟩, rfl⟩).discard db
  | storeFetched m =>
    refine (storeFetchedTx_stmts _ _ ⟨⟨rfl, rfl, rfl, hT⟩, rfl⟩ rfl fun h hh => ?_).discard db
    simp [given, paths, hh]
  | touchSuite => exact Tx.post_modify.mpr (.single (.touch rfl fun _ => ⟨rfl, rfl, rfl⟩))
  | invalidateLegacyMetadata =>
    exact invalidateLegacyMetadata_stmts _ _ _ (fun k => ⟨rfl, rfl, hT k⟩) rfl db
  | insertCandidateSnapshot sc =>
    refine (insertCandidateSnapshot_stmts rfl fun h hh => ?_).discard db
    refine List.mem_map.mpr ⟨h, List.reduceOption_mem_iff.mpr ?_, rfl⟩
    simpa [eq_comm] using hh
  | heartbeatSnapshot =>
    exact Tx.post_modify.mpr (.single (.heads rfl (.map rfl fun _ => by split <;> rfl)
      (.update fun _ => ⟨rfl, fun _ => rfl⟩)))
  | commitAdoption =>
    refine commitAdoption_post _ _ _ ⟨⟨rfl, rfl, rfl, hT⟩, rfl⟩ rfl rfl rfl rfl
      (fun m hm => List.mem_map.mpr ⟨m, hm, rfl⟩) (fun _ hp => hp)
      (fun up hup => List.mem_append_left _ hup) fun s hs hid name hname h hh => ?_
    refine List.mem_append_right _ (List.mem_flatMap.mpr ⟨s, ?_, List.mem_filterMap.mpr
      ⟨name, hname, by rw [hh]; rfl⟩⟩)
    rw [find_eq_some.mpr ⟨hs, hid⟩]
    exact List.mem_singleton.mpr rfl
  | insertReconciledMembers =>
    exact insertReconciledMembers_stmts _ rfl rfl rfl (fun _ hm => hm) (fun _ hp => hp) db
  | repairSkippedMember => exact repairSkippedMember_stmts _ _ rfl rfl rfl (fun _ hm => hm) db
  | bumpSkippedMemberRetry => exact Tx.post_modify.mpr (.single (.skipped rfl))
  | runSnapshotGCBatch => exact (runSnapshotGCBatch_stmts _ _ _ _ ⟨rfl, rfl, rfl, rfl⟩).discard db
  | runRetiredSnapshotGCChunk =>
    exact (runRetiredSnapshotGCChunk_stmts _ ⟨rfl, rfl, rfl, rfl⟩).discard db
  | applyLegacyAuditDecisions =>
    exact applyLegacyAuditDecisions_stmts _ ⟨⟨rfl, rfl, rfl, hT⟩, rfl⟩ rfl rfl db
  | enqueueLegacyTrustAudit =>
    exact (Tx.Within.forM fun _ _ => .modify fun _ => .single (.audit rfl)) db

theorem commit_stmts (op : Op) (db : Db) {T : Int → Prop} (hT : op.Clocks T) :
    Stmts (op.given db T) db (op.tx.commit db) := by
  unfold Spec.Tx.commit
  split
  · exact op.post_stmts db hT _ _ ‹_›
  · exact .refl

/-- Every operation leaves the other tables as they were. -/
theorem commit_frame (op : Op) (db : Db) : Frame op.tables.contains db (op.tx.commit db) :=
  (op.commit_stmts db op.clocks_true).frame

/-- An operation that deletes no marker is a sequence of changes, with no other new members than it
is given. -/
theorem commit_changes {op : Op} (h : op.forgets = false) (db : Db) :
    Changes (· ∈ op.members) db (op.tx.commit db) :=
  (op.commit_stmts db op.clocks_true).changes h

end Op

/-- `ForgetSuite`: the markers of a base go last, when it has no suite row left. -/
theorem forgetSuite_within {N : Member → Prop} (key : SuiteKey) (want : Option Nat) (now : Int) :
    Tx.Within (Forgets N) (forgetSuite key want now) := by
  let g : Given := { Given.within fun _ => true with member := N, forgets := false }
  intro db
  refine Tx.post_bind.mpr ((deleteSuiteTx_stmts (g := g) key want none
    ⟨⟨rfl, rfl, rfl, trivial⟩, rfl⟩ db).mono fun out db₁ h₁ => ?_)
  have h₁ : Changes N db db₁ := h₁.changes rfl
  refine Tx.post_bind.mpr (Tx.post_get.mpr (Tx.post_ite.mpr ⟨fun hcond => ?_, fun _ => ?_⟩))
  · refine Tx.post_bind.mpr ((deleteBaseAnchorsTx_stmts (g := { g with tab := (· != .suites) }) _ _
      ⟨rfl, rfl, trivial⟩ db₁).mono fun _ db₂ h₂ => ?_)
    refine Tx.post_bind.mpr (Tx.post_modify.mpr (Tx.post_pure.mpr
      ⟨db₂, h₁.trans (h₂.changes rfl), rfl, _, rfl, fun m hm => ?_⟩))
    by_cases hgone : (m.key.host == key.host && m.key.base == Aptpath.markerBase key.suitePath) = true
    · right
      simp only [Bool.and_eq_true, beq_iff_eq] at hgone
      rw [hgone.1, hgone.2, Db.suitesAt, (Prod.mk.inj (h₂.frame .suites rfl)).1]
      exact Bool.eq_false_iff.mpr hcond.2
    · exact .inl ⟨m, mem_delete.mpr ⟨hm, by simpa using hgone⟩, rfl⟩
  · exact Tx.post_pure.mpr ⟨db₁, h₁, rfl, db₁.markers, rfl, fun m hm => .inl ⟨m, hm, rfl⟩⟩

/-- Every operation is a sequence of changes and then, perhaps, a deletion of markers. -/
theorem Op.commit_forgets (op : Op) (db : Db) :
    Forgets (· ∈ op.members) db (op.tx.commit db) := by
  cases hf : op.forgets with
  | false => exact (op.commit_changes hf db).forgets
  | true =>
    cases op with
    | forgetSuite key want now => exact (forgetSuite_within key want now).discard.commit db
    | deleteOrphanMarkers keys cutoff =>
      exact ⟨db, .refl, (deleteOrphanMarkers_within keys cutoff).commit db⟩
    | _ => cases hf

/-! ## Member rows -/

/-- Every member row is one that was there or one that the operation was given. -/
theorem Op.commit_added (op : Op) (db : Db) :
    ∀ m ∈ (op.tx.commit db).members, m ∈ db.members ∨ m ∈ op.members := by
  obtain ⟨mid, hc, -, markers, h, -⟩ := op.commit_forgets db
  rw [h]
  exact hc.added

/-- Every member row names the blob that it declares. -/
def Db.Agree (db : Db) : Prop := ∀ m ∈ db.members, m.blobHash = m.declared

/-- The operation is given such rows only, as adoption builds them. -/
def Op.agrees (op : Op) : Bool := op.members.all fun m => m.blobHash == m.declared

theorem Db.agree_of_all {db : Db}
    (h : db.members.rows.all (fun m => m.blobHash == m.declared) = true) : db.Agree :=
  fun m hm => beq_iff_eq.mp (List.all_eq_true.mp h m hm)

theorem Db.Agree.commit {db : Db} (h : db.Agree) {op : Op} (hop : op.agrees = true) :
    (op.tx.commit db).Agree := by
  intro m hm
  rcases op.commit_added db m hm with hm | hm
  · exact h m hm
  · exact beq_iff_eq.mp (List.all_eq_true.mp hop m hm)

end AptCacher.Cache
