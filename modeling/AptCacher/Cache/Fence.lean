import AptCacher.Cache.Pointer

/-!
# The publication fence of the legacy refresh

With adoption off, a miss reads the suite's row id and metadata generation before its download and
stores its result only if they are the same. The generation comes from one clock for all suites,
which a new row and an invalidation each advance.

* `Ticks`, `Op.commit_ticks`: a row keeps its generation, or has a new one, above the clock.
* `fenced`: reads of the generation beside any operations of the writer, with what happened to the
  suite since each read.
* `fence_holds`: a miss that is stored was not overtaken, if no suite row is deleted while a miss
  that found none is under way.
* `overtaken`: without that, a miss that found no row is stored after an invalidation.
-/

namespace AptCacher.Cache

open Spec Table

/-! ## The clock -/

/-- The row id and generation of a row. -/
def Suite.token (r : Suite) : MetadataGeneration := ⟨r.rowid, r.generation⟩

/-- What an operation does to tokens. -/
structure Ticks (db db' : Db) : Prop where
  /-- The clock does not go back. -/
  clock : db.metadataClock ≤ db'.metadataClock
  /-- Row ids stay positive. -/
  rowids : (∀ r ∈ db.suites, 1 ≤ r.rowid) → ∀ r ∈ db'.suites, 1 ≤ r.rowid
  /-- Every row has the token that it had, or a generation above the clock of before. -/
  tokens : ∀ r' ∈ db'.suites, (∃ r ∈ db.suites, r.key = r'.key ∧ r.token = r'.token) ∨
    (db.metadataClock < r'.generation ∧ r'.generation ≤ db'.metadataClock)

namespace Ticks

theorem refl (db : Db) : Ticks db db := ⟨le_rfl, id, fun r hr => .inl ⟨r, hr, rfl, rfl⟩⟩

instance : Std.Refl Ticks where
  refl := refl

instance : IsTrans Db Ticks where
  trans db db' db'' h h' := by
    refine ⟨h.clock.trans h'.clock, h'.rowids ∘ h.rowids, fun r'' hr'' => ?_⟩
    rcases h'.tokens r'' hr'' with ⟨r', hr', hkey', htoken'⟩ | ⟨hlt, hle⟩
    · rcases h.tokens r' hr' with ⟨r, hr, hkey, htoken⟩ | ⟨hlt, hle⟩
      · exact .inl ⟨r, hr, hkey.trans hkey', htoken.trans htoken'⟩
      · have hgen : r'.generation = r''.generation := congrArg MetadataGeneration.generation htoken'
        rw [hgen] at hlt hle
        exact .inr ⟨hlt, hle.trans h'.clock⟩
    · exact .inr ⟨h.clock.trans_lt hlt, hle⟩

variable {db : Db}

/-- The other tables do not matter. -/
theorem suites {suites snapshots blobs} (h : Ticks db { db with suites := suites }) :
    Ticks db { db with suites := suites, snapshots := snapshots, blobs := blobs } :=
  ⟨h.clock, h.rowids, h.tokens⟩

theorem deleteAt (k : SuiteKey) : Ticks db { db with suites := db.suites.deleteAt k } :=
  ⟨le_rfl, fun h r hr => h r (mem_deleteAt.mp hr).1,
    fun r hr => .inl ⟨r, (mem_deleteAt.mp hr).1, rfl, rfl⟩⟩

/-- A row update that keeps the token. -/
theorem update {p : Suite → Bool} {f : Assign Suite.key} (h : ∀ r, (f.run r).token = r.token) :
    Ticks db { db with suites := db.suites.update p f } := by
  have old : ∀ r' ∈ db.suites.update p f, ∃ r ∈ db.suites, r.key = r'.key ∧ r.token = r'.token := by
    intro r' hr'
    obtain ⟨r, hr, rfl⟩ := mem_update.mp hr'
    refine ⟨r, hr, ?_⟩
    split
    · exact ⟨(f.keeps r).symm, (h r).symm⟩
    · exact ⟨rfl, rfl⟩
  refine ⟨le_rfl, fun hid r' hr' => ?_, fun r' hr' => .inl (old r' hr')⟩
  obtain ⟨r, hr, -, htoken⟩ := old r' hr'
  have hrowid : r.rowid = r'.rowid := congrArg MetadataGeneration.rowid htoken
  exact hrowid ▸ hid r hr

/-- The row of a suite takes the next generation. -/
theorem next (key : SuiteKey) : Ticks db (db.nextGeneration key) := by
  refine ⟨Nat.le_succ _, fun hid r' hr' => ?_, fun r' hr' => ?_⟩
  · obtain ⟨r, hr, rfl⟩ := mem_update.mp hr'
    have := hid r hr
    split <;> exact this
  · obtain ⟨r, hr, rfl⟩ := mem_update.mp hr'
    split
    · exact .inr ⟨Nat.lt_succ_self _, le_rfl⟩
    · exact .inl ⟨r, hr, rfl, rfl⟩

end Ticks

variable {db : Db} {op : Op}

theorem Stmt.ticks {g : Given} {db' : Db} (h : Stmt g db db') : Ticks db db' := by
  cases h with
  | touch _ h =>
    refine .update fun r => ?_
    obtain ⟨-, hrowid, hgen⟩ := h r
    rw [Suite.token, Suite.token, hrowid, hgen]
  | next key => exact .next key
  | track _ hs _ hrowid hgen =>
    refine ⟨Nat.le_succ _, fun hid r hr => ?_, fun r hr => ?_⟩
    · rcases (mem_insert hs).mp hr with rfl | hr
      · exact hrowid
      · exact hid r hr
    · rcases (mem_insert hs).mp hr with rfl | hr
      · exact .inr ⟨hgen ▸ Nat.lt_succ_self _, hgen.le⟩
      · exact .inl ⟨r, hr, rfl, rfl⟩
  | adopt | quarantine => exact Ticks.suites (.update fun _ => rfl)
  | untrack => exact Ticks.suites (.deleteAt _)
  | _ => exact ⟨le_rfl, id, fun r hr => .inl ⟨r, hr, rfl, rfl⟩⟩

theorem Op.commit_ticks (op : Op) (db : Db) : Ticks db (op.tx.commit db) :=
  (op.commit_stmts db op.clocks_true).within fun _ _ hs => hs.ticks

/-! ## What the fence checks -/

/-- An invalidation that commits found the suite's row and left it with a new generation. -/
theorem invalidated_post {key : SuiteKey} {anchor old : Str} {now : UrlKey → Int} :
    Tx.Post (invalidateLegacyMetadata key anchor old now) db fun _ db' =>
      (∃ r ∈ db.suites, r.key = key) ∧ ∀ r ∈ db'.suites, r.key = key → db.metadataClock < r.generation := by
  refine Tx.post_bind.mpr (Tx.post_ensure.mpr fun _ => Tx.post_bind.mpr (Tx.post_get.mpr ?_))
  refine Tx.post_bind.mpr (Tx.post_getOr.mpr fun r hr => ?_)
  refine Tx.post_bind.mpr (Tx.post_ensure.mpr fun _ => Tx.post_bind.mpr (Tx.post_getOr.mpr fun u _ => ?_))
  refine Tx.post_bind.mpr (Tx.post_ensure.mpr fun _ => Tx.post_bind.mpr ?_)
  have rows : Tx.Within (Frame (· != .suites))
      ((db.urlPaths.select fun u => u.isMetadata && u.key.scheme == key.scheme &&
        u.key.host == key.host && Aptpath.suitePath u.key.path == key.suitePath &&
        !Aptpath.contains "/by-hash/".toList u.key.path).forM fun u => do
          let _ ← deleteCachedRowTx u.key (now u.key)
          pure ()) :=
    .forM fun _ _ => .bind (.of_stmts (deleteCachedRowTx_stmts _ ⟨rfl, rfl, trivial⟩)) fun _ => .pure _
  refine (rows db).mono fun _ mid hmid => Tx.post_modify.mpr ⟨⟨r, find_eq_some.mp hr⟩, fun r' hr' hkey => ?_⟩
  obtain ⟨-, hclock⟩ := Prod.mk.inj (hmid .suites rfl)
  obtain ⟨r₀, -, rfl⟩ := mem_update.mp hr'
  split
  · show db.metadataClock < mid.metadataClock + 1
    omega
  · rename_i hne
    rw [if_neg hne] at hkey
    exact absurd (decide_eq_true hkey) hne

theorem stored_token {m : FetchedRow} {caps : SuiteCaps} {held : Option SuiteKey} {now : Int}
    {g : MetadataGeneration} (hg : m.generation = some g)
    (hok : (storeFetchedTx m caps held now db).isOk = true) :
    db.metadataGeneration m.suite = g := by
  have hpost : Tx.Post (storeFetchedTx m caps held now) db fun _ _ => db.metadataGeneration m.suite = g := by
    refine Tx.post_bind.mpr (Tx.post_ensure.mpr fun _ => Tx.post_bind.mpr (Tx.post_get.mpr ?_))
    refine Tx.post_bind.mpr (Tx.post_ensure.mpr fun h => ?_)
    rw [hg, Option.all_some, beq_iff_eq] at h
    exact fun _ _ _ => h.symm
  obtain ⟨a, hrun⟩ := Tx.exists_of_isOk hok
  exact hpost a _ hrun

/-! ## Reads and writes -/

/-- A miss that read its suite's token and has not ended, with what happened to the suite since. -/
structure Read where
  key : SuiteKey
  token : MetadataGeneration
  /-- An invalidation of the suite committed. -/
  invalidated : Bool
  /-- The suite's row was deleted. -/
  deleted : Bool
  /-- The suite's row was inserted after it was deleted. -/
  recreated : Bool
  deriving DecidableEq

/-- An invalidation of the suite. -/
def Op.invalidates (key : SuiteKey) : Op → Bool
  | .invalidateLegacyMetadata k _ _ _ => k == key
  | _ => false

/-- What an operation adds to the record of a read. -/
def Read.after (db : Db) (op : Op) (f : Read) : Read :=
  { f with
    invalidated := f.invalidated || (op.invalidates f.key && (op.tx db).isOk)
    deleted := f.deleted || (db.tracks f.key && !(op.tx.commit db).tracks f.key)
    recreated := f.recreated ||
      (f.deleted && !db.tracks f.key && (op.tx.commit db).tracks f.key) }

/-- The database and the misses under way. -/
structure Fenced where
  db : Db
  reads : List Read

/-- `MetadataGeneration` at the start of a miss, an operation of the writer, and the end of a
miss. -/
inductive Fenced.Act
  | read (key : SuiteKey)
  | write (op : Op)
  | finish (i : Nat)

/-- Any interleaving, from any version-8 database. -/
def fenced : Sys Fenced Fenced.Act where
  init s := s.reads = [] ∧ ∀ r ∈ s.db.suites, 1 ≤ r.rowid ∧ r.generation ≤ s.db.metadataClock
  step s
    | .read key =>
      some { s with reads := s.reads ++ [⟨key, s.db.metadataGeneration (some key), false, false, false⟩] }
    | .write op => some ⟨op.tx.commit s.db, s.reads.map (Read.after s.db op)⟩
    | .finish i => some { s with reads := s.reads.eraseIdx i }

/-- The operation deletes no suite row that a miss under way did not find. -/
def keepsUnfound (s : Fenced) : Fenced.Act → Bool
  | .write op => s.reads.all fun f =>
    !(f.token == ⟨0, 0⟩ && s.db.tracks f.key && !(op.tx.commit s.db).tracks f.key)
  | _ => true

/-! ## The invariant -/

/-- What a read knows of the suite's row. -/
def Read.Sound (db : Db) (f : Read) : Prop :=
  (f.token = ⟨0, 0⟩ ∧ f.deleted = false ∧ (f.invalidated = true → db.tracks f.key = true)) ∨
  (1 ≤ f.token.rowid ∧ f.token.generation ≤ db.metadataClock ∧
    ((f.invalidated = true ∨ f.deleted = true) →
      ∀ r ∈ db.suites, r.key = f.key → f.token.generation < r.generation))

/-- Tokens are below the clock, and the reads are sound. -/
structure Fenced.Inv (s : Fenced) : Prop where
  rows : ∀ r ∈ s.db.suites, 1 ≤ r.rowid ∧ r.generation ≤ s.db.metadataClock
  sound : ∀ f ∈ s.reads, f.Sound s.db
  recreated : ∀ f ∈ s.reads, f.recreated = true → f.deleted = true

theorem Ticks.rows {db' : Db} (h : Ticks db db')
    (hrows : ∀ r ∈ db.suites, 1 ≤ r.rowid ∧ r.generation ≤ db.metadataClock) :
    ∀ r ∈ db'.suites, 1 ≤ r.rowid ∧ r.generation ≤ db'.metadataClock := by
  intro r hr
  refine ⟨h.rowids (fun r hr => (hrows r hr).1) r hr, ?_⟩
  rcases h.tokens r hr with ⟨r₀, hr₀, -, htoken⟩ | ⟨-, hle⟩
  · have hgen : r₀.generation = r.generation := congrArg MetadataGeneration.generation htoken
    exact hgen ▸ (hrows r₀ hr₀).2.trans h.clock
  · exact hle

/-- An operation that counts as an invalidation found the row, and left it a new generation. -/
theorem invalidates_ok {key : SuiteKey} (hop : op.invalidates key = true)
    (hok : (op.tx db).isOk = true) : db.tracks key = true ∧
      ∀ r ∈ (op.tx.commit db).suites, r.key = key → db.metadataClock < r.generation := by
  cases op with
  | invalidateLegacyMetadata k anchor old now =>
    obtain rfl : k = key := by simpa [Op.invalidates] using hop
    obtain ⟨hrow, hgen⟩ := invalidated_post _ _ (Tx.ok_commit hok)
    exact ⟨tracks_iff.mpr hrow, hgen⟩
  | _ => cases hop

/-- A read that found no row stays sound while no such row is deleted. -/
theorem Read.sound_after_unfound {f : Read} (htoken : f.token = ⟨0, 0⟩) (hdel : f.deleted = false)
    (hinv : f.invalidated = true → db.tracks f.key = true)
    (hkeep : db.tracks f.key = true → (op.tx.commit db).tracks f.key = true) :
    (f.after db op).Sound (op.tx.commit db) := by
  refine .inl ⟨htoken, ?_, fun h => ?_⟩
  · cases htr : db.tracks f.key with
    | false => simp [Read.after, hdel, htr]
    | true => simp [Read.after, hdel, htr, hkeep htr]
  · simp only [Read.after, Bool.or_eq_true, Bool.and_eq_true] at h
    rcases h with h | ⟨hop, hok⟩
    · exact hkeep (hinv h)
    · exact hkeep (invalidates_ok hop hok).1

/-- A read that found a row: whatever replaces its token has a newer generation. -/
theorem Read.sound_after_found {f : Read} (hid : 1 ≤ f.token.rowid)
    (hle : f.token.generation ≤ db.metadataClock)
    (hnew : (f.invalidated = true ∨ f.deleted = true) →
      ∀ r ∈ db.suites, r.key = f.key → f.token.generation < r.generation) :
    (f.after db op).Sound (op.tx.commit db) := by
  have hticks := op.commit_ticks db
  refine .inr ⟨hid, hle.trans hticks.clock, fun h r hr hkey => ?_⟩
  show f.token.generation < r.generation
  have hkey : r.key = f.key := hkey
  rcases hticks.tokens r hr with ⟨r₀, hr₀, hkey₀, htoken⟩ | ⟨hlt, -⟩
  · -- the row was there with this token, so the suite was overtaken before this operation
    have hgen : r₀.generation = r.generation := congrArg MetadataGeneration.generation htoken
    rw [← hgen]
    simp only [Read.after, Bool.or_eq_true, Bool.and_eq_true] at h
    rcases h with (h | ⟨hop, hok⟩) | (h | ⟨-, hgone⟩)
    · exact hnew (.inl h) r₀ hr₀ (hkey₀.trans hkey)
    · rw [hgen]
      exact hle.trans_lt ((invalidates_ok hop hok).2 r hr hkey)
    · exact hnew (.inr h) r₀ hr₀ (hkey₀.trans hkey)
    · rw [tracks_iff.mpr ⟨r, hr, hkey⟩] at hgone
      cases hgone
  · exact hle.trans_lt hlt

theorem metadataGeneration_cases (db : Db) (key : SuiteKey) :
    (db.tracks key = false ∧ db.metadataGeneration (some key) = ⟨0, 0⟩) ∨
      ∃ r ∈ db.suites, r.key = key ∧ db.metadataGeneration (some key) = r.token := by
  cases hfind : db.suites.find key with
  | none =>
    refine .inl ⟨by rw [Db.tracks, hfind]; rfl, ?_⟩
    simp only [Db.metadataGeneration, Option.bind_some, hfind]
  | some r =>
    obtain ⟨hr, hkey⟩ := find_eq_some.mp hfind
    refine .inr ⟨r, hr, hkey, ?_⟩
    simp only [Db.metadataGeneration, Option.bind_some, hfind, Suite.token]

theorem fenced_inductive :
    (fenced.guard fun s a => keepsUnfound s a = true).Inductive Fenced.Inv := by
  refine .of_guard (fun s h => ?_) fun s a s' hs hkeep hstep => ?_
  · refine ⟨h.2, ?_, ?_⟩ <;>
    · rw [h.1]
      exact fun f hf => (List.not_mem_nil hf).elim
  · cases a with
    | read key =>
      cases hstep
      refine ⟨hs.rows, fun f hf => ?_, fun f hf => ?_⟩
      · rcases List.mem_append.mp hf with hf | hf
        · exact hs.sound f hf
        · rw [List.mem_singleton.mp hf]
          rcases metadataGeneration_cases s.db key with ⟨-, hzero⟩ | ⟨r, hr, -, htoken⟩
          · exact .inl ⟨hzero, rfl, fun h => absurd h Bool.false_ne_true⟩
          · refine .inr ?_
            simp only [htoken]
            exact ⟨(hs.rows r hr).1, (hs.rows r hr).2, fun h => by simp at h⟩
      · rcases List.mem_append.mp hf with hf | hf
        · exact hs.recreated f hf
        · rw [List.mem_singleton.mp hf]
          exact fun h => absurd h Bool.false_ne_true
    | write op =>
      cases hstep
      refine ⟨(op.commit_ticks s.db).rows hs.rows, fun f' hf' => ?_, fun f' hf' hre => ?_⟩
      · obtain ⟨f, hf, rfl⟩ := List.mem_map.mp hf'
        rcases hs.sound f hf with ⟨htoken, hdel, hinv⟩ | ⟨hid, hle, hnew⟩
        · refine Read.sound_after_unfound htoken hdel hinv fun htr => ?_
          have := List.all_eq_true.mp hkeep f hf
          simpa [htoken, htr] using this
        · exact Read.sound_after_found hid hle hnew
      · obtain ⟨f, hf, rfl⟩ := List.mem_map.mp hf'
        simp only [Read.after, Bool.or_eq_true, Bool.and_eq_true] at hre ⊢
        rcases hre with hre | ⟨⟨hdel, -⟩, -⟩
        · exact .inl (hs.recreated f hf hre)
        · exact .inl hdel
    | finish i =>
      cases hstep
      exact ⟨hs.rows, fun f hf => hs.sound f (List.mem_of_mem_eraseIdx hf),
        fun f hf => hs.recreated f (List.mem_of_mem_eraseIdx hf)⟩

/-- A miss that is stored with the token that it read was not overtaken: no invalidation of the
suite committed since, and its row was not deleted and inserted again. -/
theorem fence_holds {s : Fenced} (h : (fenced.guard fun s a => keepsUnfound s a = true).Reach s)
    {f : Read} (hf : f ∈ s.reads) {m : FetchedRow} {caps : SuiteCaps} {held : Option SuiteKey} {now : Int}
    (hsuite : m.suite = some f.key) (hg : m.generation = some f.token)
    (hok : (storeFetchedTx m caps held now s.db).isOk = true) :
    f.invalidated = false ∧ f.recreated = false := by
  have inv := fenced_inductive.reach h
  have hnow := stored_token hg hok
  rw [hsuite] at hnow
  suffices hfree : f.invalidated = false ∧ f.deleted = false by
    refine ⟨hfree.1, ?_⟩
    by_contra hre
    rw [inv.recreated f hf (by simpa using hre)] at hfree
    cases hfree.2
  rcases inv.sound f hf with ⟨htoken, hdel, hinv⟩ | ⟨hid, -, hnew⟩
  · refine ⟨?_, hdel⟩
    rcases metadataGeneration_cases s.db f.key with ⟨hgone, -⟩ | ⟨r, hr, -, hr'⟩
    · by_contra hi
      rw [hinv (by simpa using hi)] at hgone
      cases hgone
    · have hrow := (inv.rows r hr).1
      rw [hr', htoken] at hnow
      rw [show r.rowid = 0 from congrArg MetadataGeneration.rowid hnow] at hrow
      cases hrow
  · rcases metadataGeneration_cases s.db f.key with ⟨-, hzero⟩ | ⟨r, hr, hkey, hr'⟩
    · rw [← hnow, hzero] at hid
      cases hid
    · rw [hr'] at hnow
      have hsame : r.generation = f.token.generation := congrArg MetadataGeneration.generation hnow
      have hnot : ¬ (f.invalidated = true ∨ f.deleted = true) := fun hover => by
        have := hnew hover r hr hkey
        omega
      simpa using hnot

/-- A miss of the suite's InRelease, which creates the row. -/
def anchorMiss : FetchedRow where
  row := ⟨⟨.http, "deb".toList, "/debian/dists/stable/InRelease".toList⟩, some (digest 'a'), true, some 2, 1,
    some 2, none⟩
  generation := some ⟨0, 0⟩
  suite := some stable
  create := some ⟨stable, 2, 2, []⟩
  markSeenAt := 2

/-- A miss of an index of the suite, with the token that it read. -/
def indexMiss (g : MetadataGeneration) : FetchedRow where
  row := ⟨⟨.http, "deb".toList, "/debian/dists/stable/main/binary-amd64/Packages".toList⟩,
    some (digest 'b'), true, some 6, 1, some 6, none⟩
  generation := some g
  suite := some stable
  create := none
  markSeenAt := 0

/-- The anchor is stored and the suite created, and the index is read. -/
def indexRun : List Fenced.Act :=
  [.write (.putBlob (digest 'a') 10 1), .write (.putBlob (digest 'b') 20 1),
    .write (.storeFetched anchorMiss ⟨0, 0⟩ none 2), .read stable]

/-- The cache after `indexRun`. -/
def indexCache : Fenced :=
  ((fenced.guard fun s a => keepsUnfound s a = true).exec ⟨Db.empty, []⟩ indexRun).getD ⟨Db.empty, []⟩

theorem fence_holds_index :
    indexCache.reads = [⟨stable, ⟨1, 1⟩, false, false, false⟩] ∧
    (storeFetchedTx (indexMiss ⟨1, 1⟩) ⟨0, 0⟩ none 6 indexCache.db).isOk = true ∧
    ∃ f ∈ indexCache.reads, f.invalidated = false ∧ f.recreated = false := by
  have hreads : indexCache.reads = [⟨stable, ⟨1, 1⟩, false, false, false⟩] := by decide +kernel
  have hok : (storeFetchedTx (indexMiss ⟨1, 1⟩) ⟨0, 0⟩ none 6 indexCache.db).isOk = true := by decide +kernel
  have hreach : (fenced.guard fun s a => keepsUnfound s a = true).Reach indexCache :=
    .exec ⟨rfl, fun r hr => (List.not_mem_nil hr).elim⟩ (eq_some_getD _ (by decide +kernel))
  have hf : ⟨stable, ⟨1, 1⟩, false, false, false⟩ ∈ indexCache.reads := by
    rw [hreads]
    exact List.mem_singleton_self _
  exact ⟨hreads, hok, _, hf, fence_holds hreach hf rfl rfl hok⟩

/-- Two misses find no row. The first is stored and creates it; the suite is invalidated and then
forgotten. -/
def overtakenRun : List Fenced.Act :=
  [.read stable, .read stable, .write (.putBlob (digest 'a') 10 1), .write (.putBlob (digest 'b') 20 1),
    .write (.storeFetched anchorMiss ⟨0, 0⟩ none 2), .finish 1,
    .write (.invalidateLegacyMetadata stable "/debian/dists/stable/InRelease".toList (digest 'a') fun _ => 4),
    .write (.forgetSuite stable none 5)]

/-- The cache after `overtakenRun`. -/
def overtakenCache : Fenced := (fenced.exec ⟨Db.empty, []⟩ overtakenRun).getD ⟨Db.empty, []⟩

/-- The second miss, which began before the invalidation, is stored after it. -/
theorem overtaken :
    fenced.Reach overtakenCache ∧ overtakenCache.reads = [⟨stable, ⟨0, 0⟩, true, true, false⟩] ∧
    (storeFetchedTx (indexMiss ⟨0, 0⟩) ⟨0, 0⟩ none 6 overtakenCache.db).isOk = true ∧
    (((storeFetchedTx (indexMiss ⟨0, 0⟩) ⟨0, 0⟩ none 6).commit overtakenCache.db).urlPaths.find
      (indexMiss ⟨0, 0⟩).row.key).bind UrlPath.blobHash = some (digest 'b') := by
  refine ⟨.exec ⟨rfl, fun r hr => (List.not_mem_nil hr).elim⟩ (eq_some_getD _ (by decide +kernel)),
    ?_, ?_, ?_⟩ <;> decide +kernel

end AptCacher.Cache
