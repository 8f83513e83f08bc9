import AptCacher.Cache.Frame

/-!
# Statements

A statement writes one table, apart from those that move a current pointer, and says what the rows
of its table have to do with the rows before and with what the operation was given. Every relation
that an invariant needs is shown once for each kind of statement.

* `Given`: the tables that may be written, and the rows, stamps and deletions that may occur.
* `BlobRows`, `PathRows`, `Anchored`: the rows of a table after a statement.
* `Stmt`: the kinds of statement; `Stmts`: their sequences.
* `Stmts.frame`: the tables that a sequence leaves alone; `Stmts.changes`: its changes.
-/

namespace AptCacher.Cache

open Spec Table

/-! ## Statements -/

/-- What may be written: tables, cached blobs of paths, members, anchors of suites, package rows;
`clock` holds of the stamps that the clock of a blob may take. -/
structure Given where
  tab : Tab → Bool
  path : UrlKey → Str → Prop
  member : Member → Prop
  anchor : SuiteKey → Str → Prop
  package : PackageHash → Prop
  clock : Int → Prop
  /-- Blob rows may go. -/
  collects : Bool
  /-- Hold-grace stamps may be set. -/
  stamps : Bool
  /-- Markers may go. -/
  forgets : Bool

/-- Anything, but only in the tables `W`. -/
def Given.within (W : Tab → Bool) : Given where
  tab := W
  path _ _ := True
  member _ := True
  anchor _ _ := True
  package _ := True
  clock _ := True
  collects := true
  stamps := true
  forgets := true

/-- The clock of the blob, if it runs, started at a time of which `T` holds. -/
def Blob.Since (T : Int → Prop) (b : Blob) : Prop := ∀ z, b.zeroedAt = some z → T z

/-- Blob rows that nobody gained a pin on; none goes unless in GC, and its clock starts at a given
time. -/
structure BlobRows (g : Given) (old new : Table Blob Str Blob.hash) : Prop where
  eased : Eased old new
  kept : g.collects = false → ∀ b ∈ old, ∃ b' ∈ new, b'.hash = b.hash ∧
    (b.Since g.clock → b'.Since g.clock)

/-- Cached paths name the blobs that they named or given ones, and have the hold-grace stamps that
they had, unless in GC. -/
structure PathRows (g : Given) (old new : Table UrlPath UrlKey UrlPath.key) : Prop where
  named : ∀ u ∈ new, ∀ h, u.blobHash = some h →
    (∃ u₀ ∈ old, u₀.key = u.key ∧ u₀.blobHash = some h) ∨ g.path u.key h
  stamped : g.stamps = false → ∀ u ∈ new, ∀ d, u.droppedAt = some d →
    ∃ u₀ ∈ old, u₀.key = u.key ∧ u₀.droppedAt = some d

/-- Snapshots have the anchors that they had or given ones. -/
def Anchored (g : Given) (old new : Table Snapshot Nat Snapshot.id) : Prop :=
  ∀ s ∈ new, ∀ h, s.names h = true →
    (∃ s₀ ∈ old, s₀.id = s.id ∧ s₀.key = s.key ∧ s₀.names h = true) ∨ g.anchor s.key h

/-- What the lookup compares of a package row, and the hash. -/
def PackageHash.entry (p : PackageHash) : UrlKey × Str × Str := (p.url, p.declared, p.flatFilename)

/-- The tables of the current pointers may be written, and the time `now` is given. -/
structure Given.Moves (g : Given) (now : Int) : Prop where
  suites : g.tab .suites = true
  snapshots : g.tab .snapshots = true
  blobs : g.tab .blobs = true
  clock : g.clock now

/-- One statement, or the statements that move a current pointer. -/
inductive Stmt (g : Given) : Db → Db → Prop
  | blobs {db : Db} {blobs} : g.tab .blobs = true → BlobRows g db.blobs blobs →
      Stmt g db { db with blobs := blobs }
  | paths {db : Db} {urlPaths} : g.tab .urlPaths = true → PathRows g db.urlPaths urlPaths →
      Stmt g db { db with urlPaths := urlPaths }
  | mark {db : Db} {markers} : g.tab .markers = true →
      (∀ k, (∃ m ∈ db.markers, m.key = k) → ∃ m ∈ markers, m.key = k) →
      Stmt g db { db with markers := markers }
  | unmark {db : Db} {markers} : g.tab .markers = true → g.forgets = true →
      Stmt g db { db with markers := markers }
  | touch {db : Db} {key : SuiteKey} {f : Assign Suite.key} : g.tab .suites = true →
      (∀ r, (f.run r).current = r.current ∧ (f.run r).rowid = r.rowid ∧
        (f.run r).generation = r.generation) →
      Stmt g db { db with suites := db.suites.updateAt key f }
  | next {db : Db} (key : SuiteKey) : g.tab .suites = true → Stmt g db (db.nextGeneration key)
  | track {db : Db} {r : Suite} {suites} : g.tab .suites = true →
      db.suites.insert? r = some suites → r.current = none → 1 ≤ r.rowid →
      r.generation = db.metadataClock + 1 →
      Stmt g db { db with suites := suites, metadataClock := db.metadataClock + 1 }
  | heads {db : Db} {snapshots} : g.tab .snapshots = true →
      SameBy Snapshot.head db.snapshots snapshots → Anchored g db.snapshots snapshots →
      Stmt g db { db with snapshots := snapshots }
  | candidate {db : Db} {s : Snapshot} {snapshots} {n : Nat} : g.tab .snapshots = true →
      db.snapshots.insert? s = some snapshots → s.adoptedAt = none → s.retiredAt = none →
      s.content.isSome = true → db.collides s = none → (∀ h, s.names h = true → g.anchor s.key h) →
      Stmt g db { db with snapshots := snapshots, snapshotSeq := n }
  | members {db : Db} {members} : g.tab .members = true → (∀ m ∈ db.members, m ∈ members) →
      (∀ m ∈ members, m ∈ db.members ∨ g.member m) → Stmt g db { db with members := members }
  | grow {db : Db} {members} {id : Nat} {h : Str} : g.tab .members = true → g.tab .blobs = true →
      db.isCurrent id = true → db.binds id h = false → (∀ m ∈ db.members, m ∈ members) →
      (∀ m ∈ members, m ∈ db.members ∨ g.member m) →
      (∃ m ∈ members, m.snapshotId = id ∧ m.blobHash = h) →
      Stmt g db { db with
        members := members
        blobs := db.blobs.update (fun b => b.hash == h) Blob.bumped }
  | shrink {db : Db} {p} : g.tab .members = true →
      (∀ m ∈ db.members, p m = true → db.isCurrent m.snapshotId = false) →
      Stmt g db { db with members := db.members.delete p }
  | skipped {db : Db} {skipped} : g.tab .skipped = true → Stmt g db { db with skipped := skipped }
  | packages {db : Db} {packageHashes} : g.tab .packageHashes = true →
      (∀ p ∈ packageHashes, ∃ q, (q ∈ db.packageHashes ∨ g.package q) ∧ q.entry = p.entry) →
      Stmt g db { db with packageHashes := packageHashes }
  | audit {db : Db} {audit} : g.tab .audit = true → Stmt g db { db with audit := audit }
  | adopt {db : Db} {id : Nat} {key : SuiteKey} {r : Suite} {stamp now : Int} : g.Moves now →
      (∃ s ∈ db.snapshots, s.id = id ∧ s.key = key ∧ s.adoptedAt = none ∧ s.retiredAt = none) →
      r ∈ db.suites → r.key = key →
      (∀ s ∈ db.snapshots, s.key = key → ∀ a, s.adoptedAt = some a → a < stamp) →
      Stmt g db { db with
        blobs := db.unpinned r.current now (db.pinned id)
        suites := db.suites.updateAt key (Suite.pointed (some id))
        snapshots := db.snapshots.updateAt id (Snapshot.adopted stamp) }
  | untrack {db : Db} {r : Suite} {now : Int} : g.Moves now → r ∈ db.suites →
      Stmt g db { db with
        blobs := db.unpinned r.current now db.blobs
        snapshots := db.retire (fun s => s.key == r.key) now
        suites := db.suites.deleteAt r.key }
  | quarantine {db : Db} {id : Nat} {now : Int} : g.Moves now →
      Stmt g db { db with
        suites := db.suites.update (fun r => r.current == some id) (Suite.pointed none)
        blobs := db.unpinned (if db.isCurrent id then some id else none) now db.blobs
        snapshots := db.retire (fun s => s.id == id) now }
  | purge {db : Db} {p} : g.tab .snapshots = true →
      (∀ s ∈ db.snapshots, p s = true → db.isCurrent s.id = false) →
      Stmt g db { db with snapshots := db.snapshots.delete p }

/-- A sequence of statements. -/
abbrev Stmts (g : Given) : Db → Db → Prop := Relation.ReflTransGen (Stmt g)

variable {g : Given} {db db' : Db}

theorem Stmt.one (h : Stmt g db db') : Stmts g db db' := .single h

/-- What every statement stays within, a sequence stays within. -/
theorem Stmts.within {R : Db → Db → Prop} [Std.Refl R] [IsTrans Db R]
    (hR : ∀ db db', Stmt g db db' → R db db') (h : Stmts g db db') : R db db' := by
  induction h with
  | refl => exact Std.Refl.refl db
  | tail _ hs ih => exact IsTrans.trans _ _ _ ih (hR _ _ hs)

/-! ## What follows from the statements -/

/-- A statement that moves a pointer writes three tables. -/
theorem Frame.moves {now : Int} (h : g.Moves now) {blobs suites snapshots} :
    Frame g.tab db { db with blobs := blobs, suites := suites, snapshots := snapshots } := by
  intro t ht
  cases t with
  | blobs => cases h.blobs.symm.trans ht
  | suites => cases h.suites.symm.trans ht
  | snapshots => cases h.snapshots.symm.trans ht
  | _ => exact rfl

theorem Stmt.frame (h : Stmt g db db') : Frame g.tab db db' := by
  cases h with
  | blobs h => exact .blobs h
  | paths h => exact .urlPaths h
  | mark h | unmark h => exact .markers h
  | touch h | next _ h | track h => exact .suites h
  | heads h | candidate h | purge h => exact .snapshots h
  | members h | shrink h => exact .members h
  | grow hm hb =>
    rename_i members _ _ _ _ _ _ _
    have grown : Frame g.tab db { db with members := members } := .members hm
    exact IsTrans.trans _ _ _ grown (.blobs hb)
  | skipped h => exact .skipped h
  | packages h => exact .packageHashes h
  | audit h => exact .audit h
  | adopt h | untrack h | quarantine h => exact .moves h

theorem Stmts.frame (h : Stmts g db db') : Frame g.tab db db' := h.within fun _ _ hs => hs.frame

/-- The frame of a part of an operation. -/
theorem Frame.of_stmts {α : Type} {m : Tx α} {W : Tab → Bool}
    (h : Tx.Within (Stmts (.within W)) m) : Tx.Within (Frame W) m :=
  h.mono fun _ _ h => h.frame

theorem Stmt.changes (h : Stmt g db db') (hf : g.forgets = false) : Changes g.member db db' := by
  cases h with
  | blobs _ h => exact (Change.ease h.eased).one
  | mark _ h => exact (Change.mark h).one
  | unmark _ h => cases hf.symm.trans h
  | touch _ h =>
    refine .quiet rfl rfl rfl (.map rfl fun r => ?_) rfl
    rename_i f _
    split
    · exact Prod.ext (f.keeps r) (h r).1
    · rfl
  | next key => exact .quiet rfl rfl rfl (.map rfl fun _ => by split <;> rfl) rfl
  | track _ hs hc => exact (Change.track hs hc).one
  | heads _ h => exact .quiet rfl rfl rfl rfl h
  | candidate _ hs ha hr hc hcol => exact (Change.candidate hs ha hr hc hcol).one
  | members _ hsub hnew => exact (Change.add hsub hnew).one
  | grow _ _ hc hb hsub hnew hm => exact (Change.grow hc hb hsub hnew hm).one
  | shrink _ h => exact (Change.shrink h).one
  | adopt _ hs hr hk hst => exact (Change.adopt hs hr hk hst).one
  | untrack _ hr => exact (Change.untrack hr).one
  | quarantine => exact Change.quarantine.one
  | purge _ h => exact (Change.purge h).one
  | paths | skipped | packages | audit => exact .elsewhere rfl rfl rfl rfl rfl

theorem Stmts.changes (h : Stmts g db db') (hf : g.forgets = false) : Changes g.member db db' :=
  h.within fun _ _ hs => hs.changes hf

/-! ## The rows of a table after a statement -/

theorem Blob.Since.release {T : Int → Prop} {now : Int} (hT : T now) {b : Blob} (h : b.Since T) :
    (b.release now).Since T := by
  intro z hz
  cases hb : b.zeroedAt with
  | some z' =>
    simp only [Blob.release, hb, Option.orElse_eq_orElse, Option.orElse_some] at hz
    exact h z (hb.trans hz)
  | none =>
    simp only [Blob.release, hb, Option.orElse_eq_orElse, Option.orElse_none] at hz
    split at hz
    · cases hz
      exact hT
    · cases hz

theorem Blob.Since.bump {T : Int → Prop} {b : Blob} (h : b.Since T) : b.bump.Since T := by
  intro z hz
  simp only [Blob.bump] at hz
  split at hz
  · cases hz
  · exact h z hz

theorem kept_update {t : Table Blob Str Blob.hash} {p : Blob → Bool} {f : Assign Blob.hash}
    {T : Int → Prop} (h : ∀ b, b.Since T → (f.run b).Since T) :
    ∀ b ∈ t, ∃ b' ∈ t.update p f, b'.hash = b.hash ∧ (b.Since T → b'.Since T) := by
  intro b hb
  refine ⟨_, mem_update.mpr ⟨b, hb, rfl⟩, ?_, ?_⟩
  · split
    · exact f.keeps b
    · rfl
  · split
    · exact h b
    · exact id

theorem BlobRows.release {t : Table Blob Str Blob.hash} {p : Blob → Bool} {now : Int}
    (hT : g.clock now) : BlobRows g t (t.update p (Blob.released now)) :=
  ⟨.update_release, fun _ => kept_update fun _ h => h.release hT⟩

namespace PathRows

variable {t : Table UrlPath UrlKey UrlPath.key} {k : UrlKey} {f : Assign UrlPath.key}

/-- An upsert of a cached path with a given blob, without a stamp. -/
theorem upsert {r : UrlPath} (hr : ∀ h, r.blobHash = some h → g.path r.key h)
    (hf : ∀ u, u.key = r.key → (f.run u).blobHash = r.blobHash) (hd : r.droppedAt = none)
    (hfd : ∀ u, (f.run u).droppedAt = none) : PathRows g t (t.upsert r f) := by
  refine ⟨fun u hu h hh => ?_, fun _ u hu d hdu => ?_⟩
  · rcases mem_upsert hu with hu | ⟨rfl, -⟩ | ⟨u₀, -, hk, rfl⟩
    · exact .inl ⟨u, hu, rfl, hh⟩
    · exact .inr (hr h hh)
    · rw [f.keeps, hk]
      exact .inr (hr h ((hf u₀ hk).symm.trans hh))
  · rcases mem_upsert hu with hu | ⟨rfl, -⟩ | ⟨u₀, -, hk, rfl⟩
    · exact ⟨u, hu, rfl, hdu⟩
    · cases hd.symm.trans hdu
    · cases (hfd u₀).symm.trans hdu

theorem updateAt (hn : ∀ u h, (f.run u).blobHash = some h → u.blobHash = some h ∨ g.path k h)
    (hd : g.stamps = false → ∀ u d, (f.run u).droppedAt = some d → u.droppedAt = some d) :
    PathRows g t (t.updateAt k f) := by
  refine ⟨fun u hu h hh => ?_, fun hs u hu d hdu => ?_⟩
  · rcases mem_updateAt.mp hu with ⟨hu, -⟩ | ⟨u₀, hu₀, hk, rfl⟩
    · exact .inl ⟨u, hu, rfl, hh⟩
    · rw [f.keeps, hk]
      exact (hn u₀ h hh).imp_left fun hh => ⟨u₀, hu₀, hk, hh⟩
  · rcases mem_updateAt.mp hu with ⟨hu, -⟩ | ⟨u₀, hu₀, -, rfl⟩
    · exact ⟨u, hu, rfl, hdu⟩
    · exact ⟨u₀, hu₀, (f.keeps u₀).symm, hd hs u₀ d hdu⟩

theorem deleteAt : PathRows g t (t.deleteAt k) :=
  ⟨fun u hu _ h => .inl ⟨u, (mem_deleteAt.mp hu).1, rfl, h⟩,
    fun _ u hu _ h => ⟨u, (mem_deleteAt.mp hu).1, rfl, h⟩⟩

end PathRows

/-- An update that leaves the anchors alone. -/
theorem Anchored.update {t : Table Snapshot Nat Snapshot.id} {p : Snapshot → Bool}
    {f : Assign Snapshot.id} (h : ∀ s, (f.run s).key = s.key ∧ ∀ h, (f.run s).names h = s.names h) :
    Anchored g t (t.update p f) := by
  intro s hs hash hh
  obtain ⟨s₀, hs₀, rfl⟩ := mem_update.mp hs
  left
  split at hh
  · rename_i hp
    rw [if_pos hp]
    exact ⟨s₀, hs₀, (f.keeps s₀).symm, (h s₀).1.symm, ((h s₀).2 hash).symm.trans hh⟩
  · rename_i hp
    rw [if_neg hp]
    exact ⟨s₀, hs₀, rfl, rfl, hh⟩

end AptCacher.Cache
