import AptCacher.Cache.Change

/-!
# Which tables a transaction writes

* `Tab`, `Tab.Same`: the tables, each with the counter that its inserts use.
* `Frame`: what a transaction that writes only the tables of a list leaves unchanged.
-/

namespace AptCacher.Cache

open Spec Table

/-- The suite has a row. -/
def Db.tracks (db : Db) (key : SuiteKey) : Bool := (db.suites.find key).isSome

theorem tracks_iff {db : Db} {key : SuiteKey} : db.tracks key = true ↔ ∃ r ∈ db.suites, r.key = key := by
  rw [Db.tracks, Option.isSome_iff_exists]
  exact exists_congr fun r => find_eq_some

/-- The tables. -/
inductive Tab
  | blobs
  | urlPaths
  | suites
  | snapshots
  | members
  | skipped
  | packageHashes
  | markers
  | audit
  deriving DecidableEq

/-- The table is the same in both databases, and so is the counter that its inserts use. -/
def Tab.Same : Tab → Db → Db → Prop
  | .blobs, db, db' => db'.blobs = db.blobs
  | .urlPaths, db, db' => db'.urlPaths = db.urlPaths
  | .suites, db, db' => (db'.suites, db'.metadataClock) = (db.suites, db.metadataClock)
  | .snapshots, db, db' => (db'.snapshots, db'.snapshotSeq) = (db.snapshots, db.snapshotSeq)
  | .members, db, db' => db'.members = db.members
  | .skipped, db, db' => db'.skipped = db.skipped
  | .packageHashes, db, db' => db'.packageHashes = db.packageHashes
  | .markers, db, db' => db'.markers = db.markers
  | .audit, db, db' => db'.audit = db.audit

theorem Tab.Same.refl (t : Tab) (db : Db) : t.Same db db := by
  cases t <;> rfl

theorem Tab.Same.trans {t : Tab} {db db' db'' : Db} (h : t.Same db db') (h' : t.Same db' db'') :
    t.Same db db'' := by
  cases t <;> exact Eq.trans h' h

/-- Only tables in `W` were written. -/
def Frame (W : Tab → Bool) (db db' : Db) : Prop := ∀ t, W t = false → t.Same db db'

namespace Frame

variable {W : Tab → Bool} {db : Db}

instance : Std.Refl (Frame W) where
  refl db t _ := .refl t db

instance : IsTrans Db (Frame W) where
  trans _ _ _ h h' t ht := (h t ht).trans (h' t ht)

theorem blobs (h : W .blobs) {blobs} : Frame W db { db with blobs := blobs } := by
  intro t ht
  cases t with
  | blobs => cases h.symm.trans ht
  | _ => exact rfl

theorem urlPaths (h : W .urlPaths) {urlPaths} : Frame W db { db with urlPaths := urlPaths } := by
  intro t ht
  cases t with
  | urlPaths => cases h.symm.trans ht
  | _ => exact rfl

theorem suites (h : W .suites) {suites} {n : Nat} :
    Frame W db { db with suites := suites, metadataClock := n } := by
  intro t ht
  cases t with
  | suites => cases h.symm.trans ht
  | _ => exact rfl

theorem snapshots (h : W .snapshots) {snapshots} {n : Nat} :
    Frame W db { db with snapshots := snapshots, snapshotSeq := n } := by
  intro t ht
  cases t with
  | snapshots => cases h.symm.trans ht
  | _ => exact rfl

theorem members (h : W .members) {members} : Frame W db { db with members := members } := by
  intro t ht
  cases t with
  | members => cases h.symm.trans ht
  | _ => exact rfl

theorem skipped (h : W .skipped) {skipped} : Frame W db { db with skipped := skipped } := by
  intro t ht
  cases t with
  | skipped => cases h.symm.trans ht
  | _ => exact rfl

theorem packageHashes (h : W .packageHashes) {packageHashes} :
    Frame W db { db with packageHashes := packageHashes } := by
  intro t ht
  cases t with
  | packageHashes => cases h.symm.trans ht
  | _ => exact rfl

theorem markers (h : W .markers) {markers} : Frame W db { db with markers := markers } := by
  intro t ht
  cases t with
  | markers => cases h.symm.trans ht
  | _ => exact rfl

theorem audit (h : W .audit) {audit} : Frame W db { db with audit := audit } := by
  intro t ht
  cases t with
  | audit => cases h.symm.trans ht
  | _ => exact rfl

theorem keep {α : Type} {m : Tx α} (h : Tx.Within Eq m) : Tx.Within (Frame W) m :=
  h.mono fun db _ h => h ▸ Std.Refl.refl db

theorem marks {α : Type} {m : Tx α} (h : Tx.Within Marks m) (hm : W .markers) :
    Tx.Within (Frame W) m :=
  h.mono fun db db' h => by
    obtain ⟨markers, rfl, -⟩ := h
    exact .markers hm

end Frame

end AptCacher.Cache
