import AptCacher.Cache.Walk

/-!
# The hold-grace stamps of the cached paths

`dropped_at` of a `url_path` row is set by GC alone. Every other operation leaves the stamp of a row
as it is, deletes the row, or establishes the row anew and clears the stamp.

* `Unstamps`: every stamp that is there afterwards was there before; `Op.unstamps`: every operation
  but `url_path` GC is such.
* `Op.establishes`: the rows that an operation puts, touches, warms or seeds;
  `Op.post_establishes`: afterwards they have no stamp.
-/

namespace AptCacher.Cache

open Spec Table

/-- Every stamp was there before. -/
def Unstamps (db db' : Db) : Prop :=
  ∀ r' ∈ db'.urlPaths, ∀ d, r'.droppedAt = some d →
    ∃ r ∈ db.urlPaths, r.key = r'.key ∧ r.droppedAt = some d

/-- The row of the key, if there is one, has no stamp. -/
def Db.Unstamped (db : Db) (k : UrlKey) : Prop := ∀ r ∈ db.urlPaths, r.key = k → r.droppedAt = none

instance unstamps_refl : Std.Refl Unstamps where
  refl _ r hr _ hd := ⟨r, hr, rfl, hd⟩

instance unstamps_trans : IsTrans Db Unstamps where
  trans _ _ _ h₁ h₂ r₂ hr₂ d hd₂ := by
    obtain ⟨r₁, hr₁, hk₁, hd₁⟩ := h₂ r₂ hr₂ d hd₂
    obtain ⟨r, hr, hk, hd⟩ := h₁ r₁ hr₁ d hd₁
    exact ⟨r, hr, hk.trans hk₁, hd⟩

namespace Unstamps

variable {db db' : Db}

theorem unstamped (h : Unstamps db db') {k : UrlKey} (hk : db.Unstamped k) : db'.Unstamped k := by
  intro r' hr' hk'
  cases hd : r'.droppedAt with
  | none => rfl
  | some d =>
    obtain ⟨r, hr, hkey, hd'⟩ := h r' hr' d hd
    rw [hk r hr (hkey.trans hk')] at hd'
    cases hd'

/-- Statements that set no stamp. -/
theorem of_stmts {g : Given} (hg : g.stamps = false) (h : Stmts g db db') : Unstamps db db' := by
  refine h.within fun db db' hs => ?_
  cases hs with
  | paths _ h => exact h.stamped hg
  | _ => exact fun r hr _ hd => ⟨r, hr, rfl, hd⟩

end Unstamps

/-- Anything but a stamp. -/
def unstamping : Given := { Given.within fun _ => true with stamps := false }

theorem unstamps_within {α : Type} {m : Tx α} (h : Tx.Within (Stmts unstamping) m) :
    Tx.Within Unstamps m := h.mono fun _ _ h => .of_stmts rfl h

/-! ## The operations that establish cached paths -/

/-- Every stamp was there before, and the rows of `ks` have none. -/
def Establishes (ks : List UrlKey) (db db' : Db) : Prop :=
  Unstamps db db' ∧ ∀ k ∈ ks, db'.Unstamped k

namespace Establishes

variable {ks ks' : List UrlKey} {db db₁ : Db} {α : Type} {m : Tx α}

theorem nil (h : Unstamps db db₁) : Establishes [] db db₁ :=
  ⟨h, fun _ hk => absurd hk List.not_mem_nil⟩

/-- What comes after may establish more. -/
theorem append (h : Establishes ks db db₁)
    (hm : Tx.Post m db₁ fun _ db₂ => Establishes ks' db₁ db₂) :
    Tx.Post m db₁ fun _ db₂ => Establishes (ks ++ ks') db db₂ := by
  refine hm.mono fun _ db₂ h₂ => ⟨IsTrans.trans _ _ _ h.1 h₂.1, fun k hk => ?_⟩
  rcases List.mem_append.mp hk with hk | hk
  · exact h₂.1.unstamped (h.2 k hk)
  · exact h₂.2 k hk

theorem andThen (h : Establishes ks db db₁) (hm : Tx.Within Unstamps m) :
    Tx.Post m db₁ fun _ db₂ => Establishes ks db db₂ := by
  have := h.append ((hm db₁).mono fun _ _ h => .nil h)
  rwa [List.append_nil] at this

/-- An upsert of a row without a stamp. -/
theorem upsert {u : UrlPath} {f : Assign UrlPath.key} (hu : u.droppedAt = none)
    (hf : ∀ r, (f.run r).droppedAt = none) :
    Establishes [u.key] db { db with urlPaths := db.urlPaths.upsert u f } := by
  constructor
  · intro r' hr' d hd
    rcases mem_upsert hr' with hr | ⟨rfl, -⟩ | ⟨r, -, -, rfl⟩
    · exact ⟨r', hr, rfl, hd⟩
    · cases hu.symm.trans hd
    · cases (hf r).symm.trans hd
  · intro k hk r hr hkey
    obtain rfl := List.mem_singleton.mp hk
    have hfind := find_eq_some.mpr ⟨hr, hkey⟩
    rw [find_upsert, if_pos rfl] at hfind
    cases hold : db.urlPaths.find u.key with
    | none =>
      rw [hold] at hfind
      cases hfind
      exact hu
    | some r₀ =>
      rw [hold] at hfind
      cases hfind
      exact hf r₀

end Establishes

section Walk

variable {db : Db}

theorem putURLPathStmt_establishes (u : UrlPath) :
    Tx.Post (putURLPathStmt u) db fun _ db' => Establishes [u.key] db db' :=
  Tx.post_bind.mpr ((requireBlobs_keep _ db).mono fun _ _ h => h ▸
    Tx.post_modify.mpr (.upsert rfl fun _ => rfl))

theorem commitPrefetched_establishes (prefetched : List (UrlKey × Str)) (now : Int) :
    Tx.Post (commitPrefetched prefetched now) db fun _ db' =>
      Establishes (prefetched.map Prod.fst) db db' := by
  have each : Tx.Post (commitPrefetched prefetched now) db fun _ db' =>
      Unstamps db db' ∧ ∀ up ∈ prefetched, db'.Unstamped up.1 := by
    refine .forM_each (fun up _ db => ?_) fun _ _ _ h hk => h.unstamped hk
    refine Tx.post_bind.mpr (Tx.post_ensure.mpr fun _ => ?_)
    refine Tx.post_bind.mpr ((requireBlob_keep _ db).mono fun _ _ h => h ▸ ?_)
    exact Tx.post_modify.mpr (And.imp_right (fun h => h _ (List.mem_singleton_self _))
      (Establishes.upsert rfl fun _ => rfl))
  refine each.mono fun _ db' h => ⟨h.1, fun k hk => ?_⟩
  obtain ⟨up, hup, rfl⟩ := List.mem_map.mp hk
  exact h.2 up hup

/-- The cached paths of the anchors of a snapshot. -/
def Snapshot.seeds (s : Snapshot) : List UrlKey :=
  (s.form.anchorPaths.filter fun name => (s.anchorHash name).any (· ≠ [])).map fun name =>
    ⟨s.key.scheme, s.key.host, s.key.suitePath ++ '/' :: name⟩

theorem seedAnchors_establishes (s : Snapshot) (now : Int) :
    Tx.Post (seedAnchors s now) db fun _ db' => Establishes s.seeds db db' := by
  have each : Tx.Post (seedAnchors s now) db fun _ db' => Unstamps db db' ∧
      ∀ name ∈ s.form.anchorPaths, (s.anchorHash name).any (· ≠ []) = true →
        db'.Unstamped ⟨s.key.scheme, s.key.host, s.key.suitePath ++ '/' :: name⟩ := by
    refine .forM_each (fun name _ db => ?_) fun _ _ _ h hk hn => h.unstamped (hk hn)
    cases hh : s.anchorHash name with
    | none => exact Tx.post_pure.mpr ⟨Std.Refl.refl db, fun h => by cases h⟩
    | some h =>
      dsimp only
      refine Tx.post_ite.mpr ⟨fun hnil => ?_, fun hne => ?_⟩
      · exact Tx.post_pure.mpr ⟨Std.Refl.refl db, fun h => by simp [hnil] at h⟩
      · refine Tx.post_bind.mpr ((requireBlob_keep _ db).mono fun _ _ h => h ▸ ?_)
        exact Tx.post_modify.mpr (And.imp_right (fun h _ => h _ (List.mem_singleton_self _))
          (Establishes.upsert rfl fun _ => rfl))
  refine each.mono fun _ db' h => ⟨h.1, fun k hk => ?_⟩
  obtain ⟨name, hname, rfl⟩ := List.mem_map.mp hk
  obtain ⟨hname, hany⟩ := List.mem_filter.mp hname
  exact h.2 name hname hany

theorem storeFetchedTx_establishes (m : FetchedRow) (caps : SuiteCaps) (held : Option SuiteKey)
    (now : Int) :
    Tx.Post (storeFetchedTx m caps held now) db fun _ db' => Establishes [m.row.key] db db' := by
  have create : Tx.Within Unstamps (m.createTx caps held now) := by
    unfold FetchedRow.createTx
    split
    · exact .pure _
    · rw [map_eq_pure_bind]
      exact .bind (unstamps_within (createSuiteTx_stmts _ _ _ ⟨⟨rfl, rfl, rfl, trivial⟩, rfl⟩))
        fun _ => .pure _
  refine Tx.post_bind.mpr (Tx.post_ensure.mpr fun _ => Tx.post_bind.mpr (Tx.post_get.mpr ?_))
  refine Tx.post_bind.mpr (Tx.post_ensure.mpr fun _ => ?_)
  refine Tx.post_bind.mpr ((putURLPathStmt_establishes m.row).mono fun _ db₁ h₁ => ?_)
  refine Tx.post_bind.mpr ((h₁.andThen create).mono fun _ db₂ h₂ => ?_)
  split
  · exact Tx.post_pure.mpr h₂
  · refine h₂.andThen (.bind .get fun _ => .ite (fun _ => ?_) fun _ => .pure _)
    exact .bind (unstamps_within (stmts_marks (markSignedSeen_within _ _) rfl)) fun _ => .pure _

theorem flipPointer_unstamps (s : Snapshot) (stamp now : Int) :
    Tx.Within Unstamps (flipPointer s stamp now) := by
  have elsewhere : ∀ db db' : Db, db'.urlPaths = db.urlPaths → Unstamps db db' :=
    fun _ _ h r hr _ hd => ⟨r, h ▸ hr, rfl, hd⟩
  refine .bind (.modify fun _ => elsewhere _ _ rfl) fun _ => .bind .get fun _ =>
    .bind (.getOr _ _) fun r => .bind (.modify fun _ => elsewhere _ _ rfl) fun _ =>
    .bind (.modify fun _ => elsewhere _ _ rfl) fun _ =>
    .bind (.onlyIf fun _ => unstamps_within (stmts_marks (markSignedSeen_within _ _) rfl)) fun _ => ?_
  split
  · exact .modify fun _ => elsewhere _ _ rfl
  · exact .pure _

/-- What the flip warms and seeds has no stamp; what comes before does not matter. -/
theorem commitAdoption_unstamped (id : Nat) (members : List Member) (skipped : List Skipped)
    (packageHashes : List PackageHash) (prefetched : List (UrlKey × Str)) (coverage : Bool)
    (skipNow now : Int) :
    Tx.Post (commitAdoption id members skipped packageHashes prefetched coverage skipNow now) db
      fun _ db' => ∀ k ∈ prefetched.map Prod.fst ++
        (db.snapshots.find id).toList.flatMap Snapshot.seeds, db'.Unstamped k := by
  refine Tx.post_bind.mpr (Tx.post_get.mpr (Tx.post_bind.mpr (Tx.post_getOr.mpr fun s hs => ?_)))
  rw [hs, Option.toList_some, List.flatMap_singleton]
  have cover : Tx.Within Unstamps (modify fun db =>
      { db with
        snapshots := db.snapshots.updateAt id
          ⟨fun s => { s with coverage := coverage }, fun _ => rfl⟩ } : Tx Unit) :=
    .modify fun _ r hr _ hd => ⟨r, hr, rfl, hd⟩
  refine Tx.post_bind.mpr (Tx.post_ensure.mpr fun _ => Tx.post_bind.mpr (Tx.post_ensure.mpr
    fun _ => Tx.post_bind.mpr fun _ _ _ => Tx.post_bind.mpr fun _ _ _ => Tx.post_bind.mpr
    fun _ _ _ => Tx.post_bind.mpr fun _ db₄ _ => Tx.post_bind.mpr (Tx.post_get.mpr ?_)))
  refine Tx.post_bind.mpr ((commitPrefetched_establishes _ _).mono fun _ db₅ h₅ => ?_)
  refine Tx.post_bind.mpr ((h₅.andThen cover).mono fun _ db₆ h₆ => ?_)
  refine Tx.post_bind.mpr ((h₆.append (seedAnchors_establishes _ _)).mono fun _ db₇ h₇ => ?_)
  exact (h₇.andThen (flipPointer_unstamps _ _ _)).mono fun _ _ h => h.2

end Walk

/-! ## Every operation -/

namespace Op

/-- The rows that the operation puts, touches, warms or seeds. -/
def establishes (db : Db) : Op → List UrlKey
  | .putURLPath u => [u.key]
  | .storeFetched m _ _ _ => [m.row.key]
  | .touchURLPath k _ => [k]
  | .commitAdoption id _ _ _ prefetched _ _ _ =>
    prefetched.map Prod.fst ++ (db.snapshots.find id).toList.flatMap Snapshot.seeds
  | _ => []

/-- Every operation but `url_path` GC keeps the stamps of the rows that it does not establish, and
sets none. -/
theorem post_establishes (op : Op) (h : op.isPathGc = false) (db : Db) :
    Tx.Post op.tx db fun _ db' => Establishes (op.establishes db) db db' := by
  have unstamps : Tx.Post op.tx db fun _ db' => Unstamps db db' :=
    (op.post_stmts db op.clocks_true).mono fun _ _ h' => .of_stmts h h'
  suffices established : Tx.Post op.tx db fun _ db' => ∀ k ∈ op.establishes db, db'.Unstamped k from
    fun a db' hrun => ⟨unstamps a db' hrun, established a db' hrun⟩
  cases op with
  | putURLPath u => exact (putURLPathStmt_establishes u).mono fun _ _ h => h.2
  | storeFetched => exact (storeFetchedTx_establishes _ _ _ _).discard.mono fun _ _ h => h.2
  | commitAdoption => exact commitAdoption_unstamped _ _ _ _ _ _ _ _
  | touchURLPath k now =>
    refine Tx.post_modify.mpr fun k' hk r hr hkey => ?_
    obtain rfl := List.mem_singleton.mp hk
    rcases mem_updateAt.mp hr with ⟨-, hne⟩ | ⟨_, -, -, rfl⟩
    · exact absurd hkey hne
    · rfl
  | _ => exact fun _ _ _ k hk => absurd hk List.not_mem_nil

end Op

end AptCacher.Cache
