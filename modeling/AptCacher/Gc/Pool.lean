import AptCacher.Cache.Pins
import AptCacher.Cache.Rows

/-!
# Blob GC and the pool

A download looks whether its file is in the pool, keeps that file or renames its own into place,
writes the blob row and then commits a row that names the blob. Blob GC deletes the rows of blobs
that nothing names, and unlinks their files afterwards, one by one, outside any lock.

The clock of a blob row protects a download from its `PutBlob` on. It does not protect it before:
a file whose unlink is still pending is taken for present, and a row that is deleted between the look
and `PutBlob` takes the file with it.

* `World`, `step`: the downloads, the database, the pool and the pending unlinks, in any order.
* `calm`: no download looks at or renames a file whose unlink is pending, and no batch deletes the row
  of a file that a download has found or placed and not written yet.
* `referenced_file`: in runs of such steps every blob that a row names has its file.
* `deduped_lost`: a run in which a download keeps a file that is unlinked afterwards.
-/

namespace AptCacher.Gc

open Spec Cache Table

/-- How far a download is. -/
inductive Phase
  /-- Its file is in `tmp/`. -/
  | temp
  /-- The pool had no file of the hash. -/
  | absent
  /-- The file was in the pool, or was renamed into it. -/
  | placed
  /-- `PutBlob` has committed. -/
  | put
  deriving DecidableEq

/-- A download; `began` is when it looked for its file in the pool. -/
structure Download where
  hash : Str
  phase : Phase
  began : Int
  deriving DecidableEq

/-- The database, the hashes that have a pool file, the downloads, the unlinks that blob GC has yet
to make, and the clock. -/
structure World where
  db : Db
  pool : List Str
  downloads : List Download
  pending : List Str
  now : Int

/-- What happens. -/
inductive Act
  | start (hash : Str)
  /-- `os.Stat`. -/
  | stat (i : Nat)
  /-- `os.Rename`. -/
  | rename (i : Nat)
  | putBlob (i : Nat) (size : Int)
  /-- Any other writer operation, with the clock's reading. -/
  | commit (op : Op)
  /-- A download ends, or fails. -/
  | leave (i : Nat)
  | tick (seconds : Nat)
  | gcBatch (batchSize : Int)
  /-- The unlink of a file, or its failure. -/
  | unlink (i : Nat) (removed : Bool)

namespace World

/-- The download `i` goes on. -/
def onDownload (w : World) (i : Nat) (d : Download) : World := { w with downloads := w.downloads.set i d }

/-- A row may name the blob: one names it already, or a download of it has written its blob row, no
longer than the blob grace after it looked for the file. -/
def mayName (w : World) (grace : Int) (h : Str) : Bool :=
  w.db.references h || w.downloads.any fun d =>
    d.hash == h && d.phase == .put && decide (w.now ≤ d.began + grace)

end World

/-- One step; `grace` is `gc.blob_grace`. -/
def step (grace : Int) (w : World) : Act → Option World
  | .start h => some { w with downloads := w.downloads ++ [⟨h, .temp, w.now⟩] }
  | .stat i =>
    match w.downloads[i]? with
    | some ⟨h, .temp, _⟩ =>
      some (w.onDownload i ⟨h, if w.pool.contains h then .placed else .absent, w.now⟩)
    | _ => none
  | .rename i =>
    match w.downloads[i]? with
    | some ⟨h, .absent, t⟩ => some ({ w with pool := h :: w.pool }.onDownload i ⟨h, .placed, t⟩)
    | _ => none
  | .putBlob i size =>
    match w.downloads[i]? with
    | some ⟨h, .placed, t⟩ =>
      if validBlobHash h then
        some ({ w with db := (Op.putBlob h size w.now).tx.commit w.db }.onDownload i ⟨h, .put, t⟩)
      else none
    | _ => none
  | .commit op =>
    if op.collects = false ∧ ((op.at w.now).blobs w.db).all (w.mayName grace) = true then
      some { w with db := (op.at w.now).tx.commit w.db }
    else none
  | .leave i => some { w with downloads := w.downloads.eraseIdx i }
  | .tick seconds => some { w with now := w.now + seconds }
  | .gcBatch n =>
    match Cache.runBlobGCBatch n grace w.now w.db with
    | .ok (reaped, db) => some { w with db := db, pending := w.pending ++ reaped.map Prod.fst }
    | .error _ => none
  | .unlink i removed =>
    match w.pending[i]? with
    | some h => some { w with
        pending := w.pending.eraseIdx i
        pool := if removed then w.pool.filter fun h' => h' != h else w.pool }
    | none => none

/-- Downloads and blob GC, over a database of the writer whose named blobs have their files. -/
def sys (grace : Int) : Sys World Act where
  init w := Cache.sys.Reach w.db ∧ (∀ h, w.db.references h = true → h ∈ w.pool) ∧
    w.downloads = [] ∧ w.pending = []
  step := step grace

/-- The condition on a step. -/
def calm (grace : Int) (w : World) : Act → Bool
  | .stat i | .rename i => w.downloads[i]?.all fun d => !w.pending.contains d.hash
  | .gcBatch n =>
    match Cache.runBlobGCBatch n grace w.now w.db with
    | .ok (reaped, _) => reaped.all fun r =>
      !w.downloads.any fun d => d.phase == .placed && d.hash == r.1
    | .error _ => true
  | _ => true

/-! ## The batch -/

variable {db : Db}

/-- Blob GC deletes and returns blobs that the database can spare. -/
theorem runBlobGCBatch_spec {n grace now : Int} {db' : Db} {reaped : List (Str × Int)}
    (h : Cache.runBlobGCBatch n grace now db = .ok (reaped, db')) :
    (∃ p, db' = { db with blobs := db.blobs.delete p } ∧
      ∀ b, p b = true → db.reapable (now - grace) b = true) ∧
    ∀ r ∈ reaped, ∃ b ∈ db.blobs, b.hash = r.1 ∧ db.reapable (now - grace) b = true := by
  have post : Tx.Post (Cache.runBlobGCBatch n grace now) db fun reaped db' =>
      (∃ p, db' = { db with blobs := db.blobs.delete p } ∧
        ∀ b, p b = true → db.reapable (now - grace) b = true) ∧
      ∀ r ∈ reaped, ∃ b ∈ db.blobs, b.hash = r.1 ∧ db.reapable (now - grace) b = true := by
    refine Tx.post_bind.mpr (Tx.post_ensure.mpr fun _ => Tx.post_bind.mpr (Tx.post_get.mpr ?_))
    refine Tx.post_bind.mpr (Tx.post_modify.mpr (Tx.post_pure.mpr ⟨⟨_, rfl, fun b hb => ?_⟩, ?_⟩))
    · simp only [Bool.and_eq_true] at hb
      exact hb.2
    · intro r hr
      obtain ⟨b, hb, rfl⟩ := List.mem_map.mp hr
      have hsel := (List.mem_insertionSort _).mp (List.mem_of_mem_take hb)
      exact ⟨b, (mem_select.mp hsel).1, rfl, (mem_select.mp hsel).2⟩
  exact post reaped db' h

theorem not_references_of_reapable {cutoff : Int} {b : Blob} (h : db.reapable cutoff b = true) :
    db.references b.hash = false := by
  simp only [Db.reapable, Bool.and_eq_true, Bool.not_eq_true'] at h
  exact h.2

theorem not_reapable_of_since {cutoff t : Int} {b : Blob} (hs : b.Since (t ≤ ·)) (ht : cutoff ≤ t) :
    db.reapable cutoff b = false := by
  cases hr : db.reapable cutoff b with
  | false => rfl
  | true =>
    simp only [Db.reapable, Bool.and_eq_true, Option.any_eq_true, decide_eq_true_eq] at hr
    obtain ⟨⟨-, z, hz, hlt⟩, -⟩ := hr
    have := hs z hz
    omega

/-! ## The invariant -/

/-- The blob has its file, and blob GC will not take it. -/
def World.Held (w : World) (h : Str) : Prop := h ∈ w.pool ∧ h ∉ w.pending

/-- The invariant of runs of calm steps. -/
structure Inv (grace : Int) (w : World) : Prop where
  db : Pointers w.db ∧ Ledger w.db
  named : ∀ h, w.db.references h = true → w.Held h
  placed : ∀ d ∈ w.downloads, d.phase = .placed → w.Held d.hash
  /-- Within the grace the clock of its blob row protects a download. -/
  put : ∀ d ∈ w.downloads, d.phase = .put → w.now ≤ d.began + grace → w.Held d.hash ∧
    ∃ b ∈ w.db.blobs, b.hash = d.hash ∧ b.Since (d.began ≤ ·)
  began : ∀ d ∈ w.downloads, d.began ≤ w.now

namespace Inv

variable {grace : Int} {w : World}

variable {x : Str} {i : Nat} {t : Int}

theorem held_of_mayName (h : Inv grace w) (hx : w.mayName grace x = true) : w.Held x := by
  simp only [World.mayName, Bool.or_eq_true, List.any_eq_true, Bool.and_eq_true, beq_iff_eq,
    decide_eq_true_eq] at hx
  rcases hx with hx | ⟨d, hd, ⟨rfl, hp⟩, ht⟩
  · exact h.named x hx
  · exact (h.put d hd hp ht).1

theorem onDownloads (h : Inv grace w) {downloads : List Download}
    (hnew : ∀ d ∈ downloads, d ∈ w.downloads ∨ d.began ≤ w.now ∧
      (d.phase = .placed → w.Held d.hash) ∧ (d.phase = .put → w.now ≤ d.began + grace →
        w.Held d.hash ∧ ∃ b ∈ w.db.blobs, b.hash = d.hash ∧ b.Since (d.began ≤ ·))) :
    Inv grace { w with downloads := downloads } where
  db := h.db
  named := h.named
  placed d hd hp := (hnew d hd).elim (fun hd => h.placed d hd hp) fun hn => hn.2.1 hp
  put d hd hp ht := (hnew d hd).elim (fun hd => h.put d hd hp ht) fun hn => hn.2.2 hp ht
  began d hd := (hnew d hd).elim (h.began d) fun hn => hn.1

theorem onDownload (h : Inv grace w) {d : Download} (hb : d.began ≤ w.now)
    (hplaced : d.phase = .placed → w.Held d.hash) (hput : d.phase = .put → w.now ≤ d.began + grace →
      w.Held d.hash ∧ ∃ b ∈ w.db.blobs, b.hash = d.hash ∧ b.Since (d.began ≤ ·)) :
    Inv grace (w.onDownload i d) := by
  refine h.onDownloads fun d' hd' => ?_
  rcases List.mem_or_eq_of_mem_set hd' with hd' | rfl
  · exact .inl hd'
  · exact .inr ⟨hb, hplaced, hput⟩

/-- A writer operation names only blobs that have their files, and spares the blob rows. -/
theorem onCommit (h : Inv grace w) {op : Op} (hc : op.collects = false) (hT : ∀ t ≤ w.now, op.Clocks (t ≤ ·))
    (hb : ∀ x ∈ op.blobs w.db, w.Held x) : Inv grace { w with db := op.tx.commit w.db } where
  db := ledger_inductive.step w.db op _ h.db rfl
  named x hx := by
    have hT := hT w.now (Int.le_refl _)
    rcases (op.commit_adds w.db hT hc).references hx with hx | hx
    · exact h.named x hx
    · exact hb x hx
  placed := h.placed
  put d hd hp ht := by
    obtain ⟨hheld, b, hbm, hh, hs⟩ := h.put d hd hp ht
    obtain ⟨b', hb', hh', hs'⟩ := (op.commit_adds w.db (hT d.began (h.began d hd)) hc).blobs b hbm
    exact ⟨hheld, b', hb', hh'.trans hh, hs' hs⟩
  began := h.began

/-- `PutBlob` starts the clock of the row, unless a current snapshot pins the blob. -/
theorem putBlob_since {db : Db} (hdb : Ledger db) {h : Str} (hv : validBlobHash h = true)
    {size now : Int} (ht : t ≤ now) :
    ∃ b ∈ ((Op.putBlob h size now).tx.commit db).blobs, b.hash = h ∧ b.Since (t ≤ ·) := by
  let fresh : Blob := ⟨h, size, now, 0, some now⟩
  let stamp : Assign Blob.hash :=
    ⟨fun b => if b.refcount ≤ 0 then { b with zeroedAt := some now } else b, fun b => by split <;> rfl⟩
  have hcommit : (Op.putBlob h size now).tx.commit db =
      { db with blobs := db.blobs.upsert fresh stamp } := by
    show (Cache.putBlob h size now).commit db = _
    unfold Cache.putBlob Tx.ensure
    rw [if_pos hv]
    rfl
  rw [hcommit]
  show ∃ b ∈ db.blobs.upsert fresh stamp, b.hash = h ∧ b.Since (t ≤ ·)
  unfold Table.upsert
  cases hi : db.blobs.insert? fresh with
  | some blobs =>
    refine ⟨fresh, (mem_insert hi).mpr (.inl rfl), rfl, ?_⟩
    rintro z ⟨⟩
    exact ht
  | none =>
    obtain ⟨b, hb, hk⟩ := exists_of_insert_none hi
    exact ⟨_, mem_updateAt.mpr (.inr ⟨b, hb, hk, rfl⟩), (stamp.keeps b).trans hk,
      since_of_clocked (hdb.clock b hb) ht⟩
where
  since_of_clocked {b : Blob} {now t : Int} (hc : b.Clocked) (ht : t ≤ now) :
      (if b.refcount ≤ 0 then { b with zeroedAt := some now } else b).Since (t ≤ ·) := by
    split
    · rintro z ⟨⟩
      exact ht
    · rename_i hpos
      intro z hz
      exact absurd (hc.mpr (by rw [hz]; rfl)) hpos

/-- A calm batch takes no file that somebody relies on. -/
theorem onBatch (h : Inv grace w) {n : Int} {db : Db} {reaped : List (Str × Int)}
    (hrun : Cache.runBlobGCBatch n grace w.now w.db = .ok (reaped, db))
    (hcalm : ∀ r ∈ reaped, ∀ d ∈ w.downloads, d.phase = .placed → d.hash ≠ r.1) :
    Inv grace { w with db := db, pending := w.pending ++ reaped.map Prod.fst } := by
  obtain ⟨⟨p, rfl, hp⟩, hreaped⟩ := runBlobGCBatch_spec hrun
  have hold : ∀ x, w.Held x → (∀ b ∈ w.db.blobs, b.hash = x → w.db.reapable (w.now - grace) b = false) →
      x ∈ w.pool ∧ x ∉ w.pending ++ reaped.map Prod.fst := by
    rintro x ⟨hpool, hpend⟩ hspare
    refine ⟨hpool, fun hx => ?_⟩
    rcases List.mem_append.mp hx with hx | hx
    · exact hpend hx
    · obtain ⟨r, hr, rfl⟩ := List.mem_map.mp hx
      obtain ⟨b, hb, hh, hreap⟩ := hreaped r hr
      rw [hspare b hb hh] at hreap
      cases hreap
  refine ⟨?_, fun x hx => ?_, fun d hd hph => ?_, fun d hd hph ht => ?_, h.began⟩
  · have hcommit : (Op.runBlobGCBatch n grace w.now).tx.commit w.db =
        { w.db with blobs := w.db.blobs.delete p } :=
      (Tx.commit_discard _ _).trans (Tx.commit_of_ok hrun)
    exact hcommit ▸ ledger_inductive.step w.db (.runBlobGCBatch n grace w.now) _ h.db rfl
  · refine hold x (h.named x hx) fun b _ hh => ?_
    cases hreap : w.db.reapable (w.now - grace) b with
    | false => rfl
    | true =>
      have hn := not_references_of_reapable hreap
      rw [hh] at hn
      exact absurd (show w.db.references x = true from hx) (by rw [hn]; decide)
  · obtain ⟨hpool, hpend⟩ := h.placed d hd hph
    refine ⟨hpool, fun hx => ?_⟩
    rcases List.mem_append.mp hx with hx | hx
    · exact hpend hx
    · obtain ⟨r, hr, he⟩ := List.mem_map.mp hx
      exact hcalm r hr d hd hph he.symm
  · obtain ⟨hheld, b, hb, hh, hs⟩ := h.put d hd hph ht
    have hcut : w.now - grace ≤ d.began := by
      have : w.now ≤ d.began + grace := ht
      omega
    have hspare : w.db.reapable (w.now - grace) b = false := not_reapable_of_since hs hcut
    refine ⟨hold d.hash hheld fun b' hb' hh' => ?_, b, ?_, hh, hs⟩
    · rw [eq_of_key hb' hb (hh'.trans hh.symm)]
      exact hspare
    · refine mem_delete.mpr ⟨hb, Bool.eq_false_iff.mpr fun hpb => ?_⟩
      rw [hp b hpb] at hspare
      cases hspare

/-- Files come, and files go that nobody relies on. -/
theorem onPool (h : Inv grace w) {pool pending : List Str}
    (hk : ∀ x, w.Held x → x ∈ pool ∧ x ∉ pending) :
    Inv grace { w with pool := pool, pending := pending } where
  db := h.db
  named x hx := hk x (h.named x hx)
  placed d hd hp := hk _ (h.placed d hd hp)
  put d hd hp ht := ⟨hk _ (h.put d hd hp ht).1, (h.put d hd hp ht).2⟩
  began := h.began

theorem tick (h : Inv grace w) (seconds : Nat) : Inv grace { w with now := w.now + seconds } where
  db := h.db
  named := h.named
  placed := h.placed
  put d hd hp ht := by
    have hnow : w.now + seconds ≤ d.began + grace := ht
    exact h.put d hd hp (by omega)
  began d hd := by
    have hb := h.began d hd
    show d.began ≤ w.now + seconds
    omega

/-- A download found its file, or found none. -/
theorem stat (h : Inv grace w) (i : Nat) (hp : x ∉ w.pending) :
    Inv grace (w.onDownload i ⟨x, if w.pool.contains x then .placed else .absent, w.now⟩) := by
  refine h.onDownload (Int.le_refl _) (fun hph => ?_) fun hph _ => ?_
  · refine ⟨?_, hp⟩
    by_contra hn
    simp [hn] at hph
  · exfalso
    revert hph
    show (if w.pool.contains x then Phase.placed else Phase.absent) = .put → False
    split <;> nofun

theorem rename (h : Inv grace w) (hi : w.downloads[i]? = some ⟨x, .absent, t⟩) (hp : x ∉ w.pending) :
    Inv grace ({ w with pool := x :: w.pool }.onDownload i ⟨x, .placed, t⟩) := by
  have hpool : Inv grace { w with pool := x :: w.pool } :=
    h.onPool fun y hy => ⟨List.mem_cons_of_mem _ hy.1, hy.2⟩
  have hb : t ≤ w.now := h.began _ (List.mem_of_getElem? hi)
  exact hpool.onDownload hb (fun _ => ⟨List.mem_cons_self, hp⟩) fun hn => by cases hn

theorem putBlob (h : Inv grace w) {size : Int} (hi : w.downloads[i]? = some ⟨x, .placed, t⟩)
    (hv : validBlobHash x = true) :
    Inv grace ({ w with db := (Op.putBlob x size w.now).tx.commit w.db }.onDownload i ⟨x, .put, t⟩) := by
  have hd := List.mem_of_getElem? hi
  have hcommit : Inv grace { w with db := (Op.putBlob x size w.now).tx.commit w.db } := by
    refine h.onCommit rfl (fun _ ht => ht) fun y hy => ?_
    simp [Op.blobs, Op.paths, Op.members, Op.anchors] at hy
  have hb : t ≤ w.now := h.began _ hd
  have hheld : w.Held x := h.placed _ hd rfl
  exact hcommit.onDownload hb (fun hn => by cases hn) fun _ _ => ⟨hheld, putBlob_since h.db.2 hv hb⟩

theorem unlink (h : Inv grace w) (hi : w.pending[i]? = some x) (removed : Bool) :
    Inv grace { w with
      pending := w.pending.eraseIdx i
      pool := if removed then w.pool.filter fun y => y != x else w.pool } := by
  have hx : x ∈ w.pending := List.mem_of_getElem? hi
  refine h.onPool fun y hy => ⟨?_, fun hn => hy.2 (List.mem_of_mem_eraseIdx hn)⟩
  split
  · have hne : y ≠ x := fun he => hy.2 (he ▸ hx)
    exact List.mem_filter.mpr ⟨hy.1, by simpa using hne⟩
  · exact hy.1

/-- A calm step keeps the invariant. -/
theorem step {a : Act} {w' : World} (h : Inv grace w) (hc : calm grace w a = true)
    (hs : Gc.step grace w a = some w') : Inv grace w' := by
  cases a with
  | start x =>
    cases hs
    refine h.onDownloads fun d hd => ?_
    rcases List.mem_append.mp hd with hd | hd
    · exact .inl hd
    · obtain rfl := List.mem_singleton.mp hd
      exact .inr ⟨Int.le_refl _, (fun hn => by cases hn), fun hn => by cases hn⟩
  | stat i =>
    simp only [Gc.step] at hs
    split at hs
    · rename_i x t hi
      cases hs
      simp only [calm, hi, Option.all_some, Bool.not_eq_true', List.contains_eq_mem,
        decide_eq_false_iff_not] at hc
      exact h.stat i hc
    · cases hs
  | rename i =>
    simp only [Gc.step] at hs
    split at hs
    · rename_i x t hi
      cases hs
      simp only [calm, hi, Option.all_some, Bool.not_eq_true', List.contains_eq_mem,
        decide_eq_false_iff_not] at hc
      exact h.rename hi hc
    · cases hs
  | putBlob i size =>
    simp only [Gc.step] at hs
    split at hs
    · rename_i x t hi
      split at hs
      · rename_i hv
        cases hs
        exact h.putBlob hi hv
      · cases hs
    · cases hs
  | commit op =>
    simp only [Gc.step] at hs
    split at hs
    · rename_i hop
      cases hs
      refine h.onCommit ((op.at_collects _).trans hop.1) (fun t ht => op.at_clocks _ ht) fun x hx => ?_
      exact h.held_of_mayName (List.all_eq_true.mp hop.2 x hx)
    · cases hs
  | leave i =>
    cases hs
    exact h.onDownloads fun d hd => .inl (List.mem_of_mem_eraseIdx hd)
  | tick seconds =>
    cases hs
    exact h.tick seconds
  | gcBatch n =>
    simp only [Gc.step] at hs
    split at hs
    · rename_i reaped db hrun
      cases hs
      refine h.onBatch hrun fun r hr d hd hp he => ?_
      simp only [calm, hrun, List.all_eq_true] at hc
      have hnone := hc r hr
      simp only [Bool.not_eq_true', List.any_eq_false, Bool.and_eq_true, beq_iff_eq] at hnone
      exact hnone d hd ⟨hp, he⟩
    · cases hs
  | unlink i removed =>
    simp only [Gc.step] at hs
    split at hs
    · rename_i x hi
      cases hs
      exact h.unlink hi removed
    · cases hs

end Inv

theorem inv_inductive (grace : Int) :
    ((sys grace).guard fun w a => calm grace w a = true).Inductive (Inv grace) := by
  refine Sys.Inductive.of_guard (fun w ⟨hdb, hfiles, hd, hp⟩ => ?_) fun w a w' hi hc hs => hi.step hc hs
  refine ⟨ledger_inductive.reach hdb, fun h hr => ⟨hfiles h hr, ?_⟩, ?_, ?_, ?_⟩
  · rw [hp]
    nofun
  all_goals
    rw [hd]
    nofun

/-- In every run whose steps are all calm, each blob that a row names has its file. -/
theorem referenced_file {grace : Int} {w : World}
    (hw : ((sys grace).guard fun w a => calm grace w a = true).Reach w) {h : Str}
    (hr : w.db.references h = true) : h ∈ w.pool :=
  ((inv_inductive grace).reach hw).named h hr |>.1

/-! ## Runs -/

/-- A writer with one blob that nothing names, stored at time 1. -/
def orphanDb : Db := (Cache.sys.exec Db.empty [.putBlob (digest 'a') 10 1]).getD Db.empty

theorem orphanDb_reach : Cache.sys.Reach orphanDb :=
  .exec rfl (eq_some_getD _ (by decide +kernel))

/-- The blob is long past its grace, and its file is in the pool. -/
def orphaned : World := ⟨orphanDb, [digest 'a'], [], [], 100⟩

theorem orphaned_init (grace : Int) : (sys grace).init orphaned := by
  refine ⟨orphanDb_reach, fun h hr => ?_, rfl, rfl⟩
  have hnone : orphanDb.urlPaths.rows = [] ∧ orphanDb.members.rows = [] ∧ orphanDb.snapshots.rows = [] := by
    decide +kernel
  obtain ⟨hu, hm, hs⟩ := hnone
  rcases references_iff.mp hr with ⟨u, hmem, -⟩ | ⟨m, hmem, -⟩ | ⟨s, hmem, -⟩
  · exact absurd (hu ▸ hmem : u ∈ []) List.not_mem_nil
  · exact absurd (hm ▸ hmem : m ∈ []) List.not_mem_nil
  · exact absurd (hs ▸ hmem : s ∈ []) List.not_mem_nil

/-- A row that names the blob. -/
def named : Op :=
  .putURLPath ⟨⟨.http, "h".toList, "/x".toList⟩, some (digest 'a'), false, none, 0, none, none⟩

/-- A download of the blob finds its file, writes its row and names it before blob GC comes. -/
def keptRun : List Act :=
  [.start (digest 'a'), .stat 0, .putBlob 0 10, .commit named, .leave 0, .tick 50, .gcBatch 100]

/-- The state after `keptRun`. -/
def kept : World :=
  (((sys 10).guard fun w a => calm 10 w a = true).exec orphaned keptRun).getD orphaned

/-- The row is there, and so is the file. -/
theorem referenced_file_kept :
    ((sys 10).guard fun w a => calm 10 w a = true).Reach kept ∧
    kept.db.references (digest 'a') = true ∧ digest 'a' ∈ kept.pool := by
  have hreach : ((sys 10).guard fun w a => calm 10 w a = true).Reach kept :=
    .exec (orphaned_init 10) (eq_some_getD _ (by decide +kernel))
  have hrow : kept.db.references (digest 'a') = true := by decide +kernel
  exact ⟨hreach, hrow, referenced_file hreach hrow⟩

/-- A download finds a file whose row blob GC has just deleted, and drops its own bytes. -/
def lostRun : List Act :=
  [.gcBatch 100, .start (digest 'a'), .stat 0, .unlink 0 true, .putBlob 0 10, .commit named]

/-- The state after `lostRun`. -/
def lost : World := ((sys 10).exec orphaned lostRun).getD orphaned

/-- The row names a blob that has no file: the unlink came after the download had looked. -/
theorem deduped_lost :
    (sys 10).Reach lost ∧ lost.now = orphaned.now ∧ lost.db.references (digest 'a') = true ∧
    digest 'a' ∉ lost.pool :=
  ⟨.exec (orphaned_init 10) (eq_some_getD _ (by decide +kernel)), by decide +kernel,
    by decide +kernel, by decide +kernel⟩

end AptCacher.Gc
