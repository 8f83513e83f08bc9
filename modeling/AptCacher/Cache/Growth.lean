import AptCacher.Cache.Pointer

/-!
# What growth of a current snapshot changes

`RepairSkippedMember` and `InsertReconciledMembers` add rows to a snapshot that is served. They
are submitted to the writer like every operation, and the caller may stop waiting before it is run.

* `submitWrite`: a call, with how its wait ends.
* `Grown`: rows that were there stay, empty identity columns may be filled, new rows are listed
  ones, and a blob that the snapshot did not name is pinned once.
* `growth_only_adds`: a call that fails changes nothing, one that succeeds leaves a grown database
  with every listed row, a reconcile that is repeated changes nothing, and a call that stopped
  waiting leaves the database as it was or as a success does.
* `left_growing`: a call that stopped waiting may be run.
-/

namespace AptCacher

namespace Cache

open Spec Table

/-! ## Calls -/

/-- How the wait of `submitWrite` ends. -/
inductive Wait
  /-- With the result of the operation. -/
  | answered
  /-- The context ends, or the cache closes; the writer runs the operation all the same, or never. -/
  | abandoned (ran : Bool)
  deriving DecidableEq

/-- The error that a call returns. -/
inductive CallErr
  | failed (e : Err)
  /-- `ErrClosed` or the error of the context. -/
  | stopped
  deriving DecidableEq

/-- `submitWrite`: what the caller gets, and the database once the operation is over. -/
def submitWrite (op : Tx Unit) (w : Wait) (db : Db) : Except CallErr Unit × Db :=
  match w with
  | .answered =>
    match op db with
    | .ok (_, db') => (.ok (), db')
    | .error e => (.error (.failed e), db)
  | .abandoned ran => (.error .stopped, if ran then op.commit db else db)

/-- A call that returns the error of its operation was rolled back, one that succeeds has committed,
and one that stopped waiting leaves the database as it was or as a success does. -/
theorem submitWrite_post {op : Tx Unit} {w : Wait} {db db' : Db} {res : Except CallErr Unit}
    {Q : Db → Prop} (hq : Tx.Post op db fun _ db' => Q db') (h : submitWrite op w db = (res, db')) :
    (∀ e, res = .error (.failed e) → db' = db) ∧ (res = .ok () → Q db') ∧
      (res = .error .stopped → db' = db ∨ submitWrite op .answered db = (.ok (), db')) := by
  cases w with
  | abandoned ran =>
    obtain ⟨rfl, rfl⟩ := Prod.mk.inj h
    refine ⟨(fun e he => by cases he), (fun hr => by cases hr), fun _ => ?_⟩
    cases ran with
    | false => exact .inl rfl
    | true =>
      cases ho : op db with
      | error e => exact .inl (Tx.Fails.commit ho)
      | ok r => exact .inr (by simp [submitWrite, Tx.commit, ho])
  | answered =>
    simp only [submitWrite] at h
    cases ho : op db with
    | error e =>
      rw [ho] at h
      obtain ⟨rfl, rfl⟩ := Prod.mk.inj h
      exact ⟨fun _ _ => rfl, (fun hr => by cases hr), fun hr => by cases hr⟩
    | ok r =>
      rw [ho] at h
      obtain ⟨rfl, rfl⟩ := Prod.mk.inj h
      exact ⟨(fun e he => by cases he), fun _ => hq r.1 r.2 ho, fun hr => by cases hr⟩

/-- A call whose operation fails leaves the database as it was, however its wait ends. -/
theorem submitWrite_error {op : Tx Unit} {db : Db} {e : Err} (h : op db = .error e) (w : Wait) :
    (submitWrite op w db).2 = db := by
  cases w with
  | answered => simp only [submitWrite, h]
  | abandoned ran =>
    cases ran with
    | false => rfl
    | true => exact Tx.Fails.commit h

/-! ## What growth is -/

/-- An identity column that is filled if it was empty. -/
def FilledFrom (old new : Str) : Prop := old = [] ∨ new = old

/-- The row `p'` declares what `p` does, and has its identity columns but for empty ones. -/
structure PackageHash.FilledTo (p p' : PackageHash) : Prop where
  declared : p'.declared = p.declared
  packageName : FilledFrom p.packageName p'.packageName
  architecture : FilledFrom p.architecture p'.architecture
  version : FilledFrom p.version p'.version

/-- The rows of members after it: those that were there, and some of `ms`. -/
def MembersGrown (ms : List Member) (db db' : Db) : Prop :=
  ∀ k, db'.members.find k = db.members.find k ∨
    db.members.find k = none ∧ ∃ m ∈ ms, db'.members.find k = some m

/-- The package rows after it: a row outside `ps` is as it was, and one that was there is healed
at most. -/
def PackagesGrown (ps : List PackageHash) (db db' : Db) : Prop :=
  ∀ k, db'.packageHashes.find k = db.packageHashes.find k ∨
    (∃ q ∈ ps, (q.url, q.snapshotId) = k) ∧ ∃ p', db'.packageHashes.find k = some p' ∧
      ∀ p, db.packageHashes.find k = some p → p.FilledTo p' ∧ p'.flatFilename = p.flatFilename

/-- The blobs after it: the ones that the snapshot came to name have one more pin. -/
def BlobsPinned (id : Nat) (db db' : Db) : Prop :=
  ∀ h, db'.blobs.find h =
    (db.blobs.find h).map fun b => if db'.binds id h && !db.binds id h then b.bump else b

/-- The snapshot `id` has grown by rows of `ms` and `ps`, and nothing else has changed. -/
structure Grown (id : Nat) (ms : List Member) (ps : List PackageHash) (db db' : Db) : Prop where
  elsewhere : db' = { db with
    blobs := db'.blobs, members := db'.members, packageHashes := db'.packageHashes }
  members : MembersGrown ms db db'
  packages : PackagesGrown ps db db'
  blobs : BlobsPinned id db db'

theorem FilledFrom.trans {a b c : Str} (h : FilledFrom a b) (h' : FilledFrom b c) :
    FilledFrom a c := by
  rcases h with ha | hb
  · exact .inl ha
  · rw [FilledFrom, hb] at h'
    exact h'

/-- The column that `insertPackageHashTx` writes, for a column that agrees with the listed one. -/
theorem FilledFrom.heal (old want : Str) : FilledFrom old (if old = [] then want else old) := by
  unfold FilledFrom
  split
  · exact .inl ‹_›
  · exact .inr rfl

theorem FilledFrom.healed {old want : Str} (h : agrees old want = true) :
    FilledFrom want (if old = [] then want else old) := by
  simp only [agrees, Bool.or_eq_true, beq_iff_eq] at h
  unfold FilledFrom
  split
  · exact .inr rfl
  · rcases h with (h | h) | h
    · contradiction
    · exact .inl h
    · exact .inr h

theorem FilledFrom.agrees {want old : Str} (h : FilledFrom want old) : agrees old want = true := by
  rcases h with rfl | rfl <;> simp [Cache.agrees]

theorem FilledFrom.heal_eq {want old : Str} (h : FilledFrom want old) :
    (if old = [] then want else old) = old := by
  rcases h with rfl | rfl
  · split
    · exact ‹old = []›.symm
    · rfl
  · exact ite_self old

theorem PackageHash.FilledTo.trans {p₁ p₂ p₃ : PackageHash} (h : p₁.FilledTo p₂)
    (h' : p₂.FilledTo p₃) : p₁.FilledTo p₃ where
  declared := h'.declared.trans h.declared
  packageName := h.packageName.trans h'.packageName
  architecture := h.architecture.trans h'.architecture
  version := h.version.trans h'.version

namespace Grown

variable {id : Nat} {ms : List Member} {ps : List PackageHash} {db db' db'' : Db}

theorem mem (h : MembersGrown ms db db') {m : Member} (hm : m ∈ db.members) : m ∈ db'.members := by
  have hf := find_eq_some.mpr ⟨hm, rfl⟩
  rcases h (m.snapshotId, m.path) with he | ⟨hn, -⟩
  · exact (find_eq_some.mp (he.trans hf)).1
  · rw [hn] at hf
    cases hf

theorem binds_mono (h : MembersGrown ms db db') {x : Str} (hb : db.binds id x = true) :
    db'.binds id x = true := by
  obtain ⟨m, hm, hid⟩ := Db.binds_iff.mp hb
  exact Db.binds_iff.mpr ⟨m, mem h hm, hid⟩

theorem membersGrown_trans (h : MembersGrown ms db db') (h' : MembersGrown ms db' db'') :
    MembersGrown ms db db'' := by
  intro k
  rcases h' k with h' | ⟨hn, hm⟩
  · rw [h']
    exact h k
  · rcases h k with h | ⟨-, m, -, hs⟩
    · exact .inr ⟨h ▸ hn, hm⟩
    · rw [hn] at hs
      cases hs

theorem packagesGrown_trans (h : PackagesGrown ps db db') (h' : PackagesGrown ps db' db'') :
    PackagesGrown ps db db'' := by
  intro k
  rcases h' k with h' | ⟨hk, p'', hp'', h'⟩
  · rw [h']
    exact h k
  · refine .inr ⟨hk, p'', hp'', fun p hp => ?_⟩
    rcases h k with h | ⟨-, p', hp', h⟩
    · exact h' p (h.trans hp)
    · have h₁ := h p hp
      have h₂ := h' p' hp'
      exact ⟨h₁.1.trans h₂.1, h₂.2.trans h₁.2⟩

theorem blobsPinned_trans (hm : MembersGrown ms db db') (hm' : MembersGrown ms db' db'')
    (h : BlobsPinned id db db') (h' : BlobsPinned id db' db'') : BlobsPinned id db db'' := by
  intro x
  rw [h' x, h x, Option.map_map]
  congr 1
  funext b
  have h₁ : db.binds id x = true → db'.binds id x = true := binds_mono hm
  have h₂ : db'.binds id x = true → db''.binds id x = true := binds_mono hm'
  cases hb : db.binds id x <;> cases hb' : db'.binds id x <;> simp_all

theorem blobsPinned_of_eq (hm : db'.members = db.members) (hb : db'.blobs = db.blobs) :
    BlobsPinned id db db' := by
  intro x
  have h : db'.binds id x = db.binds id x := by simp only [Db.binds, hm]
  simp [h, hb]

instance : Std.Refl (Grown id ms ps) where
  refl _ := ⟨rfl, fun _ => .inl rfl, fun _ => .inl rfl, blobsPinned_of_eq rfl rfl⟩

instance : IsTrans Db (Grown id ms ps) where
  trans db db' db'' h h' :=
    ⟨by rw [h'.elsewhere, h.elsewhere], membersGrown_trans h.members h'.members,
      packagesGrown_trans h.packages h'.packages,
      blobsPinned_trans h.members h'.members h.blobs h'.blobs⟩

end Grown

/-! ## The members -/

section Members

variable {id : Nat} {ms : List Member} {ps : List PackageHash} {m : Member}

theorem insertMemberRow_insert {db : Db} : Tx.Post (insertMemberRow m) db fun _ db' =>
    ∃ members, db.members.insert? m = some members ∧ db' = { db with members := members } := by
  refine Tx.post_bind.mpr (Tx.post_get.mpr (Tx.post_bind.mpr (Tx.post_ensure.mpr fun _ => ?_)))
  refine Tx.post_bind.mpr ((requireBlob_keep m.blobHash db).mono fun _ db₁ h₁ => ?_)
  subst h₁
  exact Tx.post_bind.mpr (Tx.post_getOr.mpr fun members hi => Tx.post_modify.mpr ⟨members, hi, rfl⟩)

theorem membersGrown_insert {db : Db} {members} (hm : m ∈ ms)
    (hi : db.members.insert? m = some members) :
    MembersGrown ms db { db with members := members } := by
  intro k
  show members.find k = _ ∨ _ ∧ ∃ m ∈ ms, members.find k = some m
  rw [find_insert hi]
  by_cases hk : (m.snapshotId, m.path) = k
  · rw [if_pos hk]
    exact .inr ⟨hk ▸ (insert?_eq_some.mp hi).1, m, hm, rfl⟩
  · rw [if_neg hk]
    exact .inl rfl

theorem binds_insert {db db' : Db} (hi : db.members.insert? m = some db'.members) (x : Str) :
    db'.binds id x = (m.snapshotId == id && m.blobHash == x || db.binds id x) := by
  simp [Db.binds, Table.any, (insert?_eq_some.mp hi).2]

/-- The member is there with its blob, and its hashes are valid. -/
structure Member.SettledIn (id : Nat) (m : Member) (db : Db) : Prop where
  snapshotId : m.snapshotId = id
  blobHash : validBlobHash m.blobHash = true
  declared : validBlobHash m.declared = true
  row : ∃ e, db.members.find (id, m.path) = some e ∧ e.blobHash = m.blobHash

theorem reconcileMember_grown (hm : m ∈ ms) (db : Db) : Tx.Post (reconcileMember id m) db
    fun _ db' => Grown id ms ps db db' ∧ m.SettledIn id db' := by
  refine Tx.post_bind.mpr (Tx.post_ensure.mpr fun hid => Tx.post_bind.mpr
    (Tx.post_ensure.mpr fun hb => Tx.post_bind.mpr (Tx.post_ensure.mpr fun hd => ?_)))
  refine Tx.post_bind.mpr (Tx.post_get.mpr ?_)
  split
  · rename_i e he
    exact Tx.post_ensure.mpr fun hsame => ⟨Std.Refl.refl _, hid, hb, hd, e, he, hsame⟩
  · refine Tx.post_bind.mpr (Tx.post_modify.mpr (insertMemberRow_insert.mono fun _ db' h => ?_))
    obtain ⟨members, hi, rfl⟩ := h
    have hrow : members.find (id, m.path) = some m := by
      rw [find_insert hi, if_pos (by rw [hid])]
    refine ⟨⟨rfl, membersGrown_insert hm hi, fun _ => .inl rfl, fun x => ?_⟩,
      hid, hb, hd, m, hrow, rfl⟩
    -- the bump is for the blob of the new row
    show Table.find (Table.update _ _ _) x = _
    rw [find_update]
    cases hf : db.blobs.find x with
    | none => rfl
    | some b =>
      obtain ⟨-, rfl⟩ := find_eq_some.mp hf
      have hbump : (b.hash == m.blobHash && !db.binds id m.blobHash) =
          ({ db with members := members }.binds id b.hash && !db.binds id b.hash) := by
        have hbinds : { db with members := members }.binds id b.hash =
            (m.snapshotId == id && m.blobHash == b.hash || db.binds id b.hash) :=
          binds_insert hi b.hash
        rw [hbinds, hid]
        by_cases hx : m.blobHash = b.hash
        · simp [hx]
        · have hx' : (b.hash == m.blobHash) = false := beq_eq_false_iff_ne.mpr (Ne.symm hx)
          rw [hx', beq_eq_false_iff_ne.mpr hx]
          simp
      exact congrArg (fun c => some (if c then b.bump else b)) hbump

theorem reconcileMember_settled {db : Db} (h : m.SettledIn id db) :
    reconcileMember id m db = .ok ((), db) := by
  obtain ⟨e, he, hsame⟩ := h.row
  refine (Tx.ensure_bind h.snapshotId).trans ((Tx.ensure_bind h.blobHash).trans
    ((Tx.ensure_bind h.declared).trans ?_))
  simp only [Tx.get_bind, he]
  exact Tx.ensure_ok hsame

/-- Only members have changed, and they have grown by rows of `ms`. -/
structure MembersOnly (ms : List Member) (db db' : Db) : Prop where
  elsewhere : db' = { db with members := db'.members }
  grown : MembersGrown ms db db'

instance : Std.Refl (MembersOnly ms) where
  refl _ := ⟨rfl, fun _ => .inl rfl⟩

instance : IsTrans Db (MembersOnly ms) where
  trans _ _ _ h h' := ⟨by rw [h'.elsewhere, h.elsewhere], Grown.membersGrown_trans h.grown h'.grown⟩

theorem repairMember_grown (hm : m ∈ ms) (db : Db) : Tx.Post (repairMember m) db fun _ db' =>
    MembersOnly ms db db' ∧
      ∃ e, db'.members.find (m.snapshotId, m.path) = some e ∧ e.blobHash = m.blobHash ∧
        e.declared = m.declared := by
  refine Tx.post_bind.mpr (Tx.post_get.mpr ?_)
  split
  · rename_i e he
    exact Tx.post_ensure.mpr fun hsame => ⟨⟨rfl, fun _ => .inl rfl⟩, e, he, hsame⟩
  · refine insertMemberRow_insert.mono fun _ db' h => ?_
    obtain ⟨members, hi, rfl⟩ := h
    have hrow : members.find (m.snapshotId, m.path) = some m := by rw [find_insert hi, if_pos rfl]
    exact ⟨⟨rfl, membersGrown_insert hm hi⟩, m, hrow, rfl, rfl⟩

end Members

/-! ## The package rows -/

section Packages

variable {id : Nat} {ms : List Member} {ps : List PackageHash} {p : PackageHash}

/-- The row `e` with its empty identity columns filled from `p`. -/
def PackageHash.heal (p e : PackageHash) : PackageHash :=
  { e with
    packageName := if e.packageName = [] then p.packageName else e.packageName
    architecture := if e.architecture = [] then p.architecture else e.architecture
    version := if e.version = [] then p.version else e.version }

/-- The row of `p` is there, with every identity column that `p` has. -/
structure PackageHash.SettledIn (p : PackageHash) (db : Db) : Prop where
  declared : validBlobHash p.declared = true
  row : ∃ e, db.packageHashes.find (p.url, p.snapshotId) = some e ∧ p.FilledTo e

theorem insertPackageHashTx_grown (hp : p ∈ ps) (db : Db) : Tx.Post (insertPackageHashTx p) db
    fun _ db' => Grown id ms ps db db' ∧ p.SettledIn db' := by
  refine Tx.post_bind.mpr (Tx.post_ensure.mpr fun hd => Tx.post_bind.mpr (Tx.post_get.mpr ?_))
  split
  · rename_i e he
    refine Tx.post_bind.mpr (Tx.post_ensure.mpr fun hagree => Tx.post_modify.mpr ?_)
    obtain ⟨hdecl, hn, ha, hv⟩ := hagree
    refine ⟨⟨rfl, fun _ => .inl rfl, fun k => ?_, Grown.blobsPinned_of_eq rfl rfl⟩,
      hd, p.heal e, ?_, ?_⟩
    · show Table.find (Table.updateAt _ _ _) k = _ ∨
        _ ∧ ∃ p', Table.find (Table.updateAt _ _ _) k = _ ∧ _
      rw [find_updateAt]
      by_cases hk : k = (p.url, p.snapshotId)
      · subst hk
        refine .inr ⟨⟨p, hp, rfl⟩, p.heal e, by rw [if_pos rfl, he]; rfl, fun e' he' => ?_⟩
        cases he.symm.trans he'
        exact ⟨⟨rfl, .heal _ _, .heal _ _, .heal _ _⟩, rfl⟩
      · rw [if_neg hk]
        exact .inl rfl
    · show Table.find (Table.updateAt _ _ _) _ = _
      rw [find_updateAt, if_pos rfl, he]
      rfl
    · exact ⟨hdecl, .healed hn, .healed ha, .healed hv⟩
  · rename_i hnone
    refine Tx.post_bind.mpr (Tx.post_ensure.mpr fun _ =>
      Tx.post_bind.mpr (Tx.post_getOr.mpr fun t hi => Tx.post_modify.mpr ?_))
    refine ⟨⟨rfl, fun _ => .inl rfl, fun k => ?_, Grown.blobsPinned_of_eq rfl rfl⟩, hd, p, ?_,
      rfl, .inr rfl, .inr rfl, .inr rfl⟩
    · show t.find k = _ ∨ _ ∧ ∃ p', t.find k = _ ∧ _
      rw [find_insert hi]
      by_cases hk : (p.url, p.snapshotId) = k
      · subst hk
        refine .inr ⟨⟨p, hp, rfl⟩, p, if_pos rfl, fun e he => ?_⟩
        rw [hnone] at he
        cases he
      · rw [if_neg hk]
        exact .inl rfl
    · show t.find _ = _
      rw [find_insert hi, if_pos rfl]

theorem insertPackageHashTx_settled {db : Db} (h : p.SettledIn db) :
    insertPackageHashTx p db = .ok ((), db) := by
  obtain ⟨e, he, hf⟩ := h.row
  refine (Tx.ensure_bind h.declared).trans ?_
  simp only [Tx.get_bind, he]
  refine (Tx.ensure_bind ⟨hf.declared, hf.packageName.agrees, hf.architecture.agrees,
    hf.version.agrees⟩).trans ?_
  have hsame : db.packageHashes.updateAt (p.url, p.snapshotId) ⟨p.heal, fun _ => rfl⟩ =
      db.packageHashes := by
    refine updateAt_eq_self fun e' he' => ?_
    cases he.symm.trans he'
    simp only [PackageHash.heal, hf.packageName.heal_eq, hf.architecture.heal_eq, hf.version.heal_eq]
  exact congrArg (fun t => Except.ok ((), { db with packageHashes := t })) hsame

theorem PackageHash.SettledIn.grown {db db' : Db} (hg : PackagesGrown ps db db')
    (h : p.SettledIn db) : p.SettledIn db' := by
  obtain ⟨e, he, hf⟩ := h.row
  refine ⟨h.declared, ?_⟩
  rcases hg (p.url, p.snapshotId) with hk | ⟨-, e', he', hk⟩
  · exact ⟨e, hk.trans he, hf⟩
  · exact ⟨e', he', hf.trans (hk e he).1⟩

theorem Member.SettledIn.grown {m : Member} {db db' : Db} (hg : MembersGrown ms db db')
    (h : m.SettledIn id db) : m.SettledIn id db' := by
  obtain ⟨e, he, hb⟩ := h.row
  refine ⟨h.snapshotId, h.blobHash, h.declared, e, ?_, hb⟩
  rcases hg (id, m.path) with hk | ⟨hn, -⟩
  · exact hk.trans he
  · rw [hn] at he
    cases he

end Packages

/-! ## The operations -/

section Operations

variable {db db' : Db} {id : Nat} {ms : List Member} {ps : List PackageHash}

/-- What `InsertReconciledMembers` leaves: the snapshot has grown, and every listed row is there. -/
structure Reconciled (id : Nat) (ms : List Member) (ps : List PackageHash) (db db' : Db) : Prop where
  current : db.isCurrent id = true
  grown : Grown id ms ps db db'
  members : ∀ m ∈ ms, m.SettledIn id db'
  packages : ∀ p ∈ ps, p.SettledIn db'

theorem insertReconciledMembers_reconciled (db : Db) :
    Tx.Post (insertReconciledMembers id ms ps) db fun _ db' => Reconciled id ms ps db db' := by
  refine Tx.post_bind.mpr (Tx.post_get.mpr (Tx.post_bind.mpr (Tx.post_ensure.mpr fun hc => ?_)))
  refine Tx.post_bind.mpr ((Tx.Post.forM_each (R := Grown id ms ps) (P := Member.SettledIn id)
    (fun m hm db => reconcileMember_grown hm db) fun m _ _ hg => .grown hg.members).mono
      fun _ db₁ h₁ => ?_)
  refine (Tx.Post.forM_each (R := Grown id ms ps) (P := PackageHash.SettledIn)
    (fun p hp db => insertPackageHashTx_grown hp db) fun p _ _ hg => .grown hg.packages).mono
      fun _ db₂ h₂ => ?_
  exact ⟨hc, IsTrans.trans _ _ _ h₁.1 h₂.1, fun m hm => (h₁.2 m hm).grown h₂.1.members, h₂.2⟩

/-- A reconcile that is repeated finds every row and changes nothing. -/
theorem Reconciled.again (h : Reconciled id ms ps db db') :
    insertReconciledMembers id ms ps db' = .ok ((), db') := by
  have hc : db'.isCurrent id = true := by
    rw [h.grown.elsewhere]
    exact h.current
  have hms : ms.forM (reconcileMember id) db' = .ok ((), db') :=
    Tx.forM_ok fun m hm => reconcileMember_settled (h.members m hm)
  have hps : ps.forM insertPackageHashTx db' = .ok ((), db') :=
    Tx.forM_ok fun p hp => insertPackageHashTx_settled (h.packages p hp)
  refine Tx.get_bind.trans ((Tx.ensure_bind hc).trans ?_)
  show StateT.bind (ms.forM (reconcileMember id)) (fun _ => ps.forM insertPackageHashTx) db' = _
  simp only [StateT.bind, hms]
  exact hps

/-- What `RepairSkippedMember` leaves: the skip record is consumed, the snapshot has grown by the
members, and each is there as it is listed. -/
structure Repaired (id : Nat) (path : Str) (ms : List Member) (db db' : Db) : Prop where
  current : db.isCurrent id = true
  consumed : ∃ row, db.skipped.find (id, path) = some row
  skipped : db'.skipped = db.skipped.deleteAt (id, path)
  grown : Grown id ms [] { db with skipped := db'.skipped } db'
  members : ∀ m ∈ ms, m.snapshotId = id ∧ ∃ e, db'.members.find (id, m.path) = some e ∧
    e.blobHash = m.blobHash ∧ e.declared = m.declared

/-- The new members name only the blob `x`: no other one is named by more. -/
theorem binds_of_members (hg : MembersGrown ms db db') {x y : Str}
    (hms : ∀ m ∈ ms, m.snapshotId = id ∧ m.blobHash = x) (hb : db'.binds id y = true) :
    y = x ∨ db.binds id y = true := by
  obtain ⟨m, hm, hid, hy⟩ := Db.binds_iff.mp hb
  have hf := find_eq_some.mpr ⟨hm, rfl⟩
  rcases hg (m.snapshotId, m.path) with he | ⟨-, m', hm', he⟩
  · exact .inr (Db.binds_iff.mpr ⟨m, (find_eq_some.mp (he.symm.trans hf)).1, hid, hy⟩)
  · cases he.symm.trans hf
    exact .inl (hy.symm.trans (hms m hm').2)

theorem repairSkippedMember_repaired {path : Str} (db : Db) :
    Tx.Post (repairSkippedMember id path ms) db fun _ db' => Repaired id path ms db db' := by
  refine Tx.post_bind.mpr (Tx.post_get.mpr (Tx.post_bind.mpr (Tx.post_ensure.mpr fun hc => ?_)))
  refine Tx.post_bind.mpr (Tx.post_get.mpr (Tx.post_bind.mpr (Tx.post_getOr.mpr fun row hrow => ?_)))
  refine Tx.post_bind.mpr (Tx.post_ensure.mpr fun _ => Tx.post_bind.mpr
    (Tx.post_ensure.mpr fun hms => Tx.post_bind.mpr (Tx.post_ensure.mpr fun hcan => ?_)))
  refine Tx.post_bind.mpr (Tx.post_modify.mpr (Tx.post_bind.mpr (Tx.post_modify.mpr ?_)))
  refine (Tx.Post.forM_each (R := MembersOnly ms) (fun m hm db => repairMember_grown hm db)
    fun m _ _ hg => ?_).mono fun _ db₃ h₃ => ?_
  · rintro ⟨e, he, hsame⟩
    refine ⟨e, ?_, hsame⟩
    rcases hg.grown (m.snapshotId, m.path) with hk | ⟨hn, -⟩
    · exact hk.trans he
    · rw [hn] at he
      cases he
  obtain ⟨⟨hdb, hgrown⟩, hlisted⟩ := h₃
  have hthere : ∀ m ∈ ms, m.snapshotId = id ∧ ∃ e, db₃.members.find (id, m.path) = some e ∧
      e.blobHash = m.blobHash ∧ e.declared = m.declared := fun m hm => by
    have hid := (hms m hm).1
    exact ⟨hid, hid ▸ hlisted m hm⟩
  have hg : MembersGrown ms db db₃ := hgrown
  refine ⟨hc, ⟨row, hrow⟩, by rw [hdb], ⟨?_, hg, ?_, fun x => ?_⟩, hthere⟩
  · rw [hdb]
  · rw [hdb]
    exact fun _ => .inl rfl
  · -- the canonical member names the blob of the bump
    obtain ⟨m, hm, -⟩ := hcan
    obtain ⟨-, e, he, hblob, -⟩ := hthere m hm
    obtain ⟨hmem, hkey⟩ := find_eq_some.mp he
    have hnamed : db₃.binds id row.declared = true :=
      Db.binds_iff.mpr ⟨e, hmem, (Prod.mk.inj hkey).1, hblob.trans (hms m hm).2.1⟩
    have hblobs : db₃.blobs = db.blobs.update
        (fun b => b.hash == row.declared && !db.binds id row.declared) Blob.bumped := by rw [hdb]; rfl
    show db₃.blobs.find x = (db.blobs.find x).map _
    rw [hblobs, find_update]
    cases hf : db.blobs.find x with
    | none => rfl
    | some b =>
      obtain ⟨-, rfl⟩ := find_eq_some.mp hf
      have hbump : (b.hash == row.declared && !db.binds id row.declared) =
          (db₃.binds id b.hash && !db.binds id b.hash) := by
        by_cases hx : b.hash = row.declared
        · simp [hx, hnamed]
        · have hold := binds_of_members hg (y := b.hash) fun m hm => ⟨(hms m hm).1, (hms m hm).2.1⟩
          rw [beq_eq_false_iff_ne.mpr hx]
          cases hb₃ : db₃.binds id b.hash with
          | false => rfl
          | true => simp [(hold hb₃).resolve_left hx]
      exact congrArg (fun c => some (if c then b.bump else b)) hbump

/-- **Repair and reconcile only add.** A call that returns the error of its operation has left the
database as it was. One that succeeds was for a current snapshot, keeps every row of the tables but
for empty identity columns, the skip record and the pins of newly named blobs, and leaves every
listed row; and a reconcile that is repeated succeeds and changes nothing. One that stopped waiting
changes nothing, or leaves exactly what a success leaves. -/
theorem growth_only_adds (db : Db) (id : Nat) (ms : List Member) (w : Wait) :
    (∀ path res db', submitWrite (repairSkippedMember id path ms) w db = (res, db') →
      (∀ e, res = .error (.failed e) → db' = db) ∧ (res = .ok () → Repaired id path ms db db') ∧
      (res = .error .stopped →
        db' = db ∨ submitWrite (repairSkippedMember id path ms) .answered db = (.ok (), db'))) ∧
    (∀ ps res db', submitWrite (insertReconciledMembers id ms ps) w db = (res, db') →
      (∀ e, res = .error (.failed e) → db' = db) ∧
      (res = .ok () → Reconciled id ms ps db db' ∧
        submitWrite (insertReconciledMembers id ms ps) .answered db' = (.ok (), db')) ∧
      (res = .error .stopped →
        db' = db ∨ submitWrite (insertReconciledMembers id ms ps) .answered db = (.ok (), db'))) := by
  constructor
  · intro path res db' h
    exact submitWrite_post (repairSkippedMember_repaired db) h
  · intro ps res db' h
    have hpost : Tx.Post (insertReconciledMembers id ms ps) db fun _ db' =>
        Reconciled id ms ps db db' ∧
        submitWrite (insertReconciledMembers id ms ps) .answered db' = (.ok (), db') := by
      refine (insertReconciledMembers_reconciled db).mono fun _ db₁ h₁ => ⟨h₁, ?_⟩
      simp only [submitWrite, h₁.again]
    exact submitWrite_post hpost h

end Operations

/-! ## Runs -/

/-- A package row of the adopted snapshot, as an index lists it. -/
def listedRow (name version : String) : PackageHash :=
  ⟨⟨.http, "deb".toList, "/debian/pool/x.deb".toList⟩, 1, digest 'c', name.toList, [],
    version.toList, []⟩

/-- A member of the adopted snapshot that was reconciled. -/
def reconciledRow : Member := ⟨1, "main/binary-amd64/Packages".toList, digest 'a', digest 'a'⟩

/-- The adopted snapshot after a reconcile that lists a member twice and a package in two parts. -/
def grownDb : Db :=
  (submitWrite (insertReconciledMembers 1 [reconciledRow, reconciledRow]
    [listedRow "x" "", listedRow "" "1"]) .answered adoptedDb).2

theorem growth_only_adds_reconciled :
    Reconciled 1 [reconciledRow, reconciledRow] [listedRow "x" "", listedRow "" "1"]
      adoptedDb grownDb ∧
    grownDb.packageHashes.rows = [listedRow "x" "1"] ∧
    submitWrite (insertReconciledMembers 1 [reconciledRow, reconciledRow]
      [listedRow "x" "", listedRow "" "1"]) .answered grownDb = (.ok (), grownDb) := by
  have hok : (submitWrite (insertReconciledMembers 1 [reconciledRow, reconciledRow]
      [listedRow "x" "", listedRow "" "1"]) .answered adoptedDb).1 = .ok () := by decide +kernel
  have h := (growth_only_adds adoptedDb 1 [reconciledRow, reconciledRow] .answered).2
    [listedRow "x" "", listedRow "" "1"] (.ok ()) grownDb (Prod.ext hok rfl)
  obtain ⟨hrec, hagain⟩ := h.2.1 rfl
  exact ⟨hrec, by decide +kernel, hagain⟩

/-- The context ends while the writer runs the operation: the caller gets an error, and the rows are
there. -/
theorem left_growing :
    ¬ ∀ (db : Db) (id : Nat) (ms : List Member) (ps : List PackageHash) (w : Wait) (e : CallErr)
      (db' : Db),
      submitWrite (insertReconciledMembers id ms ps) w db = (.error e, db') → db' = db := by
  intro h
  have hsame := h adoptedDb 1 [reconciledRow] [] (.abandoned true) .stopped _ rfl
  have hrows := congrArg (fun db => db.members.rows) hsame
  revert hrows
  decide +kernel

end Cache
end AptCacher
