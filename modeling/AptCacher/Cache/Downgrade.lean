import AptCacher.Cache.Pointer

/-!
# Never downgrade

Once a signed snapshot was adopted for a suite, no unsigned one is adopted for the suite or its
flat twin, under either scheme, while the marker of the base is there. The marker is written by
the flip itself and every operation but two keeps it: forgetting the suite and the sweep delete
it, only where the base has no suite row left.

* `Change.marks`: the changes keep markers; `marked_steps`: so do runs without such a deletion.
* `never_downgrade`: the later commit of an unsigned candidate fails and writes nothing.
-/

namespace AptCacher.Cache

open Spec Table Aptpath

variable {db db' : Db}

/-! ## Markers -/

/-- A change deletes no marker. -/
theorem Change.marks {N : Member → Prop} (h : Change N db db') {k : MarkKey} (hk : ∃ m ∈ db.markers, m.key = k) :
    ∃ m ∈ db'.markers, m.key = k := by
  cases h with
  | quiet _ _ hm => exact hm ▸ hk
  | mark hm => exact hm k hk
  | _ => exact hk

theorem Changes.marks {N : Member → Prop} (h : Changes N db db') {k : MarkKey} (hk : ∃ m ∈ db.markers, m.key = k) :
    ∃ m ∈ db'.markers, m.key = k := by
  induction h with
  | refl => exact hk
  | tail _ hstep ih => exact hstep.marks ih

theorem markedAt_iff {host base : Str} : db.markedAt host base = true ↔
    ∃ scheme, ∃ m ∈ db.markers, m.key = ⟨scheme, host, base⟩ := by
  refine any_iff.trans ⟨?_, ?_⟩
  · rintro ⟨m, hm, he⟩
    simp only [Bool.and_eq_true, beq_iff_eq] at he
    exact ⟨m.key.scheme, m, hm, by rw [← he.1, ← he.2]⟩
  · rintro ⟨scheme, m, hm, hk⟩
    exact ⟨m, hm, by simp [hk]⟩

/-- An operation that deletes a marker is one of the two, and leaves no suite row at its base. -/
theorem Op.unmarks {op : Op} {m : Marker} (hm : m ∈ db.markers)
    (hgone : ¬ ∃ m' ∈ (op.tx.commit db).markers, m'.key = m.key) :
    op.forgets = true ∧ (op.tx.commit db).suitesAt m.key.host m.key.base = false := by
  constructor
  · by_contra hf
    have hc := Op.commit_changes (by simpa using hf) db
    exact hgone (hc.marks ⟨m, hm, rfl⟩)
  · obtain ⟨mid, hc, hsuites, markers, hmid, hrows⟩ := op.commit_forgets db
    obtain ⟨m', hm', hk⟩ := hc.marks ⟨m, hm, rfl⟩
    rcases hrows m' hm' with ⟨m'', hm'', hk'⟩ | hnone
    · exact absurd ⟨m'', by rw [hmid]; exact hm'', hk'.trans hk⟩ hgone
    · rw [Db.suitesAt, hsuites, ← hk]
      exact hnone

/-- The step does not delete the last marker of the base. -/
def Unforgotten (host base : Str) (db : Db) (op : Op) : Prop :=
  ¬ (op.forgets = true ∧ db.markedAt host base = true ∧
    (op.tx.commit db).markedAt host base = false)

instance (host base : Str) (db : Db) (op : Op) : Decidable (Unforgotten host base db op) :=
  inferInstanceAs (Decidable (¬ _))

theorem marked_step {host base : Str} {op : Op} (hm : db.markedAt host base = true)
    (hop : Unforgotten host base db op) : (op.tx.commit db).markedAt host base = true := by
  by_contra hn
  have hn : (op.tx.commit db).markedAt host base = false := by simpa using hn
  cases hf : op.forgets with
  | true => exact hop ⟨hf, hm, hn⟩
  | false =>
    obtain ⟨scheme, hk⟩ := markedAt_iff.mp hm
    have hc := Op.commit_changes hf db
    have := markedAt_iff.mpr ⟨scheme, hc.marks hk⟩
    simp [hn] at this

theorem marked_steps {host base : Str} (h : (sys.guard (Unforgotten host base)).Steps db db')
    (hm : db.markedAt host base = true) : db'.markedAt host base = true := by
  refine h.keeps (P := fun db => db.markedAt host base = true) (fun db op db' hm hs => ?_) hm
  obtain ⟨hop, hs⟩ := Sys.guard_step.mp hs
  cases hs
  exact marked_step hm hop

/-! ## The two commits -/

section Commit

variable {members : List Member} {skipped : List Skipped} {packageHashes : List PackageHash}
  {prefetched : List (UrlKey × Str)} {coverage : Bool} {skipNow now : Int}

theorem flipPointer_marks {s : Snapshot} {stamp : Int} (hf : s.form = .inline ∨ s.form = .detached) :
    Tx.Post (flipPointer s stamp now) db fun _ db' => ∃ m ∈ db'.markers, m.key = s.key.mark := by
  refine Tx.post_bind.mpr (Tx.post_modify.mpr (Tx.post_bind.mpr (Tx.post_get.mpr
    (Tx.post_bind.mpr (Tx.post_getOr.mpr fun r _ => Tx.post_bind.mpr (Tx.post_modify.mpr
      (Tx.post_bind.mpr (Tx.post_modify.mpr (Tx.post_bind.mpr ?_)))))))))
  rw [Tx.onlyIf, if_pos hf]
  refine Tx.post_modify.mpr ?_
  split
  · exact Tx.post_modify.mpr (exists_mem_upsert.mpr (.inl rfl))
  · exact Tx.post_pure.mpr (exists_mem_upsert.mpr (.inl rfl))

/-- A committed signed snapshot leaves its base marked. -/
theorem commitAdoption_marks {s : Snapshot} (hs : s ∈ db.snapshots)
    (hf : s.form = .inline ∨ s.form = .detached)
    (hok : commitAdoption s.id members skipped packageHashes prefetched coverage skipNow now db =
      .ok ((), db')) : ∃ m ∈ db'.markers, m.key = s.key.mark := by
  suffices H : Tx.Post (commitAdoption s.id members skipped packageHashes prefetched coverage
      skipNow now) db fun _ db' => ∃ m ∈ db'.markers, m.key = s.key.mark from H () db' hok
  have any : ∀ {α : Type} {m : Tx α} {db : Db} {Q : α → Db → Prop}, (∀ a db', Q a db') →
      Tx.Post m db Q := fun h a db' _ => h a db'
  refine Tx.post_bind.mpr (Tx.post_get.mpr (Tx.post_bind.mpr (Tx.post_getOr.mpr fun s' hs' => ?_)))
  obtain ⟨hs', hid⟩ := find_eq_some.mp hs'
  obtain rfl : s' = s := eq_of_key hs' hs hid
  -- What the statements before the flip do does not matter.
  refine Tx.post_bind.mpr (any fun _ _ => Tx.post_bind.mpr (any fun _ _ => ?_))
  refine Tx.post_bind.mpr (any fun _ _ => Tx.post_bind.mpr (any fun _ _ => ?_))
  refine Tx.post_bind.mpr (any fun _ _ => Tx.post_bind.mpr (any fun _ _ => ?_))
  refine Tx.post_bind.mpr (Tx.post_get.mpr (Tx.post_bind.mpr (any fun _ _ => ?_)))
  refine Tx.post_bind.mpr (any fun _ _ => Tx.post_bind.mpr (any fun _ _ => ?_))
  exact flipPointer_marks hf

/-- An unsigned candidate is refused at a marked base; a retired one is refused as such. -/
theorem commitAdoption_refused {c : Snapshot} (hc : c ∈ db.snapshots) (hf : c.form = .unsigned)
    (ha : c.adoptedAt = none) (hm : db.markedAt c.key.host (markerBase c.key.suitePath) = true) :
    Tx.Fails (commitAdoption c.id members skipped packageHashes prefetched coverage skipNow now) db
      (if c.retiredAt = none then .unsignedDowngradeRefused else .snapshotRetired c.id) := by
  refine .get (.getOr (find_eq_some.mpr ⟨hc, rfl⟩) (.ensured ha ?_))
  split
  · rename_i hr
    exact .ensured hr (.bind (.onlyIf hf (.get (.bind (.ensure (by simp [hm]))))))
  · rename_i hr
    exact .bind (.ensure hr)

/-- After the commit of a signed snapshot, and while no step deletes the last marker of its base,
every commit of an unsigned candidate of the base or its flat twin, under either scheme, fails and
writes nothing: as a downgrade, or as retired if the candidate was retired meanwhile. A marker is
deleted only by forgetting a suite or by the sweep, and then its base has no suite row. -/
theorem never_downgrade {db db₁ db₂ : Db} {s : Snapshot} {p : Str} (hs : s ∈ db.snapshots)
    (hf : s.form = .inline ∨ s.form = .detached) (hp : s.key.suitePath = suitePath p)
    (hok : commitAdoption s.id members skipped packageHashes prefetched coverage skipNow now db =
      .ok ((), db₁))
    (hrun : (sys.guard (Unforgotten s.key.host (markerBase s.key.suitePath))).Steps db₁ db₂) :
    (∀ c ∈ db₂.snapshots, c.form = .unsigned → c.adoptedAt = none → c.key.host = s.key.host →
      (c.key.suitePath = markerBase s.key.suitePath ∨
        c.key.suitePath = markerBase s.key.suitePath ++ "/.".toList) →
      ∀ ms ks ps ups cov skipNow now,
        Tx.Fails (commitAdoption c.id ms ks ps ups cov skipNow now) db₂
          (if c.retiredAt = none then .unsignedDowngradeRefused else .snapshotRetired c.id) ∧
        (Op.commitAdoption c.id ms ks ps ups cov skipNow now).tx.commit db₂ = db₂) ∧
    ∀ (db : Db) (op : Op), ∀ m ∈ db.markers,
      (¬ ∃ m' ∈ (op.tx.commit db).markers, m'.key = m.key) →
      op.forgets = true ∧ (op.tx.commit db).suitesAt m.key.host m.key.base = false := by
  refine ⟨?_, fun db op m hm hgone => Op.unmarks hm hgone⟩
  intro c hc hcf hca hhost hpath ms ks ps ups cov skipNow now
  have hmark : db₁.markedAt s.key.host (markerBase s.key.suitePath) = true :=
    markedAt_iff.mpr ⟨s.key.scheme, commitAdoption_marks hs hf hok⟩
  have hbase : markerBase c.key.suitePath = markerBase s.key.suitePath := by
    rcases hpath with h | h
    · rw [h, hp, markerBase_markerBase]
    · rw [h, markerBase_twin]
  have hfail : Tx.Fails (commitAdoption c.id ms ks ps ups cov skipNow now) db₂ _ :=
    commitAdoption_refused hc hcf hca (by rw [hhost, hbase]; exact marked_steps hrun hmark)
  exact ⟨hfail, hfail.commit⟩

end Commit

/-! ## A run -/

/-- The candidate of `adoptionRun` before its commit. -/
def candidateDb : Db := (sys.exec Db.empty (adoptionRun.take 4)).getD Db.empty

/-- The commit of the signed candidate. -/
def signedCommit : Tx Unit := commitAdoption 1 [] [] [] [] true 5 5

/-- The database after it. -/
def signedDb : Db := signedCommit.commit candidateDb

theorem signedDb_ok : signedCommit candidateDb = .ok ((), signedDb) :=
  Tx.ok_commit (by decide +kernel)

/-- After the signed adoption an unsigned candidate of the suite comes in, and the suite is reaped. -/
def reapRun : List Op :=
  [.insertCandidateSnapshot ⟨stable, some (digest 'b'), none, none, some .unsigned, false⟩ 6,
    .reapIdleSuite stable (some 1) none 7]

/-- The steps that keep the marker of the suite. -/
abbrev keptSys : Sys Db Op := sys.guard (Unforgotten stable.host (markerBase stable.suitePath))

/-- The database with the unsigned candidate. -/
def unsignedDb : Db := (keptSys.exec signedDb (reapRun.take 1)).getD Db.empty

/-- The database after `reapRun`. -/
def reapedDb : Db := (keptSys.exec signedDb reapRun).getD Db.empty

theorem stable_suitePath : stable.suitePath = suitePath "/debian/dists/stable/InRelease".toList := by
  decide +kernel

theorem candidateDb_signed : ∃ s ∈ candidateDb.snapshots, s.id = 1 ∧
    (s.form, s.key) = (.inline, stable) :=
  exists_of_find (by decide +kernel)

theorem never_downgrade_unsignedDb :
    ∃ c ∈ unsignedDb.snapshots, c.id = 2 ∧
      Tx.Fails (commitAdoption 2 [] [] [] [] false 8 8) unsignedDb .unsignedDowngradeRefused := by
  obtain ⟨s, hs, hid, he⟩ := candidateDb_signed
  obtain ⟨hform, hkey⟩ := Prod.mk.inj he
  obtain ⟨c, hc, hcid, hce⟩ : ∃ c ∈ unsignedDb.snapshots, c.id = 2 ∧
      (c.form, c.adoptedAt, c.retiredAt, c.key) = (.unsigned, none, none, stable) :=
    exists_of_find (by decide +kernel)
  simp only [Prod.mk.injEq] at hce
  obtain ⟨hcf, hca, hcr, hck⟩ := hce
  have hok : commitAdoption s.id [] [] [] [] true 5 5 candidateDb = .ok ((), signedDb) := by
    rw [hid]
    exact signedDb_ok
  have hpath : stable.suitePath = markerBase stable.suitePath := by decide +kernel
  have hrun : (sys.guard (Unforgotten s.key.host (markerBase s.key.suitePath))).Steps signedDb
      unsignedDb := by
    rw [hkey]
    exact .exec (eq_some_getD _ (by decide +kernel))
  have := (never_downgrade hs (.inl hform) (hkey ▸ stable_suitePath) hok hrun).1 c hc hcf hca
    (by rw [hck, hkey])
    (.inl (by rw [hck, hkey]; exact hpath)) [] [] [] [] false 8 8
  rw [hcid, if_pos hcr] at this
  exact ⟨c, hc, hcid, this.1⟩

/-- The error of a later commit is not always the refusal: a candidate that was retired when its
suite was reaped is refused as retired. -/
theorem retired_candidate :
    ¬ ∀ (db db₁ db₂ : Db) (s c : Snapshot) (p : Str), sys.Reach db → s ∈ db.snapshots →
      s.form = .inline ∨ s.form = .detached → s.key.suitePath = suitePath p →
      commitAdoption s.id [] [] [] [] true 5 5 db = .ok ((), db₁) →
      (sys.guard (Unforgotten s.key.host (markerBase s.key.suitePath))).Steps db₁ db₂ →
      c ∈ db₂.snapshots → c.form = .unsigned → c.adoptedAt = none → c.key.host = s.key.host →
      (c.key.suitePath = markerBase s.key.suitePath ∨
        c.key.suitePath = markerBase s.key.suitePath ++ "/.".toList) →
      Tx.Fails (commitAdoption c.id [] [] [] [] false 8 8) db₂ .unsignedDowngradeRefused := by
  intro h
  obtain ⟨s, hs, hid, he⟩ := candidateDb_signed
  obtain ⟨hform, hkey⟩ := Prod.mk.inj he
  obtain ⟨c, hc, hcid, hce⟩ : ∃ c ∈ reapedDb.snapshots, c.id = 2 ∧
      (c.form, c.adoptedAt, c.key) = (.unsigned, none, stable) :=
    exists_of_find (by decide +kernel)
  simp only [Prod.mk.injEq] at hce
  obtain ⟨hcf, hca, hck⟩ := hce
  have hpath : stable.suitePath = markerBase stable.suitePath := by decide +kernel
  have hreach : sys.Reach candidateDb := .exec rfl (eq_some_getD _ (by decide +kernel))
  have hsteps : keptSys.Steps signedDb reapedDb := .exec (eq_some_getD _ (by decide +kernel))
  have hfail := h candidateDb signedDb reapedDb s c _ hreach hs (.inl hform)
    (hkey ▸ stable_suitePath) (by rw [hid]; exact signedDb_ok) (by rw [hkey]; exact hsteps)
    hc hcf hca (by rw [hck, hkey]) (.inl (by rw [hck, hkey]; exact hpath))
  rw [hcid] at hfail
  have hretired : (match commitAdoption 2 [] [] [] [] false 8 8 reapedDb with
      | .error (.snapshotRetired _) => true
      | _ => false) = true := by decide +kernel
  unfold Tx.Fails at hfail
  simp [hfail] at hretired

end AptCacher.Cache
