import Mathlib.Data.List.Fold
import Mathlib.Data.List.MinMax
import AptCacher.Cache.Walk
import AptCacher.Cache.Reads

/-!
# What the lookup of declared hashes finds

`DeclaredHashesForPath` answers from the rows that current signed snapshots declare: the rows of
exactly the request path, or else the flat rows whose file name is a suffix of the path.

* `Db.Declares`: the declaration that a current signed snapshot makes with a row.
* `Db.DeclaredAt`, `Db.FlatAt`: the declarations for a path, and those of flat rows below a base.
* `Db.Answers`: the answer in those terms. `mem_declaredHashes`: the lookup finds it, in every state
  of the database.
* `Flagged`: the `flatRows` flag beside the writer's queue. `flatRows_exact`: while the flag is
  down there is no flat row, so that skipping the second lookup changes nothing.
-/

namespace AptCacher.Cache

open Spec Table Aptpath

/-! ## Declarations -/

/-- The row's snapshot is inline or detached and the current one of its suite, and `d` is what it
declares with the row. -/
def Db.Declares (db : Db) (p : PackageHash) (d : DeclaredHash) : Prop :=
  ∃ s ∈ db.snapshots, ∃ r ∈ db.suites, s.id = p.snapshotId ∧ (s.form = .inline ∨ s.form = .detached) ∧
    r.key = s.key ∧ r.current = some s.id ∧
    d = ⟨p.declared, s.id, p.packageName, s.key.suitePath⟩

/-- A declaration for exactly this path. -/
def Db.DeclaredAt (db : Db) (u : UrlKey) (d : DeclaredHash) : Prop :=
  ∃ p ∈ db.packageHashes, p.url = u ∧ db.Declares p d

/-- The declaration of a flat row of the host: the clean path is the file name below `base`, and
`base` is the suite's own base or a directory above it. -/
def Db.FlatAt (db : Db) (u : UrlKey) (base name : Str) (d : DeclaredHash) : Prop :=
  ∃ p ∈ db.packageHashes, p.url.scheme = u.scheme ∧ p.url.host = u.host ∧ p.flatFilename = name ∧
    name ≠ [] ∧ dotClean u.path = base ++ '/' :: name ∧
    segments base <+: segments (flatBase d.suitePath) ∧ db.Declares p d

/-- A path that is looked up by suffix: clean of dots it is absolute, of few segments, none of
them empty or a step up. -/
def Splittable (path : Str) : Prop :=
  ∃ rest, dotClean path = '/' :: rest ∧ (segments rest).length ≤ maxFallbackSegments ∧
    ∀ s ∈ segments rest, s ≠ [] ∧ s ≠ "..".toList

/-- The lengths within which a split is tried. -/
def Short (base name : Str) : Prop :=
  base.length ≤ maxSuitePathBytes ∧ name.length ≤ maxFilenameBytes

/-- The flat declarations for the path at the longest base, among the splits in `P`. -/
def Db.LongestAt (db : Db) (P : Str → Str → Prop) (u : UrlKey) (d : DeclaredHash) : Prop :=
  ∃ base name, P base name ∧ db.FlatAt u base name d ∧
    ∀ base' name' d', P base' name' → db.FlatAt u base' name' d' → base'.length ≤ base.length

/-- The declarations for the path: those for exactly this path if there is any, or else the flat
ones at the longest base. -/
def Db.Answers (db : Db) (P : Str → Str → Prop) (u : UrlKey) (d : DeclaredHash) : Prop :=
  db.DeclaredAt u d ∨ (¬ ∃ e, db.DeclaredAt u e) ∧ Splittable u.path ∧ db.LongestAt P u d

variable {db : Db} {d : DeclaredHash} {u : UrlKey} {path base : Str}

theorem vouches_eq_some {p : PackageHash} :
    db.vouches p = some d ↔ db.Declares p d := by
  simp only [Db.vouches, Db.vouchingSuite, Option.map_eq_some_iff, Option.bind_eq_some_iff,
    Option.filter_eq_some_iff, find_eq_some, Bool.and_eq_true, beq_iff_eq, bne_iff_ne]
  constructor
  · rintro ⟨r, ⟨s, ⟨hs, hid⟩, ⟨hr, hkey⟩, hcur, hform⟩, rfl⟩
    refine ⟨s, hs, r, hr, hid, ?_, hkey, by rw [hid, hcur], by rw [hid, hkey]⟩
    cases hf : s.form with
    | inline => exact .inl rfl
    | detached => exact .inr rfl
    | unsigned => exact absurd hf hform
  · rintro ⟨s, hs, r, hr, hid, hform, hkey, hcur, rfl⟩
    refine ⟨r, ⟨s, ⟨hs, hid⟩, ⟨hr, hkey⟩, by rw [hcur, hid], ?_⟩, by rw [hid, hkey]⟩
    rcases hform with h | h <;> rw [h] <;> decide

theorem mem_declaredExact :
    d ∈ db.declaredExact u ↔ db.DeclaredAt u d := by
  simp only [Db.declaredExact, Db.DeclaredAt, List.mem_filterMap, mem_select, beq_iff_eq,
    vouches_eq_some, and_assoc]

/-! ## The suffixes of a path -/

theorem mem_flatSplits {name : Str} : (base, name) ∈ flatSplits path ↔
    Splittable path ∧ dotClean path = base ++ '/' :: name ∧ Short base name := by
  unfold flatSplits Splittable Short
  split
  case h_1 rest hpath =>
    simp only [hpath, List.cons.injEq, true_and, exists_eq_left', rooted_eq_cut]
    have hbad : (segments rest).any (fun s => s == [] || s == "..".toList) = true ↔
        ¬ ∀ s ∈ segments rest, s ≠ [] ∧ s ≠ "..".toList := by
      simp only [List.any_eq_true, Bool.or_eq_true, beq_iff_eq]
      grind
    have hcut : ∀ k, k < (segments rest).length →
        (((segments rest).take k).flatMap fun s => '/' :: s).length +
          (join ((segments rest).drop k)).length = rest.length := by
      intro k hk
      have := congrArg List.length (rooted_eq_cut.mpr ⟨k, hk, rfl, rfl⟩)
      simp only [List.length_cons, List.length_append] at this
      omega
    split
    case isTrue h =>
      rw [hbad] at h
      constructor
      · intro h'
        cases h'
      · rintro ⟨⟨hn, hs⟩, ⟨k, hk, rfl, rfl⟩, hb, hf⟩
        have := hcut k hk
        rcases h with h | h | h
        · omega
        · omega
        · exact absurd hs h
    case isFalse h =>
      rw [hbad] at h
      simp only [not_or, not_lt, not_not] at h
      simp only [List.mem_filterMap, List.mem_range]
      constructor
      · rintro ⟨k, hk, h'⟩
        split at h'
        · cases h'
        · cases h'
          exact ⟨h.2, ⟨k, hk, rfl, rfl⟩, by omega⟩
      · rintro ⟨-, ⟨k, hk, rfl, rfl⟩, hlen⟩
        exact ⟨k, hk, if_neg (by omega)⟩
  case h_2 hpath =>
    constructor
    · intro h
      cases h
    · rintro ⟨⟨rest, hrest, -⟩, -⟩
      exact absurd hrest (hpath rest)

theorem find_flatSplits {name : Str} :
    (∃ f, (flatSplits path).find? (fun s => s.2 == name) = some (base, f)) ↔
      (base, name) ∈ flatSplits path := by
  constructor
  · rintro ⟨f, h⟩
    have hf : f = name := by simpa using List.find?_some h
    exact hf ▸ List.mem_of_find?_eq_some h
  · intro h
    have hsome : ((flatSplits path).find? fun s => s.2 == name).isSome = true :=
      List.find?_isSome.mpr ⟨_, h, beq_self_eq_true name⟩
    obtain ⟨⟨base', f⟩, hfind⟩ := Option.isSome_iff_exists.mp hsome
    have hf : f = name := by simpa using List.find?_some hfind
    have hcut := (mem_flatSplits.mp h).2.1
    have hcut' := (mem_flatSplits.mp (List.mem_of_find?_eq_some hfind)).2.1
    rw [hcut, hf] at hcut'
    rw [List.append_cancel_right hcut']
    exact ⟨f, hfind⟩

theorem vouchesBelow_eq_some {p : PackageHash} :
    db.vouchesBelow (flatSplits path) p = some (base, d) ↔ (base, p.flatFilename) ∈ flatSplits path ∧
      segments base <+: segments (flatBase d.suitePath) ∧ db.Declares p d := by
  rw [← find_flatSplits]
  simp only [Db.vouchesBelow, Option.bind_eq_bind, Option.bind_eq_some_iff, vouches_eq_some]
  constructor
  · rintro ⟨⟨base', f⟩, hfind, d', hd, h⟩
    split at h
    · rename_i hpre
      cases h
      exact ⟨⟨f, hfind⟩, isPrefixOf_slash.mp hpre, hd⟩
    · cases h
  · rintro ⟨⟨f, hfind⟩, hpre, hd⟩
    exact ⟨(base, f), hfind, d, hd, if_pos (isPrefixOf_slash.mpr hpre)⟩

/-- The flat rows that the suffix lookup keeps before it looks for the longest base. -/
theorem exists_vouchesBelow :
    (base, d) ∈ (db.packageHashes.select fun p => p.url.scheme == u.scheme && p.url.host == u.host &&
      p.flatFilename != []).filterMap (db.vouchesBelow (flatSplits u.path)) ↔
    Splittable u.path ∧ ∃ name, Short base name ∧ db.FlatAt u base name d := by
  simp only [List.mem_filterMap, mem_select, vouchesBelow_eq_some, mem_flatSplits, Bool.and_eq_true,
    beq_iff_eq, bne_iff_ne]
  constructor
  · rintro ⟨p, ⟨hp, ⟨hs, hh⟩, hne⟩, ⟨hsp, hcut, hshort⟩, hpre, hd⟩
    exact ⟨hsp, p.flatFilename, hshort, p, hp, hs, hh, rfl, hne, hcut, hpre, hd⟩
  · rintro ⟨hsp, name, hshort, p, hp, hs, hh, rfl, hne, hcut, hpre, hd⟩
    exact ⟨p, ⟨hp, ⟨hs, hh⟩, hne⟩, ⟨hsp, hcut, hshort⟩, hpre, hd⟩

/-- The running best of lengths is reached exactly by an element that is longest. -/
theorem foldl_max_eq {α : Type} {l : List α} {a : α} (f : α → Nat) (h : a ∈ l) :
    f a = (l.map f).foldl max 0 ↔ ∀ b ∈ l, f b ≤ f a := by
  rw [List.foldl_eq_foldr]
  have hle : ∀ b ∈ l, f b ≤ (l.map f).foldr max 0 := fun b hb =>
    List.le_max_of_le (List.mem_map_of_mem hb) le_rfl
  constructor
  · intro heq b hb
    exact heq ▸ hle b hb
  · intro hmax
    refine le_antisymm (hle a h) (List.max_le_of_forall_le _ _ fun n hn => ?_)
    obtain ⟨b, hb, rfl⟩ := List.mem_map.mp hn
    exact hmax b hb

theorem mem_declaredBySuffix :
    d ∈ db.declaredBySuffix u ↔ Splittable u.path ∧ db.LongestAt Short u d := by
  simp only [Db.declaredBySuffix, List.mem_map, List.mem_filter, beq_iff_eq, Prod.exists, exists_eq_right]
  constructor
  · rintro ⟨base, hkept, hbest⟩
    obtain ⟨hsp, name, hshort, hflat⟩ := exists_vouchesBelow.mp hkept
    refine ⟨hsp, base, name, hshort, hflat, fun base' name' d' hshort' hflat' => ?_⟩
    exact (foldl_max_eq (fun y => y.1.length) hkept).mp hbest (base', d')
      (exists_vouchesBelow.mpr ⟨hsp, name', hshort', hflat'⟩)
  · rintro ⟨hsp, base, name, hshort, hflat, hmax⟩
    have hkept := exists_vouchesBelow.mpr ⟨hsp, name, hshort, hflat⟩
    refine ⟨base, hkept, (foldl_max_eq (fun y => y.1.length) hkept).mpr fun y hy => ?_⟩
    obtain ⟨-, name', hshort', hflat'⟩ := exists_vouchesBelow.mp hy
    exact hmax y.1 name' y.2 hshort' hflat'

theorem mem_declaredHashes :
    d ∈ db.declaredHashes u ↔ db.Answers Short u d := by
  have hnone : db.declaredExact u = [] ↔ ¬ ∃ e, db.DeclaredAt u e := by
    rw [List.eq_nil_iff_forall_not_mem, not_exists]
    exact forall_congr' fun e => not_congr mem_declaredExact
  unfold Db.declaredHashes Db.Answers
  split
  · rename_i h
    rw [mem_declaredBySuffix]
    constructor
    · exact fun h' => .inr ⟨hnone.mp h, h'⟩
    · rintro (h' | h')
      · exact absurd ⟨d, h'⟩ (hnone.mp h)
      · exact h'.2
  · rename_i h
    rw [mem_declaredExact]
    constructor
    · exact .inl
    · rintro (h' | h')
      · exact h'
      · exact absurd (hnone.mpr h'.1) h

/-! ## Where package rows come from -/

/-- Every package row was there, or is one of `rows`. -/
def PackageRows (rows : List PackageHash) (db db' : Db) : Prop :=
  ∀ p ∈ db'.packageHashes, ∃ q, (q ∈ db.packageHashes ∨ q ∈ rows) ∧ q.entry = p.entry

instance packageRows_refl {rows : List PackageHash} : Std.Refl (PackageRows rows) where
  refl _ p hp := ⟨p, .inl hp, rfl⟩

instance packageRows_trans {rows : List PackageHash} : IsTrans Db (PackageRows rows) where
  trans _ _ _ h h' p hp := by
    obtain ⟨q, hq | hq, heq⟩ := h' p hp
    · obtain ⟨q', hq', heq'⟩ := h q hq
      exact ⟨q', hq', heq'.trans heq⟩
    · exact ⟨q, .inr hq, heq⟩

theorem packageRows_of_stmt {g : Given} {rows : List PackageHash} {db' : Db}
    (hg : ∀ p, g.package p → p ∈ rows) (h : Stmt g db db') : PackageRows rows db db' := by
  cases h with
  | packages _ h =>
    intro p hp
    obtain ⟨q, hq, heq⟩ := h p hp
    exact ⟨q, hq.imp_right (hg q), heq⟩
  | _ => exact fun p hp => ⟨p, .inl hp, rfl⟩

theorem Op.commit_packageRows (op : Op) (db : Db) : PackageRows op.packageRows db (op.tx.commit db) :=
  (op.commit_stmts db op.clocks_true).within fun _ _ hs => packageRows_of_stmt (fun _ h => h) hs

/-! ## The flag -/

/-- `DeclaredHashesForPath`: while `flatRows` is down, the second lookup is skipped. -/
def declaredHashesForPath (flatRows : Bool) (db : Db) (u : UrlKey) : List DeclaredHash :=
  let out := db.declaredExact u
  if out ≠ [] ∨ flatRows = false then out else db.declaredBySuffix u

/-- A row with a file name for the suffix lookup. -/
def PackageHash.isFlat (p : PackageHash) : Bool := p.flatFilename != []

def noteFlatRows (flatRows : Bool) (rows : List PackageHash) : Bool := flatRows || rows.any PackageHash.isFlat

/-- The cache as the lookup sees it: the database, the flag, and what waits for the writer. -/
structure Flagged where
  db : Db
  flatRows : Bool
  writes : List Op

/-- A submission to the writer, and what the writer does with the first submission: commit it or
fail. -/
inductive Flagged.Act
  | submit (op : Op)
  | write (ok : Bool)

/-- The flag from `Open`, over any database: primed from the rows, then set by each submission
with flat rows before it is queued. -/
def flagged : Sys Flagged Flagged.Act where
  init s := s.flatRows = s.db.packageHashes.any PackageHash.isFlat ∧ s.writes = []
  step s
    | .submit op =>
      some { s with flatRows := noteFlatRows s.flatRows op.packageRows, writes := s.writes ++ [op] }
    | .write ok =>
      match s.writes with
      | [] => none
      | op :: writes => some { s with db := if ok then op.tx.commit s.db else s.db, writes := writes }

/-- While the flag is down there is no flat row, in the database or on its way. -/
def Flagged.Exact (s : Flagged) : Prop :=
  s.flatRows = false → (∀ p ∈ s.db.packageHashes, p.isFlat = false) ∧
    ∀ op ∈ s.writes, ∀ p ∈ op.packageRows, p.isFlat = false

theorem noteFlatRows_eq_false {flatRows : Bool} {rows : List PackageHash} :
    noteFlatRows flatRows rows = false ↔ flatRows = false ∧ ∀ p ∈ rows, p.isFlat = false := by
  simp [noteFlatRows]

theorem commit_not_flat {op : Op} (hop : ∀ p ∈ op.packageRows, p.isFlat = false)
    (hdb : ∀ p ∈ db.packageHashes, p.isFlat = false) :
    ∀ p ∈ (op.tx.commit db).packageHashes, p.isFlat = false := by
  intro p hp
  obtain ⟨q, hq, heq⟩ := op.commit_packageRows db p hp
  have hflat : q.flatFilename = p.flatFilename := congrArg (fun e => e.2.2) heq
  have : q.isFlat = false := hq.elim (hdb q) (hop q)
  rwa [PackageHash.isFlat, hflat] at this

theorem flagged_inductive : flagged.Inductive Flagged.Exact where
  init s h hflag := by
    obtain ⟨hprimed, hnone⟩ := h
    refine ⟨any_eq_false.mp (hprimed.symm.trans hflag), ?_⟩
    rw [hnone]
    exact fun op hop => (List.not_mem_nil hop).elim
  step s a s' hs hstep hflag := by
    cases a with
    | submit op =>
      cases hstep
      obtain ⟨hold, hop⟩ := noteFlatRows_eq_false.mp hflag
      obtain ⟨hdb, hwrites⟩ := hs hold
      refine ⟨hdb, fun op' hop' => ?_⟩
      rcases List.mem_append.mp hop' with h | h
      · exact hwrites op' h
      · rw [List.mem_singleton.mp h]
        exact hop
    | write ok =>
      simp only [flagged] at hstep
      split at hstep
      · cases hstep
      · rename_i op writes hw
        cases hstep
        obtain ⟨hdb, hwrites⟩ := hs hflag
        rw [hw] at hwrites
        refine ⟨?_, fun op' hop' => hwrites op' (List.mem_cons_of_mem _ hop')⟩
        cases ok with
        | true => exact commit_not_flat (hwrites op List.mem_cons_self) hdb
        | false => exact hdb

theorem flatRows_exact {s : Flagged} (h : flagged.Reach s) (u : UrlKey) :
    declaredHashesForPath s.flatRows s.db u = s.db.declaredHashes u := by
  unfold declaredHashesForPath Db.declaredHashes
  dsimp only
  by_cases hexact : s.db.declaredExact u = []
  · by_cases hflag : s.flatRows = false
    · have hdb := (flagged_inductive.reach h hflag).1
      rw [if_pos (.inr hflag), if_pos hexact, hexact, eq_comm, List.eq_nil_iff_forall_not_mem]
      intro d hd
      obtain ⟨-, base, name, -, ⟨p, hp, -, -, hname, hne, -⟩, -⟩ := mem_declaredBySuffix.mp hd
      have := hdb p hp
      rw [PackageHash.isFlat, hname] at this
      exact hne (by simpa using this)
    · rw [if_neg (by simp [hexact, hflag]), if_pos hexact]
  · rw [if_pos (.inl hexact), if_neg hexact]

end AptCacher.Cache
