import Mathlib.Data.List.Flatten
import AptCacher.Cache.Pointer
import AptCacher.Cache.Vouching

/-!
# File names and the lookup by suffix

A Packages index declares a file name relative to the repository. `validateFilename` says which
names an index may declare; a flat suite's rows carry the name clean of dots, by which the second
lookup finds them.

* `validateFilename`, `length_dotClean_le`: the names and their lengths.
* `declaredHashesForPath_spec`: what the lookup answers, and that neither the flag nor the limits on
  lengths change it.
-/

namespace AptCacher.Freshness

open Spec Cache Aptpath

/-! ## File names -/

/-- Why a file name is refused. -/
inductive FilenameErr
  /-- `empty`. -/
  | empty
  /-- `longer than 4096 bytes`. -/
  | tooLong
  /-- `absolute path not allowed`. -/
  | absolute
  /-- `contains backslash`. -/
  | backslash
  /-- `contains URL delimiter`. -/
  | urlDelimiter
  /-- `contains control byte 0x…`. -/
  | controlByte (c : Char)
  /-- `contains empty segment`. -/
  | emptySegment
  /-- `contains .. segment`. -/
  | dotDotSegment
  /-- `names no file`. -/
  | namesNoFile
  deriving DecidableEq

/-- A segment that no file name may have. -/
def refusedSegment (seg : Str) : Option FilenameErr :=
  if seg = [] then some .emptySegment
  else if seg = "..".toList then some .dotDotSegment
  else none

def validateFilename (f : Str) : Except FilenameErr Unit :=
  if f = [] then .error .empty
  else if maxFilenameBytes < f.length then .error .tooLong
  else if f.head? = some '/' then .error .absolute
  else if f.contains '\\' then .error .backslash
  else if f.any (fun c => c == '?' || c == '#') then .error .urlDelimiter
  else match f.find? fun c => c.val < 0x20 || c.val == 0x7f with
    | some c => .error (.controlByte c)
    | none => match (segments f).findSome? refusedSegment with
      | some e => .error e
      | none =>
        if (segments f).all (fun seg => seg == ".".toList) then .error .namesNoFile else .ok ()

theorem length_of_validateFilename {f : Str} (h : validateFilename f = .ok ()) :
    f.length ≤ maxFilenameBytes := by
  unfold validateFilename at h
  split at h
  · cases h
  · split at h
    · cases h
    · omega

theorem length_join {segs : List Str} (h : segs ≠ []) :
    (join segs).length + 1 = (segs.flatMap fun s => '/' :: s).length := by
  obtain ⟨s, segs, rfl⟩ := List.exists_cons_of_ne_nil h
  rw [← join_nil_cons, join_cons_cons, List.nil_append, List.length_cons]

theorem length_join_le {segs segs' : List Str} (h : segs.Sublist segs') :
    (join segs).length ≤ (join segs').length := by
  by_cases hnil : segs = []
  · rw [hnil]
    exact Nat.zero_le _
  · have hnil' : segs' ≠ [] := by
      rintro rfl
      exact hnil (List.sublist_nil.mp h)
    have := (h.flatMap fun s => '/' :: s).length_le
    rw [← length_join hnil, ← length_join hnil'] at this
    omega

theorem length_dotClean_le (p : Str) : (dotClean p).length ≤ p.length :=
  calc (dotClean p).length ≤ (join (segments p)).length := length_join_le List.filter_sublist
    _ = p.length := by rw [join_segments]

/-! ## The lookup -/

/-- Every flat file name was accepted and then cleaned of dots, and every suite path is short. -/
def Validated (db : Db) : Prop :=
  (∀ p ∈ db.packageHashes, p.flatFilename ≠ [] →
    ∃ f, validateFilename f = .ok () ∧ p.flatFilename = dotClean f) ∧
  ∀ r ∈ db.suites, r.key.suitePath.length ≤ maxSuitePathBytes

/-- Every package row has the scheme and host of its snapshot. -/
def Homed (db : Db) : Prop :=
  ∀ p ∈ db.packageHashes, ∀ s ∈ db.snapshots, s.id = p.snapshotId →
    s.key.scheme = p.url.scheme ∧ s.key.host = p.url.host

theorem length_trimSuffix_le (s suffix : Str) : (trimSuffix s suffix).length ≤ s.length := by
  unfold trimSuffix
  split
  · exact List.length_take_le' _ _
  · exact le_rfl

variable {db : Db} {u : UrlKey} {d : DeclaredHash}

theorem short_of_flatAt (h : Validated db) {base name : Str} (hflat : db.FlatAt u base name d) :
    Short base name := by
  obtain ⟨p, hp, -, -, rfl, hne, -, hpre, hd⟩ := hflat
  obtain ⟨f, hf, hclean⟩ := h.1 p hp hne
  constructor
  · obtain ⟨s, -, r, hr, -, -, hkey, -, rfl⟩ := hd
    have hbase : (base ++ ['/']).length ≤ (flatBase s.key.suitePath ++ ['/']).length :=
      (List.isPrefixOf_iff_prefix.mp (isPrefixOf_slash.mpr hpre)).length_le
    have hpath : (flatBase s.key.suitePath).length ≤ s.key.suitePath.length := length_trimSuffix_le _ _
    have hmax := h.2 r hr
    rw [hkey] at hmax
    simp only [List.length_append, List.length_singleton] at hbase
    omega
  · rw [hclean]
    exact (length_dotClean_le f).trans (length_of_validateFilename hf)

theorem answers_short_iff (h : Validated db) :
    db.Answers Short u d ↔ db.Answers (fun _ _ => True) u d := by
  refine or_congr_right (and_congr_right fun _ => and_congr_right fun _ => ?_)
  constructor
  · rintro ⟨base, name, -, hflat, hmax⟩
    exact ⟨base, name, trivial, hflat, fun base' name' d' _ hflat' =>
      hmax base' name' d' (short_of_flatAt h hflat') hflat'⟩
  · rintro ⟨base, name, -, hflat, hmax⟩
    exact ⟨base, name, short_of_flatAt h hflat, hflat, fun base' name' d' _ hflat' =>
      hmax base' name' d' trivial hflat'⟩

/-- A declaration that is answered is of a snapshot of the request's scheme and host. -/
theorem home_of_answers (h : Homed db) {P : Str → Str → Prop} (hd : db.Answers P u d) :
    ∃ s ∈ db.snapshots, s.id = d.snapshotId ∧ s.key = ⟨u.scheme, u.host, d.suitePath⟩ := by
  have key : ∀ p ∈ db.packageHashes, p.url.scheme = u.scheme → p.url.host = u.host → db.Declares p d →
      ∃ s ∈ db.snapshots, s.id = d.snapshotId ∧ s.key = ⟨u.scheme, u.host, d.suitePath⟩ := by
    rintro p hp hscheme hhost ⟨s, hs, r, -, hid, -, -, -, rfl⟩
    obtain ⟨hscheme', hhost'⟩ := h p hp s hs hid
    refine ⟨s, hs, rfl, ?_⟩
    rw [← hscheme, ← hhost, ← hscheme', ← hhost']
  rcases hd with ⟨p, hp, rfl, hd⟩ | ⟨-, -, base, name, -, ⟨p, hp, hscheme, hhost, -, -, -, -, hd⟩, -⟩
  · exact key p hp rfl rfl hd
  · exact key p hp hscheme hhost hd

/-- `DeclaredHashesForPath` answers with the declarations of current signed snapshots: those for
exactly the path, or else the flat ones at the longest base. Neither the flag nor, over validated
rows, the limits on lengths change the answer. -/
theorem declaredHashesForPath_spec {s : Flagged} (h : flagged.Reach s) (u : UrlKey) (d : DeclaredHash) :
    (d ∈ declaredHashesForPath s.flatRows s.db u ↔ s.db.Answers Short u d) ∧
    (Validated s.db →
      (d ∈ declaredHashesForPath s.flatRows s.db u ↔ s.db.Answers (fun _ _ => True) u d)) ∧
    (Homed s.db → d ∈ declaredHashesForPath s.flatRows s.db u →
      ∃ n ∈ s.db.snapshots, n.id = d.snapshotId ∧ n.key = ⟨u.scheme, u.host, d.suitePath⟩) := by
  have hmem : d ∈ declaredHashesForPath s.flatRows s.db u ↔ s.db.Answers Short u d := by
    rw [flatRows_exact h, mem_declaredHashes]
  refine ⟨hmem, fun hv => hmem.trans (answers_short_iff hv), fun hh hd => ?_⟩
  exact home_of_answers hh (hmem.mp hd)

/-- A flat suite. -/
def flatSuite : SuiteKey := ⟨.http, "deb".toList, "/repo".toList⟩

/-- The row of the package `./pool/x.deb` of the flat suite. -/
def flatRow : PackageHash :=
  ⟨⟨.http, "deb".toList, "/repo/./pool/x.deb".toList⟩, 1, digest 'b', "x".toList, "all".toList,
    "1".toList, "pool/x.deb".toList⟩

/-- A snapshot of the flat suite is adopted with the row. -/
def flatRun : List Flagged.Act :=
  [.submit (.putBlob (digest 'a') 10 1), .write true,
    .submit (.createSuite ⟨flatSuite, 2, 0, []⟩ ⟨0, 0⟩ none 2), .write true,
    .submit (.insertCandidateSnapshot ⟨flatSuite, some (digest 'a'), none, none, none, false⟩ 3),
    .submit (.commitAdoption 1 [] [] [flatRow] [] true 4 4), .write true, .write true]

/-- The cache after `flatRun`. -/
def flatCache : Flagged := (flagged.exec ⟨Db.empty, false, []⟩ flatRun).getD ⟨Db.empty, false, []⟩

theorem flatCache_reach : flagged.Reach flatCache :=
  .exec ⟨rfl, rfl⟩ (eq_some_getD _ (by decide +kernel))

theorem flatCache_validated : Validated flatCache.db := by
  have hrows : flatCache.db.packageHashes.rows = [flatRow] := by decide +kernel
  have hsuites : flatCache.db.suites.rows.map Suite.key = [flatSuite] := by decide +kernel
  constructor
  · intro p hp _
    rw [Table.mem_def, hrows] at hp
    rw [List.mem_singleton.mp hp]
    exact ⟨"./pool/x.deb".toList, by decide +kernel, by decide +kernel⟩
  · intro r hr
    have hkey : r.key ∈ flatCache.db.suites.rows.map Suite.key := List.mem_map_of_mem hr
    rw [hsuites, List.mem_singleton] at hkey
    rw [hkey]
    decide

theorem flatCache_homed : Homed flatCache.db := by
  show ∀ p ∈ flatCache.db.packageHashes.rows, ∀ s ∈ flatCache.db.snapshots.rows, s.id = p.snapshotId →
    s.key.scheme = p.url.scheme ∧ s.key.host = p.url.host
  decide +kernel

/-- The package is found at a path without the dot that its row has. -/
theorem declaredHashesForPath_spec_flat :
    ⟨digest 'b', 1, "x".toList, "/repo".toList⟩ ∈ declaredHashesForPath flatCache.flatRows flatCache.db
      ⟨.http, "deb".toList, "/repo/pool/x.deb".toList⟩ ∧
    flatCache.db.Answers (fun _ _ => True) ⟨.http, "deb".toList, "/repo/pool/x.deb".toList⟩
      ⟨digest 'b', 1, "x".toList, "/repo".toList⟩ ∧
    ∃ n ∈ flatCache.db.snapshots, n.id = 1 ∧ n.key = flatSuite := by
  have hmem : ⟨digest 'b', 1, "x".toList, "/repo".toList⟩ ∈ declaredHashesForPath flatCache.flatRows
      flatCache.db ⟨.http, "deb".toList, "/repo/pool/x.deb".toList⟩ := by decide +kernel
  obtain ⟨-, hvalid, hhome⟩ := declaredHashesForPath_spec flatCache_reach _ _
  exact ⟨hmem, (hvalid flatCache_validated).mp hmem, hhome flatCache_homed hmem⟩

end AptCacher.Freshness
