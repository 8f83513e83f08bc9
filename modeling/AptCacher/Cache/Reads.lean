import Mathlib.Data.List.Sort
import AptCacher.Cache.Db

/-!
# Reads

The queries that a request makes outside the writer. Each is one statement and so reads one state
of the database; `DeclaredHashesForPath` is two statements, an exact lookup and, if that finds no
row, a lookup by the suffixes of the path.

* `Db.declaredExact`, `Db.declaredBySuffix`: the declarations of current signed snapshots.
* `Db.declaredHashes`: what both would find in one state.
* `Db.hostCoverage`: the current signed snapshots of a host.
* `Db.displacedMembers`: what the suite's displaced snapshots bind to a path.
-/

namespace AptCacher.Cache

open Spec Aptpath

/-! ## Declared hashes -/

/-- `DeclaredHash`: a declaration and the suite whose current snapshot makes it. -/
structure DeclaredHash where
  declared : Str
  snapshotId : Nat
  packageName : Str
  suitePath : Str
  deriving DecidableEq

namespace Db

/-- The suite whose current snapshot is the signed snapshot `id`. -/
def vouchingSuite (db : Db) (id : Nat) : Option Suite :=
  (db.snapshots.find id).bind fun s =>
    (db.suites.find s.key).filter fun r => r.current == some id && s.form != .unsigned

/-- The declaration of a `package_hash` row that a current signed snapshot makes. -/
def vouches (db : Db) (p : PackageHash) : Option DeclaredHash :=
  (db.vouchingSuite p.snapshotId).map fun r =>
    ⟨p.declared, p.snapshotId, p.packageName, r.key.suitePath⟩

/-- `declaredHashesExact`: the declarations for exactly this path. -/
def declaredExact (db : Db) (u : UrlKey) : List DeclaredHash :=
  (db.packageHashes.select fun p => p.url == u).filterMap db.vouches

end Db

def maxFallbackSegments : Nat := 32

/-- `aptpath.MaxSuitePathBytes`. -/
def maxSuitePathBytes : Nat := 1024

/-- `aptpath.MaxFilenameBytes`. -/
def maxFilenameBytes : Nat := 4096

/-- `aptpath.DotClean`: the path without its `.` segments. -/
def dotClean (p : Str) : Str := join ((segments p).filter fun s => s != ".".toList)

/-- `aptpath.FlatBase`: the directory that a flat suite's file names are relative to. -/
def flatBase (suite : Str) : Str := trimSuffix suite "/.".toList

/-- `flatSplits`: the clean path cut at every segment boundary into a base and a file name. -/
def flatSplits (path : Str) : List (Str × Str) :=
  match dotClean path with
  | '/' :: rest =>
    let segs := segments rest
    if maxSuitePathBytes + 1 + maxFilenameBytes < rest.length + 1 ∨ maxFallbackSegments < segs.length ∨
        segs.any (fun s => s == [] || s == "..".toList) then []
    else (List.range segs.length).filterMap fun k =>
      let base := (segs.take k).flatMap fun s => '/' :: s
      let name := join (segs.drop k)
      if maxSuitePathBytes < base.length ∨ maxFilenameBytes < name.length then none
      else some (base, name)
  | _ => []

namespace Db

/-- A flat row's declaration, with the base at which the path names it. -/
def vouchesBelow (db : Db) (splits : List (Str × Str)) (p : PackageHash) :
    Option (Str × DeclaredHash) := do
  let (base, _) ← splits.find? fun s => s.2 == p.flatFilename
  let d ← db.vouches p
  if (base ++ ['/']).isPrefixOf (flatBase d.suitePath ++ ['/']) then some (base, d) else none

/-- `declaredHashesBySuffix`: the declarations of flat rows at the longest base. -/
def declaredBySuffix (db : Db) (u : UrlKey) : List DeclaredHash :=
  let kept := (db.packageHashes.select fun p =>
    p.url.scheme == u.scheme && p.url.host == u.host && p.flatFilename != []).filterMap
      (db.vouchesBelow (flatSplits u.path))
  let best := (kept.map fun y => y.1.length).foldl max 0
  (kept.filter fun y => y.1.length == best).map Prod.snd

/-- `DeclaredHashesForPath` in one state of the database. -/
def declaredHashes (db : Db) (u : UrlKey) : List DeclaredHash :=
  if db.declaredExact u = [] then db.declaredBySuffix u else db.declaredExact u

end Db

/-- `distinctDeclared`: the different hashes of declarations. -/
def distinctDeclared (rows : List DeclaredHash) : List Str := (rows.map DeclaredHash.declared).dedup

/-! ## Snapshots -/

namespace Db

/-- `HostCurrentSnapshotsCoverage`: the host's current signed snapshots, each with whether its
packages are covered completely. -/
def hostCoverage (db : Db) (scheme : Scheme) (host : Str) : List (Nat × Bool) :=
  (db.snapshots.select fun s => s.key.scheme == scheme && s.key.host == host &&
    s.form != .unsigned && (db.suites.find s.key).any fun r => r.current == some s.id).map
      fun s => (s.id, s.coverage)

/-- The suite's adopted snapshots that are not retired, other than `current`. -/
def displacedOf (db : Db) (key : SuiteKey) (current : Nat) : List Snapshot :=
  db.snapshots.select fun s =>
    s.key == key && s.adoptedAt.isSome && s.retiredAt.isNone && s.id != current

/-- `DisplacedSnapshotMembers`: the members at the path of the newest `limit` of them, newest
first. -/
def displacedMembers (db : Db) (key : SuiteKey) (path : Str) (current : Nat) (limit : Int) :
    List Member :=
  let newest := (db.displacedOf key current).insertionSort fun a b =>
    b.adoptedAt.getD 0 < a.adoptedAt.getD 0 ∨ (b.adoptedAt.getD 0 = a.adoptedAt.getD 0 ∧ b.id ≤ a.id)
  (newest.take limit.toNat).filterMap fun s => db.members.find (s.id, path)

/-- `HostHasBlob`: a cached path of the host holds the blob. -/
def hostHasBlob (db : Db) (scheme : Scheme) (host hash : Str) : Bool :=
  db.urlPaths.any fun u =>
    u.key.scheme == scheme && u.key.host == host && u.blobHash == some hash

theorem mem_displacedMembers {db : Db} {key : SuiteKey} {path : Str} {current : Nat} {limit : Int}
    {m : Member} (h : m ∈ db.displacedMembers key path current limit) :
    m ∈ db.members ∧ m.path = path ∧ ∃ s ∈ db.snapshots, s.id = m.snapshotId ∧ s.key = key ∧
      s.adoptedAt ≠ none ∧ s.retiredAt = none ∧ s.id ≠ current := by
  obtain ⟨s, hs, hm⟩ := List.mem_filterMap.mp h
  obtain ⟨hm, hk⟩ := Table.find_eq_some.mp hm
  obtain ⟨hid, hpath⟩ := Prod.mk.inj hk
  have hs : s ∈ db.displacedOf key current := (List.mem_insertionSort _).mp (List.mem_of_mem_take hs)
  obtain ⟨hs, hp⟩ := Table.mem_select.mp hs
  simp only [Bool.and_eq_true, beq_iff_eq, Option.isSome_iff_ne_none, Option.isNone_iff_eq_none,
    bne_iff_ne] at hp
  exact ⟨hm, hpath, s, hs, hid.symm, hp.1.1.1, hp.1.1.2, hp.1.2, hp.2⟩

end Db

end AptCacher.Cache
