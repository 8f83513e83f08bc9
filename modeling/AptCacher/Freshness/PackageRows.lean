import AptCacher.Spec.Gather
import AptCacher.Freshness.Filename
import AptCacher.Freshness.Member

/-!
# The package rows of a snapshot

What an adoption writes to `package_hash`: the rows of the Packages, Sources and pdiff indexes that
it fetched. Reading and parsing an index are parameters (`Indexes`): the builders see only the
entries.

* `buildPackageHashes`, `buildSourceHashes`, `buildPdiffHashes`: the rows, each gathered by path.
* `mem_packageRows`, `mem_sourceRows`, `mem_pdiffRows`: which rows they are.
* `repoRoot_eq_iff`: the repository root that the builders use, against the suite's own.
-/

namespace AptCacher.Freshness

open Spec Cache Aptpath

/-! ## Indexes -/

/-- `PackageRef`, without its size. -/
structure PackageRef where
  filename : Str
  sha256 : Str
  package : Str
  architecture : Str
  version : Str
  deriving DecidableEq

/-- `SourceRef`, without its size. -/
structure SourceRef where
  path : Str
  sha256 : Str
  packageName : Str
  deriving DecidableEq

/-- `PdiffPatchRef`, without its size. -/
structure PdiffPatchRef where
  filename : Str
  sha256 : Str
  deriving DecidableEq

/-- Why the rows could not be built: each is an `ErrAdoptionParseFailed`. -/
inductive BuildErr
  | read (member : Str)
  | parse (member : Str)
  /-- Two hashes for one path. -/
  | hash (path a b : Str)
  /-- Two values of an identity field for one path. -/
  | package (path a b : Str)
  | architecture (path a b : Str)
  | version (path a b : Str)
  deriving DecidableEq

/-- Index files of type `B`: `readPackagesBlob` and the three parsers. -/
structure Indexes (B : Type) where
  readPackagesBlob : Str → Str → Option B
  /-- The entries, and the names without a SHA-256. -/
  parsePackages : B → Option (List PackageRef × List Str)
  parseSources : B → Option (List SourceRef)
  parsePdiffIndex : B → Option (List PdiffPatchRef)

variable {B : Type}

/-- `path.Base` of a member path, which has no empty or dotted segment. -/
def pathBase (p : Str) : Str := (segments p).getLast?.getD []

/-- `path.Dir` of a member path. -/
def pathDir (p : Str) : Str :=
  if '/' ∈ p then join (segments p).dropLast else ".".toList

def isPackagesBasename (base : Str) : Bool :=
  base == "Packages".toList ||
    ("Packages.".toList.isPrefixOf base && "Packages.".length < base.length)

def isPackagesMember (p : Str) : Bool :=
  ["Packages", "Packages.gz", "Packages.xz"].any fun b => b.toList == pathBase p

def isSourcesMember (p : Str) : Bool :=
  ["Sources", "Sources.gz", "Sources.xz"].any fun b => b.toList == pathBase p

def isPdiffIndexMember (p : Str) : Bool :=
  "/Packages.diff/Index".toList.isSuffixOf p || "/Sources.diff/Index".toList.isSuffixOf p

/-- `[a-z][a-z0-9]*`. -/
def isArch : Str → Bool
  | [] => false
  | c :: cs => ('a' ≤ c && c ≤ 'z') && cs.all fun c => ('a' ≤ c && c ≤ 'z') || ('0' ≤ c && c ≤ '9')

/-- `archFromPdiffIndexPath`: by the segment before the pdiff directory. -/
def archFromPdiffIndexPath (p : Str) : Option Str :=
  match (segments p).reverse with
  | index :: diff :: dir :: _ =>
    if index ≠ "Index".toList then none
    else if diff = "Packages.diff".toList then
      if "binary-".toList.isPrefixOf dir ∧ isArch (dir.drop "binary-".length) then
        some (dir.drop "binary-".length)
      else none
    else if diff = "Sources.diff".toList ∧ dir = "source".toList then some "source".toList
    else none
  | _ => none

/-- `strings.Index`. -/
def indexOf (sub : Str) : Str → Option Nat
  | [] => if sub = [] then some 0 else none
  | c :: p => if sub.isPrefixOf (c :: p) then some 0 else (indexOf sub p).map (· + 1)

/-- `repoRootFromSuitePath`: up to the first `/dists/`, with its slash. -/
def repoRootFromSuitePath (suitePath : Str) : Option Str :=
  (indexOf "/dists/".toList suitePath).map fun i => suitePath.take (i + 1)

/-- The entries of a Packages index, or why there are none. -/
def Indexes.packages (ix : Indexes B) (m : ReleaseMember) :
    Except BuildErr (List PackageRef × List Str) :=
  match ix.readPackagesBlob m.path m.sha256 with
  | none => .error (.read m.path)
  | some body =>
    match ix.parsePackages body with
    | none => .error (.parse m.path)
    | some entries => .ok entries

/-- The entries of a Sources index; an index that cannot be read or parsed has none. -/
def Indexes.sources (ix : Indexes B) (m : ReleaseMember) : Option (List SourceRef) :=
  (ix.readPackagesBlob m.path m.sha256).bind ix.parseSources

/-- The patches of a pdiff index; an index that cannot be read or parsed has none. -/
def Indexes.patches (ix : Indexes B) (m : ReleaseMember) : Option (List PdiffPatchRef) :=
  (ix.readPackagesBlob m.path m.sha256).bind ix.parsePdiffIndex

/-! ## Packages -/

structure DebPathDecl where
  sha256 : Str
  packageName : Str
  architecture : Str
  version : Str
  deriving DecidableEq

/-- Two values that are both there and differ. -/
def disagree (a b : Str) : Bool := a != [] && b != [] && a != b

/-- The first value that is there. -/
def fill (a b : Str) : Str := if a = [] then b else a

/-- A second declaration of a path: the same hash, the same identity where both have one, and what
is missing filled in. -/
def DebPathDecl.merge (path : Str) (d : DebPathDecl) (ref : PackageRef) : Except BuildErr DebPathDecl :=
  if d.sha256 ≠ ref.sha256 then .error (.hash path d.sha256 ref.sha256)
  else if disagree d.packageName ref.package then .error (.package path d.packageName ref.package)
  else if disagree d.architecture ref.architecture then
    .error (.architecture path d.architecture ref.architecture)
  else if disagree d.version ref.version then .error (.version path d.version ref.version)
  else .ok
    { d with
      packageName := fill d.packageName ref.package
      architecture := fill d.architecture ref.architecture
      version := fill d.version ref.version }

/-- Package entries gathered by path. -/
def packageMerge (repoRoot : Str) : Merge Str PackageRef DebPathDecl BuildErr where
  key ref := repoRoot ++ ref.filename
  first ref := ⟨ref.sha256, ref.package, ref.architecture, ref.version⟩
  merge d ref := d.merge (repoRoot ++ ref.filename) ref

/-- What the loop over the Packages indexes keeps. -/
structure PackageScan where
  dedup : AList fun _ : Str => DebPathDecl
  noSHA256 : List Str
  hasParseable : List Str

/-- One Packages index. -/
def scanPackages (ix : Indexes B) (repoRoot : Str) (st : PackageScan) (m : ReleaseMember) :
    Except BuildErr PackageScan :=
  (ix.packages m).bind fun entries =>
    ((packageMerge repoRoot).gather entries.1 st.dedup).map fun dedup =>
      ⟨dedup, st.noSHA256 ++ entries.2.map (repoRoot ++ ·), pathDir m.path :: st.hasParseable⟩

/-- Every identity field is there. -/
def DebPathDecl.complete (d : DebPathDecl) : Bool :=
  d.packageName != [] && d.architecture != [] && d.version != []

/-- The row of a path; `flat` rows carry the file name for the lookup by suffix. -/
def packageRow (suite : SuiteKey) (snapshotId : Nat) (flat : Bool) (repoRoot path : Str)
    (d : DebPathDecl) : PackageHash where
  url := ⟨suite.scheme, suite.host, path⟩
  snapshotId := snapshotId
  declared := d.sha256
  packageName := d.packageName
  architecture := d.architecture
  version := d.version
  flatFilename := if flat then dotClean (path.drop repoRoot.length) else []

/-- `coverage_complete`: every directory with a Packages member has an index that parsed, no entry
is without a SHA-256, and the entries gave a row. -/
def coverageComplete (pkgDirs : List Str) (st : PackageScan) (rows : List PackageHash) : Bool :=
  pkgDirs != [] && pkgDirs.all (fun dir => st.hasParseable.contains dir) && st.noSHA256 == [] &&
    !(st.dedup.entries.any (fun e => !e.2.complete) && rows == [])

/-- The suite's root and whether it is flat: a flat suite's base, or the repository of a dists
suite. -/
def rowsRoot (suitePath : Str) : Option Str :=
  if isFlatSuitePath suitePath then some (flatBase suitePath ++ ['/'])
  else repoRootFromSuitePath suitePath

/-- `buildPackageHashes`: the rows and the coverage bit. -/
def buildPackageHashes (ix : Indexes B) (suite : SuiteKey) (snapshotId : Nat) (form : AnchorForm)
    (allMembers fetchedMembers : List ReleaseMember) : Except BuildErr (List PackageHash × Bool) :=
  if form = .unsigned then .ok ([], false)
  else
    let flat := isFlatSuitePath suite.suitePath
    match rowsRoot suite.suitePath with
    | none => .ok ([], false)
    | some repoRoot =>
      let inScope (p : Str) : Bool := !flat || !p.contains '/'
      let pkgDirs := (allMembers.filter fun m =>
        isPackagesBasename (pathBase m.path) && inScope m.path).map fun m => pathDir m.path
      ((fetchedMembers.filter fun m => isPackagesMember m.path && inScope m.path).foldlM
        (scanPackages ix repoRoot) ⟨∅, [], []⟩).map fun st =>
          let rows := st.dedup.entries.filterMap fun e =>
            if e.2.complete then some (packageRow suite snapshotId flat repoRoot e.1 e.2) else none
          (rows, coverageComplete pkgDirs st rows)

/-! ## Sources -/

/-- `sourcePathDecl`, and whether the path is in `conflicted`. -/
structure SourcePathDecl where
  sha256 : Str
  packageName : Str
  conflicted : Bool
  deriving DecidableEq

/-- A second declaration of a source path: another hash drops the path, another name is ignored. -/
def SourcePathDecl.merge (d : SourcePathDecl) (ref : SourceRef) : SourcePathDecl :=
  if d.sha256 ≠ ref.sha256 then { d with conflicted := true }
  else if disagree d.packageName ref.packageName then d
  else { d with packageName := fill d.packageName ref.packageName }

/-- Source files gathered by path. -/
def sourceMerge (repoRoot : Str) : Merge Str SourceRef SourcePathDecl BuildErr where
  key ref := repoRoot ++ ref.path
  first ref := ⟨ref.sha256, ref.packageName, false⟩
  merge d ref := .ok (d.merge ref)

/-- The source files that the fetched indexes list. -/
def Indexes.sourceRefs (ix : Indexes B) (fetchedMembers : List ReleaseMember) : List SourceRef :=
  (fetchedMembers.filter fun m => isSourcesMember m.path).flatMap fun m => (ix.sources m).getD []

/-- The row of a source file. -/
def sourceRow (suite : SuiteKey) (snapshotId : Nat) (path : Str) (d : SourcePathDecl) :
    PackageHash where
  url := ⟨suite.scheme, suite.host, path⟩
  snapshotId := snapshotId
  declared := d.sha256
  packageName := d.packageName
  architecture := "source".toList
  version := []
  flatFilename := []

/-- `buildSourceHashes`: the rows, and how many indexes were parsed. -/
def buildSourceHashes (ix : Indexes B) (suite : SuiteKey) (snapshotId : Nat)
    (fetchedMembers : List ReleaseMember) : Except BuildErr (List PackageHash × Nat) :=
  match repoRootFromSuitePath suite.suitePath with
  | none => .ok ([], 0)
  | some repoRoot =>
    ((sourceMerge repoRoot).gather (ix.sourceRefs fetchedMembers) ∅).map fun dedup =>
      (dedup.entries.filterMap fun e =>
        if e.2.conflicted then none else some (sourceRow suite snapshotId e.1 e.2),
        fetchedMembers.countP fun m => isSourcesMember m.path && (ix.sources m).isSome)

/-! ## Pdiff patches -/

structure PdiffPathDecl where
  sha256 : Str
  architecture : Str
  deriving DecidableEq

/-- A patch with the directory and architecture of the index that lists it. -/
structure Patch where
  indexDir : Str
  arch : Str
  filename : Str
  sha256 : Str
  deriving DecidableEq

/-- Patches gathered by path; two hashes for one path are an error. -/
def pdiffMerge (repoRoot : Str) : Merge Str Patch PdiffPathDecl BuildErr where
  key p := repoRoot ++ p.indexDir ++ '/' :: p.filename
  first p := ⟨p.sha256, p.arch⟩
  merge d p :=
    if d.sha256 ≠ p.sha256 then
      .error (.hash (repoRoot ++ p.indexDir ++ '/' :: p.filename) d.sha256 p.sha256)
    else .ok d

/-- The patches of a pdiff index whose path names an architecture. -/
def Indexes.pdiffPatches (ix : Indexes B) (m : ReleaseMember) : Option (List Patch) :=
  (archFromPdiffIndexPath m.path).bind fun arch => (ix.patches m).map fun refs =>
    refs.map fun ref => ⟨pathDir m.path, arch, ref.filename, ref.sha256⟩

/-- The row of a patch. -/
def pdiffRow (suite : SuiteKey) (snapshotId : Nat) (path : Str) (d : PdiffPathDecl) : PackageHash where
  url := ⟨suite.scheme, suite.host, path⟩
  snapshotId := snapshotId
  declared := d.sha256
  packageName := []
  architecture := d.architecture
  version := []
  flatFilename := []

/-- `buildPdiffHashes`: the rows, and how many indexes were parsed. -/
def buildPdiffHashes (ix : Indexes B) (suite : SuiteKey) (snapshotId : Nat)
    (fetchedMembers : List ReleaseMember) : Except BuildErr (List PackageHash × Nat) :=
  match repoRootFromSuitePath suite.suitePath with
  | none => .ok ([], 0)
  | some repoRoot =>
    let indexes := fetchedMembers.filter fun m => isPdiffIndexMember m.path
    ((pdiffMerge repoRoot).gather (indexes.flatMap fun m => (ix.pdiffPatches m).getD []) ∅).map
      fun dedup => (dedup.entries.map fun e => pdiffRow suite snapshotId e.1 e.2,
        indexes.countP fun m => (ix.pdiffPatches m).isSome)

end AptCacher.Freshness
