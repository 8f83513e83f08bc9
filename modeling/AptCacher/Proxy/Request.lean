import AptCacher.Cache.Reads
import AptCacher.Cache.SuiteRows

/-!
# Requests

A request in its canonical form, and what its path says: whether it is metadata, which suite it
belongs to, which file of the suite it names, and whether it is a by-hash name.

* `Proxy.isMetadata`: `IsMetadata` of `internal/proxy`.
* `Aptpath.classifySuiteFile`: `ClassifySuiteFile` of `internal/aptpath`.
* `Proxy.Request`: scheme, host and decoded path; the rest is computed from them.
-/

namespace AptCacher

namespace Aptpath

/-! ## Files of a suite -/

/-- `SuiteFile`: what a request path is to its suite. -/
inductive SuiteFile
  | notSuiteFile
  | inRelease
  | release
  | releaseGPG
  | flatIndex
  deriving DecidableEq

def classifySuiteFile (suite path : Str) : SuiteFile :=
  if suite = [] ∨ Cache.maxSuitePathBytes < suite.length then .notSuiteFile
  else if (suite ++ ['/']).isPrefixOf path then
    let name := path.drop (suite.length + 1)
    if name = "InRelease".toList then .inRelease
    else if name = "Release".toList then .release
    else if name = "Release.gpg".toList then .releaseGPG
    else if flatIndexNames.contains name && !hasDistsSegment suite then .flatIndex
    else .notSuiteFile
  else .notSuiteFile

/-- `CreatesRow`: a sniff-passing serve creates the suite's row. -/
def SuiteFile.createsRow (adopter : Bool) : SuiteFile → Bool
  | .inRelease | .release => true
  | .flatIndex => adopter
  | _ => false

/-- `Marks`: a sniff-passing body is signed metadata. -/
def SuiteFile.marks : SuiteFile → Bool
  | .inRelease | .releaseGPG => true
  | _ => false

/-! ## By-hash names -/

/-- The algorithm of a by-hash name; a SHA256 name is the hash of the content. -/
inductive ByHash
  | sha256 (h : Str)
  | sha512
  deriving DecidableEq

/-- `byHashMemberRE` on a suite-relative path: `(^|/)by-hash/SHA256/<64 hex>` or
`(^|/)by-hash/SHA512/<128 hex>` at its end. -/
def byHashMember (path : Str) : Option ByHash :=
  match (segments path).reverse with
  | name :: alg :: dir :: _ =>
    if dir = "by-hash".toList then
      if alg = "SHA256".toList ∧ isHex 64 name then some (.sha256 name)
      else if alg = "SHA512".toList ∧ isHex 128 name then some .sha512
      else none
    else none
  | _ => none

/-- `byHashSuffixRegex`: `/by-hash/SHA256/<64 hex>` at the end of a request path. -/
def byHashSuffix (path : Str) : Option Str :=
  match (segments path).reverse with
  | name :: alg :: dir :: _ :: _ =>
    if dir = "by-hash".toList ∧ alg = "SHA256".toList ∧ isHex 64 name then some name else none
  | _ => none

end Aptpath

namespace Proxy

open Aptpath Cache

/-! ## Classification -/

/-- The segments of `path.Clean` of a rooted path. -/
def cleanSegments (p : Str) : List Str :=
  (segments p).foldl (fun acc s =>
    if s = [] ∨ s = ".".toList then acc else if s = "..".toList then acc.dropLast else acc ++ [s]) []

/-- `path.Base` of a path that is not empty: its last segment, trailing slashes apart. -/
def base (p : Str) : Str :=
  (((segments p).reverse.dropWhile (· == [])).head?).getD "/".toList

/-- `path.Base(path.Dir(p))` of a rooted path. -/
def dirBase (p : Str) : Str := ((cleanSegments (join (segments p).dropLast)).getLast?).getD "/".toList

def metadataPrefixes : List Str :=
  ["Packages", "Sources", "Contents-", "Translation-", "Components-", "icons-"].map String.toList

def poolArtifactSuffixes : List Str :=
  [".deb", ".udeb", ".ddeb", ".dsc", ".buildinfo", ".changes", ".diff.gz"].map String.toList

def isPoolArtifact (name : Str) : Bool :=
  poolArtifactSuffixes.any (·.isSuffixOf name) ||
    (contains "_".toList name && contains ".tar.".toList name)

def isMetadata (p : Str) : Bool :=
  p != [] &&
    (contains "/by-hash/".toList p || anchorNames.contains (base p) ||
      (base p == "Index".toList && ".diff".toList.isSuffixOf (dirBase p)) ||
      (!isPoolArtifact (base p) && metadataPrefixes.any (·.isPrefixOf (base p))))

def isDebPath (p : Str) : Bool := ".deb".toList.isSuffixOf p

/-! ## Requests -/

/-- `Request`: the canonical form of a request. -/
structure Request where
  scheme : Scheme
  host : Str
  path : Str
  deriving DecidableEq

namespace Request

def isMetadata (req : Request) : Bool := Proxy.isMetadata req.path

def suitePath (req : Request) : Str := Aptpath.suitePath req.path

/-- The cached path of the request. -/
def url (req : Request) : UrlKey := ⟨req.scheme, req.host, req.path⟩

/-- `suiteKeyOf`. -/
def suite (req : Request) : SuiteKey := ⟨req.scheme, req.host, req.suitePath⟩

/-- The request is for metadata of a suite. -/
def ofSuite (req : Request) : Bool := req.isMetadata && req.suitePath != []

/-- `newSuiteReq`: the file of the suite that the request is for. -/
def file (req : Request) : SuiteFile :=
  if req.ofSuite then classifySuiteFile req.suitePath req.path else .notSuiteFile

/-- `suiteRelativePath`: the name under which a snapshot binds the path. -/
def member (req : Request) : Str :=
  if (req.suitePath ++ ['/']).isPrefixOf req.path then req.path.drop (req.suitePath.length + 1)
  else req.path

end Request

example : isMetadata "/ubuntu/pool/main/i/icons-foo_1.0_all.deb".toList = false := by decide +kernel
example : isMetadata "/debian/dists/sid/main/binary-amd64/Packages.diff/Index".toList = true := by
  decide +kernel

end Proxy
end AptCacher
