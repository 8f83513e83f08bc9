import AptCacher.Proxy.Request
import AptCacher.Spec.Fail
import AptCacher.Spec.Url

/-!
# Reading a request line

The request URI of a client, as `Parser.Parse` of `internal/proxy` reads it: an absolute URI, the
`http://HTTPS///` form of one, or the path of a mirror. The host is then made canonical by the
remap rules. How `net/url` reads an authority, and the regular expressions of the rules, are
parameters.

* `parseRequestURI`, `unmagic`: the parts of a URI.
* `Parser.canonicalize`: the cached host, and the authority that is fetched from.
* `Parser.parse`: the request.
-/

namespace AptCacher.Proxy

open Aptpath Cache Spec

/-- The errors of `Parse`. -/
inductive ParseErr
  | emptyURI
  | invalidURI
  | unsupportedScheme
  | emptyHost
  | invalidPath
  | noMirrorMatch
  | invalidHTTPSMagic
  deriving DecidableEq

/-- `strings.ToLower` on ASCII; a byte above it stays as it is. -/
def lower (s : Str) : Str := s.map Char.toLower

/-! ## The parts of a URI -/

/-- `parsedURI`; a path alone has no scheme and no host. -/
inductive ParsedURI
  | absolute (scheme host path : Str)
  | relative (path : Str)
  deriving DecidableEq

/-- `parseAuthority` of `net/url`: whether there is user information, and the host with its port. -/
abbrev Authority := Str → Option (Bool × Str)

def parseRequestURI (authority : Authority) (raw : Str) : Except ParseErr ParsedURI :=
  match Url.parse authority raw with
  | none => .error .invalidURI
  | some u =>
    if ['/'].isPrefixOf raw then
      if u.scheme ≠ [] ∨ u.host ≠ [] then .error .invalidURI
      else if u.rawQuery ≠ [] then .error .invalidURI
      else if u.fragment ≠ [] then .error .invalidURI
      else .ok (.relative u.path)
    else if u.scheme = [] then .error .invalidURI
    else if lower u.scheme ≠ "http".toList ∧ lower u.scheme ≠ "https".toList then
      .error .unsupportedScheme
    else if u.user then .error .invalidURI
    else if u.rawQuery ≠ [] then .error .invalidURI
    else if u.fragment ≠ [] then .error .invalidURI
    else .ok (.absolute (lower u.scheme) u.host (if u.path = [] then ['/'] else u.path))

/-- The long s in UTF-8. -/
def longS : Str := ['\xc5', '\xbf']

/-- `isHTTPSMagic`; `strings.EqualFold` takes the long s for an s. -/
def isHTTPSMagic (host path : Str) : Bool :=
  (lower host == "https".toList || lower host == "http".toList ++ longS) &&
    "///".toList.isPrefixOf path

/-- `splitHTTPSMagic`: the real host and path behind the three slashes. -/
def splitHTTPSMagic (path : Str) : Except ParseErr (Str × Str) :=
  let rest := path.drop 3
  if rest = [] then .error .invalidHTTPSMagic
  else if '/' ∉ rest then .ok (rest, ['/'])
  else if rest.takeWhile (· != '/') = [] then .error .invalidHTTPSMagic
  else .ok (rest.takeWhile (· != '/'), rest.dropWhile (· != '/'))

/-- The scheme, host and path of an absolute URI, the `HTTPS///` form resolved. -/
def unmagic (scheme host path : Str) : Except ParseErr (Str × Str × Str) :=
  if isHTTPSMagic host path then (splitHTTPSMagic path).map fun hp => ("https".toList, hp.1, hp.2)
  else .ok (scheme, host, path)

/-- `splitHostPort`: the host, and the port if there is one. -/
def splitHostPort (host : Str) : Str × Str :=
  match host with
  | [] => ([], [])
  | '[' :: _ =>
    if ']' ∉ host then (host, [])
    else
      let bare := host.takeWhile (· != ']') ++ [']']
      match host.drop bare.length with
      | ':' :: port => (bare, port)
      | _ => (bare, [])
  | _ =>
    if ':' ∉ host then (host, [])
    else
      let port := (host.reverse.takeWhile (· != ':')).reverse
      (host.take (host.length - port.length - 1), port)

/-! ## The parser -/

/-- `remapRule`; the regular expression is the predicate that it decides. -/
structure RemapRule where
  regex : Str → Bool
  canonicalHost : Str

structure MirrorRoute where
  pathPrefix : Str
  scheme : Str
  host : Str
  basePath : Str

structure Parser where
  remap : List RemapRule
  mirrors : List MirrorRoute

/-- `^[a-z]{2}\.` in front of `host`. -/
def twoLetter (host : Str) : Str → Bool
  | a :: b :: '.' :: rest => 'a' ≤ a && a ≤ 'z' && 'a' ≤ b && b ≤ 'z' && rest == host
  | _ => false

/-- `^([a-z]{2}\.)?` in front of `host`. -/
def regional (host s : Str) : Bool := s == host || twoLetter host s

/-- `^(ftp\.)?[a-z]{2}\.debian\.org$`. -/
def debianMirror (s : Str) : Bool :=
  twoLetter "debian.org".toList s ||
    ("ftp.".toList.isPrefixOf s && twoLetter "debian.org".toList (s.drop 4))

def builtinRemapRules : List RemapRule :=
  [⟨regional "archive.ubuntu.com".toList, "archive.ubuntu.com".toList⟩,
    ⟨regional "security.ubuntu.com".toList, "security.ubuntu.com".toList⟩,
    ⟨regional "ports.ubuntu.com".toList, "ports.ubuntu.com".toList⟩,
    ⟨debianMirror, "deb.debian.org".toList⟩,
    ⟨fun s => s == "deb.debian.org".toList, "deb.debian.org".toList⟩,
    ⟨fun s => s == "security.debian.org".toList, "security.debian.org".toList⟩]

/-- `New`: the rules of the user come first. -/
def Parser.new (remap : List RemapRule) (mirrors : List MirrorRoute) : Parser :=
  ⟨remap ++ builtinRemapRules, mirrors⟩

namespace Parser

/-- `canonicalize`: the canonical host and the upstream authority. -/
def canonicalize (p : Parser) (host : Str) : Str × Str :=
  let (bare, port) := splitHostPort (lower host)
  let bare := trimSuffix bare ".".toList
  match p.remap.find? fun r => r.regex bare with
  | some r => (r.canonicalHost, r.canonicalHost)
  | none => if port = [] then (bare, bare) else (bare, bare ++ ':' :: port)

def canonicalHost (p : Parser) (host : Str) : Str := (p.canonicalize host).1

/-- `matchMirror`: the first route whose prefix matches, and the rest of the path. -/
def matchMirror (p : Parser) (path : Str) : Option (MirrorRoute × Str) :=
  p.mirrors.findSome? fun r =>
    if r.pathPrefix = ['/'] then some (r, path)
    else if path = r.pathPrefix then some (r, [])
    else if (r.pathPrefix ++ ['/']).isPrefixOf path then some (r, path.drop r.pathPrefix.length)
    else none

/-- `strings.TrimRight(s, "/")`. -/
def trimSlashes (s : Str) : Str := (s.reverse.dropWhile (· == '/')).reverse

def joinMirrorPath (basePath rest : Str) : Str :=
  if basePath = [] ∨ basePath = ['/'] then if rest = [] then ['/'] else rest
  else trimSlashes basePath ++ rest

/-- The path can be a cached path: it is rooted and has no control byte. -/
def cachedPath (path : Str) : Bool := ['/'].isPrefixOf path && !path.any Url.isCtl

inductive Mode
  | proxy
  | mirror
  deriving DecidableEq

/-- What `Parse` returns; the other fields of its `Request` are computed from these. -/
structure Parsed where
  mode : Mode
  request : Request
  /-- The authority of `UpstreamURL`. -/
  upstream : Str
  deriving DecidableEq

/-- The checks of `Parse` on the scheme, the host and the path, and the canonical form. -/
def checked (p : Parser) (mode : Mode) (scheme host path : Str) : Except ParseErr Parsed :=
  if host = [] then .error .emptyHost
  else if scheme ≠ "http".toList ∧ scheme ≠ "https".toList then .error .unsupportedScheme
  else if !cachedPath path then .error .invalidPath
  else
    .ok ⟨mode, ⟨if scheme = "https".toList then .https else .http, p.canonicalHost host, path⟩,
      (p.canonicalize host).2⟩

def parse (p : Parser) (authority : Authority) (requestURI : Str) : Except ParseErr Parsed :=
  if requestURI = [] then .error .emptyURI
  else do
    match ← parseRequestURI authority requestURI with
    | .absolute scheme host path =>
      let (scheme, host, path) ← unmagic scheme host path
      p.checked .proxy scheme host path
    | .relative path =>
      match p.matchMirror path with
      | none => .error .noMirrorMatch
      | some (route, rest) =>
        p.checked .mirror route.scheme route.host (joinMirrorPath route.basePath rest)

section Https

variable {authority : Authority} {p : Parser} {a t : Str}

/-- The path of what follows an authority, if it has no query and no fragment. -/
def targetPath (t : Str) : Option Str :=
  if (Url.cut '#' t).1.any Url.isCtl then none
  else if (Url.cut '#' t).2 ≠ [] then none
  else if (Url.cut '?' (Url.cut '#' t).1).2 ≠ [] then none
  else (Url.unescape (Url.cut '?' (Url.cut '#' t).1).1).map fun path =>
    if path = [] then ['/'] else path

theorem unescape_eq_nil {s : Str} (h : Url.unescape s = some []) : s = [] := by
  fun_cases Url.unescape s with
  | case1 => rfl
  | case2 a b rest => simp [Url.unescape, Option.bind_eq_some_iff] at h
  | case3 rest hne => simp [Url.unescape] at h
  | case4 c rest h₁ h₂ => simp [Url.unescape] at h

/-- An absolute URI has no user information, no query and no fragment. -/
theorem parseRequestURI_absolute {raw : Str} {parts : Url.Parts} {u : ParsedURI}
    (hslash : ['/'].isPrefixOf raw = false) (hparse : Url.parse authority raw = some parts)
    (hscheme : parts.scheme = "https".toList) (h : parseRequestURI authority raw = .ok u) :
    parts.user = false ∧ parts.rawQuery = [] ∧ parts.fragment = [] ∧
      u = .absolute "https".toList parts.host (if parts.path = [] then ['/'] else parts.path) := by
  have hlower : lower "https".toList = "https".toList := rfl
  have hne : "https".toList ≠ [] := by decide
  rw [parseRequestURI, hparse] at h
  simp only [hslash, hscheme, hlower, hne, Bool.false_eq_true, if_false, ne_eq, not_true_eq_false,
    and_false] at h
  split at h
  · cases h
  split at h
  · cases h
  split at h
  · cases h
  cases h
  simp_all

/-- What is put behind `https://` is a host up to its first delimiter, and then a path. -/
theorem parseRequestURI_https (ha : ∀ c ∈ a, Url.isDelim c = false)
    (ht : ∀ c, t.head? = some c → Url.isDelim c = true) {u : ParsedURI}
    (h : parseRequestURI authority ("https://".toList ++ (a ++ t)) = .ok u) :
    ∃ host path, authority a = some (false, host) ∧ targetPath t = some path ∧
      u = .absolute "https".toList host path := by
  have hslash : ['/'].isPrefixOf ("https://".toList ++ (a ++ t)) = false := rfl
  have hparse := Url.parse_https authority ha ht
  rw [List.any_append] at hparse
  cases hp : Url.parse authority ("https://".toList ++ (a ++ t)) with
  | none =>
    rw [parseRequestURI, hp] at h
    cases h
  | some parts =>
    rw [hp] at hparse
    split at hparse
    · cases hparse
    · rename_i hctl
      simp only [Bool.or_eq_true, not_or, Bool.not_eq_true] at hctl
      obtain ⟨f, hf, hparse⟩ := Option.bind_eq_some_iff.mp hparse.symm
      obtain ⟨⟨user, host⟩, hauth, hparse⟩ := Option.bind_eq_some_iff.mp hparse
      obtain ⟨path, hpath, rfl⟩ := Option.map_eq_some_iff.mp hparse
      obtain ⟨rfl, hquery, hfragment, rfl⟩ := parseRequestURI_absolute hslash hp rfl h
      subst hfragment
      refine ⟨host, _, hauth, ?_, rfl⟩
      rw [targetPath, if_neg (by simp [hctl.2]), if_neg (by simp [unescape_eq_nil hf]),
        if_neg (by simpa using hquery), hpath]
      rfl

theorem unmagic_scheme {host path h q scheme : Str}
    (hu : unmagic "https".toList host path = .ok (scheme, h, q)) : scheme = "https".toList := by
  unfold unmagic at hu
  split at hu
  · cases hs : splitHTTPSMagic path with
    | error e =>
      rw [hs] at hu
      cases hu
    | ok hp =>
      rw [hs] at hu
      cases hu
      rfl
  · cases hu
    rfl

theorem checked_ok {mode : Mode} {host path : Str} {r : Parsed}
    (h : p.checked mode "https".toList host path = .ok r) :
    r = ⟨mode, ⟨.https, p.canonicalHost host, path⟩, (p.canonicalize host).2⟩ := by
  unfold checked at h
  split at h
  · cases h
  split at h
  · cases h
  split at h
  · cases h
  · cases h
    rfl

/-- The request that a text behind `https://` is read as. -/
theorem parse_https (ha : ∀ c ∈ a, Url.isDelim c = false)
    (ht : ∀ c, t.head? = some c → Url.isDelim c = true) {r : Parsed}
    (h : p.parse authority ("https://".toList ++ (a ++ t)) = .ok r) :
    ∃ host path h q, authority a = some (false, host) ∧ targetPath t = some path ∧
      unmagic "https".toList host path = .ok ("https".toList, h, q) ∧
      r = ⟨.proxy, ⟨.https, p.canonicalHost h, q⟩, (p.canonicalize h).2⟩ := by
  have hne : "https://".toList ++ (a ++ t) ≠ [] := by simp
  rw [parse, if_neg hne] at h
  obtain ⟨u, hu, h⟩ := bind_eq_ok.mp h
  obtain ⟨host, path, hauth, hpath, rfl⟩ := parseRequestURI_https ha ht hu
  obtain ⟨⟨scheme, h', q⟩, hun, h⟩ := bind_eq_ok.mp h
  cases unmagic_scheme hun
  exact ⟨host, path, h', q, hauth, hpath, hun, checked_ok h⟩

end Https

end Parser

end AptCacher.Proxy
