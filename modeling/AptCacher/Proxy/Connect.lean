import AptCacher.Proxy.Parse

/-!
# CONNECT

A tunnel is opened for one host, which two gates admit. The request inside it is handed on as
an absolute URI: `https://`, the host of the tunnel, and the target of the inner request as the
client sent it. The readers of `net` and the IDNA mapping are parameters.

* `parseConnectTarget`: the host of a tunnel.
* `serveConnect`: the gates, and the URI of the request that is dispatched.
* `threeSlashes`: an inner target that the `HTTPS///` form could apply to.
* `inner_request_stays`: a path without it is dispatched as a request for the tunnel's host.
-/

namespace AptCacher.Proxy

open Aptpath Cache Spec

/-! ## The host of a tunnel -/

/-- `ConnectOutcome`, as far as it is decided before a byte goes through the tunnel. -/
inductive Outcome
  | badTarget
  | badHost
  | ipLiteralHost
  | badPort
  | deniedHost
  | innerMethodRejected
  deriving DecidableEq

/-- The libraries that a tunnel's host goes through. -/
structure Net where
  /-- `parseAuthority` of `net/url`. -/
  authority : Authority
  /-- `net.SplitHostPort`. -/
  splitHostPort : Str → Option (Str × Str)
  /-- `idna.Lookup.ToASCII`. -/
  toASCII : Str → Option Str
  /-- `netip.ParseAddr` reads an address. -/
  isAddr : Str → Bool

/-- A letter, a digit or a hyphen. -/
def isLDH (c : Char) : Bool := Url.isAlpha c || Url.isDigit c || c == '-'

/-- A label that `validateHostLDH` accepts. -/
def validLabel (label : Str) : Bool :=
  label != [] && decide (label.length ≤ 63) && label.head? != some '-' &&
    label.getLast? != some '-' && label.all isLDH

def validateHostLDH (host : Str) : Bool :=
  host != [] && decide (host.length ≤ 253) && (host.splitOn '.').all validLabel

/-- `strconv.Atoi`. -/
def atoi (s : Str) : Option Int :=
  let (sign, digits) := match s with
    | '-' :: rest => (-1, rest)
    | '+' :: rest => (1, rest)
    | _ => (1, s)
  if digits = [] ∨ !digits.all Url.isDigit then none
  else some (sign * (digits.foldl (fun n c => 10 * n + (c.toNat - '0'.toNat)) 0 : Nat))

/-- The steps of `ParseConnectTarget` on the host: the IDNA form, in lower case, is a host name and no
address. -/
def literalHost (net : Net) (host : Str) : Except Outcome Str :=
  match net.toASCII host with
  | none => .error .badHost
  | some ascii =>
    if !validateHostLDH (lower ascii) then .error .badHost
    else if net.isAddr (lower ascii) then .error .ipLiteralHost
    else .ok (lower ascii)

/-- The steps of `ParseConnectTarget` before them: the host and the number of the port. -/
def splitTarget (net : Net) (target : Str) : Except Outcome (Str × Int) :=
  match net.splitHostPort target with
  | none => .error .badTarget
  | some (host, port) =>
    if target = [] ∨ host = [] ∨ port = [] then .error .badTarget
    else match atoi port with
    | none => .error .badTarget
    | some portN =>
      if portN < 1 ∨ 65535 < portN then .error .badTarget
      else if ['['].isPrefixOf target then .error .ipLiteralHost
      else if trimSuffix host ".".toList = [] then .error .badTarget
      else .ok (trimSuffix host ".".toList, portN)

/-- `ParseConnectTarget`: the literal host; the port is 443. -/
def parseConnectTarget (net : Net) (target : Str) : Except Outcome Str := do
  let (host, portN) ← splitTarget net target
  let host ← literalHost net host
  if portN ≠ 443 then .error .badPort else pure host

/-! ## The tunnel -/

/-- The gates of `HandlerDeps`; without `canonicalize` the fetch gate sees the literal host. -/
structure Deps where
  signingGate : Option (Str → Bool)
  fetchGate : Str → Bool
  canonicalize : Option (Str → Str)

/-- The method of an inner request. -/
inductive Method
  | get
  | head
  | other
  deriving DecidableEq

/-- An inner request: its method, and its target as `http.ReadRequest` leaves it. -/
structure Inner where
  method : Method
  requestURI : Str
  deriving DecidableEq

/-- Both gates admit the host. -/
def Deps.admits (deps : Deps) (host : Str) : Bool :=
  deps.signingGate.all (fun gate => gate host) &&
    deps.fetchGate ((deps.canonicalize.map fun f => f host).getD host)

/-- `ServeCONNECT`: the request URI of the request that is dispatched. -/
def serveConnect (net : Net) (deps : Deps) (target : Str) (inner : Inner) : Except Outcome Str := do
  let host ← parseConnectTarget net target
  if !deps.admits host then .error .deniedHost
  else if inner.method = .other then .error .innerMethodRejected
  else pure ("https://".toList ++ host ++ inner.requestURI)

section Hosts

variable {net : Net} {target host : Str}

theorem mem_joined {labels : List Str} {c : Char} (hc : c ≠ '.') :
    c ∈ ['.'].intercalate labels ↔ ∃ label ∈ labels, c ∈ label := by
  induction labels with
  | nil => simp [List.intercalate]
  | cons l labels ih =>
    cases labels with
    | nil => simp [List.intercalate]
    | cons l' labels =>
      have hjoin : ['.'].intercalate (l :: l' :: labels) =
          l ++ '.' :: ['.'].intercalate (l' :: labels) := by simp [List.intercalate]
      rw [hjoin, List.mem_append, List.mem_cons, ih]
      simp [hc]

theorem mem_label {s : Str} {c : Char} (hc : c ≠ '.') :
    c ∈ s ↔ ∃ label ∈ s.splitOn '.', c ∈ label := by
  rw [← mem_joined hc, List.intercalate_splitOn]

/-- The characters of a host name. -/
def isHostChar (c : Char) : Bool := isLDH c || c == '.'

theorem hostChar_of_valid (h : validateHostLDH host = true) : ∀ c ∈ host, isHostChar c = true := by
  intro c hc
  simp only [validateHostLDH, validLabel, Bool.and_eq_true, List.all_eq_true] at h
  by_cases hdot : c = '.'
  · rw [hdot]
    rfl
  · obtain ⟨label, hl, hc⟩ := (mem_label hdot).mp hc
    simp [isHostChar, (h.2 label hl).2 c hc]

theorem not_upper_toLower (c : Char) : ¬ ('A' ≤ c.toLower ∧ c.toLower ≤ 'Z') := by
  simp only [Char.le_def]
  delta Char.toLower
  split <;> grind [UInt32.toNat_add, Char.toNat_val]

theorem lower_lower (s : Str) : lower (lower s) = lower s := by
  rw [lower, lower, List.map_map]
  exact List.map_congr_left fun c _ => dif_neg (not_upper_toLower c)

/-- The host of a tunnel is a valid name in lower case. -/
theorem parseConnectTarget_ok (h : parseConnectTarget net target = .ok host) :
    validateHostLDH host = true ∧ ∃ ascii, host = lower ascii := by
  obtain ⟨⟨host', portN⟩, -, h⟩ := bind_eq_ok.mp h
  obtain ⟨literal, hliteral, h⟩ := bind_eq_ok.mp h
  split at h
  · cases h
  cases h
  unfold literalHost at hliteral
  split at hliteral
  · cases hliteral
  split at hliteral
  · cases hliteral
  split at hliteral
  · cases hliteral
  rename_i ascii _ hvalid _
  cases hliteral
  exact ⟨by simpa using hvalid, ascii, rfl⟩

theorem delim_of_hostChar {c : Char} (h : isHostChar c = true) : Url.isDelim c = false := by
  simp only [isHostChar, isLDH, Url.isAlpha, Url.isDigit, Bool.or_eq_true, Bool.and_eq_true,
    decide_eq_true_eq, beq_iff_eq] at h
  rw [← Bool.not_eq_true]
  intro hd
  simp only [Url.isDelim, Bool.or_eq_true, beq_iff_eq] at hd
  rcases hd with (rfl | rfl) | rfl <;> revert h <;> decide

end Hosts

/-! ## Inner requests -/

/-- What `net/url` promises of an authority: one of the characters of a host name is a host. -/
structure Net.Reads (net : Net) : Prop where
  authority : ∀ h, (∀ c ∈ h, isHostChar c = true) → net.authority h = some (false, h)

/-- What is left behind a slash, which may be percent-encoded. -/
def dropSlash : Str → Option Str
  | '/' :: rest => some rest
  | '%' :: '2' :: 'f' :: rest => some rest
  | '%' :: '2' :: 'F' :: rest => some rest
  | _ => none

/-- The target begins with three slashes, each as it is or percent-encoded. -/
def threeSlashes (r : Str) : Bool := (((dropSlash r).bind dropSlash).bind dropSlash).isSome

/-- The request that the parser makes of the URI is one for the host. -/
def StaysOn (p : Parser) (net : Net) (host uri : Str) : Prop :=
  ∀ r, p.parse net.authority uri = .ok r →
    r.request.scheme = .https ∧ r.request.host = p.canonicalHost host

section Requests

variable {p : Parser} {net : Net} {deps : Deps} {host r uri : Str} {inner : Inner}

theorem serveConnect_ok {authority : Str} (h : serveConnect net deps authority inner = .ok uri)
    (hhost : parseConnectTarget net authority = .ok host) :
    uri = "https://".toList ++ host ++ inner.requestURI := by
  obtain ⟨host', hhost', h⟩ := bind_eq_ok.mp h
  cases hhost.symm.trans hhost'
  split at h
  · cases h
  · split at h
    · cases h
    · cases h
      rfl

theorem dropSlash_of_unescape {s path : Str} (h : Url.unescape s = some ('/' :: path)) :
    ∃ rest, dropSlash s = some rest ∧ Url.unescape rest = some path := by
  fun_cases Url.unescape s with
  | case1 => cases h
  | case2 a b rest =>
    obtain ⟨c, hc, h⟩ := Option.bind_eq_some_iff.mp h
    obtain ⟨path', hpath, h⟩ := Option.map_eq_some_iff.mp h
    obtain ⟨rfl, rfl⟩ := List.cons.inj h
    obtain ⟨rfl, rfl | rfl⟩ := Url.hexByte_slash hc
    · exact ⟨rest, rfl, hpath⟩
    · exact ⟨rest, rfl, hpath⟩
  | case3 rest hne => simp [Url.unescape] at h
  | case4 c rest h₁ h₂ =>
    simp only [Url.unescape, Option.map_eq_some_iff, List.cons.injEq] at h
    obtain ⟨path', hpath, rfl, rfl⟩ := h
    exact ⟨rest, rfl, hpath⟩

theorem dropSlash_append {s rest : Str} (h : dropSlash s = some rest) (t : Str) :
    dropSlash (s ++ t) = some (rest ++ t) := by
  unfold dropSlash at h
  split at h <;> cases h <;> rfl

/-- Three slashes of the decoded path are three slashes of the target. -/
theorem threeSlashes_of_path {path : Str} (h : Parser.targetPath r = some path)
    (hpath : "///".toList.isPrefixOf path = true) : threeSlashes r = true := by
  obtain ⟨rest, rfl⟩ := List.isPrefixOf_iff_prefix.mp hpath
  -- what is decoded stands at the front of the target
  obtain ⟨t, ht⟩ : ∃ t, r = (Url.cut '?' (Url.cut '#' r).1).1 ++ t :=
    ⟨_, (((List.takeWhile_prefix _).trans (List.takeWhile_prefix _) :
      (Url.cut '?' (Url.cut '#' r).1).1 <+: r)).choose_spec.symm⟩
  unfold Parser.targetPath at h
  split at h
  · cases h
  split at h
  · cases h
  split at h
  · cases h
  obtain ⟨path, hun, hif⟩ := Option.map_eq_some_iff.mp h
  split at hif
  · cases hif
  · subst hif
    obtain ⟨s₁, h₁, hun⟩ := dropSlash_of_unescape hun
    obtain ⟨s₂, h₂, hun⟩ := dropSlash_of_unescape hun
    obtain ⟨s₃, h₃, -⟩ := dropSlash_of_unescape hun
    rw [threeSlashes, ht, dropSlash_append h₁, Option.bind_some, dropSlash_append h₂,
      Option.bind_some, dropSlash_append h₃]
    rfl

/-- In a tunnel to another host than `https` or with a path without three slashes the `HTTPS///` form
does not apply. -/
theorem isHTTPSMagic_eq_false {path : Str} (hhost : ∀ c ∈ host, isHostChar c = true)
    (hlower : lower host = host) (hpath : Parser.targetPath r = some path)
    (hform : host ≠ "https".toList ∨ threeSlashes r = false) : isHTTPSMagic host path = false := by
  rw [← Bool.not_eq_true]
  intro hmagic
  simp only [isHTTPSMagic, hlower, Bool.and_eq_true, Bool.or_eq_true, beq_iff_eq] at hmagic
  obtain ⟨hword | rfl, hslashes⟩ := hmagic
  · rcases hform with hne | hno
    · exact hne hword
    · rw [threeSlashes_of_path hpath hslashes] at hno
      cases hno
  · exact absurd (hhost '\xc5' (by decide)) (by decide)

/-- An inner request for a path is dispatched as one for the host of the tunnel, or is refused, unless
that is the host `https` and the target begins with three slashes. -/
theorem inner_request_stays (p : Parser) (net : Net) (hnet : net.Reads) (deps : Deps)
    (target host uri : Str) (inner : Inner) (hhost : parseConnectTarget net target = .ok host)
    (hserve : serveConnect net deps target inner = .ok uri)
    (hpath : ['/'].isPrefixOf inner.requestURI = true)
    (hform : host ≠ "https".toList ∨ threeSlashes inner.requestURI = false) :
    StaysOn p net host uri := by
  obtain ⟨hvalid, ascii, hascii⟩ := parseConnectTarget_ok hhost
  have hchars := hostChar_of_valid hvalid
  have hlower : lower host = host := by rw [hascii, lower_lower]
  rw [serveConnect_ok hserve hhost, List.append_assoc]
  intro q hq
  have hdelim : ∀ c, inner.requestURI.head? = some c → Url.isDelim c = true := by
    intro c hc
    obtain ⟨t, ht⟩ := List.isPrefixOf_iff_prefix.mp hpath
    rw [← ht] at hc
    cases hc
    rfl
  obtain ⟨h, path, h', t, hauth, htarget, hun, rfl⟩ :=
    Parser.parse_https (fun c hc => delim_of_hostChar (hchars c hc)) hdelim hq
  cases (hnet.authority host hchars).symm.trans hauth
  rw [unmagic, isHTTPSMagic_eq_false hchars hlower htarget hform] at hun
  cases hun
  exact ⟨rfl, rfl⟩

/-- Readers of plain host names: a port is a run of digits, and there is nothing to decode. -/
def plainNet : Net where
  authority a :=
    let (host, port) := splitHostPort a
    if host.all isHostChar && port.all Url.isDigit then some (false, a) else none
  splitHostPort s := if ':' ∈ s then some (splitHostPort s) else none
  toASCII s := some s
  isAddr s := s.all fun c => Url.isDigit c || c == '.'

theorem plainNet_reads : plainNet.Reads where
  authority h hh := by
    have hcolon : ':' ∉ h := fun hc => by cases hh _ hc
    have hsplit : splitHostPort h = (h, []) := by
      unfold splitHostPort
      split
      · rfl
      · exact absurd (hh '[' (by simp)) (by decide)
      · rw [if_pos hcolon]
    simp only [plainNet, hsplit]
    rw [if_pos (by simpa using hh)]

/-- Both gates admit the one host. -/
def only (host : Str) : Deps := ⟨some fun h => h == host, fun h => h == host, none⟩

/-- A path in a tunnel, and one in a tunnel to the host `https`. -/
theorem inner_request_stays_path :
    StaysOn (.new [] []) plainNet "deb.debian.org".toList
      "https://deb.debian.org/debian/dists/sid/InRelease".toList ∧
    StaysOn (.new [] []) plainNet "https".toList "https://https//example.org/a".toList :=
  ⟨inner_request_stays (.new [] []) plainNet plainNet_reads (only "deb.debian.org".toList)
      "deb.debian.org:443".toList "deb.debian.org".toList
      "https://deb.debian.org/debian/dists/sid/InRelease".toList
      ⟨.get, "/debian/dists/sid/InRelease".toList⟩ (by decide +kernel) (by decide +kernel)
      (by decide) (.inl (by decide)),
    inner_request_stays (.new [] []) plainNet plainNet_reads (only "https".toList)
      "https:443".toList "https".toList "https://https//example.org/a".toList
      ⟨.get, "//example.org/a".toList⟩ (by decide +kernel) (by decide +kernel) (by decide)
      (.inr (by decide))⟩

/-- An absolute URI in a tunnel continues the name of the tunnel's host, and in a tunnel to the host
`https` a path can name any host. -/
theorem inner_request_strays :
    (∃ uri r, serveConnect plainNet (only "deb.debian.org".toList) "deb.debian.org:443".toList
        ⟨.get, "x.example.org://a/b".toList⟩ = .ok uri ∧
      Url.getScheme "x.example.org://a/b".toList = some ("x.example.org".toList, "//a/b".toList) ∧
      (Parser.new [] []).parse plainNet.authority uri = .ok r ∧
      r.request.host = "deb.debian.orgx.example.org".toList) ∧
    ∃ uri r, serveConnect plainNet (only "https".toList) "https:443".toList
        ⟨.get, "///example.org/a".toList⟩ = .ok uri ∧
      (Parser.new [] []).parse plainNet.authority uri = .ok r ∧
      r.request.host = "example.org".toList ∧
      (Parser.new [] []).canonicalHost "https".toList = "https".toList := by
  refine ⟨⟨"https://deb.debian.orgx.example.org://a/b".toList,
    ⟨.proxy, ⟨.https, "deb.debian.orgx.example.org".toList, "//a/b".toList⟩,
      "deb.debian.orgx.example.org".toList⟩, ?_, ?_, ?_, rfl⟩,
    "https://https///example.org/a".toList,
    ⟨.proxy, ⟨.https, "example.org".toList, "/a".toList⟩, "example.org".toList⟩, ?_, ?_, rfl, ?_⟩
  all_goals decide +kernel

end Requests

end AptCacher.Proxy
