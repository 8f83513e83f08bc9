import AptCacher.Fetch.Range
import AptCacher.Spec.Fail

/-!
# The upstream client

`Fetch` streams a file into a destination and, after a failure, asks for the rest. What it has to go
on is the headers of the last complete answer: their validator goes into `If-Range`, and a range is
checked against their length.

* `doAttempt`, `fetchLoop`, `fetch`: as in the source. What comes from outside, the answers and the
  faults of the destination, is a `Turn` for each request.
* `Answers`: the answers of an upstream that serves representations.
* `Part`: what a failed attempt leaves is the beginning of one representation.
* `fetch_whole_iff`: what a fetch delivers is one whole representation just if the answer that ended
  it is not a range of unknown total that stops before the end.
-/

namespace AptCacher.Fetch

open Spec Aptpath

abbrev Bytes := List UInt8

/-! ## The client -/

/-- The errors of a fetch; those of the transport and of reading a body that have no name here are
`network`. -/
inductive Err
  | invalidURL
  | hostNotAllowed
  | targetDenied
  | redirectBlocked (code : Nat)
  | hostUnreachable
  | proxyAuthRequired
  | status (code : Nat)
  | context
  | network
  | cacheWriteFailed
  | invalidContentRange
  | totalSizeMismatch
  | sizeMismatch
  | unavailable (last : Err)
  /-- No attempt was made. -/
  | uncaptured
  /-- The headers of the result are not there. -/
  | nilResult
  deriving DecidableEq

def isRetryable : Err → Bool
  | .context | .hostNotAllowed | .targetDenied | .proxyAuthRequired | .redirectBlocked _
  | .invalidURL | .hostUnreachable | .cacheWriteFailed => false
  | .status code => 500 ≤ code && code < 600
  | .unavailable last => isRetryable last
  | .network | .invalidContentRange | .totalSizeMismatch | .sizeMismatch | .uncaptured
  | .nilResult => true

/-- `FetchResult`; a length that is not known is −1. -/
structure FetchResult where
  status : Nat
  contentType : Str
  contentLength : Int
  etag : Str
  lastModified : Str
  deriving DecidableEq

/-- A response: its headers, what arrives of its body, and the read error that ends it, if any. -/
structure Response where
  status : Nat
  contentType : Str
  contentLength : Int
  etag : Str
  lastModified : Str
  contentRange : Str
  body : Bytes
  cut : Option Err
  deriving DecidableEq

/-- A request: for the whole file, or for the bytes from an offset on if the validator holds. -/
structure Request where
  range : Option (Nat × Str)
  deriving DecidableEq

/-- What a request meets with. -/
structure Turn where
  answer : Except Err Response
  /-- The discarding of bytes without a validator fails. -/
  resetFails : Bool
  truncateFails : Bool
  /-- The destination takes no more than so many bytes of the body. -/
  writeFails : Option Nat
  /-- The context has ended when the attempt has failed. -/
  ctxEnded : Bool

/-- What an attempt leaves: the destination, and the headers that it returns. -/
structure Attempt where
  dst : Bytes
  out : Option FetchResult
  deriving DecidableEq

/-- Computations of an attempt. -/
abbrev M := Fail Err Attempt

/-- `Truncate` of the destination. -/
def truncate (t : Turn) : M Unit := do
  Fail.ensure (t.truncateFails = false) .cacheWriteFailed
  modify fun a => { a with dst := [] }

/-- `streamBody`: a write error ends it before a read error. -/
def streamBody (t : Turn) (resp : Response) : M Unit := do
  let taken := (t.writeFails.map fun n => resp.body.take n).getD resp.body
  modify fun a => { a with dst := a.dst ++ taken }
  Fail.ensure (taken = resp.body) .cacheWriteFailed
  Fail.ofExcept (match resp.cut with | some e => .error e | none => .ok ())

/-- `dst.Written()`. -/
def written : M Int := do return (← get).dst.length

def setOut (out : FetchResult) : M Unit := modify fun a => { a with out := some out }

/-- The body of an answer 200. -/
def takeFull (t : Turn) (resp : Response) : M Unit := do
  streamBody t resp
  Fail.ensure (¬ (0 < resp.contentLength ∧ (← written) ≠ resp.contentLength)) .sizeMismatch

/-- The checks of the range of an answer 206: its last byte and its total. -/
def checkRange (resp : Response) (rangeStart : Nat) (expectedTotal : Int) :
    Except Err (Int × Int) :=
  match parseContentRange resp.contentRange with
  | none => .error .invalidContentRange
  | some (first, last, total) =>
    if first ≠ rangeStart then .error .invalidContentRange
    else if 0 < expectedTotal ∧ total < 0 then .error .invalidContentRange
    else if 0 < expectedTotal ∧ total ≠ expectedTotal then .error .totalSizeMismatch
    else if 0 < total ∧ total ≤ last then .error .invalidContentRange
    else .ok (last, total)

/-- The answer 206 to a request from `rangeStart` on. -/
def takeRange (t : Turn) (resp : Response) (rangeStart : Nat) (expectedTotal : Int) : M Unit := do
  let (last, total) ← Fail.ofExcept (checkRange resp rangeStart expectedTotal)
  streamBody t resp
  Fail.ensure ((← written) = last + 1) .sizeMismatch
  Fail.ensure (¬ (0 < total ∧ (← written) ≠ total)) .sizeMismatch

/-- The headers that an attempt returns. -/
def headers (resp : Response) : FetchResult :=
  ⟨resp.status, resp.contentType, resp.contentLength, resp.etag, resp.lastModified⟩

/-- What `doAttempt` makes of a response. -/
def respond (req : Request) (expectedTotal : Int) (t : Turn) (resp : Response) : M Unit := do
  if resp.status = 204 then
    if 0 < (← written) then
      truncate t
    setOut { headers resp with status := 200, contentLength := 0 }
  else if resp.status = 200 then
    if req.range.isSome then
      truncate t
    takeFull t resp
  else if resp.status = 206 then
    match req.range with
    | none => throw .invalidContentRange
    | some (rangeStart, _) => takeRange t resp rangeStart expectedTotal
  else
    throw (.status resp.status)

def doAttempt (proxyEnabled : Bool) (req : Request) (expectedTotal : Int) (t : Turn) : M Unit := do
  let resp ← Fail.ofExcept t.answer
  Fail.ensure (¬ (proxyEnabled = true ∧ resp.status = 407)) .proxyAuthRequired
  setOut (headers resp)
  respond req expectedTotal t resp

/-- The variables of the loop: the headers of the last complete answer, and the destination. -/
structure Progress where
  initial : Option FetchResult
  dst : Bytes
  deriving DecidableEq

/-- The validator for `If-Range`. -/
def validatorOf (i : FetchResult) : Str := if i.etag = [] then i.lastModified else i.etag

/-- The bytes of an answer without a validator are discarded. -/
def reset (p : Progress) : Bool :=
  p.dst != [] && p.initial.any fun i => validatorOf i == []

/-- The variables when the next request is made. -/
def restart (p : Progress) : Progress := if reset p then ⟨none, []⟩ else p

/-- The request that goes on from there. -/
def request (p : Progress) : Request :=
  if p.dst = [] then ⟨none⟩ else ⟨p.initial.map fun i => (p.dst.length, validatorOf i)⟩

/-- The attempt that is made with these variables. -/
def attempt (proxyEnabled : Bool) (t : Turn) (p : Progress) : Except Err Unit × Attempt :=
  doAttempt proxyEnabled (request p) ((p.initial.map FetchResult.contentLength).getD 0) t
    ⟨p.dst, none⟩

/-- The variables after an attempt: new headers are kept. -/
def advance (p : Progress) (a : Attempt) : Progress :=
  ⟨if a.out.any fun out => out.status == 200 then a.out else p.initial, a.dst⟩

/-- The result is made of the kept headers. -/
def resultOf (p : Progress) : Except Err FetchResult :=
  match p.initial with
  | some i => .ok { i with status := 200 }
  | none => .error .nilResult

/-- A request and its answer. -/
abbrev Exchange := Request × Except Err Response

/-- What a fetch ends with: the result, the destination, and what was sent and answered. -/
structure Outcome where
  result : Except Err FetchResult
  dst : Bytes
  log : List Exchange

/-- What is upstream and around: the turn of each request, by its number. -/
abbrev World := Nat → Request → Turn

/-- The loop of `Fetch`, with the number of attempts that are left and of those that were made. -/
def fetchLoop (proxyEnabled : Bool) (world : World) :
    Nat → Nat → Option Err → Progress → Outcome
  | 0, _, lastErr, p => ⟨.error (.unavailable (lastErr.getD .uncaptured)), p.dst, []⟩
  | left + 1, made, _, p =>
    let req := request (restart p)
    let turn := world made req
    if reset p && turn.resetFails then ⟨.error .cacheWriteFailed, p.dst, []⟩
    else
      match attempt proxyEnabled turn (restart p) with
      | (.ok _, a) =>
        let p' := advance (restart p) a
        ⟨resultOf p', p'.dst, [(req, turn.answer)]⟩
      | (.error e, a) =>
        let p' := advance (restart p) a
        if !isRetryable e then ⟨.error e, p'.dst, [(req, turn.answer)]⟩
        else if turn.ctxEnded then ⟨.error .context, p'.dst, [(req, turn.answer)]⟩
        else
          let o := fetchLoop proxyEnabled world left (made + 1) (some e) p'
          { o with log := (req, turn.answer) :: o.log }

def normalizeHost (h : Str) : Str :=
  let h := Proxy.lower (trimSuffix h ['.'])
  if 2 ≤ h.length && h.head? == some '[' && h.getLast? == some ']' then h.tail.dropLast else h

/-- `Client`: its configuration, `url.Parse` (scheme and host) and the allowlist. -/
structure Client where
  maxRetries : Nat
  proxyEnabled : Bool
  parseURL : Str → Option (Str × Str)
  allowed : Str → Bool

structure Target where
  canonicalHost : Str
  url : Str

/-- The checks of a target, before anything is sent. -/
def checkTarget (c : Client) (target : Target) : Except Err Unit :=
  match c.parseURL target.url with
  | none => .error .invalidURL
  | some (scheme, hostname) =>
    if Proxy.lower scheme ≠ "http".toList ∧ Proxy.lower scheme ≠ "https".toList then
      .error .invalidURL
    else if normalizeHost hostname = [] then .error .invalidURL
    else if normalizeHost hostname ≠ normalizeHost target.canonicalHost then .error .invalidURL
    else if !c.allowed (normalizeHost target.canonicalHost) then .error .hostNotAllowed
    else .ok ()

/-- `Fetch` into a new destination. -/
def fetch (c : Client) (world : World) (target : Target) : Outcome :=
  match checkTarget c target with
  | .error e => ⟨.error e, [], []⟩
  | .ok _ => fetchLoop c.proxyEnabled world (c.maxRetries + 1) 0 none ⟨none, []⟩

/-! ## Upstream -/

/-- What is behind a URL at a time. -/
structure Representation where
  bytes : Bytes
  etag : Str
  lastModified : Str
  deriving DecidableEq

/-- The text is a validator of the representation. -/
def Representation.HasValidator (r : Representation) (v : Str) : Prop :=
  v ≠ [] ∧ (v = r.etag ∨ v = r.lastModified)

/-- Equal validators mean equal bytes. -/
def Coherent (R : Representation → Prop) : Prop :=
  ∀ r r' v, R r → R r' → r.HasValidator v → r'.HasValidator v → r.bytes = r'.bytes

/-- The headers are those of the representation; its length may be left out. -/
structure Describes (r : Representation) (contentLength : Int) (etag lastModified : Str) :
    Prop where
  length : contentLength = r.bytes.length ∨ contentLength = -1
  etag : etag = r.etag
  lastModified : lastModified = r.lastModified

/-- The body is cut off at some point, which is noticed, or whole. -/
structure Carries (resp : Response) (bytes : Bytes) : Prop where
  body : resp.body <+: bytes
  whole : resp.cut = none → resp.body = bytes

/-- The answers to a request of an upstream that serves the representations `R`. -/
inductive Answers (R : Representation → Prop) : Request → Except Err Response → Prop
  | failed {req : Request} (e : Err) : Answers R req (.error e)
  | refused {req : Request} {resp : Response}
      (h : resp.status ≠ 200 ∧ resp.status ≠ 204 ∧ resp.status ≠ 206) : Answers R req (.ok resp)
  | noContent {req : Request} {resp : Response} (h : resp.status = 204) : Answers R req (.ok resp)
  | full {req : Request} {resp : Response} (r : Representation) (hr : R r) (h : resp.status = 200)
      (hhead : Describes r resp.contentLength resp.etag resp.lastModified)
      (hbody : Carries resp r.bytes) : Answers R req (.ok resp)
  /-- The bytes from the offset to `last`, if the validator is that of the representation. -/
  | slice {offset last : Nat} {v : Str} {total : Option Nat} {resp : Response} (r : Representation)
      (hr : R r) (hv : r.HasValidator v) (h : resp.status = 206) (hle : offset ≤ last)
      (hlt : last < r.bytes.length) (htotal : ∀ n, total = some n → n = r.bytes.length)
      (hrange : resp.contentRange = contentRange offset last total)
      (hbody : Carries resp ((r.bytes.drop offset).take (last + 1 - offset))) :
      Answers R ⟨some (offset, v)⟩ (.ok resp)

/-! ## An attempt -/

section Attempt

variable {t : Turn} {resp : Response} {a : Attempt}

/-- The destination has grown by some of the body. -/
def Grown (body : Bytes) (a a' : Attempt) : Prop :=
  ∃ taken, taken <+: body ∧ a' = { a with dst := a.dst ++ taken }

theorem Grown.refl (body : Bytes) (a : Attempt) : Grown body a a :=
  ⟨[], List.nil_prefix, by rw [List.append_nil]⟩

open Fail in
theorem truncate_ends : Ends (truncate t) a (fun _ a' => a' = { a with dst := [] })
    fun e _ => isRetryable e = false := by
  rw [truncate, ends_bind, ends_ensure]
  exact ⟨fun _ => rfl, fun _ => rfl⟩

open Fail in
theorem streamBody_ends : Ends (streamBody t resp) a
    (fun _ a' => resp.cut = none ∧ a' = { a with dst := a.dst ++ resp.body })
    fun _ a' => Grown resp.body a a' := by
  have htaken : (t.writeFails.map fun n => resp.body.take n).getD resp.body <+: resp.body := by
    cases t.writeFails with
    | none => exact List.prefix_rfl
    | some n => exact List.take_prefix _ _
  simp only [streamBody, ends_bind, ends_modify, ends_ensure]
  refine ⟨fun hall => ?_, fun _ => ⟨_, htaken, rfl⟩⟩
  cases hcut : resp.cut with
  | none => exact ⟨rfl, by rw [hall]⟩
  | some e => exact ⟨_, htaken, rfl⟩

variable {rangeStart : Nat}

theorem checkRange_ok {expectedTotal last total : Int}
    (h : checkRange resp rangeStart expectedTotal = .ok (last, total)) :
    parseContentRange resp.contentRange = some ((rangeStart : Int), last, total) ∧
      (0 < expectedTotal → total = expectedTotal) := by
  unfold checkRange at h
  split at h
  · cases h
  · rename_i first last' total' hparse
    split at h
    · cases h
    rename_i hfirst
    split at h
    · cases h
    split at h
    · cases h
    rename_i hexpected
    split at h
    · cases h
    cases h
    rw [hparse, not_not.mp hfirst]
    exact ⟨rfl, fun hpos => not_not.mp fun hne => hexpected ⟨hpos, hne⟩⟩

/-- A range that was taken: it is where the request asked, and as long as it says. -/
structure Taken (resp : Response) (rangeStart : Nat) (expectedTotal : Int) (a a' : Attempt)
    (last total : Int) : Prop where
  parsed : parseContentRange resp.contentRange = some ((rangeStart : Int), last, total)
  expected : 0 < expectedTotal → total = expectedTotal
  cut : resp.cut = none
  state : a' = { a with dst := a.dst ++ resp.body }
  last : ((a.dst ++ resp.body).length : Int) = last + 1
  total : 0 < total → ((a.dst ++ resp.body).length : Int) = total

open Fail in
theorem takeRange_ends {expectedTotal : Int} :
    Ends (takeRange t resp rangeStart expectedTotal) a
      (fun _ a' => ∃ last total, Taken resp rangeStart expectedTotal a a' last total)
      fun _ a' => Grown resp.body a a' := by
  rw [takeRange, ends_bind, ends_ofExcept]
  refine ⟨?_, fun _ _ => Grown.refl _ _⟩
  rintro ⟨last, total⟩ hcheck
  obtain ⟨hparsed, hexpected⟩ := checkRange_ok hcheck
  dsimp only
  rw [ends_bind]
  refine streamBody_ends.mono ?_ fun _ _ h => h
  rintro _ a' ⟨hcut, rfl⟩
  simp only [written, ends_bind, ends_get, ends_pure, ends_ensure]
  have hgrown : Grown resp.body a { a with dst := a.dst ++ resp.body } :=
    ⟨_, List.prefix_rfl, rfl⟩
  refine ⟨fun hlast => ⟨fun htotal => ?_, fun _ => hgrown⟩, fun _ => hgrown⟩
  exact ⟨last, total, hparsed, hexpected, hcut, rfl, hlast,
    fun hpos => not_not.mp fun hne => htotal ⟨hpos, hne⟩⟩

variable {req : Request} {expectedTotal : Int}

open Fail in
theorem respond_noContent (h : resp.status = 204) :
    Ends (respond req expectedTotal t resp) a
      (fun _ a' => a' = ⟨[], some { headers resp with status := 200, contentLength := 0 }⟩)
      fun e _ => isRetryable e = false := by
  rw [respond, if_pos h]
  simp only [written, ends_bind, ends_get, ends_pure]
  by_cases hpos : 0 < (a.dst.length : Int)
  · rw [if_pos hpos, ends_bind]
    refine truncate_ends.mono ?_ fun _ _ h => h
    rintro _ a' rfl
    rfl
  · have hnil : a.dst = [] := List.length_eq_zero_iff.mp (by omega)
    rw [if_neg hpos]
    show (⟨a.dst, _⟩ : Attempt) = _
    rw [hnil]

/-- What is kept of the destination when a whole file arrives. -/
def kept (req : Request) (dst : Bytes) : Bytes := if req.range.isSome then [] else dst

open Fail in
theorem takeFull_ends : Ends (takeFull t resp) a
    (fun _ a' => resp.cut = none ∧ a' = { a with dst := a.dst ++ resp.body })
    fun _ a' => Grown resp.body a a' := by
  rw [takeFull, ends_bind]
  refine streamBody_ends.mono ?_ fun _ _ h => h
  rintro _ _ ⟨hcut, rfl⟩
  simp only [written, ends_bind, ends_get, ends_pure, ends_ensure]
  exact ⟨fun _ => ⟨hcut, trivial⟩, fun _ => ⟨_, List.prefix_rfl, rfl⟩⟩

open Fail in
theorem respond_full (h : resp.status = 200) :
    Ends (respond req expectedTotal t resp) a
      (fun _ a' => resp.cut = none ∧ a' = { a with dst := kept req a.dst ++ resp.body })
      fun e a' => isRetryable e = true → Grown resp.body { a with dst := kept req a.dst } a' := by
  rw [respond, if_neg (by rw [h]; decide), if_pos h, kept]
  by_cases hrange : req.range.isSome = true
  · rw [if_pos hrange, if_pos hrange, ends_bind]
    refine truncate_ends.mono ?_ fun e _ he hretry => by rw [he] at hretry; cases hretry
    rintro _ _ rfl
    exact takeFull_ends.mono (fun _ _ h => h) fun _ _ h _ => h
  · rw [if_neg hrange, if_neg hrange]
    exact takeFull_ends.mono (fun _ _ h => h) fun _ _ h _ => h

open Fail in
theorem respond_range {v : Str} (h : resp.status = 206) :
    Ends (respond ⟨some (rangeStart, v)⟩ expectedTotal t resp) a
      (fun _ a' => ∃ last total, Taken resp rangeStart expectedTotal a a' last total)
      fun _ a' => Grown resp.body a a' := by
  rw [respond, if_neg (by rw [h]; decide), if_neg (by rw [h]; decide), if_pos h]
  exact takeRange_ends

open Fail in
theorem respond_refused (h : resp.status ≠ 200 ∧ resp.status ≠ 204 ∧ resp.status ≠ 206) :
    Ends (respond req expectedTotal t resp) a (fun _ _ => False) fun _ a' => a' = a := by
  rw [respond, if_neg h.2.1, if_neg h.1, if_neg h.2.2]
  exact rfl

open Fail in
/-- The rule for an attempt: its error is that of the transport, or the response decides. -/
theorem doAttempt_ends {proxyEnabled : Bool} {Q : Unit → Attempt → Prop}
    {E : Err → Attempt → Prop} (herror : ∀ e, t.answer = .error e → E e a)
    (hproxy : E .proxyAuthRequired a)
    (hresp : ∀ resp, t.answer = .ok resp →
      Ends (respond req expectedTotal t resp) { a with out := some (headers resp) } Q E) :
    Ends (doAttempt proxyEnabled req expectedTotal t) a Q E := by
  rw [doAttempt, ends_bind, ends_ofExcept]
  refine ⟨fun resp h => ?_, herror⟩
  rw [ends_bind, ends_ensure]
  exact ⟨fun _ => hresp resp h, fun _ => hproxy⟩

end Attempt

/-! ## The loop -/

section Loop

variable {R : Representation → Prop} {p : Progress} {t : Turn}

/-- What is in the destination is the beginning of the representation of the kept headers. -/
inductive Part (R : Representation → Prop) : Progress → Prop
  | fresh : Part R ⟨none, []⟩
  | some {i : FetchResult} {dst : Bytes} (r : Representation) (hr : R r)
      (hhead : Describes r i.contentLength i.etag i.lastModified) (hdst : dst <+: r.bytes) :
      Part R ⟨some i, dst⟩

/-- The exchange ended with a range of unknown total that stops before the end. -/
def StopsShort (R : Representation → Prop) (x : Exchange) : Prop :=
  ∃ offset last v resp r, x = (⟨Option.some (offset, v)⟩, .ok resp) ∧ R r ∧ r.HasValidator v ∧
    resp.status = 206 ∧ parseContentRange resp.contentRange = some ((offset : Int), last, -1) ∧
    last + 1 < r.bytes.length

/-- What an attempt without an error leaves. -/
inductive Finished (R : Representation → Prop) (x : Exchange) : Progress → Prop
  | empty {i : FetchResult} (hx : ∃ req resp, x = (req, .ok resp) ∧ resp.status = 204)
      (hlen : i.contentLength = 0) : Finished R x ⟨some i, []⟩
  | whole {i : FetchResult} (r : Representation) (hr : R r)
      (hhead : Describes r i.contentLength i.etag i.lastModified) (hnot : ¬ StopsShort R x) :
      Finished R x ⟨some i, r.bytes⟩
  | short {i : FetchResult} {dst : Bytes} (r : Representation) (hr : R r)
      (hhead : Describes r i.contentLength i.etag i.lastModified)
      (hv : r.HasValidator (validatorOf i)) (hlt : dst.length < r.bytes.length)
      (hstops : StopsShort R x) : Finished R x ⟨some i, dst⟩

variable {resp : Response} {r : Representation} {last : Nat} {world : World} {res : FetchResult}

theorem not_stopsShort {req : Request} (h : resp.status ≠ 206) :
    ¬ StopsShort R (req, .ok resp) := by
  rintro ⟨offset, last, v, resp', r, hx, -, -, hstatus, -⟩
  have hresp := congrArg Prod.snd hx
  cases hresp
  exact h hstatus

theorem advance_kept {a : Attempt} (h : ∀ out ∈ a.out, out.status ≠ 200) :
    advance p a = ⟨p.initial, a.dst⟩ := by
  unfold advance
  rw [if_neg]
  cases hout : a.out with
  | none => simp
  | some out => simpa using h out hout

theorem Part.nil_of_none (h : Part R p) (hnone : p.initial = none) : p.dst = [] := by
  cases h with
  | fresh => rfl
  | some => cases hnone

theorem kept_request (h : p.initial = none → p.dst = []) : kept (request p) p.dst = [] := by
  unfold kept request
  by_cases hnil : p.dst = []
  · simp [hnil]
  · cases hi : p.initial with
    | none => exact absurd (h hi) hnil
    | some i => simp [hnil]

theorem respond_full_ends {expectedTotal : Int} (h : Part R p) (hr : R r)
    (hstatus : resp.status = 200)
    (hhead : Describes r resp.contentLength resp.etag resp.lastModified)
    (hbody : Carries resp r.bytes) :
    Fail.Ends (respond (request p) expectedTotal t resp) ⟨p.dst, some (headers resp)⟩
      (fun _ a => Finished R (request p, .ok resp) (advance p a))
      fun e a => isRetryable e = true → Part R (advance p a) := by
  have hadvance : ∀ dst, advance p ⟨dst, some (headers resp)⟩ = ⟨some (headers resp), dst⟩ := by
    intro dst
    simp [advance, headers, hstatus]
  refine (respond_full hstatus).mono ?_ ?_
  · rintro _ _ ⟨hcut, rfl⟩
    rw [kept_request h.nil_of_none, List.nil_append, hadvance, hbody.whole hcut]
    exact .whole r hr hhead (not_stopsShort (by rw [hstatus]; decide))
  · intro e a hgrown hretry
    obtain ⟨taken, htaken, rfl⟩ := hgrown hretry
    rw [kept_request h.nil_of_none, List.nil_append, hadvance]
    exact .some r hr hhead (htaken.trans hbody.body)

theorem hasValidator_of_describes {i : FetchResult}
    (hhead : Describes r i.contentLength i.etag i.lastModified) (hv : validatorOf i ≠ []) :
    r.HasValidator (validatorOf i) := by
  refine ⟨hv, ?_⟩
  unfold validatorOf
  split
  · exact .inr hhead.lastModified
  · exact .inl hhead.etag

theorem append_take {dst bytes : Bytes} (hdst : dst <+: bytes) (hle : dst.length ≤ last) :
    dst ++ (bytes.drop dst.length).take (last + 1 - dst.length) = bytes.take (last + 1) := by
  obtain ⟨rest, rfl⟩ := hdst
  rw [List.drop_left, List.take_append, List.take_of_length_le (Nat.le_succ_of_le hle)]

theorem append_slice {dst bytes body : Bytes} (hdst : dst <+: bytes)
    (hbody : body <+: (bytes.drop dst.length).take (last + 1 - dst.length)) :
    dst ++ body <+: bytes := by
  obtain ⟨rest, rfl⟩ := hdst
  rw [List.drop_left] at hbody
  exact (List.prefix_append_right_inj dst).mpr (hbody.trans (List.take_prefix _ _))

theorem respond_range_ends {offset : Nat} {v : Str} {total : Option Nat} (hR : Coherent R)
    (h : Part R p) (hreq : request p = ⟨some (offset, v)⟩) (hr : R r) (hv : r.HasValidator v)
    (hstatus : resp.status = 206) (hle : offset ≤ last) (hlt : last < r.bytes.length)
    (htotal : ∀ n, total = some n → n = r.bytes.length)
    (hrange : resp.contentRange = contentRange offset last total)
    (hbody : Carries resp ((r.bytes.drop offset).take (last + 1 - offset))) :
    Fail.Ends (respond ⟨some (offset, v)⟩ ((p.initial.map FetchResult.contentLength).getD 0) t resp)
      ⟨p.dst, some (headers resp)⟩
      (fun _ a => Finished R (⟨some (offset, v)⟩, .ok resp) (advance p a))
      fun e a => isRetryable e = true → Part R (advance p a) := by
  have hadvance : ∀ dst, advance p ⟨dst, some (headers resp)⟩ = ⟨p.initial, dst⟩ := by
    intro dst
    refine advance_kept ?_
    rintro _ ⟨⟩
    simp [headers, hstatus]
  cases h with
  | fresh => cases hreq
  | @some i dst r₀ hr₀ hhead hdst =>
    have hne : dst ≠ [] := by
      rintro rfl
      cases hreq
    have hreq' : offset = dst.length ∧ v = validatorOf i := by
      have hpair : (⟨some (dst.length, validatorOf i)⟩ : Request) = ⟨some (offset, v)⟩ := by
        rw [← hreq, request, if_neg hne]
        rfl
      cases hpair
      exact ⟨rfl, rfl⟩
    obtain ⟨rfl, rfl⟩ := hreq'
    have hbytes : r₀.bytes = r.bytes :=
      hR r₀ r _ hr₀ hr (hasValidator_of_describes hhead hv.1) hv
    rw [← hbytes] at hlt hbody htotal
    refine (respond_range hstatus).mono ?_ ?_
    · rintro _ _ ⟨last', total', htaken⟩
      have hparse := htaken.parsed
      rw [hrange, parseContentRange_contentRange hle] at hparse
      split at hparse
      swap
      · cases hparse
      cases hparse
      have hdst' : dst ++ resp.body = r₀.bytes.take (last + 1) := by
        rw [hbody.whole htaken.cut, append_take hdst hle]
      rw [htaken.state, hadvance]
      dsimp only
      by_cases hend : last + 1 = r₀.bytes.length
      · rw [hdst', List.take_of_length_le (by omega)]
        refine .whole r₀ hr₀ hhead ?_
        rintro ⟨_, last', v, resp', r', hx, hr', hv', -, hparse', hlt'⟩
        cases hx
        rw [htaken.parsed] at hparse'
        have hlast : (last : Int) = last' := by
          simpa using congrArg (fun x : Option (Int × Int × Int) => x.map (·.2.1)) hparse'
        have hbytes' := hR r' r _ hr' hr hv' hv
        rw [hbytes', ← hbytes] at hlt'
        omega
      · -- an exact total is that of the representation
        have hnone : total = none := by
          cases total with
          | none => rfl
          | some n =>
            have hn := htotal n rfl
            have hlen := htaken.total (show (0 : Int) < (n : Int) by omega)
            rw [htaken.last] at hlen
            exact absurd (show (last : Int) + 1 = (n : Int) from hlen) (by omega)
        subst hnone
        refine .short r₀ hr₀ hhead (hasValidator_of_describes hhead hv.1) ?_ ?_
        · rw [hdst', List.length_take]
          omega
        · refine ⟨dst.length, last, _, resp, r, rfl, hr, hv, hstatus, htaken.parsed, ?_⟩
          rw [← hbytes]
          omega
    · rintro e _ ⟨taken, htaken, rfl⟩ -
      rw [hadvance]
      exact .some r₀ hr₀ hhead (append_slice hdst (htaken.trans hbody.body))

/-- One attempt: it finishes, or what it leaves can be continued. -/
theorem attempt_ends (proxyEnabled : Bool) (hR : Coherent R) (h : Part R p)
    (hans : Answers R (request p) t.answer) :
    Fail.Ends (doAttempt proxyEnabled (request p)
        ((p.initial.map FetchResult.contentLength).getD 0) t) ⟨p.dst, none⟩
      (fun _ a => Finished R (request p, t.answer) (advance p a))
      fun e a => isRetryable e = true → Part R (advance p a) := by
  refine doAttempt_ends (fun e _ _ => ?_) (fun hretry => by cases hretry) fun resp hresp => ?_
  · rw [advance_kept (by simp)]
    exact h
  rw [hresp] at hans ⊢
  generalize hreq : request p = req at hans ⊢
  cases hans with
  | refused hstatus =>
    refine (respond_refused hstatus).mono (fun _ _ => False.elim) ?_
    rintro e _ rfl -
    rw [advance_kept (by rintro _ ⟨⟩; exact hstatus.1)]
    exact h
  | noContent hstatus =>
    refine (respond_noContent hstatus).mono ?_ fun e _ he hretry => ?_
    · rintro _ _ rfl
      exact .empty ⟨req, resp, rfl, hstatus⟩ rfl
    · rw [he] at hretry
      cases hretry
  | full r hr hstatus hhead hbody =>
    rw [← hreq]
    exact respond_full_ends h hr hstatus hhead hbody
  | slice r hr hv hstatus hle hlt htotal hrange hbody =>
    exact respond_range_ends hR h hreq hr hv hstatus hle hlt htotal hrange hbody

theorem Part.restart (h : Part R p) : Part R (restart p) := by
  unfold Fetch.restart
  split
  · exact .fresh
  · exact h

/-- A fetch without an error ends with an attempt, or goes on after one. -/
theorem fetchLoop_cases {proxyEnabled : Bool} {left made : Nat} {lastErr : Option Err}
    (h : (fetchLoop proxyEnabled world (left + 1) made lastErr p).result = .ok res) :
    ∃ a, (attempt proxyEnabled (world made (request (restart p))) (restart p) = (.ok (), a) ∧
        fetchLoop proxyEnabled world (left + 1) made lastErr p =
          ⟨resultOf (advance (restart p) a), (advance (restart p) a).dst,
            [(request (restart p), (world made (request (restart p))).answer)]⟩) ∨
      ∃ e o, attempt proxyEnabled (world made (request (restart p))) (restart p) = (.error e, a) ∧
        isRetryable e = true ∧
        o = fetchLoop proxyEnabled world left (made + 1) (some e) (advance (restart p) a) ∧
        fetchLoop proxyEnabled world (left + 1) made lastErr p =
          ⟨o.result, o.dst,
            (request (restart p), (world made (request (restart p))).answer) :: o.log⟩ := by
  rw [fetchLoop] at h ⊢
  dsimp only at h ⊢
  split at h
  · cases h
  rename_i hreset
  rw [if_neg hreset]
  cases hrun : attempt proxyEnabled (world made (request (restart p))) (restart p) with
  | mk r a =>
    rw [hrun] at h
    refine ⟨a, ?_⟩
    cases r with
    | ok _ => exact .inl ⟨rfl, rfl⟩
    | error e =>
      dsimp only at h ⊢
      split at h
      · cases h
      rename_i hretry
      split at h
      · cases h
      rename_i hctx
      rw [if_neg hretry, if_neg hctx]
      exact .inr ⟨e, _, rfl, by simpa using hretry, rfl, rfl⟩

/-- The rule of the loop: what each attempt that can be repeated keeps, and what the one that ends
the fetch leaves. -/
theorem fetchLoop_rule {proxyEnabled : Bool} (I : Progress → Prop) (Q : Exchange → Progress → Prop)
    (hrestart : ∀ p, I p → I (restart p))
    (hstep : ∀ made p, I p → Fail.Ends (doAttempt proxyEnabled (request p)
        ((p.initial.map FetchResult.contentLength).getD 0) (world made (request p))) ⟨p.dst, none⟩
      (fun _ a => Q (request p, (world made (request p)).answer) (advance p a))
      fun e a => isRetryable e = true → I (advance p a)) {left made : Nat} {lastErr : Option Err}
    {o : Outcome} (h : I p) (ho : o = fetchLoop proxyEnabled world left made lastErr p)
    (hres : o.result = .ok res) :
    o.log.length ≤ left ∧ ∃ x i, o.log.getLast? = some x ∧ res = { i with status := 200 } ∧
      Q x ⟨some i, o.dst⟩ := by
  induction left generalizing made lastErr p o with
  | zero =>
    subst ho
    cases hres
  | succ left ih =>
    have hend := hstep made (restart p) (hrestart p h)
    obtain ⟨a, ⟨hrun, heq⟩ | ⟨e, o', hrun, hretry, ho', heq⟩⟩ := fetchLoop_cases (ho ▸ hres)
    · have hfin := hend.of_ok hrun
      rw [ho, heq] at hres ⊢
      refine ⟨Nat.le_add_left 1 left,
        (request (restart p), (world made (request (restart p))).answer), ?_⟩
      cases hi : (advance (restart p) a).initial with
      | none =>
        simp only [resultOf, hi] at hres
        cases hres
      | some i =>
        simp only [resultOf, hi, Except.ok.injEq] at hres
        refine ⟨i, rfl, hres.symm, ?_⟩
        rw [← hi]
        exact hfin
    · have hkept := hend.of_error hrun hretry
      rw [ho, heq] at hres ⊢
      obtain ⟨hlen, x, i, hlast, hi, hfin⟩ := ih hkept ho' hres
      refine ⟨Nat.succ_le_succ hlen, x, i, ?_, hi, hfin⟩
      rw [List.getLast?_cons, hlast]
      rfl

theorem fetch_ok {c : Client} {target : Target} (h : (fetch c world target).result = .ok res) :
    fetch c world target =
      fetchLoop c.proxyEnabled world (c.maxRetries + 1) 0 none ⟨none, []⟩ := by
  cases hcheck : checkTarget c target with
  | error e =>
    rw [fetch, hcheck] at h
    cases h
  | ok _ => rw [fetch, hcheck]

/-- The destination holds one whole representation, the one that the result describes, or nothing
after an answer 204. -/
def Delivered (R : Representation → Prop) (o : Outcome) (res : FetchResult) : Prop :=
  (∃ r, R r ∧ o.dst = r.bytes ∧ Describes r res.contentLength res.etag res.lastModified) ∨
    o.dst = [] ∧ res.contentLength = 0 ∧
      ∃ req resp, o.log.getLast? = some (req, .ok resp) ∧ resp.status = 204

/-- Whatever upstream answers, a fetch without an error has delivered one whole representation, with
at most one request more than there are retries, if and only if the answer that ended it is not a
range of unknown total that stops before the end. -/
theorem fetch_whole_iff (c : Client) (R : Representation → Prop) (hR : Coherent R) (world : World)
    (hworld : ∀ n req, Answers R req (world n req).answer) (target : Target) (res : FetchResult)
    (h : (fetch c world target).result = .ok res) :
    (Delivered R (fetch c world target) res ∧
        (fetch c world target).log.length ≤ c.maxRetries + 1) ↔
      ∀ x, (fetch c world target).log.getLast? = some x → ¬ StopsShort R x := by
  obtain ⟨hlen, x, i, hlast, rfl, hfin⟩ := fetchLoop_rule (Part R) (Finished R)
    (fun _ => Part.restart) (fun made _ hp => attempt_ends c.proxyEnabled hR hp (hworld made _))
    Part.fresh (fetch_ok h) h
  rw [and_iff_left hlen, Delivered, hlast]
  generalize (fetch c world target).dst = dst at hfin ⊢
  cases hfin with
  | empty hx hzero =>
    obtain ⟨req, resp, rfl, hstatus⟩ := hx
    refine ⟨?_, fun _ => .inr ⟨rfl, hzero, req, resp, rfl, hstatus⟩⟩
    rintro - _ ⟨⟩
    exact not_stopsShort (by rw [hstatus]; decide)
  | whole r hr hhead hnot =>
    refine ⟨?_, fun _ => .inl ⟨r, hr, rfl, hhead⟩⟩
    rintro - _ ⟨⟩
    exact hnot
  | short r hr hhead hv hlt hstops =>
    refine ⟨?_, fun hall => absurd hstops (hall x rfl)⟩
    rintro (⟨r', hr', rfl, hhead'⟩ | ⟨-, -, req, resp, hx, hstatus⟩)
    · -- the same validator is that of the same bytes
      have hbytes := hR r r' _ hr hr' hv (hasValidator_of_describes hhead' hv.1)
      rw [hbytes] at hlt
      exact absurd hlt (Nat.lt_irrefl _)
    · cases hx
      exact absurd hstops (not_stopsShort (by rw [hstatus]; decide))

end Loop

/-! ## A resumed fetch -/

/-- Five bytes with a validator. -/
def fiveBytes : Representation := ⟨[1, 2, 3, 4, 5], ['e'], []⟩

def quiet (answer : Except Err Response) : Turn := ⟨answer, false, false, none, false⟩

/-- The file is sent without a length and cut off after two bytes; the rest is answered up to
`last`, with the total or a star. -/
def cutOff (last : Nat) (total : Option Nat) : World := fun _ req =>
  match req.range with
  | none => quiet (.ok ⟨200, [], -1, ['e'], [], [], [1, 2], some .network⟩)
  | some (offset, v) =>
    if v = ['e'] ∧ offset ≤ last then
      quiet (.ok ⟨206, [], -1, ['e'], [], contentRange offset last total,
        (fiveBytes.bytes.drop offset).take (last + 1 - offset), none⟩)
    else quiet (.error (.status 500))

theorem cutOff_answers {last : Nat} {total : Option Nat} (hlast : last < 5)
    (htotal : ∀ n, total = some n → n = 5) (n : Nat) (req : Request) :
    Answers (· = fiveBytes) req (cutOff last total n req).answer := by
  obtain ⟨range⟩ := req
  unfold cutOff
  cases range with
  | none =>
    refine .full fiveBytes rfl rfl ⟨.inr rfl, rfl, rfl⟩ ⟨?_, fun h => by cases h⟩
    exact ⟨[3, 4, 5], rfl⟩
  | some range =>
    obtain ⟨offset, v⟩ := range
    dsimp only
    split
    · rename_i h
      obtain ⟨rfl, hle⟩ := h
      exact .slice fiveBytes rfl ⟨by decide, .inl rfl⟩ rfl hle hlast htotal rfl
        ⟨List.prefix_rfl, fun _ => rfl⟩
    · exact .failed _

theorem coherent_fiveBytes : Coherent (· = fiveBytes) := by
  rintro r r' v rfl rfl - -
  rfl

/-- A client that tries twice. -/
def twice : Client := ⟨1, false, fun _ => some ("http".toList, "h".toList), fun _ => true⟩

def onHost : Target := ⟨"h".toList, []⟩

theorem fetch_whole_resumed :
    (fetch twice (cutOff 4 (some 5)) onHost).result = .ok ⟨200, [], -1, ['e'], []⟩ ∧
    Delivered (· = fiveBytes) (fetch twice (cutOff 4 (some 5)) onHost) ⟨200, [], -1, ['e'], []⟩ ∧
      (fetch twice (cutOff 4 (some 5)) onHost).log.length ≤ 2 := by
  have hres : (fetch twice (cutOff 4 (some 5)) onHost).result = .ok ⟨200, [], -1, ['e'], []⟩ := by
    decide +kernel
  have hlast : (fetch twice (cutOff 4 (some 5)) onHost).log.getLast?.map (fun x => x.2.map
      fun resp => parseContentRange resp.contentRange) = some (.ok (some (2, 4, 5))) := by
    decide +kernel
  refine ⟨hres, (fetch_whole_iff twice _ coherent_fiveBytes _
    (cutOff_answers (by decide) (by simp)) onHost _ hres).mpr ?_⟩
  rintro x hx ⟨offset, last, v, resp, r, rfl, -, -, -, hparse, -⟩
  rw [hx] at hlast
  simp [Except.map, hparse] at hlast

/-- The range stops at the fourth byte, and the fetch ends there without an error. -/
theorem fetch_short :
    (∀ n req, Answers (· = fiveBytes) req (cutOff 3 none n req).answer) ∧
    (fetch twice (cutOff 3 none) onHost).result = .ok ⟨200, [], -1, ['e'], []⟩ ∧
    (fetch twice (cutOff 3 none) onHost).dst = [1, 2, 3, 4] ∧
    ¬ Delivered (· = fiveBytes) (fetch twice (cutOff 3 none) onHost) ⟨200, [], -1, ['e'], []⟩ := by
  have hdst : (fetch twice (cutOff 3 none) onHost).dst = [1, 2, 3, 4] := by decide +kernel
  refine ⟨cutOff_answers (by decide) (by simp), by decide +kernel, hdst, ?_⟩
  rintro (⟨r, rfl, hbytes, -⟩ | ⟨hnil, -⟩)
  · rw [hdst] at hbytes
    cases hbytes
  · rw [hdst] at hnil
    cases hnil

end AptCacher.Fetch
