import AptCacher.Cache.Db
import AptCacher.Freshness.Member

/-!
# Answers and pacing

What a check makes of an answer of upstream, and the delays between checks. Times are in
nanoseconds, stored stamps in seconds.

* `backoffDelay`, `interested`: the pacing.
* `classify`: the class of an answer, present, absent or unknown.
* `Checker`: the checker as the checks of one suite see it.
-/

namespace AptCacher.Freshness

open Spec Cache Aptpath

/-! ## Time -/

/-- A second in nanoseconds. -/
def second : Int := 1000000000

/-- A minute in nanoseconds. -/
def minute : Int := 60 * second

/-- An hour in nanoseconds. -/
def hour : Int := 60 * minute

/-- `t.Unix()`: the whole second of a reading. -/
def unix (t : Int) : Int := t / second

/-! ## Pacing -/

def retryBaseDelay : Int := 2 * minute

def retryMaxDelay : Int := hour

def retryHorizon : Int := retryMaxDelay + retryMaxDelay / 4

def clockStepTolerance : Int := 2 * second

def interestWindow : Int := 7 * 24 * hour

def backoffDelay (count : Int) : Int :=
  if count < 1 then 0
  else if 6 < count then retryMaxDelay
  else min (retryBaseDelay * 2 ^ (count - 1).toNat) retryMaxDelay

/-- `Time.Sub`: a difference that no `Duration` holds is cut to the nearest one. -/
def timeSub (t u : Int) : Int := max (-2 ^ 63) (min (t - u) (2 ^ 63 - 1))

/-- `interested`: the last request within the interest window of now, either way. The least
`Duration` is its own negation. -/
def interested (lastRequestedAt : Option Int) (now : Int) : Bool :=
  match lastRequestedAt with
  | none => false
  | some last =>
    let d := timeSub now (last * second)
    decide ((if d < 0 ∧ d ≠ -2 ^ 63 then -d else d) < interestWindow)

/-- A stamp more than 292 years ahead counts as one within the window. -/
theorem interested_iff {last now : Int} :
    interested (some last) now = true ↔
      (now - last * second).natAbs < interestWindow ∨ now - last * second ≤ -2 ^ 63 := by
  have hwindow : interestWindow = 604800000000000 := by decide
  generalize hd : now - last * second = d
  simp only [interested, timeSub, hd, hwindow, decide_eq_true_eq]
  by_cases hneg : max (-2 ^ 63) (min d (2 ^ 63 - 1)) < 0 ∧
      max (-2 ^ 63) (min d (2 ^ 63 - 1)) ≠ -2 ^ 63
  · rw [if_pos hneg]
    omega
  · rw [if_neg hneg]
    omega

/-! ## Answers -/

/-- The anchor files of a suite. -/
inductive AnchorFile
  | inRelease
  | release
  | releaseGpg
  deriving DecidableEq

/-- `fetch.ConditionalResult`. -/
structure ConditionalResult where
  status : Nat
  body : Bytes
  etag : Str
  lastModified : Str
  deriving DecidableEq

/-- How a request ends without a result. -/
inductive ProbeErr
  /-- `fetch.StatusError`. -/
  | status (code : Nat)
  /-- The caller's context ended. -/
  | cancelled
  /-- A transport error, a body over its limit, the check's deadline. -/
  | other
  /-- `errUnexpectedStatus`. -/
  | unexpectedStatus
  deriving DecidableEq

/-- What `fetcher.Conditional` returns. -/
abbrev Answer := Except ProbeErr ConditionalResult

inductive ProbeClass
  | unknown
  | present
  | absent
  deriving DecidableEq

structure ProbeOutcome where
  cls : ProbeClass
  res : Option ConditionalResult
  status : Nat
  err : Option ProbeErr
  deriving DecidableEq

namespace ProbeOutcome

def authDenied (o : ProbeOutcome) : Bool := o.status == 401 || o.status == 403

end ProbeOutcome

/-- `classify`; `conditional` if the request carried validators. -/
def classify (a : Answer) (sniff : Bytes → Bool) (conditional : Bool) : ProbeOutcome :=
  match a with
  | .error (.status code) =>
    if code = 401 ∨ code = 403 ∨ code = 404 ∨ code = 410 then ⟨.absent, none, code, some (.status code)⟩
    else ⟨.unknown, none, code, some (.status code)⟩
  | .error e => ⟨.unknown, none, 0, some e⟩
  | .ok res =>
    if res.status = 200 ∧ sniff res.body = true then ⟨.present, some res, 200, none⟩
    else if res.status = 200 then ⟨.absent, some res, 200, none⟩
    else if res.status = 304 ∧ conditional = true then ⟨.present, some res, 304, none⟩
    else ⟨.unknown, none, res.status, some .unexpectedStatus⟩

/-- A hex digit. -/
def hexDigit (n : Nat) : Char := if n < 10 then Char.ofNat (48 + n) else Char.ofNat (87 + n)

/-- `hex.EncodeToString`. -/
def hexOf (b : Bytes) : Str := b.flatMap fun x => [hexDigit (x.toNat / 16), hexDigit (x.toNat % 16)]

/-- The checker, as the checks of one suite see it. -/
structure Checker where
  suite : SuiteKey
  /-- `aptpath.IsFlatSuitePath` of the suite's path. -/
  flat : Bool
  cooldown : Int
  /-- `periodic_refresh`. -/
  refresh : Int
  sha256 : Bytes → Bytes
  /-- The sniff of each anchor file. -/
  sniff : AnchorFile → Bytes → Bool
  /-- `unsignedTooLarge`: the Release parses and declares more members than the cap. -/
  tooLarge : Bytes → Bool

/-- `adoption_fail_reason`. -/
inductive Reason
  | upstreamOlder
  | rollbackRefused
  | unsignedDowngradeRefused
  | unsignedUnconfirmed
  | unsignedTooLarge
  | anchorAbsent
  | unsignedDisabled
  | panic
  /-- Any other outcome of an attempt, by its tag. -/
  | failed (tag : Str)
  deriving DecidableEq

def recordPacesAdopted : Option Reason → Bool
  | some .anchorAbsent | some .unsignedDisabled => true
  | _ => false

/-- How `anchorlessRefresh` goes: a shutdown, no content answer, or answered, with or without a row
replaced or deleted. -/
inductive AnchorlessEnd
  | cancelled
  | failed
  | answered (refreshed : Bool)
  deriving DecidableEq

end AptCacher.Freshness
