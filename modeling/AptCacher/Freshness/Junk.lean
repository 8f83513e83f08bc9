import Mathlib.Logic.Function.Basic
import AptCacher.Aptpath.Sniff
import AptCacher.Freshness.Probe

/-!
# Junk suites

The reaper's scan for suites whose cached files are junk. A verdict about a blob is remembered for
the scan and for the next one, under the kind of the file, the hash, and the name of an index.

* `allJunk`, `suiteJunk`, `junkCandidates`: the scan.
* `Scan.Junk`: the evidence rows of a suite are there and all junk.
* `Truthful`: what is remembered is what the bytes say; every scan keeps it.
* `returned_iff_junk`: a scan returns junk suites only, and a completed one all it can judge.
-/

namespace AptCacher.Freshness

open Cache Aptpath

/-! ## The scan -/

def junkGrace : Int := 24 * hour

/-- `SuiteAnchorRow`: a listed anchor or index row. -/
structure SuiteAnchorRow where
  key : SuiteKey
  path : Str
  blobHash : Option Str
  lastFetchedAt : Option Int
  deriving DecidableEq

structure SniffKey where
  file : SuiteFile
  hash : Str
  name : Str
  deriving DecidableEq

/-- The key of a row's verdict: the extension of an index picks its sniff. -/
def sniffKey (file : SuiteFile) (hash path : Str) : SniffKey :=
  ⟨file, hash, if file = .flatIndex then baseName path else []⟩

/-- The verdicts that a scan reached. -/
abbrev Verdicts := SniffKey → Option Bool

/-- A listed suite and what the scan meets in its turn. -/
structure Judging where
  key : SuiteKey
  current : Option ℕ := none
  requested : Option Int := none
  /-- The context has ended. -/
  ended : Bool := false
  /-- `CheckUnsignedDowngrade` finds a marker or a signed snapshot, and can be asked. -/
  signed : Bool := false
  signedRead : Bool := true
  /-- The pool file of a row can be read. -/
  opens : Str → Bool := fun _ => true

/-- A scan: the clock, the suites, the two lists of rows if they could be read, and the suites that
are candidates already. -/
structure Scan where
  now : Int
  suites : List Judging
  anchors : Option (List SuiteAnchorRow)
  indexes : Option (List SuiteAnchorRow) := some []
  taken : List SuiteKey := []

/-- `reapCandidate`; a junk one is reaped if it is still without a snapshot, whatever its age. -/
structure ReapCandidate where
  key : SuiteKey
  current : Option ℕ := none
  requested : Option Int
  reason : String := "junk"
  evidence : List Str
  deriving DecidableEq

def Judging.unadoptedFlat (v : Judging) : Bool :=
  v.current.isNone && isFlatSuitePath v.key.suitePath

/-- The candidate of a junk verdict, with the paths of the rows judged. -/
def Judging.candidate (v : Judging) : Option (Bool × List Str) → Option ReapCandidate
  | some (true, paths) => some { key := v.key, requested := v.requested, evidence := paths }
  | _ => none

def anchorEvidence (file : SuiteFile) (path head : Str) : Bool :=
  if file.sniff path head then false
  else decide (file ≠ .inRelease) || !SuiteFile.release.sniff path head

/-- How much of a blob the scan reads; the Release sniff of an InRelease needs more. -/
def readBytes (file : SuiteFile) : ℕ :=
  if file = .inRelease then SuiteFile.release.headBytes else file.headBytes

section Scan

variable (bytes : Str → Str) (last : Verdicts)

/-- The verdict that the bytes of a blob give. -/
def evidenceOf (file : SuiteFile) (hash path : Str) : Bool :=
  anchorEvidence file path ((bytes hash).take (readBytes file))

/-- One turn of the loop of `allJunk`. A failed read gives no verdict. -/
def judge (v : Judging) (cutoff : Int) (next : Verdicts) (a : SuiteAnchorRow) : Bool × Verdicts :=
  match a.blobHash, a.lastFetchedAt with
  | some hash, some fetched =>
    let file := classifySuiteFile v.key.suitePath a.path
    if cutoff < fetched ∨ file = .notSuiteFile then (false, next)
    else
      let k := sniffKey file hash a.path
      let read := if v.opens a.path then some (evidenceOf bytes file hash a.path) else none
      match (next k).or ((last k).or read) with
      | none => (false, next)
      | some junk => (junk, Function.update next k (some junk))
  | _, _ => (false, next)

def allJunk (v : Judging) (cutoff : Int) : List SuiteAnchorRow → Verdicts → Bool × Verdicts
  | [], next => (true, next)
  | a :: as, next =>
    let r := judge bytes last v cutoff next a
    if r.1 then allJunk v cutoff as r.2 else (false, r.2)

def rowPaths (junk : Bool) (rows : List SuiteAnchorRow) : List Str :=
  if junk then rows.map SuiteAnchorRow.path else []

/-- `anchorsJunk` of `suiteJunk`. -/
def anchorsJunk (v : Judging) (cutoff : Int) (anchors : List SuiteAnchorRow) (next : Verdicts) :
    Bool × Verdicts :=
  if anchors = [] then (false, next) else allJunk bytes last v cutoff anchors next

/-- `combined` of `suiteJunk`, given the verdict of the anchors. -/
def combinedJunk (v : Judging) (cutoff : Int) (anchors indexes : List SuiteAnchorRow)
    (r : Bool × Verdicts) : Bool × Verdicts :=
  if (anchors = [] ∨ r.1 = true) ∧ 0 < anchors.length + indexes.length then
    if indexes = [] then (true, r.2) else allJunk bytes last v cutoff indexes r.2
  else (false, r.2)

/-- `suiteJunk`: by the anchors, or for a flat suite without signed evidence by the anchors and the
indexes. There is no verdict when the signed evidence is needed and cannot be read. -/
def suiteJunk (v : Judging) (cutoff : Int) (anchors indexes : List SuiteAnchorRow)
    (next : Verdicts) : Option (Bool × List Str) × Verdicts :=
  let r := anchorsJunk bytes last v cutoff anchors next
  let byAnchors := some (r.1, rowPaths r.1 anchors)
  if !v.unadoptedFlat then (byAnchors, r.2)
  else
    let q := combinedJunk bytes last v cutoff anchors indexes r
    let combined := some (q.1, rowPaths q.1 (anchors ++ indexes))
    if q.1 = r.1 then (combined, q.2)
    else if !v.signedRead then (none, q.2)
    else if v.signed then (byAnchors, q.2)
    else (combined, q.2)

/-- The index rows are read only if there is an unadopted flat suite. -/
def Scan.indexRows (s : Scan) : Option (List SuiteAnchorRow) :=
  if s.suites.any Judging.unadoptedFlat then s.indexes else some []

/-- The loop of `junkCandidates` over the suites; the end of the context cuts it short. -/
def judgeSuites (s : Scan) (anchors : List SuiteAnchorRow) :
    List Judging → Verdicts → Option (List ReapCandidate × Verdicts)
  | [], next => some ([], next)
  | v :: vs, next =>
    if v.ended then none
    else if s.taken.contains v.key || (v.unadoptedFlat && s.indexRows.isNone) then
      judgeSuites s anchors vs next
    else
      let r := suiteJunk bytes last v (unix (s.now - junkGrace)) (anchors.filter (·.key = v.key))
        ((s.indexRows.getD []).filter (·.key = v.key)) next
      (judgeSuites s anchors vs r.2).map fun out => ((v.candidate r.1).toList ++ out.1, out.2)

/-- `junkCandidates`, with the verdicts that are remembered. -/
def junkCandidates (s : Scan) : List ReapCandidate × Verdicts :=
  ((s.anchors.bind fun anchors => judgeSuites bytes last s anchors s.suites fun _ => none)).getD
    ([], last)

/-- What is remembered after the scans of a reaper. -/
def verdictsAfter (scans : List Scan) : Verdicts :=
  scans.foldl (fun last s => (junkCandidates bytes last s).2) fun _ => none

end Scan

/-! ## Junk -/

/-- A row's blob was fetched a day before the run, and its bytes fail the sniff of the row's file,
those of an InRelease the Release sniff too. -/
structure JunkBlob (bytes : Str → Str) (now : Int) (suite : Str) (a : SuiteAnchorRow) (hash : Str)
    (fetched : Int) : Prop where
  blob : a.blobHash = some hash
  stamp : a.lastFetchedAt = some fetched
  old : fetched * second ≤ now - 24 * hour
  isFile : classifySuiteFile suite a.path ≠ .notSuiteFile
  fails : (classifySuiteFile suite a.path).sniff a.path
    ((bytes hash).take (readBytes (classifySuiteFile suite a.path))) = false
  noRelease : classifySuiteFile suite a.path = .inRelease →
    SuiteFile.release.sniff a.path ((bytes hash).take SuiteFile.release.headBytes) = false

/-- A row is junk evidence. -/
def JunkRow (bytes : Str → Str) (now : Int) (suite : Str) (a : SuiteAnchorRow) : Prop :=
  ∃ hash fetched, JunkBlob bytes now suite a hash fetched

/-- The rows that a suite is judged by: its anchors, and its indexes if it is an unadopted flat
suite without signed evidence. -/
def Judging.evidence (v : Judging) (anchors indexes : List SuiteAnchorRow) : List SuiteAnchorRow :=
  anchors ++ if v.unadoptedFlat && !v.signed then indexes else []

/-- The listed evidence rows of a suite. -/
def Scan.evidenceRows (s : Scan) (v : Judging) : List SuiteAnchorRow :=
  v.evidence ((s.anchors.getD []).filter (·.key = v.key))
    ((s.indexes.getD []).filter (·.key = v.key))

/-- A suite has evidence rows and all are junk. -/
def Scan.Junk (s : Scan) (bytes : Str → Str) (v : Judging) : Prop :=
  s.evidenceRows v ≠ [] ∧
    ∀ a ∈ s.evidenceRows v, JunkRow bytes s.now v.key.suitePath a

/-- Nothing keeps the scan from judging a suite. -/
structure Scan.Judgeable (s : Scan) (v : Judging) : Prop where
  fresh : v.key ∉ s.taken
  indexes : v.unadoptedFlat = true → s.indexes.isSome = true
  signed : v.signedRead = true
  opens : ∀ a ∈ s.evidenceRows v, v.opens a.path = true

/-- The scan was not cut short. -/
def Scan.Completed (s : Scan) : Prop := s.anchors.isSome ∧ ∀ v ∈ s.suites, v.ended = false

/-! ## Verdicts -/

/-- Every remembered verdict is the one that the bytes give. -/
def Truthful (bytes : Str → Str) (m : Verdicts) : Prop :=
  ∀ file hash path junk, m (sniffKey file hash path) = some junk →
    junk = evidenceOf bytes file hash path

section Verdicts

variable {bytes : Str → Str} {last next : Verdicts} {v : Judging} {s : Scan}

variable {file : SuiteFile} {hash path : Str} {anchors : List SuiteAnchorRow}

theorem evidenceOf_congr {file' : SuiteFile} {hash' path' : Str}
    (h : sniffKey file hash path = sniffKey file' hash' path') :
    evidenceOf bytes file hash path = evidenceOf bytes file' hash' path' := by
  obtain ⟨rfl, rfl, hname⟩ := SniffKey.mk.inj h
  have hsniff : ∀ head, file.sniff path head = file.sniff path' head := by
    cases file with
    | flatIndex => exact fun head => congrArg (sniffFlatIndex · head) hname
    | _ => exact fun _ => rfl
  unfold evidenceOf anchorEvidence
  rw [hsniff]
  rfl

theorem Truthful.update (h : Truthful bytes next) (file : SuiteFile) (hash path : Str) :
    Truthful bytes (Function.update next (sniffKey file hash path)
      (some (evidenceOf bytes file hash path))) := by
  intro file' hash' path' junk hm
  by_cases hk : sniffKey file' hash' path' = sniffKey file hash path
  · rw [hk, Function.update_self] at hm
    rw [← Option.some.inj hm, evidenceOf_congr hk]
  · rw [Function.update_of_ne hk] at hm
    exact h _ _ _ _ hm

/-- What a row's turn knows is what the bytes say. -/
theorem known_eq {opens junk : Bool} (hlast : Truthful bytes last) (hnext : Truthful bytes next)
    (h : (next (sniffKey file hash path)).or ((last (sniffKey file hash path)).or
      (if opens then some (evidenceOf bytes file hash path) else none)) = some junk) :
    junk = evidenceOf bytes file hash path := by
  rcases Option.or_eq_some_iff.mp h with h | ⟨-, h⟩
  · exact hnext _ _ _ _ h
  · rcases Option.or_eq_some_iff.mp h with h | ⟨-, h⟩
    · exact hlast _ _ _ _ h
    · cases opens <;> simp_all

theorem evidenceOf_iff :
    evidenceOf bytes file hash path = true ↔
      file.sniff path ((bytes hash).take (readBytes file)) = false ∧
        (file = .inRelease →
          SuiteFile.release.sniff path ((bytes hash).take SuiteFile.release.headBytes) =
            false) := by
  unfold evidenceOf anchorEvidence
  by_cases hf : file = .inRelease
  · subst hf
    simp [readBytes]
  · simp [hf]

theorem le_cutoff_iff {fetched now : Int} :
    fetched ≤ unix (now - junkGrace) ↔ fetched * second ≤ now - 24 * hour :=
  Int.le_ediv_iff_mul_le (by decide)

/-- An outcome keeps what is remembered sound, and its verdict is true; if the files open, it is
`junk`. -/
structure Judged (bytes : Str → Str) (out : Bool × Verdicts) (opens junk : Prop) : Prop where
  sound : Truthful bytes out.2
  junk_of : out.1 = true → junk
  of_junk : opens → junk → out.1 = true

theorem Judged.no {opens junk : Prop} (h : Truthful bytes next) (hno : opens → ¬ junk) :
    Judged bytes (false, next) opens junk :=
  ⟨h, fun h => Bool.noConfusion h, fun ho hj => absurd hj (hno ho)⟩

theorem judge_spec (hlast : Truthful bytes last) (hnext : Truthful bytes next) (now : Int)
    (a : SuiteAnchorRow) :
    Judged bytes (judge bytes last v (unix (now - junkGrace)) next a) (v.opens a.path = true)
      (JunkRow bytes now v.key.suitePath a) := by
  unfold judge
  split
  case h_2 hnone =>
    refine .no hnext ?_
    rintro - ⟨hash, fetched, hj⟩
    exact hnone _ _ hj.blob hj.stamp
  case h_1 hash fetched hblob hstamp =>
  dsimp only
  split
  case isTrue hno =>
    refine .no hnext ?_
    rintro - ⟨hash', fetched', hj⟩
    obtain rfl : fetched = fetched' := Option.some.inj (hstamp ▸ hj.stamp)
    exact hno.elim (not_lt.mpr (le_cutoff_iff.mpr hj.old)) hj.isFile
  case isFalse hok =>
  rw [not_or, Int.not_lt] at hok
  split
  case h_1 hunknown => exact .no hnext fun hopens => by simp [hopens] at hunknown
  case h_2 junk hknown =>
    obtain rfl := known_eq hlast hnext hknown
    refine ⟨hnext.update _ _ _, fun hj => ?_, ?_⟩
    · obtain ⟨hfails, hrel⟩ := evidenceOf_iff.mp hj
      exact ⟨hash, fetched, hblob, hstamp, le_cutoff_iff.mp hok.1, hok.2, hfails, hrel⟩
    · rintro - ⟨hash', fetched', hj⟩
      obtain rfl : hash = hash' := Option.some.inj (hblob ▸ hj.blob)
      exact evidenceOf_iff.mpr ⟨hj.fails, hj.noRelease⟩

theorem allJunk_spec (hlast : Truthful bytes last) (hnext : Truthful bytes next) (now : Int)
    (as : List SuiteAnchorRow) :
    Judged bytes (allJunk bytes last v (unix (now - junkGrace)) as next)
      (∀ a ∈ as, v.opens a.path = true) (∀ a ∈ as, JunkRow bytes now v.key.suitePath a) := by
  induction as generalizing next with
  | nil => exact ⟨hnext, fun _ => List.forall_mem_nil _, fun _ _ => rfl⟩
  | cons a as ih =>
    have hrow := judge_spec (v := v) hlast hnext now a
    simp only [List.forall_mem_cons]
    unfold allJunk
    dsimp only
    split
    case isFalse hno => exact .no hrow.sound fun ho hj => hno (hrow.of_junk ho.1 hj.1)
    case isTrue hyes =>
      obtain ⟨hsound, hjunk, hof⟩ := ih hrow.sound
      exact ⟨hsound, fun h => ⟨hrow.junk_of hyes, hjunk h⟩, fun ho hj => hof ho.2 hj.2⟩

theorem anchorsJunk_spec (hlast : Truthful bytes last) (hnext : Truthful bytes next) (now : Int)
    (anchors : List SuiteAnchorRow) :
    Judged bytes (anchorsJunk bytes last v (unix (now - junkGrace)) anchors next)
      (∀ a ∈ anchors, v.opens a.path = true)
      (anchors ≠ [] ∧ ∀ a ∈ anchors, JunkRow bytes now v.key.suitePath a) := by
  unfold anchorsJunk
  split
  case isTrue h => exact .no hnext fun _ hj => hj.1 h
  case isFalse h =>
    obtain ⟨hsound, hjunk, hof⟩ := allJunk_spec (v := v) hlast hnext now anchors
    exact ⟨hsound, fun hj => ⟨h, hjunk hj⟩, fun ho hj => hof ho hj.2⟩

theorem combinedJunk_spec {r : Bool × Verdicts} {now : Int} (hlast : Truthful bytes last)
    (hr : Judged bytes r (∀ a ∈ anchors, v.opens a.path = true)
      (anchors ≠ [] ∧ ∀ a ∈ anchors, JunkRow bytes now v.key.suitePath a))
    (indexes : List SuiteAnchorRow) :
    Judged bytes (combinedJunk bytes last v (unix (now - junkGrace)) anchors indexes r)
      (∀ a ∈ anchors ++ indexes, v.opens a.path = true)
      (anchors ++ indexes ≠ [] ∧
        ∀ a ∈ anchors ++ indexes, JunkRow bytes now v.key.suitePath a) := by
  unfold combinedJunk
  simp only [List.forall_mem_append, ← List.length_append, List.length_pos_iff]
  have hanchors : anchors = [] ∨ r.1 = true →
      ∀ a ∈ anchors, JunkRow bytes now v.key.suitePath a := by
    rintro (rfl | h)
    · exact List.forall_mem_nil _
    · exact (hr.junk_of h).2
  split
  case isFalse hno =>
    refine .no hr.sound fun ho hj => hno ⟨?_, hj.1⟩
    exact or_iff_not_imp_left.mpr fun hne => hr.of_junk ho.1 ⟨hne, hj.2.1⟩
  case isTrue hyes =>
  split
  case isTrue hnil =>
    subst hnil
    exact ⟨hr.sound, fun _ => ⟨hyes.2, hanchors hyes.1, List.forall_mem_nil _⟩, fun _ _ => rfl⟩
  case isFalse hne =>
    obtain ⟨hsound, hjunk, hof⟩ := allJunk_spec (v := v) hlast hr.sound now indexes
    exact ⟨hsound, fun hj => ⟨hyes.2, hanchors hyes.1, hjunk hj⟩, fun ho hj => hof ho.2 hj.2.2⟩

theorem suiteJunk_spec (hlast : Truthful bytes last) (hnext : Truthful bytes next) (now : Int)
    (anchors indexes : List SuiteAnchorRow) :
    Judged bytes
      ((suiteJunk bytes last v (unix (now - junkGrace)) anchors indexes next).1.any Prod.fst,
        (suiteJunk bytes last v (unix (now - junkGrace)) anchors indexes next).2)
      (v.signedRead = true ∧ ∀ a ∈ v.evidence anchors indexes, v.opens a.path = true)
      (v.evidence anchors indexes ≠ [] ∧
        ∀ a ∈ v.evidence anchors indexes, JunkRow bytes now v.key.suitePath a) := by
  have hr := anchorsJunk_spec (v := v) hlast hnext now anchors
  have hq := combinedJunk_spec (v := v) hlast hr indexes
  unfold suiteJunk
  dsimp only
  generalize anchorsJunk bytes last v _ anchors next = r at hr hq ⊢
  generalize combinedJunk bytes last v _ anchors indexes r = q at hq ⊢
  cases hflat : v.unadoptedFlat with
  | false =>
    simp only [Judging.evidence, hflat, Bool.not_false, Bool.false_and, Bool.false_eq_true,
      if_false, if_true, List.append_nil, Option.any_some]
    exact ⟨hr.sound, hr.junk_of, fun ho => hr.of_junk ho.2⟩
  | true =>
    cases hsigned : v.signed with
    | false =>
      simp only [Judging.evidence, hflat, hsigned, Bool.not_true, Bool.not_false, Bool.true_and,
        Bool.false_eq_true, if_false, if_true]
      cases hread : v.signedRead with
      | false =>
        split
        · exact ⟨hq.sound, hq.junk_of, fun ho => hq.of_junk ho.2⟩
        · exact .no hq.sound fun ho => Bool.noConfusion ho.1
      | true =>
        simp only [Bool.not_true, Bool.false_eq_true, if_false, ite_self, Option.any_some]
        exact ⟨hq.sound, hq.junk_of, fun ho => hq.of_junk ho.2⟩
    | true =>
      -- the anchors decide, whether or not the two verdicts agree
      simp only [Judging.evidence, hflat, hsigned, Bool.not_true, Bool.and_false,
        Bool.false_eq_true, if_false, if_true, List.append_nil]
      split
      case isTrue heq =>
        exact ⟨hq.sound, fun h => hr.junk_of (heq ▸ h), fun ho hj => heq.trans (hr.of_junk ho.2 hj)⟩
      case isFalse =>
        cases hread : v.signedRead with
        | false => exact .no hq.sound fun ho => Bool.noConfusion ho.1
        | true => exact ⟨hq.sound, hr.junk_of, fun ho => hr.of_junk ho.2⟩

/-! ## Scans -/

/-- The index rows that were not read belong to no suite that is judged by them. -/
theorem evidence_indexRows (hv : v ∈ s.suites) (anchors : List SuiteAnchorRow) :
    v.evidence anchors ((s.indexRows.getD []).filter (·.key = v.key)) =
      v.evidence anchors ((s.indexes.getD []).filter (·.key = v.key)) := by
  cases hflat : v.unadoptedFlat with
  | false => simp [Judging.evidence, hflat]
  | true => rw [Scan.indexRows, if_pos (List.any_eq_true.mpr ⟨v, hv, hflat⟩)]

theorem candidate_isSome (j : Option (Bool × List Str)) :
    (v.candidate j).isSome = j.any Prod.fst ∧ ∀ c ∈ v.candidate j, c.key = v.key := by
  rcases j with _ | ⟨_ | _, paths⟩ <;> simp [Judging.candidate]

/-- The loop over the suites: what it returns is junk, and what can be judged and is junk is
returned. -/
theorem judgeSuites_spec (hlast : Truthful bytes last) (hanchors : s.anchors = some anchors)
    {vs : List Judging} (hvs : ∀ v ∈ vs, v ∈ s.suites) {out : List ReapCandidate × Verdicts}
    (hnext : Truthful bytes next) (h : judgeSuites bytes last s anchors vs next = some out) :
    Truthful bytes out.2 ∧ (∀ c ∈ out.1, ∃ v ∈ vs, v.key = c.key ∧ s.Junk bytes v) ∧
      ∀ v ∈ vs, s.Judgeable v → s.Junk bytes v → ∃ c ∈ out.1, c.key = v.key := by
  induction vs generalizing next out with
  | nil =>
    cases h
    exact ⟨hnext, List.forall_mem_nil _, List.forall_mem_nil _⟩
  | cons v vs ih =>
    obtain ⟨hv, hvs⟩ := List.forall_mem_cons.mp hvs
    simp only [List.exists_mem_cons_iff, List.forall_mem_cons]
    unfold judgeSuites at h
    split at h
    case isTrue => cases h
    case isFalse =>
    split at h
    case isTrue hskip =>
      obtain ⟨hsound, hjunk, hall⟩ := ih hvs hnext h
      refine ⟨hsound, fun c hc => .inr (hjunk c hc), fun hj => ?_, hall⟩
      rcases (Bool.or_eq_true _ _).mp hskip with htaken | hunread
      · exact absurd (List.contains_iff_mem.mp htaken) hj.fresh
      · obtain ⟨hflat, hnone⟩ := (Bool.and_eq_true _ _).mp hunread
        rw [Scan.indexRows, if_pos (List.any_eq_true.mpr ⟨v, hv, hflat⟩)] at hnone
        exact absurd (hj.indexes hflat) (by simpa using hnone)
    case isFalse =>
      have hsuite := suiteJunk_spec (v := v) hlast hnext s.now (anchors.filter (·.key = v.key))
        ((s.indexRows.getD []).filter (·.key = v.key))
      rw [evidence_indexRows hv] at hsuite
      generalize suiteJunk bytes last v _ _ _ next = r at h hsuite
      obtain ⟨rest, hrest, rfl⟩ := Option.map_eq_some_iff.mp h
      obtain ⟨hsound, hjunk, hall⟩ := ih hvs hsuite.sound hrest
      obtain ⟨hfound, hkey⟩ := candidate_isSome (v := v) r.1
      have hrows : s.evidenceRows v = v.evidence (anchors.filter (·.key = v.key))
          ((s.indexes.getD []).filter (·.key = v.key)) := by
        rw [Scan.evidenceRows, hanchors, Option.getD_some]
      simp only [← hrows] at hsuite
      refine ⟨hsound, fun c hc => ?_, fun hj hv => ?_, fun v' hv' hj' hv'' => ?_⟩
      · rcases List.mem_append.mp hc with hc | hc
        · have hc := Option.mem_toList.mp hc
          exact .inl ⟨(hkey c hc).symm, hsuite.junk_of (hfound ▸ Option.isSome_of_mem hc)⟩
        · exact .inr (hjunk c hc)
      · obtain ⟨c, hc⟩ := Option.isSome_iff_exists.mp
          (hfound.trans (hsuite.of_junk ⟨hj.signed, hj.opens⟩ hv))
        exact ⟨c, List.mem_append_left _ (Option.mem_toList.mpr hc), hkey c hc⟩
      · obtain ⟨c, hc, hck⟩ := hall v' hv' hj' hv''
        exact ⟨c, List.mem_append_right _ hc, hck⟩

theorem judgeSuites_isSome {vs : List Judging} (h : ∀ v ∈ vs, v.ended = false) (next : Verdicts) :
    (judgeSuites bytes last s anchors vs next).isSome = true := by
  induction vs generalizing next with
  | nil => rfl
  | cons v vs ih =>
    obtain ⟨hv, hvs⟩ := List.forall_mem_cons.mp h
    unfold judgeSuites
    rw [hv, if_neg Bool.false_ne_true]
    split
    · exact ih hvs next
    · exact Option.isSome_map.trans (ih hvs _)

theorem sound_none : Truthful bytes fun _ => none := fun _ _ _ _ h => by cases h

theorem Truthful.junkCandidates (hlast : Truthful bytes last) (s : Scan) :
    Truthful bytes (junkCandidates bytes last s).2 := by
  unfold Freshness.junkCandidates
  cases h : s.anchors.bind fun anchors =>
    judgeSuites bytes last s anchors s.suites fun _ => none with
  | none => exact hlast
  | some out =>
    obtain ⟨anchors, hanchors, hout⟩ := Option.bind_eq_some_iff.mp h
    exact (judgeSuites_spec hlast hanchors (fun _ => id) sound_none hout).1

theorem sound_verdictsAfter (scans : List Scan) : Truthful bytes (verdictsAfter bytes scans) :=
  List.foldlRecOn (motive := Truthful bytes) scans _ sound_none fun _ h s _ => h.junkCandidates s

end Verdicts

/-- After any scans, a scan returns only suites whose evidence rows are there and all junk; a
completed scan returns each of them that it can judge. -/
theorem returned_iff_junk (bytes : Str → Str) (scans : List Scan) (s : Scan) :
    (∀ c ∈ (junkCandidates bytes (verdictsAfter bytes scans) s).1,
      ∃ v ∈ s.suites, v.key = c.key ∧ s.Junk bytes v) ∧
    (s.Completed → ∀ v ∈ s.suites, s.Judgeable v → s.Junk bytes v →
      ∃ c ∈ (junkCandidates bytes (verdictsAfter bytes scans) s).1, c.key = v.key) := by
  have hlast : Truthful bytes (verdictsAfter bytes scans) := sound_verdictsAfter scans
  unfold junkCandidates
  cases h : s.anchors.bind fun anchors =>
    judgeSuites bytes (verdictsAfter bytes scans) s anchors s.suites fun _ => none with
  | none =>
    refine ⟨List.forall_mem_nil _, fun hc => ?_⟩
    obtain ⟨anchors, hanchors⟩ := Option.isSome_iff_exists.mp hc.1
    rw [hanchors, Option.bind_some] at h
    have hsome : (judgeSuites bytes (verdictsAfter bytes scans) s anchors s.suites
        fun _ => none).isSome = true := judgeSuites_isSome hc.2 _
    rw [h] at hsome
    cases hsome
  | some out =>
    obtain ⟨anchors, hanchors, hout⟩ := Option.bind_eq_some_iff.mp h
    obtain ⟨-, hjunk, hall⟩ := judgeSuites_spec hlast hanchors (fun _ => id) sound_none hout
    exact ⟨hjunk, fun _ => hall⟩

/-! ## A run -/

/-- An error page. -/
def errorPage (_ : Str) : Str := "<html>".toList

/-- A flat suite whose only row is an index, two days after it was fetched. -/
def junkTurn : Judging := { key := ⟨.https, "h".toList, "/r".toList⟩ }

def junkRow : SuiteAnchorRow := ⟨junkTurn.key, "/r/Packages.gz".toList, some "aa".toList, some 0⟩

def junkScan : Scan :=
  { now := 48 * hour, suites := [junkTurn], anchors := some [], indexes := some [junkRow] }

theorem junkScan_junk : junkScan.Junk errorPage junkTurn := by
  have hrows : junkScan.evidenceRows junkTurn = [junkRow] := by decide +kernel
  refine ⟨by simp [hrows], fun a ha => ?_⟩
  rw [hrows, List.mem_singleton] at ha
  subst ha
  exact ⟨_, _, rfl, rfl, by decide, by decide +kernel, by decide +kernel, by decide +kernel⟩

/-- The page is found again in the second scan. -/
theorem returned_iff_junk_flat :
    ∃ c ∈ (junkCandidates errorPage (verdictsAfter errorPage [junkScan]) junkScan).1,
      c.key = junkTurn.key :=
  (returned_iff_junk errorPage [junkScan] junkScan).2 ⟨rfl, by decide⟩ junkTurn (.head _)
    ⟨by decide, fun _ => rfl, rfl, fun _ _ => rfl⟩ junkScan_junk

end AptCacher.Freshness
