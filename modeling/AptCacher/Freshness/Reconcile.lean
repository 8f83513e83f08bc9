import Mathlib.Data.List.Dedup
import AptCacher.Freshness.PackageRows
import AptCacher.Spec.Sys

/-!
# Reconciling a snapshot

A current snapshot that lacks indexes of its Release is healed in place. An index is declared in
several compressions, its variants; it is served if one of them is there. A memo remembers that
nothing is missing.

* `missingRequestableMembers`: every variant of the indexes that are not served.
* `reconcileSnapshot`, `reconcilePending`: the calls, with the members that they fetch.
* `reconcile_retries`: while an index is not served, every call fetches all of its variants.
* `variant_given_up`: once one variant is there, the others are not fetched again.
-/

namespace AptCacher.Freshness

open Spec Aptpath

/-! ## Index groups -/

/-- `(?:\.[a-z0-9]+)?$` behind the name of an index: the codec suffix of the segment. -/
def codecSuffix (name seg : Str) : Option Str :=
  if name.isPrefixOf seg then
    match seg.drop name.length with
    | [] => some []
    | '.' :: ext =>
      if ext ≠ [] ∧ ext.all fun c => ('a' ≤ c && c ≤ 'z') || ('0' ≤ c && c ≤ '9') then
        some ('.' :: ext)
      else none
    | _ => none
  else none

/-- `indexTargetGroup`: the path without its codec suffix, and the architecture. -/
def indexTargetGroup (suite p : Str) : Option (Str × Str) :=
  if isFlatSuitePath suite then
    if (codecSuffix "Sources".toList p).isSome then some ("Sources".toList, "source".toList)
    else if (codecSuffix "Packages".toList p).isSome then some ("Packages".toList, "all".toList)
    else none
  else
    match (segments p).reverse with
    | file :: dir :: _ =>
      if dir = "source".toList then
        (codecSuffix "Sources".toList file).map fun s =>
          (p.take (p.length - s.length), "source".toList)
      else if "binary-".toList.isPrefixOf dir ∧ isArch (dir.drop "binary-".length) then
        (codecSuffix "Packages".toList file).map fun s =>
          (p.take (p.length - s.length), dir.drop "binary-".length)
      else none
    | _ => none

/-- The path is one of the group. -/
def inGroup (suite g p : Str) : Bool := (indexTargetGroup suite p).any fun x => x.1 == g

/-- The declared groups that a client requests: those for all architectures and those of the
allowlist. -/
def requiredGroups (suite : Str) (declared : List Str) (allowlist : Option (List Str)) : List Str :=
  declared.filterMap fun p =>
    ((indexTargetGroup suite p).filter fun x =>
      x.2 == "all".toList || allowlist.any fun l => l.contains x.2).map Prod.fst

def missingRequestableIndexGroups (suite : Str) (declared fetched : List Str)
    (allowlist : Option (List Str)) : List Str :=
  ((requiredGroups suite declared allowlist).dedup.filter fun g =>
    !fetched.any (inGroup suite g)).insertionSort fun a b => !decide (b < a)

def missingRequestableMembers (suite : Str) (declared : List ReleaseMember) (present : List Str)
    (allowlist : Option (List Str)) : List ReleaseMember :=
  let missing :=
    missingRequestableIndexGroups suite (declared.map ReleaseMember.path) present allowlist
  declared.filter fun m => missing.any fun g => inGroup suite g m.path

/-! ## The calls -/

def byHashPath (declaredPath algo hexHash : Str) : Str :=
  let tail := "by-hash/".toList ++ algo ++ '/' :: hexHash
  if '/' ∈ declaredPath then pathDir declaredPath ++ '/' :: tail else tail

/-- The paths of `memberRows`: the member and an alias for each declared algorithm. -/
def memberPaths (m : ReleaseMember) : List Str :=
  m.path :: ((if m.sha256 = [] then [] else [byHashPath m.path "SHA256".toList m.sha256]) ++
    if m.sha512 = [] then [] else [byHashPath m.path "SHA512".toList m.sha512])

/-- Why a member was not fetched. -/
inductive FetchFailure
  /-- Upstream answered 404 or 410. -/
  | skipped
  | other
  deriving DecidableEq

/-- What a call meets: whether the Release and the members can be read, what each fetch ends with,
and whether the rows can be built and inserted. -/
structure Reconciling where
  reads : Bool := true
  fetch : ReleaseMember → Except FetchFailure Str
  inserts : Bool := true

/-- The memo of the snapshot, and the paths of its members. -/
structure Reconciled where
  memo : Bool := false
  present : List Str
  deriving DecidableEq

section Calls

variable (suite : Str) (declared : List ReleaseMember) (allowlist : Option (List Str))

/-- `reconcileSnapshot`, with the members that it tried to fetch. -/
def reconcileSnapshot (force : Bool) (c : Reconciling) (s : Reconciled) :
    List ReleaseMember × Reconciled :=
  if !force && s.memo then ([], s)
  else if !c.reads then ([], s)
  else
    let missing := missingRequestableMembers suite declared s.present allowlist
    if missing = [] then ([], { s with memo := true })
    else
      let healed := missing.filter fun m => (c.fetch m).isOk
      if healed = [] ∨ !c.inserts then (missing, s)
      else (missing, { s with present := s.present ++ healed.flatMap memberPaths })

/-- `reconcilePending`: whether there is something to fetch. -/
def reconcilePending (reads : Bool) (s : Reconciled) : Bool × Reconciled :=
  if s.memo then (false, s)
  else if !reads then (false, s)
  else if missingRequestableMembers suite declared s.present allowlist = [] then
    (false, { s with memo := true })
  else (true, s)

/-- What happens to a current snapshot: the calls, members that others add, and the sweep of the
memo. -/
inductive Reconciled.Act
  | reconcile (force : Bool) (c : Reconciling)
  | pending (reads : Bool)
  | adds (paths : List Str)
  | sweepReconcileMemo

/-- The calls for a snapshot that stays current. -/
def reconciling : Sys Reconciled Reconciled.Act where
  init s := s.memo = false
  step s
    | .reconcile force c => some (reconcileSnapshot suite declared allowlist force c s).2
    | .pending reads => some (reconcilePending suite declared allowlist reads s).2
    | .adds paths => some { s with present := s.present ++ paths }
    | .sweepReconcileMemo => some { s with memo := false }

end Calls

/-! ## Retries -/

section Retries

variable {suite : Str} {declared : List ReleaseMember} {allowlist : Option (List Str)}
  {present : List Str} {m : ReleaseMember}

theorem mem_missing : m ∈ missingRequestableMembers suite declared present allowlist ↔
    m ∈ declared ∧ ∃ g ∈ requiredGroups suite (declared.map ReleaseMember.path) allowlist,
      inGroup suite g m.path = true ∧ ∀ p ∈ present, inGroup suite g p = false := by
  simp only [missingRequestableMembers, missingRequestableIndexGroups, List.mem_filter,
    List.any_eq_true, List.mem_insertionSort, List.mem_dedup, Bool.not_eq_true', List.any_eq_false,
    Bool.not_eq_true, and_assoc]
  exact and_congr_right fun _ => exists_congr fun g =>
    and_congr_right fun _ => and_comm

/-- The memo says that nothing is missing. -/
def Reconciled.Sound (suite : Str) (declared : List ReleaseMember) (allowlist : Option (List Str))
    (s : Reconciled) : Prop :=
  s.memo = true → missingRequestableMembers suite declared s.present allowlist = []

theorem Reconciled.Sound.add {s : Reconciled} (h : s.Sound suite declared allowlist)
    (paths : List Str) : Reconciled.Sound suite declared allowlist
      { s with present := s.present ++ paths } := by
  intro hmemo
  refine List.eq_nil_iff_forall_not_mem.mpr fun m hm => ?_
  obtain ⟨hdecl, g, hg, hin, hnone⟩ := mem_missing.mp hm
  have hold : m ∈ missingRequestableMembers suite declared s.present allowlist :=
    mem_missing.mpr ⟨hdecl, g, hg, hin, fun p hp => hnone p (List.mem_append_left _ hp)⟩
  rw [h hmemo] at hold
  cases hold

theorem reconciling_inductive : (reconciling suite declared allowlist).Inductive
    (Reconciled.Sound suite declared allowlist) where
  init s hs hmemo := by
    rw [hs] at hmemo
    cases hmemo
  step s a s' h hs := by
    cases a with
    | reconcile force c =>
      cases hs
      unfold reconcileSnapshot
      dsimp only
      split
      · exact h
      · split
        · exact h
        · split
          · exact fun _ => ‹_›
          · split
            · exact h
            · exact h.add _
    | pending reads =>
      cases hs
      unfold reconcilePending
      split
      · exact h
      · split
        · exact h
        · split
          · exact fun _ => ‹_›
          · exact h
    | adds paths =>
      cases hs
      exact h.add paths
    | sweepReconcileMemo =>
      cases hs
      intro hmemo
      cases hmemo

theorem mem_reconcileSnapshot {force : Bool} {c : Reconciling} {s : Reconciled} :
    m ∈ (reconcileSnapshot suite declared allowlist force c s).1 ↔
      (!force && s.memo) = false ∧ c.reads = true ∧
        m ∈ missingRequestableMembers suite declared s.present allowlist := by
  unfold reconcileSnapshot
  dsimp only
  split
  · simp_all
  · split
    · simp_all
    · split
      · simp_all
      · split <;> simp_all

/-- **Reconcile retries what it could not fetch.** A variant of an index that a call found missing
is fetched again by every later call that can read the snapshot, forced or not and whatever happened
to its fetch, until a variant of the index is a member; until then the memo does not hold the
snapshot. -/
theorem reconcile_retries {s s' : Reconciled} (hr : (reconciling suite declared allowlist).Reach s)
    {force : Bool} {c : Reconciling}
    (hm : m ∈ (reconcileSnapshot suite declared allowlist force c s).1)
    (hs : (reconciling suite declared allowlist).Steps
      (reconcileSnapshot suite declared allowlist force c s).2 s')
    (hgroup : ∀ g arch, indexTargetGroup suite m.path = some (g, arch) →
      ∀ p ∈ s'.present, inGroup suite g p = false) :
    s'.memo = false ∧ (reconcilePending suite declared allowlist true s').1 = true ∧
      ∀ (force' : Bool) (c' : Reconciling), c'.reads = true →
        m ∈ (reconcileSnapshot suite declared allowlist force' c' s').1 := by
  have hreach := Sys.Reach.steps (.step (.reconcile force c) hr rfl) hs
  have hsound := reconciling_inductive.reach hreach
  obtain ⟨hdecl, g, hg, hin, -⟩ := mem_missing.mp (mem_reconcileSnapshot.mp hm).2.2
  obtain ⟨arch, hpath⟩ : ∃ arch, indexTargetGroup suite m.path = some (g, arch) := by
    cases hpath : indexTargetGroup suite m.path with
    | none => simp [inGroup, hpath] at hin
    | some x => exact ⟨x.2, by simp_all [inGroup, Prod.ext_iff]⟩
  have hmissing : m ∈ missingRequestableMembers suite declared s'.present allowlist :=
    mem_missing.mpr ⟨hdecl, g, hg, hin, hgroup g arch hpath⟩
  have hne := List.ne_nil_of_mem hmissing
  have hmemo : s'.memo = false := by
    rw [← Bool.not_eq_true]
    exact fun hmemo => hne (hsound hmemo)
  refine ⟨hmemo, by simp [reconcilePending, hmemo, hne], fun force' c' hreads => ?_⟩
  exact mem_reconcileSnapshot.mpr ⟨by simp [hmemo], hreads, hmissing⟩

end Retries

/-! ## Variants -/

/-- An index for all architectures in one compression. -/
def xz : ReleaseMember := ⟨"main/binary-all/Packages.xz".toList, ['a'], [], 1⟩

/-- The same index in another compression. -/
def gz : ReleaseMember := ⟨"main/binary-all/Packages.gz".toList, ['b'], [], 1⟩

def sidPath : Str := "/debian/dists/sid".toList

/-- A call in which the members listed are fetched and the others fail. -/
def fetching (ms : List ReleaseMember) : Reconciling where
  fetch m := if m ∈ ms then .ok m.sha256 else .error .other

theorem unreconciled : (reconciling sidPath [xz, gz] none).Reach ⟨false, []⟩ := .init rfl

/-- After a call in which no variant could be fetched, both are fetched again, with and without
force. -/
theorem reconcile_retries_xz :
    xz ∈ (reconcileSnapshot sidPath [xz, gz] none false (fetching []) ⟨false, []⟩).1 ∧
    ∀ force,
      xz ∈ (reconcileSnapshot sidPath [xz, gz] none force (fetching [xz, gz]) ⟨false, []⟩).1 := by
  have hm : xz ∈ (reconcileSnapshot sidPath [xz, gz] none false (fetching []) ⟨false, []⟩).1 := by
    decide +kernel
  have hsame : (reconcileSnapshot sidPath [xz, gz] none false (fetching []) ⟨false, []⟩).2 =
      ⟨false, []⟩ := by decide +kernel
  have hs : (reconciling sidPath [xz, gz] none).Steps (reconcileSnapshot sidPath [xz, gz] none false
      (fetching []) ⟨false, []⟩).2 ⟨false, []⟩ := hsame ▸ .refl _
  exact ⟨hm, fun force => (reconcile_retries unreconciled hm hs (by simp)).2.2 force _ rfl⟩

/-- One variant fails for a passing reason and the other is fetched: the memo holds the snapshot,
the first variant is no member, and no call fetches it again. -/
theorem variant_given_up :
    let s := (reconcileSnapshot sidPath [xz, gz] none false (fetching [gz]) ⟨false, []⟩).2
    let s' := (reconcilePending sidPath [xz, gz] none true s).2
    xz ∈ (reconcileSnapshot sidPath [xz, gz] none false (fetching [gz]) ⟨false, []⟩).1 ∧
    (fetching [gz]).fetch xz = .error .other ∧
    (reconciling sidPath [xz, gz] none).Reach s' ∧ s'.memo = true ∧ xz.path ∉ s'.present ∧
    (reconcileSnapshot sidPath [xz, gz] none false (fetching [xz, gz]) s).1 = [] ∧
    (reconcileSnapshot sidPath [xz, gz] none false (fetching [xz, gz]) s').1 = [] := by
  refine ⟨by decide +kernel, rfl, ?_, by decide +kernel⟩
  exact .step (.pending true) (.step (.reconcile false (fetching [gz])) unreconciled rfl) rfl

end AptCacher.Freshness
