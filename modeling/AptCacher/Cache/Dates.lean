import AptCacher.Cache.Adoption
import AptCacher.Spec.Sys

/-!
# Dates and validators of the cached bytes

The columns of `url_path` and `representation_metadata` that say what upstream sent with the bytes,
and the writes that set them: a miss, a row of a by-hash name or of a reconstructed anchor, an
adoption, an anchorless refresh and the staging of a member. The other columns, and the blob rows
that the hashes refer to, are left out.

* `putURLPathSQL`, `warm`, `seedAnchor`, `refresh`: the writes, with their conflict clauses.
* `writes`: their runs, with the responses of upstream as a ghost list.
* `dates_belong`: with clean seeds, what is stored and served came with the bytes.
* `seed_keeps_date`: an adoption leaves the validators of the old anchor with the new bytes.
-/

namespace AptCacher.Cache

open Spec Aptpath

/-! ## Dates -/

/-- A response of upstream: the hash of its body, and its headers (empty if they are missing). -/
structure Response where
  hash : Str
  etag : Str
  lastMod : Str
  deriving DecidableEq

/-- `http.ParseTime` and the format `http.TimeFormat`, in seconds since 1970: the library is any that
reads no date in an empty text and reads back what it writes of a date it read. -/
structure HttpTime where
  parse : Str → Option Int
  format : Int → Str
  parse_empty : parse [] = none
  parse_format : ∀ v t, parse v = some t → parse (format t) = some t

namespace HttpTime

variable (T : HttpTime)

/-- The zero `time.Time`. -/
def zero : Int := -62135596800

def httpDate (now : Int) (v : Str) : Str :=
  if 128 < v.length then []
  else (T.parse v).elim [] fun t => if t = zero ∨ now < t then [] else T.format t

/-- The date of a response in its normal form, or none. -/
def Normal (r : Response) (date : Str) : Prop :=
  date = [] ∨ ∃ t, T.parse r.lastMod = some t ∧ date = T.format t

/-- The date of a response as it was sent or in its normal form. -/
def Dated (r : Response) (date : Str) : Prop := date = r.lastMod ∨ T.Normal r date

variable {T} {r : Response} {date : Str}

theorem Dated.httpDate (h : T.Dated r date) (now : Int) : T.Normal r (T.httpDate now date) := by
  unfold HttpTime.httpDate
  split
  · exact .inl rfl
  cases hp : T.parse date with
  | none => exact .inl rfl
  | some t =>
    rw [Option.elim_some]
    split
    · exact .inl rfl
    rcases h with rfl | rfl | ⟨t₀, h₀, rfl⟩
    · exact .inr ⟨t, hp, rfl⟩
    · rw [T.parse_empty] at hp
      cases hp
    · rw [T.parse_format _ _ h₀] at hp
      obtain rfl := Option.some.inj hp
      exact .inr ⟨_, h₀, rfl⟩

end HttpTime

/-! ## Writes -/

/-- The columns of `url_path`. -/
structure Validated where
  key : UrlKey
  blobHash : Option Str
  etag : Option Str
  lastMod : Option Str
  deriving DecidableEq

/-- The columns of `representation_metadata`. -/
structure Representation where
  url : UrlKey
  hash : Str
  date : Str
  deriving DecidableEq

/-- The primary key of `representation_metadata`. -/
def Representation.key (d : Representation) : UrlKey × Str := (d.url, d.hash)

/-- The two tables. -/
structure DatesDb where
  urlPaths : Table Validated UrlKey Validated.key
  dates : Table Representation (UrlKey × Str) Representation.key

/-- The anchors that an adoption of the snapshot seeds. -/
def Snapshot.anchors (s : Snapshot) : List (UrlKey × Str) :=
  s.form.anchorPaths.filterMap fun name => ((s.anchorHash name).filter (· ≠ [])).map fun h =>
    (⟨s.key.scheme, s.key.host, s.key.suitePath ++ '/' :: name⟩, h)

namespace DatesDb

/-- `putURLPathSQL`: every column is set. -/
def putURLPathSQL (u : Validated) (db : DatesDb) : DatesDb :=
  { db with urlPaths := db.urlPaths.upsert u ⟨fun r => { u with key := r.key }, fun _ => rfl⟩ }

def putRepresentationSQL (k : UrlKey) (hash date : Str) (db : DatesDb) : DatesDb :=
  { db with dates := db.dates.upsert ⟨k, hash, date⟩ ⟨fun d => { d with date }, fun _ => rfl⟩ }

/-- `storeFetchedTx`. -/
def storeFetched (T : HttpTime) (u : Validated) (now : Int) (db : DatesDb) : DatesDb :=
  let db := db.putURLPathSQL u
  u.blobHash.elim db fun h =>
    db.putRepresentationSQL u.key h (u.lastMod.elim [] (T.httpDate now))

/-- `RepresentationLastModified`, as it is stored. -/
def lastModified (db : DatesDb) (k : UrlKey) (hash : Str) : Option Str :=
  (db.dates.find (k, hash)).map Representation.date

/-- Step 3a of `CommitAdoption`: a prefetched row takes the date of its bytes. -/
def warm (db : DatesDb) (up : UrlKey × Str) : DatesDb :=
  let lastMod := db.lastModified up.1 up.2
  { db with
    urlPaths := db.urlPaths.upsert ⟨up.1, some up.2, none, lastMod⟩
      ⟨fun r => { r with blobHash := some up.2, etag := none, lastMod }, fun _ => rfl⟩ }

/-- Step 3c of `CommitAdoption`, for one anchor: a row that is there keeps its validators. -/
def seedAnchor (db : DatesDb) (anchor : UrlKey × Str) : DatesDb :=
  { db with
    urlPaths := db.urlPaths.upsert ⟨anchor.1, some anchor.2, none, none⟩
      ⟨fun r => { r with blobHash := some anchor.2 }, fun _ => rfl⟩ }

/-- `CommitAdoption`, with the anchors of the snapshot; a prefetched hash that is none fails it. -/
def commitAdoption (s : Snapshot) (prefetched : List (UrlKey × Str)) (db : DatesDb) :
    Option DatesDb :=
  if prefetched.all fun up => validBlobHash up.2 then
    some (s.anchors.foldl seedAnchor (prefetched.foldl warm db))
  else none

/-- `RefreshURLPathBlob`. -/
def refresh (T : HttpTime) (k : UrlKey) (old new : Str) (etag lastMod : Option Str) (now : Int)
    (db : DatesDb) : DatesDb :=
  if (db.urlPaths.find k).any fun r => r.blobHash == some old then
    { db with
      urlPaths := db.urlPaths.updateAt k
        ⟨fun r => { r with blobHash := some new, etag, lastMod }, fun _ => rfl⟩ }
      |>.putRepresentationSQL k new (lastMod.elim [] (T.httpDate now))
  else db

/-- The date that `serveContent` sends with the bytes of a hash. -/
def serveDate (T : HttpTime) (now : Int) (db : DatesDb) (k : UrlKey) (hash : Str)
    (lastMod : Option Str) : Str :=
  T.httpDate now (lastMod.getD ((db.lastModified k hash).getD []))

end DatesDb

def urlLastModified (u : Validated) : Option Str := some (u.lastMod.getD [])

/-- A header as a column. -/
def nonEmpty (v : Str) : Option Str := if v = [] then none else some v

/-! ## Runs -/

/-- The writes and the responses that they are called with. -/
inductive DateAct
  | respond (r : Response)
  | storeFetched (u : Validated) (now : Int)
  | putURLPath (u : Validated)
  | commitAdoption (s : Snapshot) (prefetched : List (UrlKey × Str))
  | refreshURLPathBlob (k : UrlKey) (old new : Str) (etag lastMod : Option Str) (now : Int)
  | putRepresentation (k : UrlKey) (hash lastMod : Str) (now : Int)
  /-- The deletes of GC, eviction and invalidation. -/
  | delete (paths : Validated → Bool) (dates : Representation → Bool)

/-- The tables and the responses so far. -/
structure Dates where
  db : DatesDb
  sent : List Response

/-- The headers are those of a response that delivered the bytes. -/
def Dates.delivered (s : Dates) (blob etag lastMod : Option Str) : Bool :=
  s.sent.any fun r =>
    blob == some r.hash && etag == nonEmpty r.etag && lastMod == nonEmpty r.lastMod

/-- The writes from the empty tables on, each called with the headers of the response that delivered
its bytes; a row of a by-hash name or of a reconstructed anchor has none. -/
def writes (T : HttpTime) : Sys Dates DateAct where
  init s := s = ⟨⟨.empty, .empty⟩, []⟩
  step s
    | .respond r => some { s with sent := r :: s.sent }
    | .storeFetched u now =>
      if s.delivered u.blobHash u.etag u.lastMod then
        some { s with db := s.db.storeFetched T u now }
      else none
    | .putURLPath u =>
      if u.etag = none ∧ u.lastMod = none ∨ s.delivered u.blobHash u.etag u.lastMod = true then
        some { s with db := s.db.putURLPathSQL u }
      else none
    | .commitAdoption snap prefetched =>
      (s.db.commitAdoption snap prefetched).map fun db => { s with db }
    | .refreshURLPathBlob k old new etag lastMod now =>
      if validBlobHash old && validBlobHash new && s.delivered (some new) etag lastMod then
        some { s with db := s.db.refresh T k old new etag lastMod now }
      else none
    | .putRepresentation k hash lastMod now =>
      if validBlobHash hash && s.sent.any fun r => r.hash == hash && r.lastMod == lastMod then
        some { s with db := s.db.putRepresentationSQL k hash (T.httpDate now lastMod) }
      else none
    | .delete paths dates =>
      some { s with db := ⟨s.db.urlPaths.delete paths, s.db.dates.delete dates⟩ }

/-- A row that an anchor is seeded over holds these bytes already, or has no validators. -/
def DatesDb.cleanSeeds : List (UrlKey × Str) → DatesDb → Bool
  | [], _ => true
  | a :: as, db =>
    ((db.urlPaths.find a.1).all fun r =>
      r.blobHash == some a.2 || (r.etag == none && r.lastMod == none)) &&
      cleanSeeds as (db.seedAnchor a)

/-- Adoptions seed their anchors over clean rows. -/
def seedsClean (s : Dates) : DateAct → Bool
  | .commitAdoption snap prefetched =>
    DatesDb.cleanSeeds snap.anchors (prefetched.foldl DatesDb.warm s.db)
  | _ => true

/-! ## Where the dates come from -/

section Genuine

variable (T : HttpTime)

/-- The validators of a row came with its bytes. -/
structure Came (sent : List Response) (u : Validated) : Prop where
  etag : ∀ e, u.etag = some e → ∃ r ∈ sent, u.blobHash = some r.hash ∧ r.etag = e
  lastMod : ∀ m, u.lastMod = some m → ∃ r ∈ sent, u.blobHash = some r.hash ∧ T.Dated r m

/-- The date came with the bytes of the hash. -/
def DateCame (sent : List Response) (hash date : Str) : Prop :=
  ∃ r ∈ sent, r.hash = hash ∧ T.Normal r date

/-- What is stored came with the bytes. -/
structure Genuine (sent : List Response) (db : DatesDb) : Prop where
  rows : ∀ u ∈ db.urlPaths, Came T sent u
  dates : ∀ d ∈ db.dates, DateCame T sent d.hash d.date

variable {T} {sent : List Response} {db : DatesDb} {u : Validated}

theorem Came.more (h : Came T sent u) (r : Response) : Came T (r :: sent) u where
  etag e he := by
    obtain ⟨q, hq, h⟩ := h.etag e he
    exact ⟨q, List.mem_cons_of_mem r hq, h⟩
  lastMod m hm := by
    obtain ⟨q, hq, h⟩ := h.lastMod m hm
    exact ⟨q, List.mem_cons_of_mem r hq, h⟩

theorem nonEmpty_eq {v w : Str} (h : some v = nonEmpty w) : w = v := by
  unfold nonEmpty at h
  split at h
  · cases h
  · exact (Option.some.inj h).symm

/-- The headers of a delivered response came with its bytes, and so did its date. -/
theorem came_of_delivered {s : Dates} {hash : Str} {etag lastMod : Option Str} (k : UrlKey)
    (h : s.delivered (some hash) etag lastMod = true) (now : Int) :
    Came T s.sent ⟨k, some hash, etag, lastMod⟩ ∧
      DateCame T s.sent hash (lastMod.elim [] (T.httpDate now)) := by
  obtain ⟨r, hr, hd⟩ := List.any_eq_true.mp h
  simp only [Bool.and_eq_true, beq_iff_eq, Option.some.injEq] at hd
  obtain ⟨⟨rfl, hetag⟩, hmod⟩ := hd
  refine ⟨⟨?_, ?_⟩, r, hr, rfl, ?_⟩
  · rintro e rfl
    exact ⟨r, hr, rfl, nonEmpty_eq hetag⟩
  · rintro m rfl
    exact ⟨r, hr, rfl, .inl (nonEmpty_eq hmod).symm⟩
  · cases lastMod with
    | none => exact .inl rfl
    | some m => exact HttpTime.Dated.httpDate (.inl (nonEmpty_eq hmod).symm) now

theorem came_none {k : UrlKey} {blob : Option Str} : Came T sent ⟨k, blob, none, none⟩ :=
  ⟨fun _ h => (Option.some_ne_none _ h.symm).elim, fun _ h => (Option.some_ne_none _ h.symm).elim⟩

namespace Genuine

theorem upsert {f : Assign Validated.key} (h : Genuine T sent db) (hu : Came T sent u)
    (hf : ∀ r ∈ db.urlPaths, r.key = u.key → Came T sent (f.run r)) :
    Genuine T sent { db with urlPaths := db.urlPaths.upsert u f } where
  rows r hr := by
    rcases Table.mem_upsert hr with hr | ⟨rfl, -⟩ | ⟨r₀, h₀, hk, rfl⟩
    · exact h.rows r hr
    · exact hu
    · exact hf r₀ h₀ hk
  dates := h.dates

theorem putURLPathSQL (h : Genuine T sent db) (hu : Came T sent u) :
    Genuine T sent (db.putURLPathSQL u) :=
  h.upsert hu fun _ _ _ => ⟨hu.etag, hu.lastMod⟩

theorem putRepresentationSQL (h : Genuine T sent db) (k : UrlKey) {hash date : Str}
    (hd : DateCame T sent hash date) : Genuine T sent (db.putRepresentationSQL k hash date) where
  rows := h.rows
  dates d hmem := by
    rcases Table.mem_upsert hmem with hmem | ⟨rfl, -⟩ | ⟨d₀, -, hk, rfl⟩
    · exact h.dates d hmem
    · exact hd
    · rw [show d₀.hash = hash from congrArg Prod.snd hk]
      exact hd

theorem warm (h : Genuine T sent db) (up : UrlKey × Str) : Genuine T sent (db.warm up) := by
  have hdate : Came T sent ⟨up.1, some up.2, none, db.lastModified up.1 up.2⟩ := by
    refine ⟨fun _ he => (Option.some_ne_none _ he.symm).elim, fun m hm => ?_⟩
    obtain ⟨d, hd, hkey, rfl⟩ := Table.exists_of_find hm
    obtain ⟨r, hr, hhash, hnormal⟩ := h.dates d hd
    exact ⟨r, hr, congrArg some (hhash.trans (congrArg Prod.snd hkey)).symm, .inr hnormal⟩
  exact h.upsert hdate fun _ _ _ => ⟨hdate.etag, hdate.lastMod⟩

theorem seedAnchor {a : UrlKey × Str} (h : Genuine T sent db)
    (hclean : ((db.urlPaths.find a.1).all fun r =>
      r.blobHash == some a.2 || (r.etag == none && r.lastMod == none)) = true) :
    Genuine T sent (db.seedAnchor a) := by
  refine h.upsert came_none fun r hr hk => ?_
  have hr' := h.rows r hr
  rw [Table.find_eq_some.mpr ⟨hr, hk⟩, Option.all_some] at hclean
  obtain ⟨k, blob, etag, lastMod⟩ := r
  simp only [Bool.or_eq_true, Bool.and_eq_true, beq_iff_eq] at hclean
  rcases hclean with rfl | ⟨rfl, rfl⟩
  · exact hr'
  · exact came_none

theorem seedAnchors {as : List (UrlKey × Str)} (h : Genuine T sent db)
    (hclean : DatesDb.cleanSeeds as db = true) :
    Genuine T sent (as.foldl DatesDb.seedAnchor db) := by
  induction as generalizing db with
  | nil => exact h
  | cons a as ih =>
    obtain ⟨hfirst, hrest⟩ := (Bool.and_eq_true _ _).mp hclean
    exact ih (h.seedAnchor hfirst) hrest

theorem refresh {k : UrlKey} {new : Str} {etag lastMod : Option Str} {now : Int}
    (h : Genuine T sent db) (old : Str) (hnew : Came T sent ⟨k, some new, etag, lastMod⟩)
    (hdate : DateCame T sent new (lastMod.elim [] (T.httpDate now))) :
    Genuine T sent (db.refresh T k old new etag lastMod now) := by
  unfold DatesDb.refresh
  split
  · have hrows : Genuine T sent { db with
        urlPaths := db.urlPaths.updateAt k
          ⟨fun r => { r with blobHash := some new, etag, lastMod }, fun _ => rfl⟩ } := by
      refine ⟨fun r hr => ?_, h.dates⟩
      rcases Table.mem_updateAt.mp hr with ⟨hr, -⟩ | ⟨r₀, -, -, rfl⟩
      · exact h.rows r hr
      · exact ⟨hnew.etag, hnew.lastMod⟩
    exact hrows.putRepresentationSQL k hdate
  · exact h

end Genuine

/-- Every write that seeds over clean rows keeps the dates with their bytes. -/
theorem genuine_inductive (T : HttpTime) :
    ((writes T).guard fun s a => seedsClean s a = true).Inductive
      fun s => Genuine T s.sent s.db := by
  refine Sys.Inductive.of_guard ?_ ?_
  · rintro s rfl
    exact ⟨fun u hu => absurd hu Table.notMem_empty, fun d hd => absurd hd Table.notMem_empty⟩
  rintro s a s' h hclean hstep
  cases a with
  | respond r =>
    cases hstep
    refine ⟨fun u hu => (h.rows u hu).more r, fun d hd => ?_⟩
    obtain ⟨q, hq, hd⟩ := h.dates d hd
    exact ⟨q, List.mem_cons_of_mem r hq, hd⟩
  | storeFetched u now =>
    obtain ⟨hdel, hs⟩ := Option.ite_none_right_eq_some.mp hstep
    cases hs
    obtain ⟨k, _ | hash, etag, lastMod⟩ := u
    · simp [Dates.delivered] at hdel
    · obtain ⟨hrow, hdate⟩ := came_of_delivered (T := T) k hdel now
      exact (h.putURLPathSQL hrow).putRepresentationSQL k hdate
  | putURLPath u =>
    obtain ⟨hcall, hs⟩ := Option.ite_none_right_eq_some.mp hstep
    cases hs
    refine h.putURLPathSQL ?_
    obtain ⟨k, blob, etag, lastMod⟩ := u
    rcases hcall with ⟨rfl, rfl⟩ | hdel
    · exact came_none
    · cases blob with
      | none => simp [Dates.delivered] at hdel
      | some hash => exact (came_of_delivered k hdel 0).1
  | commitAdoption snap prefetched =>
    obtain ⟨db, hcommit, rfl⟩ := Option.map_eq_some_iff.mp hstep
    obtain ⟨-, hs⟩ := Option.ite_none_right_eq_some.mp hcommit
    cases hs
    have hwarm : Genuine T s.sent (prefetched.foldl DatesDb.warm s.db) :=
      List.foldlRecOn (motive := Genuine T s.sent) prefetched _ h fun _ h up _ => h.warm up
    exact hwarm.seedAnchors hclean
  | refreshURLPathBlob k old new etag lastMod now =>
    obtain ⟨hcall, hs⟩ := Option.ite_none_right_eq_some.mp hstep
    cases hs
    obtain ⟨hrow, hdate⟩ := came_of_delivered (T := T) k ((Bool.and_eq_true _ _).mp hcall).2 now
    exact h.refresh old hrow hdate
  | putRepresentation k hash lastMod now =>
    obtain ⟨hcall, hs⟩ := Option.ite_none_right_eq_some.mp hstep
    cases hs
    obtain ⟨r, hr, hd⟩ := List.any_eq_true.mp ((Bool.and_eq_true _ _).mp hcall).2
    simp only [Bool.and_eq_true, beq_iff_eq] at hd
    obtain ⟨rfl, rfl⟩ := hd
    exact h.putRepresentationSQL k ⟨r, hr, rfl, HttpTime.Dated.httpDate (.inl rfl) now⟩
  | delete paths dates =>
    cases hstep
    exact ⟨fun u hu => h.rows u (Table.mem_delete.mp hu).1,
      fun d hd => h.dates d (Table.mem_delete.mp hd).1⟩

theorem served_of_dated {hash m : Str} (h : ∃ r ∈ sent, r.hash = hash ∧ T.Dated r m) (now : Int)
    (hne : T.httpDate now m ≠ []) : ∃ r ∈ sent, r.hash = hash ∧
      ∃ t, T.parse r.lastMod = some t ∧ T.httpDate now m = T.format t := by
  obtain ⟨r, hr, hhash, hd⟩ := h
  exact ⟨r, hr, hhash, (hd.httpDate now).resolve_left hne⟩

end Genuine

/-- In every run whose adoptions seed their anchors over clean rows: the validators of a row came
with its bytes, a stored date came with the bytes of its hash, and so did every date that is sent
with a cached row or with the bytes of a snapshot. -/
theorem dates_belong (T : HttpTime) {s : Dates}
    (hs : ((writes T).guard fun s a => seedsClean s a = true).Reach s) :
    (∀ u ∈ s.db.urlPaths, Came T s.sent u) ∧
    (∀ d ∈ s.db.dates, d.date ≠ [] → ∃ r ∈ s.sent, r.hash = d.hash ∧
      ∃ t, T.parse r.lastMod = some t ∧ d.date = T.format t) ∧
    (∀ u ∈ s.db.urlPaths, ∀ hash now, u.blobHash = some hash →
      s.db.serveDate T now u.key hash (urlLastModified u) ≠ [] → ∃ r ∈ s.sent, r.hash = hash ∧
        ∃ t, T.parse r.lastMod = some t ∧
          s.db.serveDate T now u.key hash (urlLastModified u) = T.format t) ∧
    ∀ k hash now, s.db.serveDate T now k hash none ≠ [] → ∃ r ∈ s.sent, r.hash = hash ∧
      ∃ t, T.parse r.lastMod = some t ∧ s.db.serveDate T now k hash none = T.format t := by
  have h := (genuine_inductive T).reach hs
  have hempty : ∀ now, T.httpDate now [] = [] := fun now => by
    simp [HttpTime.httpDate, T.parse_empty]
  refine ⟨h.rows, fun d hd hne => ?_, fun u hu hash now hblob hne => ?_, fun k hash now hne => ?_⟩
  · obtain ⟨r, hr, hhash, hnormal⟩ := h.dates d hd
    exact ⟨r, hr, hhash, hnormal.resolve_left hne⟩
  · refine served_of_dated ?_ now hne
    cases hm : u.lastMod with
    | none => exact absurd (by simp [DatesDb.serveDate, urlLastModified, hm, hempty]) hne
    | some m =>
      obtain ⟨r, hr, hhash, hd⟩ := (h.rows u hu).lastMod m hm
      exact ⟨r, hr, Option.some.inj (hhash.symm.trans hblob),
        by simpa [urlLastModified, hm] using hd⟩
  · refine served_of_dated ?_ now hne
    cases hm : s.db.lastModified k hash with
    | none => exact absurd (by simp [DatesDb.serveDate, hm, hempty]) hne
    | some m =>
      obtain ⟨d, hd, hkey, rfl⟩ := Table.exists_of_find hm
      obtain ⟨r, hr, hhash, hnormal⟩ := h.dates d hd
      exact ⟨r, hr, hhash.trans (congrArg Prod.snd hkey), .inr (by simpa [hm] using hnormal)⟩

/-! ## An adoption over a cached anchor -/

/-- A clock whose dates are written in strokes. -/
def strokes : HttpTime where
  parse v := if v = [] then none else some v.length
  format t := List.replicate t.toNat '|'
  parse_empty := rfl
  parse_format v t h := by
    obtain ⟨hne, ht⟩ := Option.ite_none_left_eq_some.mp h
    cases ht
    simp [hne]

def oldHash : Str := List.replicate 64 'a'

def newHash : Str := List.replicate 64 'b'

/-- The InRelease of a suite, fetched with an ETag and a date. -/
def fetchedAnchor : Validated :=
  ⟨⟨.https, "h".toList, "/s/InRelease".toList⟩, some oldHash, some "e".toList, some "|".toList⟩

/-- A snapshot with this InRelease. -/
def anchored (hash : Str) : Snapshot :=
  ⟨1, ⟨.https, "h".toList, "/s".toList⟩, some hash, none, none, .inline, 0, none, none, none, false⟩

/-- A miss fetches the InRelease, and an adoption with an InRelease of the given hash commits. -/
def adoptOver (hash : Str) : List DateAct :=
  [.respond ⟨oldHash, "e".toList, "|".toList⟩, .storeFetched fetchedAnchor 5,
    .commitAdoption (anchored hash) []]

def noDates : Dates := ⟨⟨.empty, .empty⟩, []⟩

/-- An adoption of the bytes that are cached. -/
def adoptedSame : Dates :=
  (((writes strokes).guard fun s a => seedsClean s a = true).exec noDates (adoptOver oldHash)).getD
    noDates

/-- An adoption of other bytes. -/
def adoptedOther : Dates := ((writes strokes).exec noDates (adoptOver newHash)).getD noDates

theorem dates_belong_same :
    fetchedAnchor ∈ adoptedSame.db.urlPaths.rows ∧
      ∀ u ∈ adoptedSame.db.urlPaths, Came strokes adoptedSame.sent u :=
  ⟨by decide +kernel,
    (dates_belong strokes (.exec rfl (eq_some_getD noDates (by decide +kernel)))).1⟩

/-- The new bytes keep the ETag and the date that came with the old ones. -/
theorem seed_keeps_date :
    ∃ s, (writes strokes).Reach s ∧
      { fetchedAnchor with blobHash := some newHash } ∈ s.db.urlPaths.rows ∧
      s.sent.all fun r => r.hash ≠ newHash :=
  ⟨adoptedOther, .exec rfl (eq_some_getD noDates (by decide +kernel)), by decide +kernel,
    by decide +kernel⟩

end AptCacher.Cache
