import AptCacher.Proxy.Parse
import Mathlib.Data.List.DropRight
import Mathlib.Data.List.Infix
import Mathlib.Data.List.Perm.Basic

/-!
# Mirror routes

The `[[mirror]]` rules: what `Config.Validate` refuses, how `compileMirrorRoutes` makes routes of
them and which route `matchMirror` takes for a path. Overlaps are tested on the prefixes as they are
written, paths are matched against the prefixes without their trailing slashes. `url.Parse` is a
parameter.

* `validateMirrors`, `compileMirrorRoutes`: the errors, and the routes.
* `shadowsPath_iff`: what `shadowsPath` decides; `matchPath_isSome`: which paths a route matches.
* `routes_disjoint`: the routes of accepted rules match no path twice, if no prefix ends in two
  slashes and overlaps another one without them.
* `mirror_unambiguous`: the result does not depend on the order of the rules.
-/

namespace AptCacher.Proxy

open AptCacher.Proxy.Parser (trimSlashes joinMirrorPath matchMirror)

/-! ## The model -/

/-- `config.MirrorRule`. -/
structure MirrorRule where
  pathPrefix : Str
  upstream : Str
  deriving DecidableEq

def shadowsPath (a b : Str) : Bool :=
  if a = b then true
  else if !a.isPrefixOf b then false
  else if ['/'].isSuffixOf a then true
  else b[a.length]? == some '/'

/-- The errors of `Validate` for mirrors. -/
inductive ConfigErr
  | noSlash (i : Nat) (pathPrefix : Str)
  | noUpstream (i : Nat)
  | overlaps (i : Nat) (a : Str) (j : Nat) (b : Str)
  deriving DecidableEq

/-- The checks of one rule. -/
def validateRule (r : MirrorRule × Nat) : List ConfigErr :=
  (if !(['/'].isPrefixOf r.1.pathPrefix) then [.noSlash r.2 r.1.pathPrefix] else []) ++
    if r.1.upstream = [] then [.noUpstream r.2] else []

/-- The check of two rules. -/
def validatePair (r s : MirrorRule × Nat) : List ConfigErr :=
  if r.1.pathPrefix = [] ∨ s.1.pathPrefix = [] then []
  else if shadowsPath r.1.pathPrefix s.1.pathPrefix ||
      shadowsPath s.1.pathPrefix r.1.pathPrefix then
    [.overlaps r.2 r.1.pathPrefix s.2 s.1.pathPrefix]
  else []

/-- The checks of each rule with those behind it. -/
def validatePairs : List (MirrorRule × Nat) → List ConfigErr
  | [] => []
  | r :: rest => rest.flatMap (validatePair r) ++ validatePairs rest

/-- What `Validate` reports of the mirrors. -/
def validateMirrors (rules : List MirrorRule) : List ConfigErr :=
  rules.zipIdx.flatMap validateRule ++ validatePairs rules.zipIdx

/-- What is read of a `url.URL`. -/
structure UpstreamUrl where
  scheme : Str
  host : Str
  path : Str
  hasUser : Bool
  rawQuery : Str
  fragment : Str
  deriving DecidableEq

/-- The errors of `compileMirrorRoutes`. -/
inductive MirrorErr
  | noSlash (i : Nat)
  | noUpstream (i : Nat)
  | notUrl (i : Nat)
  | scheme (i : Nat)
  | noHost (i : Nat)
  | userinfo (i : Nat)
  | query (i : Nat)
  | fragment (i : Nat)
  deriving DecidableEq

/-- The prefix without its trailing slashes; `/` stays. -/
def routePrefix (written : Str) : Str :=
  if trimSlashes written = [] then ['/'] else trimSlashes written

/-- The route of a rule; an error is told the number of the rule. -/
def compileRule (parse : Str → Option UpstreamUrl) (r : MirrorRule) :
    Except (Nat → MirrorErr) MirrorRoute :=
  if !(['/'].isPrefixOf r.pathPrefix) then .error .noSlash
  else if r.upstream = [] then .error .noUpstream
  else
    match parse r.upstream with
    | none => .error .notUrl
    | some u =>
      if lower u.scheme ≠ "http".toList ∧ lower u.scheme ≠ "https".toList then .error .scheme
      else if u.host = [] then .error .noHost
      else if u.hasUser then .error .userinfo
      else if u.rawQuery ≠ [] then .error .query
      else if u.fragment ≠ [] then .error .fragment
      else
        .ok ⟨routePrefix r.pathPrefix, lower u.scheme, lower u.host,
          if u.path = [] then ['/'] else u.path⟩

/-- The routes of the rules from the number `i` on. -/
def compileFrom (parse : Str → Option UpstreamUrl) : Nat → List MirrorRule →
    Except MirrorErr (List MirrorRoute)
  | _, [] => .ok []
  | i, r :: rest =>
    match compileRule parse r with
    | .error e => .error (e i)
    | .ok route => (compileFrom parse (i + 1) rest).map (route :: ·)

def compileMirrorRoutes (parse : Str → Option UpstreamUrl) (rules : List MirrorRule) :
    Except MirrorErr (List MirrorRoute) :=
  compileFrom parse 0 rules

/-- What is left of the path behind the prefix of the route, if the route matches. -/
def MirrorRoute.matchPath (r : MirrorRoute) (path : Str) : Option Str :=
  if r.pathPrefix = ['/'] then some path
  else if path = r.pathPrefix then some []
  else if (r.pathPrefix ++ ['/']).isPrefixOf path then some (path.drop r.pathPrefix.length)
  else none

theorem matchMirror_eq (p : Parser) (path : Str) :
    p.matchMirror path =
      p.mirrors.findSome? fun r => (r.matchPath path).map fun rest => (r, rest) := by
  unfold matchMirror MirrorRoute.matchPath
  congr 1
  funext r
  split_ifs <;> rfl

/-! ## Trailing slashes -/

theorem trimSlashes_spec (s : Str) : ∃ k, s = trimSlashes s ++ List.replicate k '/' := by
  have hall : ∀ c ∈ s.reverse.takeWhile (· == '/'), c = '/' :=
    fun c hc => by simpa using List.mem_takeWhile_imp hc
  obtain ⟨k, hk⟩ : ∃ k, s.reverse.takeWhile (· == '/') = List.replicate k '/' :=
    ⟨_, List.eq_replicate_of_mem hall⟩
  refine ⟨k, ?_⟩
  have hsplit : s.reverse.takeWhile (· == '/') ++ s.reverse.dropWhile (· == '/') = s.reverse :=
    List.takeWhile_append_dropWhile
  rw [hk] at hsplit
  rw [trimSlashes, ← List.reverse_replicate, ← List.reverse_append, hsplit, List.reverse_reverse]

theorem trimSlashes_not_suffix (s : Str) : ¬ ['/'] <:+ trimSlashes s := by
  rintro ⟨t, ht⟩
  have hne : s.rdropWhile (· == '/') ≠ [] := by
    rw [show s.rdropWhile (· == '/') = t ++ ['/'] from ht.symm]
    simp
  have hlast := List.rdropWhile_last_not (· == '/') s hne
  simp only [show s.rdropWhile (· == '/') = t ++ ['/'] from ht.symm] at hlast
  simp at hlast

variable {s p q path : Str} {r : MirrorRoute}

/-- A prefix that does not end in two slashes has at most one trailing slash. -/
theorem eq_trimSlashes_or (h : ¬ ['/', '/'] <:+ s) :
    s = trimSlashes s ∨ s = trimSlashes s ++ ['/'] := by
  obtain ⟨k, hk⟩ := trimSlashes_spec s
  rcases k with - | - | k
  · exact .inl (by simpa using hk)
  · exact .inr hk
  · refine absurd ⟨trimSlashes s ++ List.replicate k '/', ?_⟩ h
    conv_rhs => rw [hk, List.replicate_succ', List.replicate_succ']
    simp

/-! ## What the tests decide -/

theorem shadowsPath_of_suffix {a b : Str} (ha : ['/'] <:+ a) :
    shadowsPath a b = true ↔ a <+: b := by
  by_cases hab : a = b
  · simp [shadowsPath, hab]
  · by_cases hpre : a <+: b
    · simp [shadowsPath, hab, hpre, ha]
    · simp [shadowsPath, hab, hpre]

theorem shadowsPath_of_not_suffix {a b : Str} (ha : ¬ ['/'] <:+ a) :
    shadowsPath a b = true ↔ a = b ∨ a ++ ['/'] <+: b := by
  by_cases hab : a = b
  · simp [shadowsPath, hab]
  · by_cases hpre : a <+: b
    · obtain ⟨t, rfl⟩ := hpre
      simp [shadowsPath, hab, ha, List.getElem?_append_right, List.prefix_append_right_inj]
      cases t <;> simp [eq_comm]
    · have hnot : ¬ a ++ ['/'] <+: b := fun h => hpre ((List.prefix_append a ['/']).trans h)
      simp [shadowsPath, hab, hpre, hnot]

/-- Every path below `other` is one below `written`. -/
def Covers (written other : Str) : Prop :=
  trimSlashes written ++ ['/'] <+: trimSlashes other ++ ['/']

/-- `Validate` sees that a prefix covers another one, if neither ends in two slashes. -/
theorem shadows_of_covers (hp : ¬ ['/', '/'] <:+ p) (hq : ¬ ['/', '/'] <:+ q) (h : Covers p q) :
    shadowsPath p q = true ∨ shadowsPath q p = true := by
  have hT := trimSlashes_not_suffix p
  have hS := trimSlashes_not_suffix q
  have hp := eq_trimSlashes_or hp
  have hq := eq_trimSlashes_or hq
  unfold Covers at h
  generalize trimSlashes p = T at hT hp h
  generalize trimSlashes q = S at hS hq h
  rcases hp with rfl | rfl <;> rcases hq with rfl | rfl
  · refine .inl ((shadowsPath_of_not_suffix hT).mpr ?_)
    exact (List.prefix_concat_iff.mp h).imp_left List.append_cancel_right
  · exact .inl ((shadowsPath_of_not_suffix hT).mpr (.inr h))
  · rcases List.prefix_concat_iff.mp h with heq | hpre
    · refine .inr ((shadowsPath_of_not_suffix hS).mpr (.inr ?_))
      rw [heq]
    · exact .inl ((shadowsPath_of_suffix (List.suffix_append T ['/'])).mpr hpre)
  · exact .inl ((shadowsPath_of_suffix (List.suffix_append T ['/'])).mpr h)

theorem rooted_trimSlashes (hs : ['/'] <+: s) (hne : trimSlashes s ≠ []) :
    ['/'] <+: trimSlashes s :=
  List.prefix_of_prefix_length_le hs (s.rdropWhile_prefix (· == '/'))
    (List.length_pos_iff.mpr hne)

theorem rooted_routePrefix (hs : ['/'] <+: s) : ['/'] <+: routePrefix s := by
  unfold routePrefix
  split
  · exact List.prefix_refl _
  · rename_i hne
    exact rooted_trimSlashes hs hne

theorem shadows_route_of_covers (hq : ['/'] <+: q) (h : Covers p q) :
    shadowsPath (routePrefix p) (routePrefix q) = true := by
  unfold Covers at h
  by_cases hT : trimSlashes p = []
  · rw [routePrefix, if_pos hT]
    exact (shadowsPath_of_suffix (List.suffix_refl _)).mpr (rooted_routePrefix hq)
  · have hS : trimSlashes q ≠ [] := by
      intro hnil
      rw [hnil] at h
      have := h.length_le
      cases htrim : trimSlashes p with
      | nil => exact hT htrim
      | cons => simp [htrim] at this
    rw [routePrefix, if_neg hT, routePrefix, if_neg hS]
    refine (shadowsPath_of_not_suffix (trimSlashes_not_suffix p)).mpr ?_
    exact (List.prefix_concat_iff.mp h).imp_left List.append_cancel_right

theorem covers_path {written : Str} (hr : r.pathPrefix = routePrefix written)
    (hne : trimSlashes written ≠ []) (h : (r.matchPath path).isSome = true) :
    trimSlashes written ++ ['/'] <+: path ++ ['/'] := by
  rw [routePrefix, if_neg hne] at hr
  have hslash : trimSlashes written ≠ ['/'] :=
    fun heq => trimSlashes_not_suffix written (heq ▸ List.suffix_refl _)
  rw [MirrorRoute.matchPath, hr, if_neg hslash] at h
  by_cases hpath : path = trimSlashes written
  · rw [hpath]
  · rw [if_neg hpath] at h
    by_cases hpre : (trimSlashes written ++ ['/']).isPrefixOf path = true
    · exact (List.isPrefixOf_iff_prefix.mp hpre).trans (List.prefix_append _ _)
    · rw [if_neg hpre] at h
      cases h

/-- Of two routes that match one path, the prefix of one covers that of the other. -/
theorem covers_of_match {s : MirrorRoute} (hp : ['/'] <+: p) (hq : ['/'] <+: q)
    (hr : r.pathPrefix = routePrefix p) (hs : s.pathPrefix = routePrefix q)
    (hrm : (r.matchPath path).isSome = true) (hsm : (s.matchPath path).isSome = true) :
    Covers p q ∨ Covers q p := by
  have hroot : ∀ {w : Str}, ['/'] <+: w → ['/'] <+: trimSlashes w ++ ['/'] := by
    intro w hw
    by_cases hne : trimSlashes w = []
    · rw [hne]
      exact List.prefix_refl _
    · exact (rooted_trimSlashes hw hne).trans (List.prefix_append _ _)
  by_cases hT : trimSlashes p = []
  · left
    rw [Covers, hT]
    exact hroot hq
  by_cases hS : trimSlashes q = []
  · right
    rw [Covers, hS]
    exact hroot hp
  exact List.prefix_or_prefix_of_prefix (covers_path hr hT hrm) (covers_path hs hS hsm)

/-! ## Accepted rules -/

/-- The rule passes the checks of its own. -/
def Rooted (r : MirrorRule) : Prop := ['/'] <+: r.pathPrefix

/-- Neither prefix shadows the other, as `Validate` tests it. -/
def Apart (a b : Str) : Prop := shadowsPath a b = false ∧ shadowsPath b a = false

/-- No prefix that ends in two slashes overlaps another one without its trailing slashes. -/
def Tidy (r s : MirrorRule) : Prop :=
  ['/', '/'] <:+ r.pathPrefix ∨ ['/', '/'] <:+ s.pathPrefix →
    Apart (routePrefix r.pathPrefix) (routePrefix s.pathPrefix)

theorem validatePairs_nil {l : List (MirrorRule × Nat)} (hroot : ∀ r ∈ l, Rooted r.1) :
    validatePairs l = [] ↔ l.Pairwise fun r s => Apart r.1.pathPrefix s.1.pathPrefix := by
  induction l with
  | nil => simp [validatePairs]
  | cons r l ih =>
    have hne : ∀ {s : MirrorRule × Nat}, s ∈ r :: l → s.1.pathPrefix ≠ [] := by
      intro s hs hnil
      have := hroot s hs
      rw [Rooted, hnil] at this
      exact absurd (List.prefix_nil.mp this) (by decide)
    rw [validatePairs, List.append_eq_nil_iff, List.pairwise_cons,
      ih fun s hs => hroot s (List.mem_cons_of_mem _ hs), List.flatMap_eq_nil_iff]
    refine and_congr_left fun _ => forall₂_congr fun s hs => ?_
    simp [validatePair, Apart, hne List.mem_cons_self, hne (List.mem_cons_of_mem _ hs)]

theorem validateMirrors_nil {rules : List MirrorRule} : validateMirrors rules = [] ↔
    (∀ r ∈ rules, Rooted r ∧ r.upstream ≠ []) ∧
      rules.Pairwise fun r s => Apart r.pathPrefix s.pathPrefix := by
  have hrules : rules.zipIdx.map Prod.fst = rules := List.zipIdx_map_fst ..
  have hall : rules.zipIdx.flatMap validateRule = [] ↔
      ∀ r ∈ rules, Rooted r ∧ r.upstream ≠ [] := by
    conv_rhs => rw [← hrules]
    rw [List.flatMap_eq_nil_iff, List.forall_mem_map]
    refine forall₂_congr fun r _ => ?_
    simp [validateRule, Rooted]
  rw [validateMirrors, List.append_eq_nil_iff, hall]
  refine and_congr_right fun hroot => ?_
  have hroot' : ∀ r ∈ rules.zipIdx, Rooted r.1 := by
    intro r hr
    exact (hroot r.1 (hrules ▸ List.mem_map_of_mem hr)).1
  rw [validatePairs_nil hroot']
  conv_rhs => rw [← hrules, List.pairwise_map]

/-- The route that a rule compiles to. -/
def routeOf (parse : Str → Option UpstreamUrl) (r : MirrorRule) : Option MirrorRoute :=
  (compileRule parse r).toOption

section Routes

variable {parse : Str → Option UpstreamUrl} {rules : List MirrorRule} {routes : List MirrorRoute}

theorem compileFrom_ok {i : Nat} (h : compileFrom parse i rules = .ok routes) :
    rules.map (routeOf parse) = routes.map some := by
  induction rules generalizing i routes with
  | nil =>
    cases h
    rfl
  | cons r rules ih =>
    rw [compileFrom] at h
    cases hr : compileRule parse r with
    | error e =>
      rw [hr] at h
      cases h
    | ok route =>
      rw [hr] at h
      cases hrest : compileFrom parse (i + 1) rules with
      | error e =>
        rw [hrest] at h
        cases h
      | ok rest =>
        rw [hrest] at h
        cases h
        rw [List.map_cons, ih hrest, routeOf, hr]
        rfl

theorem exists_compileFrom (i : Nat) (h : ∀ r ∈ rules, (routeOf parse r).isSome = true) :
    ∃ routes, compileFrom parse i rules = .ok routes := by
  induction rules generalizing i with
  | nil => exact ⟨[], rfl⟩
  | cons r rules ih =>
    obtain ⟨rest, hrest⟩ := ih (i + 1) fun s hs => h s (List.mem_cons_of_mem _ hs)
    have hr := h r List.mem_cons_self
    rw [routeOf] at hr
    cases hroute : compileRule parse r with
    | error e =>
      rw [hroute] at hr
      cases hr
    | ok route => exact ⟨route :: rest, by rw [compileFrom, hroute, hrest]; rfl⟩

theorem routes_eq (h : compileMirrorRoutes parse rules = .ok routes) :
    routes = rules.filterMap (routeOf parse) := by
  have hid : (rules.map (routeOf parse)).filterMap id = rules.filterMap (routeOf parse) := by
    rw [List.filterMap_map]
    rfl
  rw [← hid, compileFrom_ok h, List.filterMap_map]
  exact List.filterMap_some.symm

theorem routeOf_some {r : MirrorRule} {route : MirrorRoute} (h : routeOf parse r = some route) :
    route.pathPrefix = routePrefix r.pathPrefix ∧ route.basePath ≠ [] := by
  unfold routeOf compileRule at h
  split at h
  · cases h
  split at h
  · cases h
  split at h
  · cases h
  split_ifs at h
  all_goals cases h
  · exact ⟨rfl, by simp⟩
  · rename_i hpath
    exact ⟨rfl, hpath⟩

theorem routes_disjoint (hvalid : validateMirrors rules = [])
    (hcompile : compileMirrorRoutes parse rules = .ok routes) (htidy : rules.Pairwise Tidy)
    (path : Str) :
    routes.Pairwise fun r s =>
      ¬ ((r.matchPath path).isSome = true ∧ (s.matchPath path).isSome = true) := by
  obtain ⟨hroot, hapart⟩ := validateMirrors_nil.mp hvalid
  rw [routes_eq hcompile, List.pairwise_filterMap]
  refine (hapart.and htidy).imp_of_mem ?_
  rintro r s hr hs ⟨hrs, htidy⟩ route hroute route' hroute' ⟨hm, hm'⟩
  have hp := (routeOf_some hroute).1
  have hq := (routeOf_some hroute').1
  have hcovers := covers_of_match (hroot r hr).1 (hroot s hs).1 hp hq hm hm'
  by_cases hdouble : ['/', '/'] <:+ r.pathPrefix ∨ ['/', '/'] <:+ s.pathPrefix
  · obtain ⟨h1, h2⟩ := htidy hdouble
    rcases hcovers with h | h
    · rw [shadows_route_of_covers (hroot s hs).1 h] at h1
      cases h1
    · rw [shadows_route_of_covers (hroot r hr).1 h] at h2
      cases h2
  · rw [not_or] at hdouble
    have hshadow : shadowsPath r.pathPrefix s.pathPrefix = true ∨
        shadowsPath s.pathPrefix r.pathPrefix = true := by
      rcases hcovers with h | h
      · exact shadows_of_covers hdouble.1 hdouble.2 h
      · exact (shadows_of_covers hdouble.2 hdouble.1 h).symm
    rcases hshadow with h | h
    · rw [hrs.1] at h
      cases h
    · rw [hrs.2] at h
      cases h

end Routes

/-- A search among elements of which at most one has a result does not depend on their order. -/
theorem findSome?_perm {α β : Type} {f : α → Option β} {l l' : List α} (hperm : l'.Perm l)
    (h : l.Pairwise fun a b => ¬ ((f a).isSome = true ∧ (f b).isSome = true)) :
    l'.findSome? f = l.findSome? f := by
  induction hperm with
  | nil => rfl
  | cons a _ ih =>
    rw [List.findSome?_cons, List.findSome?_cons, ih (List.pairwise_cons.mp h).2]
  | swap a b l =>
    have hnot := (List.pairwise_cons.mp h).1 b List.mem_cons_self
    cases ha : f a with
    | none => simp [List.findSome?_cons, ha]
    | some x =>
      cases hb : f b with
      | none => simp [ha, hb]
      | some y => simp [ha, hb] at hnot
  | trans _ h23 ih12 ih23 =>
    rw [ih12 ((h23.pairwise_iff fun hab hba => hab hba.symm).mpr h), ih23 h]

/-! ## The route of a path -/

theorem matchPath_some {rest : Str} (h : r.matchPath path = some rest) :
    path = (if r.pathPrefix = ['/'] then [] else r.pathPrefix) ++ rest := by
  unfold MirrorRoute.matchPath at h
  split at h
  · rename_i hslash
    cases h
    rw [if_pos hslash]
    rfl
  · rename_i hslash
    rw [if_neg hslash]
    split at h
    · rename_i hpath
      cases h
      simpa using hpath
    · obtain ⟨hpre, h⟩ := Option.ite_none_right_eq_some.mp h
      cases h
      obtain ⟨t, rfl⟩ := List.isPrefixOf_iff_prefix.mp hpre
      simp

/-- For accepted rules at most one route matches a path; so the route and the rest of the path do
not depend on the order of the rules. The joined path is the base path without its trailing slashes
and the rest, and `/` for the root of an upstream without a path. -/
theorem mirror_unambiguous (parse : Str → Option UpstreamUrl) {rules : List MirrorRule}
    {routes : List MirrorRoute} (hvalid : validateMirrors rules = [])
    (hcompile : compileMirrorRoutes parse rules = .ok routes) (htidy : rules.Pairwise Tidy)
    (remap : List RemapRule) (path : Str) :
    (routes.Pairwise fun r s =>
      ¬ ((r.matchPath path).isSome = true ∧ (s.matchPath path).isSome = true)) ∧
    (∀ rules' : List MirrorRule, rules'.Perm rules → validateMirrors rules' = [] ∧
      ∃ routes', compileMirrorRoutes parse rules' = .ok routes' ∧
        matchMirror ⟨remap, routes'⟩ path = matchMirror ⟨remap, routes⟩ path) ∧
    ∀ route rest, matchMirror ⟨remap, routes⟩ path = some (route, rest) →
      path = (if route.pathPrefix = ['/'] then [] else route.pathPrefix) ++ rest ∧
      joinMirrorPath route.basePath rest =
        if route.basePath = ['/'] ∧ rest = [] then ['/']
        else trimSlashes route.basePath ++ rest := by
  have hdisjoint := routes_disjoint hvalid hcompile htidy path
  refine ⟨hdisjoint, fun rules' hperm => ?_, fun route rest hmatch => ?_⟩
  · obtain ⟨hroot, hapart⟩ := validateMirrors_nil.mp hvalid
    refine ⟨validateMirrors_nil.mpr ⟨fun r hr => hroot r (hperm.mem_iff.mp hr), ?_⟩, ?_⟩
    · exact (hperm.pairwise_iff fun hab => ⟨hab.2, hab.1⟩).mpr hapart
    have hsome : ∀ r ∈ rules', (routeOf parse r).isSome = true := by
      intro r hr
      have hmem := List.mem_map_of_mem (f := routeOf parse) (hperm.mem_iff.mp hr)
      rw [compileFrom_ok hcompile] at hmem
      obtain ⟨route, -, hroute⟩ := List.mem_map.mp hmem
      rw [← hroute]
      rfl
    obtain ⟨routes', hroutes'⟩ := exists_compileFrom 0 hsome
    refine ⟨routes', hroutes', ?_⟩
    have hroutes : routes'.Perm routes := by
      rw [routes_eq hroutes', routes_eq hcompile]
      exact hperm.filterMap _
    rw [matchMirror_eq, matchMirror_eq]
    refine findSome?_perm hroutes (hdisjoint.imp fun hnot hboth => hnot ?_)
    simpa using hboth
  · rw [matchMirror_eq] at hmatch
    obtain ⟨r, hr, hmap⟩ := List.exists_of_findSome?_eq_some hmatch
    obtain ⟨rest', hrest, heq⟩ := Option.map_eq_some_iff.mp hmap
    cases heq
    refine ⟨matchPath_some hrest, ?_⟩
    have hbase : route.basePath ≠ [] := by
      rw [routes_eq hcompile] at hr
      obtain ⟨rule, -, hrule⟩ := List.mem_filterMap.mp hr
      exact (routeOf_some hrule).2
    by_cases hslash : route.basePath = ['/']
    · by_cases hnil : rest = []
      · simp [joinMirrorPath, hslash, hnil]
      · have htrim : trimSlashes ['/'] = [] := by decide
        simp [joinMirrorPath, hslash, hnil, htrim]
    · simp [joinMirrorPath, hbase, hslash]

/-- Two upstreams, one without a path. -/
def twoUpstreams (s : Str) : Option UpstreamUrl :=
  if s = "http://a".toList then some ⟨"http".toList, "a".toList, [], false, [], []⟩
  else if s = "http://b/y/".toList then
    some ⟨"http".toList, "b".toList, "/y/".toList, false, [], []⟩
  else none

def twoRules : List MirrorRule :=
  [⟨"/debian/".toList, "http://a".toList⟩, ⟨"/ubuntu".toList, "http://b/y/".toList⟩]

def twoRoutes : List MirrorRoute :=
  [⟨"/debian".toList, "http".toList, "a".toList, ['/']⟩,
    ⟨"/ubuntu".toList, "http".toList, "b".toList, "/y/".toList⟩]

theorem mirror_unambiguous_two :
    ∃ routes', compileMirrorRoutes twoUpstreams twoRules.reverse = .ok routes' ∧
      matchMirror ⟨[], routes'⟩ "/ubuntu/x".toList =
        matchMirror ⟨[], twoRoutes⟩ "/ubuntu/x".toList := by
  have hvalid : validateMirrors twoRules = [] := by decide
  have hcompile : compileMirrorRoutes twoUpstreams twoRules = .ok twoRoutes := rfl
  have htidy : twoRules.Pairwise Tidy := List.pairwise_pair.mpr fun _ => ⟨by decide, by decide⟩
  exact ((mirror_unambiguous twoUpstreams hvalid hcompile htidy [] "/ubuntu/x".toList).2.1
    twoRules.reverse twoRules.reverse_perm).2

/-- A request for the prefix itself of an upstream without a path goes to `/`. -/
theorem root_joins_slash : validateMirrors twoRules = [] ∧
    compileMirrorRoutes twoUpstreams twoRules = .ok twoRoutes ∧
    ∃ route, matchMirror ⟨[], twoRoutes⟩ "/debian".toList = some (route, []) ∧
      joinMirrorPath route.basePath [] ≠ trimSlashes route.basePath ++ [] :=
  ⟨by decide, rfl, _, rfl, by decide⟩

/-- Prefixes that overlap without their slashes are accepted. -/
example : validateMirrors [⟨"/ubuntu//".toList, "http://a".toList⟩,
    ⟨"/ubuntu/dists".toList, "http://b/y/".toList⟩] = [] := by
  decide

end AptCacher.Proxy
