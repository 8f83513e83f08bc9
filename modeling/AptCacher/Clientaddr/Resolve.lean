import AptCacher.Aptpath.Suite

/-!
# The address of a client behind proxies

`clientaddr/clientaddr.go`: a request from a trusted peer may name its client in
`X-Forwarded-For`. The entries of all its header fields are read from the right, as far as each is
an address of a trusted proxy, within a budget of entries and one of bytes. `net/netip` is a
parameter.

* `lastToken`: the last entry of a field, searched for within the budget of bytes.
* `scan`: the loop over the entries and the fields; `resolve`: the address.
* `joined`: the fields as one list; `scan_suffix`: what the loop does on a list with a given end.
* `resolve_suffix`: the last untrusted address is the client's, whatever stands to its left.
-/

namespace AptCacher.Clientaddr

/-! ## The model -/

/-- What is used of `net/netip`. -/
structure Netip (Addr Prefix : Type) where
  parseAddr : Str → Option Addr
  parseAddr_nil : parseAddr [] = none
  /-- The address of `ParseAddrPort`. -/
  parseAddrPort : Str → Option Addr
  zone : Addr → Str
  unmap : Addr → Addr
  isUnspecified : Addr → Bool
  isMulticast : Addr → Bool
  /-- It is 255.255.255.255. -/
  isBroadcast : Addr → Bool
  string : Addr → Str
  contains : Prefix → Addr → Bool

structure Address where
  client : Str
  peer : Str
  deriving DecidableEq

/-- What is read of a request: `RemoteAddr` and the values of `X-Forwarded-For`. -/
structure Request where
  remoteAddr : Str
  forwardedFor : List Str
  deriving DecidableEq

def maxHeaderBytes : Int := 8192

def maxHops : Nat := 32

/-- `strings.LastIndexByte`. -/
def lastIndexByte (s : Str) (c : Char) : Int :=
  if s.contains c then (s.length : Int) - 1 - (s.reverse.takeWhile (· != c)).length else -1

/-- `strings.Trim(s, " \t")`. -/
def trimBlanks (s : Str) : Str :=
  let blank := fun c => c == ' ' || c == '\t'
  ((s.dropWhile blank).reverse.dropWhile blank).reverse

/-- The last entry of the field and what is left of it before its comma, unless the budget ends
inside the entry. -/
def lastToken (remaining : Str) (bytesLeft : Int) : Option (Option Str × Str) :=
  let start := max 0 ((remaining.length : Int) - bytesLeft)
  let comma := lastIndexByte (remaining.drop start.toNat) ','
  if comma < 0 ∧ 0 < start then none
  else
    let comma := comma + start
    some (if comma < 0 then none else some (remaining.take comma.toNat),
      remaining.drop (comma + 1).toNat)

section

variable {Addr Prefix : Type} (N : Netip Addr Prefix) (trusted : List Prefix)

def trusts (addr : Addr) : Bool := trusted.any fun p => N.contains p addr

/-- The address of an entry, if it is a plain unicast address. -/
def hop (token : Str) : Option Addr :=
  ((N.parseAddr (trimBlanks token)).filter fun a => N.zone a == []).map N.unmap |>.filter fun a =>
    !(N.isUnspecified a || N.isMulticast a || N.isBroadcast a)

/-- The loop: `hops` entries may still be read, `remaining` is what is left of the field that is
read, and `fields` are those before it, the nearest first. -/
def scan (peer : Str) : Nat → Int → Str → List Str → Address
  | 0, _, _, _ => ⟨peer, peer⟩
  | hops + 1, bytesLeft, remaining, fields =>
    if bytesLeft ≤ 0 then ⟨peer, peer⟩
    else
      (lastToken remaining bytesLeft).elim ⟨peer, peer⟩ fun cut =>
        (hop N cut.2).elim ⟨peer, peer⟩ fun addr =>
          if trusts N trusted addr then
            match cut.1, fields with
            | some left, _ => scan peer hops (bytesLeft - cut.2.length - 1) left fields
            -- The fields are separated by a virtual comma.
            | none, field :: rest => scan peer hops (bytesLeft - cut.2.length - 1) field rest
            | none, [] => ⟨N.string addr, peer⟩
          else ⟨N.string addr, peer⟩

def resolve (req : Request) : Address :=
  let fallback : Address := ⟨req.remoteAddr, req.remoteAddr⟩
  if trusted.isEmpty then fallback
  else if ((N.parseAddrPort req.remoteAddr).any fun a => trusts N trusted (N.unmap a)) = false then
    fallback
  else
    match req.forwardedFor.reverse with
    | [] => fallback
    | last :: rest => scan N trusted req.remoteAddr maxHops maxHeaderBytes last rest

end

/-! ## The last entry -/

theorem lastIndexByte_append {b e : Str} {c : Char} (he : c ∉ e) :
    lastIndexByte (b ++ c :: e) c = b.length := by
  have htake : ((b ++ c :: e).reverse.takeWhile (· != c)).length = e.length := by
    rw [List.reverse_append, List.reverse_cons, List.append_assoc,
      List.takeWhile_append_of_pos fun d hd => by
        have : d ≠ c := fun h => he (h ▸ List.mem_reverse.mp hd)
        simpa using this]
    simp
  rw [lastIndexByte, if_pos (by simp), htake]
  simp only [List.length_append, List.length_cons]
  omega

theorem lastIndexByte_of_not_mem {e : Str} {c : Char} (he : c ∉ e) : lastIndexByte e c = -1 :=
  if_neg (by simpa using he)

theorem lastToken_append {b e : Str} {n : Int} (he : ',' ∉ e) (hn : e.length < n) :
    lastToken (b ++ ',' :: e) n = some (some b, e) := by
  -- The budget reaches at least to the comma.
  obtain ⟨k, hk, hkb⟩ : ∃ k : Nat,
      max 0 (((b ++ ',' :: e).length : Int) - n) = k ∧ k ≤ b.length := by
    refine ⟨(max 0 (((b ++ ',' :: e).length : Int) - n)).toNat, ?_, ?_⟩ <;>
      simp only [List.length_append, List.length_cons] <;> omega
  have hdrop : (b ++ ',' :: e).drop k = b.drop k ++ ',' :: e := List.drop_append_of_le_length hkb
  have hcomma : lastIndexByte ((b ++ ',' :: e).drop k) ',' = b.length - k := by
    rw [hdrop, lastIndexByte_append he, List.length_drop]
    omega
  have hsum : (b.length : Int) - k + k = b.length := by omega
  simp only [lastToken, hk, Int.toNat_natCast, hcomma, hsum]
  rw [if_neg (by omega), if_neg (by omega)]
  have htail : ((b.length : Int) + 1).toNat = b.length + 1 := by omega
  rw [htail, List.take_left, List.drop_append]
  simp

theorem lastToken_whole {e : Str} {n : Int} (he : ',' ∉ e) (hn : e.length ≤ n) :
    lastToken e n = some (none, e) := by
  have hstart : max 0 ((e.length : Int) - n) = 0 := by omega
  simp [lastToken, hstart, lastIndexByte_of_not_mem he]

theorem not_mem_or_split (s : Str) : ',' ∉ s ∨ ∃ b e, s = b ++ ',' :: e ∧ ',' ∉ e := by
  by_cases h : ',' ∈ s
  · obtain ⟨e, b, hs, he⟩ := List.eq_append_cons_of_mem (List.mem_reverse.mpr h)
    refine .inr ⟨b.reverse, e.reverse, ?_, fun hmem => he (List.mem_reverse.mp hmem)⟩
    rw [← List.reverse_reverse s, hs]
    simp
  · exact .inl h

theorem last_entry_unique {b b' e e' : Str} (h : b ++ ',' :: e = b' ++ ',' :: e') (he : ',' ∉ e)
    (he' : ',' ∉ e') : b = b' ∧ e = e' := by
  have hlen : (b.length : Int) = b'.length := by
    rw [← lastIndexByte_append he, h, lastIndexByte_append he']
  obtain ⟨hb, hrest⟩ := List.append_inj h (by exact_mod_cast hlen)
  exact ⟨hb, (List.cons.inj hrest).2⟩

/-! ## The list -/

/-- The fields joined by commas: `last` and those before it, the nearest first. -/
def joined (last : Str) : List Str → Str
  | [] => last
  | field :: rest => joined field rest ++ ',' :: last

/-- The end of a list: the entry `e` and those to its right, the last one first. -/
def ending (e : Str) : List Str → Str
  | [] => e
  | last :: rest => ending e rest ++ ',' :: last

/-- The list `text` ends with `suffix`, which begins an entry. -/
def EndsWith (text suffix : Str) : Prop := text = suffix ∨ ∃ left, text = left ++ ',' :: suffix

/-- The last entry of the list and of its last field, and what is left without it. -/
theorem EndsWith.last {last e : Str} {fields : List Str} (h : EndsWith (joined last fields) e)
    (he : ',' ∉ e) : last = e ∨ ∃ b, last = b ++ ',' :: e := by
  rcases not_mem_or_split last with hlast | ⟨b, e', rfl, he'⟩
  · left
    cases fields with
    | nil =>
      rcases h with h | ⟨left, h⟩
      · exact h
      · exact absurd (by rw [show last = _ from h]; simp) hlast
    | cons field rest =>
      rcases h with h | ⟨left, h⟩
      · exact absurd (by rw [← h]; simp [joined]) he
      · exact (last_entry_unique h hlast he).2
  · right
    have hsplit : ∃ c, joined (b ++ ',' :: e') fields = c ++ ',' :: e' := by
      cases fields with
      | nil => exact ⟨b, rfl⟩
      | cons field rest => exact ⟨joined field rest ++ ',' :: b, by simp [joined]⟩
    obtain ⟨c, hc⟩ := hsplit
    rw [hc] at h
    rcases h with h | ⟨left, h⟩
    · exact absurd (by rw [← h]; simp) he
    · exact ⟨b, by rw [(last_entry_unique h he' he).2]⟩

theorem EndsWith.cons {text suffix last : Str} (h : EndsWith text (suffix ++ ',' :: last)) :
    ∃ left, text = left ++ ',' :: last ∧ EndsWith left suffix := by
  rcases h with h | ⟨left, h⟩
  · exact ⟨suffix, h, .inl rfl⟩
  · exact ⟨left ++ ',' :: suffix, by simp [h], .inr ⟨left, rfl⟩⟩

section Scan

variable {Addr Prefix : Type} {N : Netip Addr Prefix} {trusted : List Prefix} {peer : Str}
  {hops : Nat} {n : Int} {fields : List Str} {b e : Str} {addr : Addr}

/-- The first untrusted address from the right is the client's. -/
theorem scan_untrusted {last : Str} (he : ',' ∉ e) (hn : e.length < n)
    (hlast : last = e ∨ ∃ b, last = b ++ ',' :: e) (hhop : hop N e = some addr)
    (htrust : trusts N trusted addr = false) :
    scan N trusted peer (hops + 1) n last fields = ⟨N.string addr, peer⟩ := by
  obtain ⟨o, htoken⟩ : ∃ o, lastToken last n = some (o, e) := by
    rcases hlast with rfl | ⟨b, rfl⟩
    · exact ⟨none, lastToken_whole he (Int.le_of_lt hn)⟩
    · exact ⟨some b, lastToken_append he hn⟩
  rw [scan, if_neg (by omega), htoken]
  simp [hhop, htrust]

theorem scan_trusted (he : ',' ∉ e) (hn : e.length < n) (hhop : hop N e = some addr)
    (htrust : trusts N trusted addr = true) :
    scan N trusted peer (hops + 1) n (b ++ ',' :: e) fields =
      scan N trusted peer hops (n - e.length - 1) b fields := by
  rw [scan, if_neg (by omega), lastToken_append he hn]
  simp [hhop, htrust]

/-- A trusted address at the begin of a field lets the field before it be read. -/
theorem scan_trusted_field {field : Str} (he : ',' ∉ e) (hn : e.length < n)
    (hhop : hop N e = some addr) (htrust : trusts N trusted addr = true) :
    scan N trusted peer (hops + 1) n e (field :: fields) =
      scan N trusted peer hops (n - e.length - 1) field fields := by
  rw [scan, if_neg (by omega), lastToken_whole he (Int.le_of_lt hn)]
  simp [hhop, htrust]

/-- A list that ends with an untrusted address and trusted ones to its right. -/
theorem scan_suffix {last : Str} {rest : List Str} (he : ',' ∉ e) (hhop : hop N e = some addr)
    (htrust : trusts N trusted addr = false)
    (hrest : ∀ d ∈ rest, ',' ∉ d ∧ ∃ a, hop N d = some a ∧ trusts N trusted a = true)
    (hhops : rest.length < hops) (hn : (ending e rest).length < n)
    (h : EndsWith (joined last fields) (ending e rest)) :
    scan N trusted peer hops n last fields = ⟨N.string addr, peer⟩ := by
  -- Induction on the trusted entries: each of them is the last one of what is left to read.
  induction rest generalizing hops n last fields with
  | nil =>
    obtain ⟨k, rfl⟩ : ∃ k, hops = k + 1 := ⟨hops - 1, by simp at hhops; omega⟩
    exact scan_untrusted he hn (h.last he) hhop htrust
  | cons d rest ih =>
    obtain ⟨k, rfl⟩ : ∃ k, hops = k + 1 := ⟨hops - 1, by simp at hhops; omega⟩
    obtain ⟨hd, a, ha, hta⟩ := hrest d List.mem_cons_self
    have hlen : ((ending e rest).length : Int) < n - d.length - 1 := by
      simp only [ending, List.length_append, List.length_cons] at hn
      omega
    have hdn : (d.length : Int) < n := by omega
    have hk : rest.length < k := by
      simp at hhops
      omega
    have hih : ∀ {last fields}, EndsWith (joined last fields) (ending e rest) →
        scan N trusted peer k (n - d.length - 1) last fields = ⟨N.string addr, peer⟩ :=
      ih (fun c hc => hrest c (List.mem_cons_of_mem _ hc)) hk hlen
    obtain ⟨left, htext, hleft⟩ := EndsWith.cons h
    rcases EndsWith.last (.inr ⟨left, htext⟩) hd with rfl | ⟨b, rfl⟩
    · cases fields with
      | nil => exact absurd (by rw [show last = _ from htext]; simp) hd
      | cons field fields =>
        rw [scan_trusted_field hd hdn ha hta]
        exact hih ((last_entry_unique htext hd hd).1 ▸ hleft)
    · rw [scan_trusted hd hdn ha hta]
      refine hih ?_
      have hb : joined (b ++ ',' :: d) fields = joined b fields ++ ',' :: d := by
        cases fields <;> simp [joined]
      rw [hb] at htext
      exact (last_entry_unique htext hd hd).1 ▸ hleft

end Scan

/-! ## Forged lists -/

theorem intercalate_concat {l : List Str} (x : Str) (hl : l ≠ []) :
    List.intercalate [','] (l ++ [x]) = List.intercalate [','] l ++ ',' :: x := by
  induction l with
  | nil => exact absurd rfl hl
  | cons a l ih =>
    cases l with
    | nil => simp [List.intercalate]
    | cons b l =>
      have := ih (by simp)
      simp only [List.cons_append] at this ⊢
      rw [List.intercalate_cons_cons, List.intercalate_cons_cons, this]
      simp

theorem joined_eq (last : Str) (rest : List Str) :
    joined last rest = List.intercalate [','] (rest.reverse ++ [last]) := by
  induction rest generalizing last with
  | nil => simp [joined]
  | cons field rest ih =>
    rw [joined, ih, List.reverse_cons]
    exact (intercalate_concat (l := rest.reverse ++ [field]) last (by simp)).symm

theorem ending_eq (e : Str) (rest : List Str) :
    ending e rest = List.intercalate [','] (e :: rest.reverse) := by
  induction rest with
  | nil => simp [ending]
  | cons d rest ih =>
    rw [ending, ih, List.reverse_cons, ← List.cons_append, intercalate_concat _ (by simp)]

section Forged

variable {Addr Prefix : Type} {N : Netip Addr Prefix} {trusted : List Prefix}

/-- The peer is a trusted proxy. -/
def TrustedPeer (N : Netip Addr Prefix) (trusted : List Prefix) (remoteAddr : Str) : Prop :=
  ∃ a, N.parseAddrPort remoteAddr = some a ∧ trusts N trusted (N.unmap a) = true

/-- The entries of the end of a list: the last untrusted address, and trusted ones to its right,
plain unicast addresses all of them. -/
structure Vouched (N : Netip Addr Prefix) (trusted : List Prefix) (addr : Addr) (e : Str)
    (es : List Str) : Prop where
  entries : ∀ d ∈ e :: es, ',' ∉ d
  untrusted : hop N e = some addr ∧ trusts N trusted addr = false
  proxies : ∀ d ∈ es, ∃ a, hop N d = some a ∧ trusts N trusted a = true

theorem resolve_suffix {req : Request} {addr : Addr} {e : Str} {es : List Str}
    (hpeer : TrustedPeer N trusted req.remoteAddr) (hv : Vouched N trusted addr e es)
    (hhops : (e :: es).length ≤ 32) (hbytes : (List.intercalate [','] (e :: es)).length < 8192)
    (h : EndsWith (List.intercalate [','] req.forwardedFor) (List.intercalate [','] (e :: es))) :
    resolve N trusted req = ⟨N.string addr, req.remoteAddr⟩ := by
  obtain ⟨a, ha, hta⟩ := hpeer
  have hsome : trusted.isEmpty = false := by
    cases trusted with
    | nil => cases hta
    | cons => rfl
  have hending : List.intercalate [','] (e :: es) = ending e es.reverse := by
    rw [ending_eq, List.reverse_reverse]
  rw [hending] at hbytes h
  have hne : req.forwardedFor.reverse ≠ [] := by
    intro hnil
    rw [List.reverse_eq_nil_iff.mp hnil] at h
    rcases h with h | ⟨left, h⟩
    · cases hrev : es.reverse with
      | nil =>
        have he : e = [] := by
          rw [hrev] at h
          exact h.symm
        have hhop := hv.untrusted.1
        simp [he, hop, trimBlanks, N.parseAddr_nil] at hhop
      | cons d rest =>
        rw [hrev] at h
        simp [ending] at h
    · simp at h
  cases hfields : req.forwardedFor.reverse with
  | nil => exact absurd hfields hne
  | cons last rest =>
    have hjoined : List.intercalate [','] req.forwardedFor = joined last rest := by
      rw [joined_eq, ← List.reverse_cons, ← hfields, List.reverse_reverse]
    rw [hjoined] at h
    simp only [resolve, hsome, ha, Option.any_some, hta, hfields, Bool.true_eq_false, if_false,
      Bool.false_eq_true]
    refine scan_suffix (hv.entries e List.mem_cons_self) hv.untrusted.1 hv.untrusted.2 ?_ ?_ ?_ h
    · intro d hd
      have hd := List.mem_reverse.mp hd
      exact ⟨hv.entries d (List.mem_cons_of_mem _ hd), hv.proxies d hd⟩
    · rw [List.length_reverse]
      exact hhops
    · exact Int.ofNat_lt.mpr hbytes

/-- Two requests of one trusted peer whose lists have the same end resolve to the same client,
whatever stands to the left and however the lists are split over header fields. -/
theorem forwarded_unforgeable {req req' : Request} {addr : Addr} {e : Str} {es : List Str}
    (hsame : req'.remoteAddr = req.remoteAddr) (hpeer : TrustedPeer N trusted req.remoteAddr)
    (hv : Vouched N trusted addr e es) (hhops : (e :: es).length ≤ 32)
    (hbytes : (List.intercalate [','] (e :: es)).length < 8192)
    (h : EndsWith (List.intercalate [','] req.forwardedFor) (List.intercalate [','] (e :: es)))
    (h' : EndsWith (List.intercalate [','] req'.forwardedFor) (List.intercalate [','] (e :: es))) :
    resolve N trusted req = ⟨N.string addr, req.remoteAddr⟩ ∧
      resolve N trusted req' = ⟨N.string addr, req.remoteAddr⟩ := by
  refine ⟨resolve_suffix hpeer hv hhops hbytes h, ?_⟩
  rw [← hsame] at hpeer ⊢
  exact resolve_suffix hpeer hv hhops hbytes h'

end Forged

/-- Two addresses, by their texts. -/
def literalAddr (s : Str) : Option Str :=
  if s = "10.0.0.1".toList ∨ s = "203.0.113.9".toList then some s else none

theorem literalAddr_nil : literalAddr [] = none := by decide

/-- What `netip` does with these addresses; a CIDR is one address. -/
def literals : Netip Str Str where
  parseAddr := literalAddr
  parseAddr_nil := literalAddr_nil
  parseAddrPort s := if s = "10.0.0.1:99".toList then some "10.0.0.1".toList else none
  zone _ := []
  unmap a := a
  isUnspecified _ := false
  isMulticast _ := false
  isBroadcast _ := false
  string a := a
  contains p a := p == a

/-- A forged entry, and the same end split over two fields and in one. -/
theorem forwarded_unforgeable_junk :
    resolve literals ["10.0.0.1".toList]
        ⟨"10.0.0.1:99".toList, ["junk, 203.0.113.9".toList, "10.0.0.1".toList]⟩ =
      ⟨"203.0.113.9".toList, "10.0.0.1:99".toList⟩ ∧
    resolve literals ["10.0.0.1".toList]
        ⟨"10.0.0.1:99".toList, ["127.0.0.1, 203.0.113.9,10.0.0.1".toList]⟩ =
      ⟨"203.0.113.9".toList, "10.0.0.1:99".toList⟩ :=
  have hv : Vouched literals ["10.0.0.1".toList] "203.0.113.9".toList " 203.0.113.9".toList
      ["10.0.0.1".toList] := ⟨by decide, by decide, by decide⟩
  forwarded_unforgeable rfl ⟨_, rfl, by decide⟩ hv (by decide) (by decide)
    (.inr ⟨"junk".toList, by decide⟩) (.inr ⟨"127.0.0.1".toList, by decide⟩)

end AptCacher.Clientaddr
