import AptCacher.Gpg.Clearsign
import AptCacher.Spec.Fail

/-!
# Pins and the signing key

A body is accepted if one of its signature packets passes two tests: its claimed issuer is trusted,
and the signature verifies against a list of entities. The first looks at a fingerprint that the
packet claims, or at a short key id; the second at every key of the entities on the list. Pins narrow
the list to the entities that have a pinned key.

* `OpenPGP`: the library, with what it promises.
* `resolveTrustSet`, `verifyAnyTrusted`, `verifyInline`, `verifyDetached`: as in the source.
* `Endorsed`: a packet that the text carries, made by a key of a pinned entity.
* `pins_bind_entity`: on a pinned host both verifiers succeed only on an endorsed text.
* `unpinned_subkey`: the key itself need not be pinned. The other keys of its entity will do.
-/

namespace AptCacher.Gpg

open Aptpath

/-! ## Keys and packets -/

/-- A public key. -/
structure Key where
  fingerprint : List UInt8
  keyId : UInt64
  deriving DecidableEq

/-- `openpgp.Entity`; `ref` is the pointer. -/
structure Entity where
  ref : Nat
  primaryKey : Key
  subkeys : List Key
  deriving DecidableEq

/-- The primary key and the subkeys. -/
def Entity.keys (e : Entity) : List Key := e.primaryKey :: e.subkeys

/-- `packet.Signature`; no fingerprint means no subpacket. -/
structure Signature where
  issuerFingerprint : List UInt8
  issuerKeyId : Option UInt64
  /-- The rest of the packet. -/
  body : Str
  deriving DecidableEq

/-- What `Reader.Next` returns. -/
inductive Packet
  | signature (sig : Signature)
  | other
  /-- A packet that does not parse. -/
  | failed
  deriving DecidableEq

/-- `clearsign.Block`. -/
structure Block where
  plaintext : Str
  /-- The bytes that are signed. -/
  bytes : Str
  /-- The binary signature packets, if the armor reads. -/
  armoredSignature : Option Str
  deriving DecidableEq

/-- What `clearsign.Decode` does. -/
inductive Decoded
  | block (b : Block)
  | none
  | panicked
  deriving DecidableEq

/-- The OpenPGP library. -/
structure OpenPGP where
  /-- `clearsign.Decode`. -/
  decode : Str → Decoded
  /-- `armor.Decode`: the type of the block, and its body if it reads. -/
  dearmor : Str → Option (Str × Option Str)
  /-- `packet.Reader`. -/
  packets : Str → List Packet
  /-- `Signature.Serialize`. -/
  serializes : Signature → Bool
  /-- `VerifyDetachedSignature`. -/
  verifies : List Entity → Str → Signature → Bool
  /-- The key made the signature, and it is valid for the text. -/
  Made : Key → Str → Signature → Prop
  /-- A message stands between its two markers. -/
  decode_marked : ∀ data b, decode data = .block b → clearsignBegin <:+: data ∧ clearsignEnd <:+: data
  /-- Only a key with the issuer key id verifies a packet. -/
  verifies_made : ∀ list text sig, verifies list text sig = true →
    ∃ e ∈ list, ∃ k ∈ e.keys, sig.issuerKeyId = some k.keyId ∧ Made k text sig

/-! ## The trust set -/

/-- An upper-case hex digit. -/
def hexDigit (n : UInt8) : Char := Char.ofNat (if n < 10 then 48 + n.toNat else 55 + n.toNat)

def upperFP (fp : List UInt8) : Str := fp.flatMap fun b => [hexDigit (b / 16), hexDigit (b % 16)]

/-- `SignerPin`, a `[[trusted_signer]]` block. -/
structure SignerPin where
  /-- `HostRegex.MatchString`. -/
  hostMatches : Str → Bool
  fingerprints : List Str

structure Verifier where
  /-- `keyring.entities`. -/
  keyring : List Entity
  pins : List SignerPin
  requirePinned : Bool
  allowShortKeyID : Bool
  acceptAnySigner : Bool

def entityHasAnyFingerprint (e : Entity) (fps : List Str) : Bool :=
  e.keys.any fun k => fps.contains (upperFP k.fingerprint)

def subset (entities : List Entity) (fps : List Str) : List Entity :=
  if fps = [] then [] else entities.filter fun e => entityHasAnyFingerprint e fps

/-- The errors of the verifier. -/
inductive GpgErr
  | malformedClearsign
  | clearsignPanicked
  | missingSignature
  | unpinnedSuite
  /-- `read signature` -/
  | readSignature
  | signatureTooLarge
  /-- `decode signature` -/
  | armorDecode
  | armorType (type : Str)
  | noSignaturePacket
  | readPacket
  | emptyRelease
  | emptyReleaseGpg
  | noUsableSignature
  | untrustedSigner
  | shortKeyID
  | ambiguousKeyID
  | serialize
  /-- The error of `VerifyDetachedSignature`. -/
  | badSignature
  /-- `signature verification failed` -/
  | verificationFailed (cause : GpgErr)
  deriving DecidableEq

/-- What `resolveTrustSet` returns. -/
structure TrustSet where
  entities : List Entity
  fps : List Str
  pinned : Bool
  bypass : Bool

/-- The fingerprints of the pins that match the host. -/
def Verifier.union (v : Verifier) (host : Str) : List Str :=
  (v.pins.filter fun p => p.hostMatches host).flatMap SignerPin.fingerprints

def resolveTrustSet (v : Verifier) (host : Str) : Except GpgErr TrustSet :=
  if (v.pins.filter fun p => p.hostMatches host) = [] then
    if v.requirePinned then .error .unpinnedSuite
    else if v.acceptAnySigner then .ok ⟨[], [], false, true⟩
    else .ok ⟨v.keyring, v.keyring.flatMap fun e => e.keys.map fun k => upperFP k.fingerprint, false, false⟩
  else .ok ⟨subset v.keyring (v.union host), v.union host, true, false⟩

/-! ## The packets -/

/-- `findUniqueEntityByKeyID`: `matched` is the entity found so far. -/
def findUniqueEntityByKeyID (keyID : UInt64) : List Entity → Option Entity → Except GpgErr (Option Entity)
  | [], matched => .ok matched
  | e :: es, matched =>
    if e.keys.any fun k => k.keyId == keyID then
      match matched with
      | some m => if m.ref ≠ e.ref then .error .ambiguousKeyID else findUniqueEntityByKeyID keyID es (some e)
      | none => findUniqueEntityByKeyID keyID es (some e)
    else findUniqueEntityByKeyID keyID es matched

/-- What the loop of `verifyAnyTrusted` has seen. -/
structure Seen where
  anyShortKeyID : Bool
  anyUntrusted : Bool
  sawSignature : Bool
  anyTrustedSeen : Bool
  lastVerifyErr : Option GpgErr
  deriving DecidableEq

section Verify

variable (L : OpenPGP)

/-- The packet alone, serialized again, against the entities: the error, if any. -/
def verifyPacket (entities : List Entity) (signed : Str) (sig : Signature) : Option GpgErr :=
  if L.serializes sig = false then some .serialize
  else if L.verifies entities signed sig then none
  else some .badSignature

def verifyAgainst (e : Entity) (signed : Str) (sig : Signature) : Option GpgErr :=
  verifyPacket L [e] signed sig

/-- One signature packet: it is accepted, or what has been seen after it. -/
def tryPacket (allowShortKeyID : Bool) (trustSet : List Entity) (trustFPs : List Str) (signed : Str)
    (sig : Signature) (seen : Seen) : Option Seen :=
  let seen := { seen with sawSignature := true }
  if sig.issuerFingerprint = [] then
    let seen := { seen with anyShortKeyID := true }
    match allowShortKeyID, sig.issuerKeyId with
    | true, some keyID =>
      match findUniqueEntityByKeyID keyID trustSet none with
      | .error e => some { seen with anyTrustedSeen := true, lastVerifyErr := some e }
      | .ok none => some { seen with anyUntrusted := true }
      | .ok (some e) =>
        match verifyAgainst L e signed sig with
        | none => none
        | some verr => some { seen with anyTrustedSeen := true, lastVerifyErr := some verr }
    | _, _ => some seen
  else if !trustFPs.contains (upperFP sig.issuerFingerprint) then
    some { seen with anyUntrusted := true }
  else
    match verifyPacket L trustSet signed sig with
    | none => none
    | some verr => some { seen with anyTrustedSeen := true, lastVerifyErr := some verr }

/-- Why no packet was accepted. -/
def Seen.verdict (seen : Seen) (allowShortKeyID : Bool) : GpgErr :=
  if !seen.sawSignature then .noUsableSignature
  else match seen.anyTrustedSeen, seen.lastVerifyErr with
    | true, some e => .verificationFailed e
    | _, _ =>
      if seen.anyUntrusted then .untrustedSigner
      else if seen.anyShortKeyID && !allowShortKeyID then .shortKeyID
      else .noUsableSignature

/-- `verifyAnyTrusted`: the first packet that passes both tests. -/
def verifyAnyTrusted (allowShortKeyID : Bool) (trustSet : List Entity) (trustFPs : List Str)
    (signed : Str) : List Packet → Seen → Except GpgErr Unit
  | [], seen => .error (seen.verdict allowShortKeyID)
  | .failed :: _, _ => .error .readPacket
  | .other :: ps, seen => verifyAnyTrusted allowShortKeyID trustSet trustFPs signed ps seen
  | .signature sig :: ps, seen =>
    match tryPacket L allowShortKeyID trustSet trustFPs signed sig seen with
    | none => .ok ()
    | some seen => verifyAnyTrusted allowShortKeyID trustSet trustFPs signed ps seen

def requireParseableSignature : List Packet → Except GpgErr Unit
  | [] => .error .noSignaturePacket
  | .failed :: _ => .error .readPacket
  | .other :: ps => requireParseableSignature ps
  | .signature _ :: _ => .ok ()

/-- The largest signature, `64 << 10`. -/
def maxSignature : Nat := 65536

/-- The body is no larger than a signature can be. -/
def readSignature (body : Option Str) : Except GpgErr Str :=
  match body with
  | none => .error .readSignature
  | some out => if maxSignature < out.length then .error .signatureTooLarge else .ok out

def isArmoredSignature (b : Str) : Bool :=
  "-----BEGIN PGP SIGNATURE-----".toList.isPrefixOf (b.dropWhile isBlank)

def decodeMaybeArmoredSignature (b : Str) : Except GpgErr Str :=
  if isArmoredSignature b then
    match L.dearmor b with
    | none => .error .armorDecode
    | some (type, body) =>
      if type = "PGP SIGNATURE".toList then readSignature body else .error (.armorType type)
  else readSignature (some b)

end Verify

/-! ## The two verifiers -/

section Verifiers

variable (L : OpenPGP) (v : Verifier) (host : Str)

/-- The last checks of both verifiers; `read` is the read of the signature. -/
def checkSignature (trust : TrustSet) (signed : Str) (read : Except GpgErr Str) : Except GpgErr Unit :=
  if trust.bypass then do
    let sigBytes ← read
    requireParseableSignature (L.packets sigBytes)
  else if trust.entities = [] then throw .noUsableSignature
  else do
    let sigBytes ← read
    verifyAnyTrusted L v.allowShortKeyID trust.entities trust.fps signed (L.packets sigBytes)
      ⟨false, false, false, false, none⟩

def verifyInline (inRelease : Str) : Except GpgErr Str :=
  if requireBareClearsigned inRelease = false then throw .malformedClearsign
  else do
    let trust ← resolveTrustSet v host
    match L.decode (decodableClearsign inRelease) with
    | .panicked => throw .clearsignPanicked
    | .none =>
      if clearsignBegin <:+: inRelease then throw .malformedClearsign else throw .missingSignature
    | .block block => do
      checkSignature L v trust block.bytes (readSignature block.armoredSignature)
      pure block.plaintext

def verifyDetached (releaseBytes sigBytes : Str) : Except GpgErr Str :=
  if releaseBytes = [] then throw .emptyRelease
  else if sigBytes = [] then throw .emptyReleaseGpg
  else do
    let trust ← resolveTrustSet v host
    checkSignature L v trust releaseBytes (decodeMaybeArmoredSignature L sigBytes)
    pure releaseBytes

end Verifiers

/-! ## What an accepted packet shows -/

/-- The packet is a signature over the text that was made by a key of a loaded entity, one of whose
keys is pinned for the host. If it claims a fingerprint, that one is pinned. -/
structure Endorsed (L : OpenPGP) (v : Verifier) (host text : Str) (sig : Signature) : Prop where
  made : ∃ e ∈ v.keyring, (∃ k ∈ e.keys, upperFP k.fingerprint ∈ v.union host) ∧
    ∃ k ∈ e.keys, sig.issuerKeyId = some k.keyId ∧ L.Made k text sig
  claimed : sig.issuerFingerprint = [] ∨ upperFP sig.issuerFingerprint ∈ v.union host

/-- The packet verifies against entities of the trust set, and claims a trusted fingerprint if it
claims one. -/
def Accepts (L : OpenPGP) (trustSet : List Entity) (trustFPs : List Str) (signed : Str)
    (sig : Signature) : Prop :=
  (∃ list, (∀ e ∈ list, e ∈ trustSet) ∧ L.verifies list signed sig = true) ∧
    (sig.issuerFingerprint = [] ∨ upperFP sig.issuerFingerprint ∈ trustFPs)

section Accepted

variable {L : OpenPGP} {v : Verifier} {host signed : Str} {trustSet : List Entity} {trustFPs : List Str}
  {allowShortKeyID : Bool}

theorem mem_of_findUnique {keyID : UInt64} {es : List Entity} {matched : Option Entity} {e : Entity}
    (h : findUniqueEntityByKeyID keyID es matched = .ok (some e)) : e ∈ es ∨ matched = some e := by
  induction es generalizing matched with
  | nil =>
    cases h
    exact .inr rfl
  | cons e' es ih =>
    unfold findUniqueEntityByKeyID at h
    have hnext (h : findUniqueEntityByKeyID keyID es (some e') = .ok (some e)) : e ∈ e' :: es := by
      rcases ih h with hmem | heq
      · exact List.mem_cons_of_mem _ hmem
      · cases heq
        exact List.mem_cons_self
    split at h
    · split at h
      · split at h
        · cases h
        · exact .inl (hnext h)
      · exact .inl (hnext h)
    · exact (ih h).imp_left (List.mem_cons_of_mem _)

theorem verifies_of_verifyPacket {entities : List Entity} {sig : Signature}
    (h : verifyPacket L entities signed sig = none) : L.verifies entities signed sig = true := by
  unfold verifyPacket at h
  split at h
  · cases h
  · split at h
    · assumption
    · cases h

theorem tryPacket_accepted {sig : Signature} {seen : Seen}
    (h : tryPacket L allowShortKeyID trustSet trustFPs signed sig seen = none) :
    Accepts L trustSet trustFPs signed sig := by
  unfold tryPacket at h
  simp only at h
  split at h
  · rename_i hfp
    refine ⟨?_, .inl hfp⟩
    split at h
    · split at h
      · cases h
      · cases h
      · rename_i e hfind
        split at h
        · rename_i hv
          refine ⟨[e], fun e' he' => ?_, verifies_of_verifyPacket hv⟩
          rw [List.mem_singleton.mp he']
          exact (mem_of_findUnique hfind).resolve_right nofun
        · cases h
    · cases h
  · split at h
    · cases h
    · rename_i hfp
      split at h
      · rename_i hv
        exact ⟨⟨trustSet, fun _ he => he, verifies_of_verifyPacket hv⟩, .inr (by simpa using hfp)⟩
      · cases h

theorem verifyAnyTrusted_accepted {ps : List Packet} {seen : Seen}
    (h : verifyAnyTrusted L allowShortKeyID trustSet trustFPs signed ps seen = .ok ()) :
    ∃ sig, .signature sig ∈ ps ∧ Accepts L trustSet trustFPs signed sig := by
  induction ps generalizing seen with
  | nil => cases h
  | cons p ps ih =>
    cases p with
    | failed => cases h
    | other =>
      obtain ⟨sig, hmem, hsig⟩ := ih h
      exact ⟨sig, List.mem_cons_of_mem _ hmem, hsig⟩
    | signature sig =>
      unfold verifyAnyTrusted at h
      split at h
      · rename_i ht
        exact ⟨sig, List.mem_cons_self, tryPacket_accepted ht⟩
      · obtain ⟨sig', hmem, hsig⟩ := ih h
        exact ⟨sig', List.mem_cons_of_mem _ hmem, hsig⟩

theorem mem_subset {entities : List Entity} {fps : List Str} {e : Entity} (h : e ∈ subset entities fps) :
    e ∈ entities ∧ ∃ k ∈ e.keys, upperFP k.fingerprint ∈ fps := by
  unfold subset at h
  split at h
  · cases h
  · obtain ⟨hmem, hany⟩ := List.mem_filter.mp h
    simp only [entityHasAnyFingerprint, List.any_eq_true, List.contains_eq_mem, decide_eq_true_eq] at hany
    exact ⟨hmem, hany⟩

/-- With the pinned trust set an accepted packet endorses the text. -/
theorem endorsed_of_accepted {ps : List Packet} {seen : Seen}
    (h : verifyAnyTrusted L allowShortKeyID (subset v.keyring (v.union host)) (v.union host) signed ps
      seen = .ok ()) : ∃ sig, .signature sig ∈ ps ∧ Endorsed L v host signed sig := by
  obtain ⟨sig, hmem, ⟨list, hlist, hv⟩, hclaimed⟩ := verifyAnyTrusted_accepted h
  obtain ⟨e, he, k, hk, hid, hmade⟩ := L.verifies_made list signed sig hv
  obtain ⟨hring, hpin⟩ := mem_subset (hlist e he)
  exact ⟨sig, hmem, ⟨e, hring, hpin, k, hk, hid, hmade⟩, hclaimed⟩

theorem resolveTrustSet_pinned (h : ∃ p ∈ v.pins, p.hostMatches host = true) :
    resolveTrustSet v host = .ok ⟨subset v.keyring (v.union host), v.union host, true, false⟩ := by
  obtain ⟨p, hp, hm⟩ := h
  have hne : (v.pins.filter fun p => p.hostMatches host) ≠ [] :=
    List.ne_nil_of_mem (List.mem_filter.mpr ⟨hp, hm⟩)
  unfold resolveTrustSet
  rw [if_neg hne]

theorem checkSignature_endorsed {pinned : Bool} {read : Except GpgErr Str}
    (h : checkSignature L v ⟨subset v.keyring (v.union host), v.union host, pinned, false⟩ signed read =
      .ok ()) :
    ∃ packets, read = .ok packets ∧ ∃ sig, .signature sig ∈ L.packets packets ∧
      Endorsed L v host signed sig := by
  unfold checkSignature at h
  rw [if_neg Bool.false_ne_true] at h
  split at h
  · cases h
  · obtain ⟨packets, hread, hverify⟩ := Spec.bind_eq_ok.mp h
    exact ⟨packets, hread, endorsed_of_accepted hverify⟩

theorem readSignature_some {body : Option Str} {out : Str} (h : readSignature body = .ok out) :
    body = some out := by
  unfold readSignature at h
  split at h
  · cases h
  · split at h
    · cases h
    · cases h
      rfl

end Accepted

/-- The binary packets of a detached signature, armored or not. -/
def detachedPackets (L : OpenPGP) (sigBytes : Str) : List Packet :=
  match decodeMaybeArmoredSignature L sigBytes with
  | .ok binarySig => L.packets binarySig
  | .error _ => []

/-- On a host that a pin matches, an inline body that verifies is one clearsigned message, whose text
is returned and which carries a signature that was made by a key of a pinned entity. A detached
signature that verifies holds such a signature over the returned text. -/
theorem pins_bind_entity (L : OpenPGP) (v : Verifier) (host : Str)
    (hpin : ∃ p ∈ v.pins, p.hostMatches host = true) :
    (∀ stored text, verifyInline L v host stored = .ok text →
      SoleMessage stored ∧ ∃ block packets, L.decode (decodableClearsign stored) = .block block ∧
        block.armoredSignature = some packets ∧ text = block.plaintext ∧
        ∃ sig, .signature sig ∈ L.packets packets ∧ Endorsed L v host block.bytes sig) ∧
    ∀ releaseBytes sigBytes text, verifyDetached L v host releaseBytes sigBytes = .ok text →
      text = releaseBytes ∧
        ∃ sig, .signature sig ∈ detachedPackets L sigBytes ∧ Endorsed L v host text sig := by
  constructor
  · intro stored text h
    unfold verifyInline at h
    split at h
    · cases h
    · rename_i hbare
      obtain ⟨trust, htrust, h⟩ := Spec.bind_eq_ok.mp h
      rw [resolveTrustSet_pinned hpin] at htrust
      cases htrust
      split at h
      · cases h
      · split at h <;> cases h
      · rename_i block hd
        obtain ⟨⟨⟩, hcheck, hpure⟩ := Spec.bind_eq_ok.mp h
        cases hpure
        obtain ⟨hbegin, hend⟩ := L.decode_marked _ _ hd
        obtain ⟨packets, hread, hsig⟩ := checkSignature_endorsed hcheck
        have hsole : SoleMessage stored :=
          soleMessage_of_bare (by simpa using hbare) (begin_of_decodable hbegin) (end_of_decodable hend)
        exact ⟨hsole, block, packets, hd, readSignature_some hread, rfl, hsig⟩
  · intro releaseBytes sigBytes text h
    unfold verifyDetached at h
    split at h
    · cases h
    · split at h
      · cases h
      · obtain ⟨trust, htrust, h⟩ := Spec.bind_eq_ok.mp h
        rw [resolveTrustSet_pinned hpin] at htrust
        cases htrust
        obtain ⟨⟨⟩, hcheck, hpure⟩ := Spec.bind_eq_ok.mp h
        cases hpure
        obtain ⟨packets, hread, hsig⟩ := checkSignature_endorsed hcheck
        unfold detachedPackets
        rw [hread]
        exact ⟨rfl, hsig⟩

/-! ## Runs -/

/-- A library in which only the key 1 signs, and every body holds the one packet. -/
def signer (sig : Signature) : OpenPGP where
  decode data :=
    if clearsignBegin <:+: data ∧ clearsignEnd <:+: data then
      .block ⟨"Suite: x".toList, "Suite: x".toList, some ['s']⟩
    else .none
  dearmor _ := none
  packets _ := [.other, .signature sig]
  serializes _ := true
  verifies list _ s := s.issuerKeyId == some 1 && list.any fun e => e.keys.any fun k => k.keyId == 1
  Made k _ _ := k.keyId = 1
  decode_marked data b h := by
    split at h
    · assumption
    · cases h
  verifies_made list text s h := by
    simp only [Bool.and_eq_true, beq_iff_eq, List.any_eq_true] at h
    obtain ⟨hid, e, he, k, hk, hk1⟩ := h
    exact ⟨e, he, k, hk, hid.trans (congrArg some hk1.symm), hk1⟩

/-- An entity with the primary key 1 and the subkey 2. -/
def archive : Entity := ⟨0, ⟨[1], 1⟩, [⟨[2], 2⟩]⟩

/-- One pin, for every host. -/
def pinning (fp : Str) : Verifier := ⟨[archive], [⟨fun _ => true, [fp]⟩], false, true, false⟩

/-- A clearsigned body. -/
def inRelease : Str :=
  clearsignBegin ++ "\n\nSuite: x\n-----BEGIN PGP SIGNATURE-----\n\n".toList ++ clearsignEnd ++ "\n".toList

/-- The pinned primary key signs. -/
theorem pins_bind_entity_primary :
    verifyInline (signer ⟨[1], some 1, []⟩) (pinning "01".toList) "deb".toList inRelease =
      .ok "Suite: x".toList ∧
    SoleMessage inRelease ∧
    ∃ sig, .signature sig ∈ detachedPackets (signer ⟨[1], some 1, []⟩) "gpg".toList ∧
      Endorsed (signer ⟨[1], some 1, []⟩) (pinning "01".toList) "deb".toList "Suite: x".toList sig := by
  have hrun : verifyInline (signer ⟨[1], some 1, []⟩) (pinning "01".toList) "deb".toList inRelease =
      .ok "Suite: x".toList := by decide +kernel
  have hdetached : verifyDetached (signer ⟨[1], some 1, []⟩) (pinning "01".toList) "deb".toList
      "Suite: x".toList "gpg".toList = .ok "Suite: x".toList := by decide +kernel
  obtain ⟨hinline, hdet⟩ := pins_bind_entity (signer ⟨[1], some 1, []⟩) (pinning "01".toList) "deb".toList
    ⟨_, List.mem_singleton.mpr rfl, rfl⟩
  exact ⟨hrun, (hinline _ _ hrun).1, (hdet _ _ _ hdetached).2⟩

/-- Only the subkey 2 is pinned. A packet that claims its fingerprint and the key id of the primary key
is accepted, and so is a packet with the short key id of the primary key alone; both were made by the
primary key. -/
theorem unpinned_subkey :
    (∀ sig ∈ [(⟨[2], some 1, []⟩ : Signature), ⟨[], some 1, []⟩],
      verifyDetached (signer sig) (pinning "02".toList) "deb".toList "Suite: x".toList "gpg".toList =
        .ok "Suite: x".toList ∧
      ∀ e ∈ (pinning "02".toList).keyring, ∀ k ∈ e.keys,
        upperFP k.fingerprint ∈ (pinning "02".toList).union "deb".toList →
        ¬ (signer sig).Made k "Suite: x".toList sig) ∧
    (archive.keys.map Key.fingerprint).Nodup := by
  refine ⟨fun sig hsig => ?_, by decide⟩
  have hnot : ∀ e ∈ (pinning "02".toList).keyring, ∀ k ∈ e.keys,
      upperFP k.fingerprint ∈ (pinning "02".toList).union "deb".toList → k.keyId ≠ 1 := by decide +kernel
  rcases List.mem_cons.mp hsig with rfl | hsig
  · exact ⟨by decide +kernel, hnot⟩
  · rw [List.mem_singleton.mp hsig]
    exact ⟨by decide +kernel, hnot⟩

end AptCacher.Gpg
