import FileSec.Peer.Identity

/-!
# Envelopes of v1 containers

The records of a `.fsec` container and the wrapping of its content key to the recipients (`format.rs`, `envelope.rs`,
`kem.rs`, `mlkem.rs`, `mldsa.rs`).  `FsecPrims` collects what lies below: the two CBOR codecs, the signatures, the key
agreements and the key derivation, with the laws that make them ideal; the AEADs and the hash are those of `Prims`.
-/

namespace FileSec.Fsec

/-- An array of 32 bytes. -/
abbrev Bytes32 := { b : Bytes // b.length = 32 }

/-- `RecipientStanza` -/
structure RecipientStanza where
  recipientFpr : Bytes
  ephemeralPublic : Bytes32
  mlkemCiphertext : Option Bytes
  wrapNonce : Bytes
  wrappedCek : Bytes
  deriving DecidableEq

/-- `Header` -/
structure Header where
  suiteId : Nat
  vaultId : Bytes
  senderSignPublic : Bytes32
  senderKemPublic : Bytes32
  senderMldsaPublic : Option Bytes
  senderMlkemPublic : Option Bytes
  senderFpr : Bytes
  recipients : List RecipientStanza
  manifestNonce : Bytes
  manifestLen : Nat
  dataStreamNonce : Bytes
  dataChunkSize : Nat
  dataLen : Nat
  deriving DecidableEq

/-- `Manifest` -/
structure Manifest where
  vaultName : Str
  createdAt : Int
  entries : List Entry
  deriving DecidableEq

/-! ### The primitives -/

/-- `sign::SIGNATURE_LEN` -/
def signatureLen : Nat := 64

/-- `mldsa::PUBLIC_LEN` -/
def mldsaPublicLen : Nat := 1952

/-- `mldsa::SIGNATURE_LEN` -/
def mldsaSignatureLen : Nat := 3309

/-- `mldsa::SEED_LEN` -/
def mldsaSeedLen : Nat := 32

/-- `mlkem::PUBLIC_LEN` -/
def mlkemPublicLen : Nat := 1184

/-- `mlkem::CIPHERTEXT_LEN` -/
def mlkemCiphertextLen : Nat := 1088

/-- `mlkem::SEED_LEN` -/
def mlkemSeedLen : Nat := 64

/-- `SYM_KEY_LEN` -/
def symKeyLen : Nat := 32

structure FsecPrims (P : Prims) where
  /-- Bytes as associated data. -/
  aad : Bytes → P.Raw
  encodeHeader : Header → Bytes
  decodeHeader : Bytes → Option Header
  encodeManifest : Manifest → Bytes
  decodeManifest : Bytes → Option Manifest
  /-- BLAKE3 in its key derivation mode, by context and input. -/
  deriveKey : Str → Bytes → Bytes
  /-- Ed25519. -/
  signPublic : Bytes32 → Bytes32
  signRaw : Bytes32 → Bytes → Bytes
  verify : Bytes32 → Bytes → Bytes → Result Unit
  /-- X25519; an agreement that is not contributory gives nothing. -/
  kemPublic : Bytes32 → Bytes32
  diffieHellman : Bytes32 → Bytes32 → Option Bytes
  /-- ML-DSA-65, by seed. -/
  mldsaKey : Bytes → Bytes
  mldsaSignRaw : Bytes → Bytes → Bytes
  mldsaVerifyRaw : Bytes → Bytes → Bytes → Bool
  /-- ML-KEM-768, by seed; a valid key is one that decodes, and encapsulation takes its randomness as an argument. -/
  mlkemKey : Bytes → Bytes
  mlkemValid : Bytes → Bool
  encapsulateRaw : Bytes → Bytes → Bytes × Bytes
  decapsulateRaw : Bytes → Bytes → Bytes
  decodeHeader_encodeHeader : ∀ h, decodeHeader (encodeHeader h) = some h
  decodeManifest_encodeManifest : ∀ m, decodeManifest (encodeManifest m) = some m
  length_signRaw : ∀ secret msg, (signRaw secret msg).length = signatureLen
  verify_sign : ∀ secret msg, verify (signPublic secret) msg (signRaw secret msg) = .ok ()
  diffieHellman_comm : ∀ a b, diffieHellman a (kemPublic b) = diffieHellman b (kemPublic a)
  length_mldsaKey : ∀ seed, (mldsaKey seed).length = mldsaPublicLen
  length_mldsaSignRaw : ∀ seed msg, (mldsaSignRaw seed msg).length = mldsaSignatureLen
  mldsaVerify_sign : ∀ seed msg, mldsaVerifyRaw (mldsaKey seed) msg (mldsaSignRaw seed msg) = true
  length_mlkemKey : ∀ seed, (mlkemKey seed).length = mlkemPublicLen
  length_encapsulateRaw : ∀ key m, (encapsulateRaw key m).1.length = mlkemCiphertextLen
  decapsulate_encapsulate : ∀ seed m,
    decapsulateRaw seed (encapsulateRaw (mlkemKey seed) m).1 = (encapsulateRaw (mlkemKey seed) m).2

variable {P : Prims} (C : FsecPrims P)

/-- `mldsa::sign` -/
def mldsaSign (seed msg : Bytes) : Result Bytes :=
  if seed.length ≠ mldsaSeedLen then .error (.badKey "ml-dsa seed length".toList) else .ok (C.mldsaSignRaw seed msg)

/-- `mldsa::verify` -/
def mldsaVerify (publicKey msg signature : Bytes) : Result Unit :=
  if publicKey.length ≠ mldsaPublicLen then .error (.badKey "ml-dsa public key length".toList)
  else if signature.length ≠ mldsaSignatureLen then .error .badSignature
  else if C.mldsaVerifyRaw publicKey msg signature then .ok ()
  else .error .badSignature

/-- `mlkem::encapsulate` with its draw: the ciphertext and the shared secret. -/
def encapsulate (recipientPublic : Bytes) (draw : Option (Nat → UInt8)) : Result (Bytes × Bytes) :=
  if recipientPublic.length ≠ mlkemPublicLen then .error (.badKey "ml-kem public key length".toList)
  else if C.mlkemValid recipientPublic = false then .error (.badKey "ml-kem public key".toList)
  else do
    let m ← randomVec 32 draw
    .ok (C.encapsulateRaw recipientPublic m)

/-- `mlkem::decapsulate` -/
def decapsulate (seed ciphertext : Bytes) : Result Bytes :=
  if ciphertext.length ≠ mlkemCiphertextLen then .error (.badKey "ml-kem ciphertext length".toList)
  else if seed.length ≠ mlkemSeedLen then .error (.badKey "ml-kem seed length".toList)
  else .ok (C.decapsulateRaw seed ciphertext)

/-! ### Identities -/

/-- `PqcMaterial` for the scheme whose seeds of length `len` have the public keys `key`; the keystore refuses material
whose halves do not match. -/
structure PqcMaterial (key : Bytes → Bytes) (len : Nat) where
  publicKey : Bytes
  seed : Bytes
  seed_length : seed.length = len
  publicKey_eq : publicKey = key seed

/-- `Identity` -/
structure Identity where
  name : Str
  createdAt : Int
  signSecret : Bytes32
  kemSecret : Bytes32
  mldsa : Option (PqcMaterial C.mldsaKey mldsaSeedLen)
  mlkem : Option (PqcMaterial C.mlkemKey mlkemSeedLen)

variable {C}

/-- `Identity::public` -/
def Identity.publicPart (identity : Identity C) : Peer.PublicIdentity where
  name := identity.name
  createdAt := identity.createdAt
  signPublic := C.signPublic identity.signSecret
  kemPublic := C.kemPublic identity.kemSecret
  mldsaPublic := identity.mldsa.map (·.publicKey)
  mlkemPublic := identity.mlkem.map (·.publicKey)
  signPublic_length := (C.signPublic identity.signSecret).2
  kemPublic_length := (C.kemPublic identity.kemSecret).2

/-- `Identity::fingerprint` -/
def Identity.fingerprint (identity : Identity C) : Bytes := identity.publicPart.fingerprint P.hashContent

/-- `Identity::sign` -/
def Identity.sign (identity : Identity C) (msg : Bytes) : Bytes := C.signRaw identity.signSecret msg

/-- `Identity::sign_pqc` -/
def Identity.signPqc (identity : Identity C) (msg : Bytes) : Result Bytes :=
  match identity.mldsa with
  | none => .error (.missingPqcKey "identity has no ML-DSA key".toList)
  | some m => mldsaSign C m.seed msg

/-- `Identity::agree` -/
def Identity.agree (identity : Identity C) (ephemeralPublic : Bytes32) : Result Bytes :=
  match C.diffieHellman identity.kemSecret ephemeralPublic with
  | none => .error (.badKey "non-contributory X25519 agreement".toList)
  | some shared => .ok shared

/-- `Identity::mlkem_decapsulate` -/
def Identity.mlkemDecapsulate (identity : Identity C) (ciphertext : Bytes) : Result Bytes :=
  match identity.mlkem with
  | none => .error (.missingPqcKey "identity has no ML-KEM key".toList)
  | some m => decapsulate C m.seed ciphertext

/-! ### Wrapping the content key -/

/-- `WRAP_CONTEXT` -/
def wrapContext : Str := "FileSec x25519 key-wrap v1".toList

/-- `HYBRID_WRAP_CONTEXT` -/
def hybridWrapContext : Str := "FileSec x25519+ml-kem-768 hybrid key-wrap v1".toList

/-- `WRAP_AAD` -/
def wrapAad : Bytes := asBytes "FileSec CEK wrap v1".toList

variable (C)

/-- `derive_kwk` -/
def deriveKwk (shared ephemeralPublic recipientPublic : Bytes) : Bytes :=
  C.deriveKey wrapContext (shared ++ ephemeralPublic ++ recipientPublic)

/-- `derive_hybrid_kwk` -/
def deriveHybridKwk (classicalShared pqShared ephemeralPublic recipientKemPublic mlkemCiphertext recipientMlkemPublic :
    Bytes) : Bytes :=
  C.deriveKey hybridWrapContext
    (classicalShared ++ pqShared ++ ephemeralPublic ++ recipientKemPublic ++ mlkemCiphertext ++ recipientMlkemPublic)

/-- The draws of the system's generator, in their order. -/
abbrev Draws := Nat → Option (Nat → UInt8)

/-- `random_array::<32>` -/
def randomArray (draw : Option (Nat → UInt8)) : Result Bytes32 :=
  match h : randomVec 32 draw with
  | .ok bytes => .ok ⟨bytes, randomVec_length h⟩
  | .error e => .error e

/-- `kem::ephemeral_agree` with its draw: the shared secret and the ephemeral public key. -/
def ephemeralAgree (recipientPublic : Bytes32) (draw : Option (Nat → UInt8)) : Result (Bytes × Bytes32) := do
  let ephemeral ← randomArray draw
  match C.diffieHellman ephemeral recipientPublic with
  | none => .error (.badKey "non-contributory X25519 agreement".toList)
  | some shared => .ok (shared, C.kemPublic ephemeral)

/-- `wrap_hybrid_kwk` -/
def wrapHybridKwk (classicalShared ephemeralPublic : Bytes) (recipient : Peer.PublicIdentity)
    (draw : Option (Nat → UInt8)) : Result (Option Bytes × Bytes) :=
  match recipient.mlkemPublic with
  | none => .error (.missingPqcKey "recipient has no ML-KEM key".toList)
  | some recipMlkem => do
    let (ciphertext, pqShared) ← encapsulate C recipMlkem draw
    .ok (some ciphertext,
      deriveHybridKwk C classicalShared pqShared ephemeralPublic recipient.kemPublic ciphertext recipMlkem)

/-- `SuiteId::is_hybrid` -/
def isHybrid : SuiteId → Bool
  | .classic => false
  | .aes256Gcm => false
  | .hybrid => true

/-- The branch of `wrap_for_recipient` over the suites: the ML-KEM ciphertext, and the key-wrapping key. -/
def wrapKwk (shared ephemeralPublic : Bytes) (recipient : Peer.PublicIdentity) (suite : SuiteId)
    (draw : Option (Nat → UInt8)) : Result (Option Bytes × Bytes) :=
  if isHybrid suite then wrapHybridKwk C shared ephemeralPublic recipient draw
  else .ok (none, deriveKwk C shared ephemeralPublic recipient.kemPublic)

/-- `wrap_for_recipient` with its three draws. -/
def wrapForRecipient (cek : Bytes) (recipient : Peer.PublicIdentity) (suite : SuiteId) (draws : Draws) :
    Result RecipientStanza := do
  let (shared, ephemeralPublic) ← ephemeralAgree C ⟨recipient.kemPublic, recipient.kemPublic_length⟩ (draws 0)
  let wrapNonce ← randomVec AeadAlg.xchacha20Poly1305.nonceLen (draws 1)
  let (mlkemCiphertext, kwk) ← wrapKwk C shared ephemeralPublic recipient suite (draws 2)
  .ok {
    recipientFpr := recipient.fingerprint P.hashContent
    ephemeralPublic
    mlkemCiphertext
    wrapNonce
    wrappedCek := P.sealBytes .xchacha20Poly1305 kwk wrapNonce (C.aad wrapAad) cek }

variable {C}

/-- `unwrap_hybrid_kwk` -/
def unwrapHybridKwk (classicalShared ephemeralPublic recipientKemPublic mlkemCiphertext : Bytes)
    (identity : Identity C) : Result Bytes :=
  match identity.mlkem with
  | none => .error (.missingPqcKey "identity has no ML-KEM key".toList)
  | some m => do
    let pqShared ← identity.mlkemDecapsulate mlkemCiphertext
    .ok (deriveHybridKwk C classicalShared pqShared ephemeralPublic recipientKemPublic mlkemCiphertext m.publicKey)

/-- The branch of `unwrap_with_identity` over the stanzas: the key-wrapping key. -/
def unwrapKwk (shared : Bytes) (stanza : RecipientStanza) (identity : Identity C) : Result Bytes :=
  match stanza.mlkemCiphertext with
  | some ciphertext =>
    unwrapHybridKwk shared stanza.ephemeralPublic (C.kemPublic identity.kemSecret) ciphertext identity
  | none => .ok (deriveKwk C shared stanza.ephemeralPublic (C.kemPublic identity.kemSecret))

/-- `unwrap_with_identity` -/
def unwrapWithIdentity (stanza : RecipientStanza) (identity : Identity C) : Result Bytes := do
  let shared ← identity.agree stanza.ephemeralPublic
  let kwk ← unwrapKwk shared stanza identity
  if stanza.wrapNonce.length ≠ AeadAlg.xchacha20Poly1305.nonceLen then throw (.format "aead nonce length".toList)
  match P.openBytes .xchacha20Poly1305 kwk stanza.wrapNonce (C.aad wrapAad) stanza.wrappedCek with
  | none => .error .auth
  | some cek => if cek.length ≠ symKeyLen then .error (.format "wrapped content key length".toList) else .ok cek

/-! ### Unwrapping what has been wrapped -/

theorem bind_eq_ok {α β : Type} {x : Result α} {f : α → Result β} {b : β} :
    (x >>= f) = .ok b ↔ ∃ a, x = .ok a ∧ f a = .ok b := by
  cases x with
  | error e => simp [bind, Except.bind]
  | ok a => simp [bind, Except.bind]

/-- Encapsulating needs a key of the right length, and whoever holds its seed gets the same secret. -/
private theorem encapsulate_eq_ok {key ct shared : Bytes} {draw : Option (Nat → UInt8)}
    (h : encapsulate C key draw = .ok (ct, shared)) :
    key.length = mlkemPublicLen ∧ ∀ seed, seed.length = mlkemSeedLen → key = C.mlkemKey seed →
      decapsulate C seed ct = .ok shared := by
  unfold encapsulate at h
  split at h
  · cases h
  · rename_i hlen
    split at h
    · cases h
    · obtain ⟨m, -, hm⟩ := bind_eq_ok.1 h
      rw [Except.ok.injEq] at hm
      refine ⟨by omega, fun seed hseed hkey => ?_⟩
      have hct : ct.length = mlkemCiphertextLen := by
        have := C.length_encapsulateRaw key m
        rwa [hm] at this
      have hdec := C.decapsulate_encapsulate seed m
      rw [← hkey, hm] at hdec
      unfold decapsulate
      rw [if_neg (by omega), if_neg (by omega)]
      exact congrArg Except.ok hdec

theorem ephemeralAgree_eq_ok {recipientPublic ephemeralPublic : Bytes32} {shared : Bytes} {draw : Option (Nat → UInt8)}
    (h : ephemeralAgree C recipientPublic draw = .ok (shared, ephemeralPublic)) :
    ∃ ephemeral, C.diffieHellman ephemeral recipientPublic = some shared ∧ ephemeralPublic = C.kemPublic ephemeral := by
  obtain ⟨ephemeral, -, h⟩ := bind_eq_ok.1 h
  cases hdh : C.diffieHellman ephemeral recipientPublic with
  | none =>
    rw [hdh] at h
    cases h
  | some s =>
    rw [hdh] at h
    simp only [Except.ok.injEq, Prod.mk.injEq] at h
    exact ⟨ephemeral, by rw [hdh, h.1], h.2.symm⟩

/-- The stanza for a recipient names its fingerprint, and for a hybrid suite its key has the right length. -/
theorem wrapForRecipient_eq_ok {cek : Bytes} {recipient : Peer.PublicIdentity} {suite : SuiteId} {draws : Draws}
    {stanza : RecipientStanza} (h : wrapForRecipient C cek recipient suite draws = .ok stanza) :
    stanza.recipientFpr = recipient.fingerprint P.hashContent ∧
      (isHybrid suite = true → ∃ key, recipient.mlkemPublic = some key ∧ key.length = mlkemPublicLen) ∧
      ∀ identity : Identity C, cek.length = symKeyLen → recipient.kemPublic = identity.publicPart.kemPublic →
        (isHybrid suite = true → recipient.mlkemPublic = identity.publicPart.mlkemPublic) →
        unwrapWithIdentity stanza identity = .ok cek := by
  obtain ⟨⟨shared, ephemeralPublic⟩, hagree, h⟩ := bind_eq_ok.1 h
  obtain ⟨ephemeral, hdh, rfl⟩ := ephemeralAgree_eq_ok hagree
  obtain ⟨wrapNonce, hnonce, h⟩ := bind_eq_ok.1 h
  have hlen := randomVec_length hnonce
  obtain ⟨⟨mlkemCiphertext, kwk⟩, hkwk, h⟩ := bind_eq_ok.1 h
  simp only [Except.ok.injEq] at h
  subst h
  have hshared : ∀ identity : Identity C, recipient.kemPublic = identity.publicPart.kemPublic →
      identity.agree (C.kemPublic ephemeral) = .ok shared := by
    intro identity hkem
    unfold Identity.agree
    rw [C.diffieHellman_comm]
    have hpublic : (⟨recipient.kemPublic, recipient.kemPublic_length⟩ : Bytes32) = C.kemPublic identity.kemSecret :=
      Subtype.ext hkem
    rw [← hpublic, hdh]
  -- it is enough to come to the same key-wrapping key
  have hopen : ∀ identity : Identity C, cek.length = symKeyLen → recipient.kemPublic = identity.publicPart.kemPublic →
      unwrapKwk shared ⟨recipient.fingerprint P.hashContent, C.kemPublic ephemeral, mlkemCiphertext, wrapNonce,
        P.sealBytes .xchacha20Poly1305 kwk wrapNonce (C.aad wrapAad) cek⟩ identity = .ok kwk →
      unwrapWithIdentity ⟨recipient.fingerprint P.hashContent, C.kemPublic ephemeral, mlkemCiphertext, wrapNonce,
        P.sealBytes .xchacha20Poly1305 kwk wrapNonce (C.aad wrapAad) cek⟩ identity = .ok cek := by
    intro identity hcek hkem hk
    unfold unwrapWithIdentity
    simp only [hshared identity hkem, hk, hlen, bind, Except.bind, P.openBytes_sealBytes]
    rw [if_neg (not_not.2 rfl), if_neg (by omega)]
  unfold wrapKwk at hkwk
  by_cases hs : isHybrid suite = true
  · rw [if_pos hs] at hkwk
    unfold wrapHybridKwk at hkwk
    cases hkey : recipient.mlkemPublic with
    | none =>
      rw [hkey] at hkwk
      cases hkwk
    | some key =>
      rw [hkey] at hkwk
      obtain ⟨⟨ct, pqShared⟩, henc, hkwk⟩ := bind_eq_ok.1 hkwk
      simp only [Except.ok.injEq, Prod.mk.injEq] at hkwk
      obtain ⟨rfl, rfl⟩ := hkwk
      obtain ⟨hlen, hdec⟩ := encapsulate_eq_ok henc
      refine ⟨rfl, fun _ => ⟨key, rfl, hlen⟩, fun identity hcek hkem hmlkem => hopen identity hcek hkem ?_⟩
      have hmine : some key = identity.mlkem.map (·.publicKey) := hmlkem hs
      have hkemEq : (C.kemPublic identity.kemSecret : Bytes) = recipient.kemPublic := hkem.symm
      cases hm : identity.mlkem with
      | none =>
        rw [hm] at hmine
        cases hmine
      | some m =>
        rw [hm] at hmine
        have hkeym : key = m.publicKey := Option.some.inj hmine
        have hdecm : identity.mlkemDecapsulate ct = .ok pqShared := by
          unfold Identity.mlkemDecapsulate
          rw [hm]
          exact hdec m.seed m.seed_length (hkeym.trans m.publicKey_eq)
        simp only [unwrapKwk, unwrapHybridKwk, hm, hdecm, bind, Except.bind, hkemEq, hkeym]
  · rw [if_neg hs] at hkwk
    simp only [Except.ok.injEq, Prod.mk.injEq] at hkwk
    obtain ⟨rfl, rfl⟩ := hkwk
    refine ⟨rfl, fun h => absurd h hs, fun identity hcek hkem _ => hopen identity hcek hkem ?_⟩
    have hkemEq : (C.kemPublic identity.kemSecret : Bytes) = recipient.kemPublic := hkem.symm
    simp only [unwrapKwk, hkemEq]

end FileSec.Fsec
