import FileSec.Manifest
import Mathlib.Tactic.IntervalCases

/-!
# The code the vault format rests on

`Prims` collects what the repository takes from elsewhere: the CBOR codec, the AEADs, the BLAKE3 hash and the key wrap
of the envelope.  `Raw` is the type of what the header and manifest files hold and of their plaintexts.  The laws say
that decoding and decrypting invert encoding and encrypting, and that a ciphertext is its plaintext with a tag.
-/

namespace FileSec

/-- What is public of an identity. -/
structure PublicIdentity where
  fingerprint : Bytes
  hybridCapable : Bool
  deriving DecidableEq

/-- An identity with its private keys. -/
structure Identity where
  publicPart : PublicIdentity
  deriving DecidableEq

/-- `Identity::fingerprint` -/
def Identity.fingerprint (identity : Identity) : Bytes := identity.publicPart.fingerprint

/-- The associated data of a sealed manifest: the header bytes and the state, each length-prefixed. -/
abbrev ManifestAad (Raw Digest : Type) := Raw × StateMetadata Digest

structure Prims where
  Raw : Type
  Stanza : Type
  Digest : Type
  decRaw : DecidableEq Raw
  decDigest : DecidableEq Digest
  /-- The number of bytes of a file. -/
  rawLen : Raw → Nat
  /-- `GENESIS_HASH` -/
  genesisHash : Digest
  /-- BLAKE3 over the length-prefixed fields of a state. -/
  hashState : StatePreimage Digest Raw → Digest
  /-- BLAKE3 over the content of a file. -/
  hashContent : Bytes → Bytes
  encodeHeader : VaultHeaderV2 Stanza → Raw
  decodeHeader : Raw → Option (VaultHeaderV2 Stanza)
  encodeManifest : ManifestV2 → Raw
  decodeManifest : Raw → Option ManifestV2
  encodeEnvelope : ManifestEnvelopeV3 Digest Raw → Raw
  decodeEnvelope : Raw → Option (ManifestEnvelopeV3 Digest Raw)
  /-- `aead::seal_with` and `aead::open_with` on manifests. -/
  sealWith : AeadAlg → Bytes → Bytes → ManifestAad Raw Digest → Raw → Raw
  openWith : AeadAlg → Bytes → Bytes → ManifestAad Raw Digest → Raw → Option Raw
  /-- The same on the chunks of a blob, whose associated data are the header bytes. -/
  sealBytes : AeadAlg → Bytes → Bytes → Raw → Bytes → Bytes
  openBytes : AeadAlg → Bytes → Bytes → Raw → Bytes → Option Bytes
  /-- `envelope::wrap_for_recipient`; the number stands for the ephemeral key and the nonce drawn. -/
  wrapForRecipient : Bytes → PublicIdentity → SuiteId → Nat → Result Stanza
  /-- `envelope::unwrap_with_identity` -/
  unwrapWithIdentity : Stanza → Identity → Result Bytes
  decodeHeader_encodeHeader : ∀ h, decodeHeader (encodeHeader h) = some h
  decodeManifest_encodeManifest : ∀ m, decodeManifest (encodeManifest m) = some m
  decodeEnvelope_encodeEnvelope : ∀ e, decodeEnvelope (encodeEnvelope e) = some e
  openWith_sealWith : ∀ alg key nonce aad pt, openWith alg key nonce aad (sealWith alg key nonce aad pt) = some pt
  openBytes_sealBytes : ∀ alg key nonce aad pt,
    openBytes alg key nonce aad (sealBytes alg key nonce aad pt) = some pt
  length_sealBytes : ∀ alg key nonce aad pt, (sealBytes alg key nonce aad pt).length = pt.length + tagLen
  unwrap_wrap : ∀ key identity suite seed stanza,
    wrapForRecipient key identity.publicPart suite seed = .ok stanza →
      unwrapWithIdentity stanza identity = .ok key

attribute [simp] Prims.decodeHeader_encodeHeader Prims.decodeManifest_encodeManifest
  Prims.decodeEnvelope_encodeEnvelope Prims.openWith_sealWith Prims.openBytes_sealBytes Prims.length_sealBytes

instance (P : Prims) : DecidableEq P.Raw := P.decRaw

instance (P : Prims) : DecidableEq P.Digest := P.decDigest

/-- The state metadata of the vaults of `P`. -/
abbrev Prims.State (P : Prims) := StateMetadata P.Digest

/-! ### Random draws -/

/-- `secret::random_vec`: `n` bytes, or an error when the generator fails. -/
def randomVec (n : Nat) : Option (Nat → UInt8) → Result Bytes
  | none => .error .rng
  | some f => .ok ((List.range n).map f)

theorem randomVec_length {n : Nat} {draw : Option (Nat → UInt8)} {bytes : Bytes}
    (h : randomVec n draw = .ok bytes) : bytes.length = n := by
  cases draw with
  | none => simp [randomVec] at h
  | some f =>
    simp only [randomVec, Except.ok.injEq] at h
    subst h
    simp

/-! ### Blob ids -/

private theorem isBlobIdChar_hexDigit {n : Nat} (h : n < 16) : isBlobIdChar (hexDigit n) = true := by
  interval_cases n <;> decide

private theorem utf8Size_hexDigit {n : Nat} (h : n < 16) : (hexDigit n).utf8Size = 1 := by
  interval_cases n <;> decide

theorem hex_all (bytes : Bytes) : (hex bytes).all isBlobIdChar = true ∧ byteLen (hex bytes) = 2 * bytes.length := by
  induction bytes with
  | nil => simp [hex]
  | cons b bytes ih =>
    have e : hex (b :: bytes) = hexDigit (b.toNat / 16) :: hexDigit (b.toNat % 16) :: hex bytes := rfl
    have hb := b.toNat_lt
    have h1 : b.toNat / 16 < 16 := by omega
    have h2 : b.toNat % 16 < 16 := by omega
    rw [e]
    refine ⟨?_, ?_⟩
    · simp [isBlobIdChar_hexDigit h1, isBlobIdChar_hexDigit h2, ih.1]
    · simp [utf8Size_hexDigit h1, utf8Size_hexDigit h2, ih.2]
      omega

/-- The name of a blob drawn from sixteen random bytes is a valid blob id. -/
theorem validateBlobId_hex {bytes : Bytes} (h : bytes.length = 16) : validateBlobId (hex bytes) = .ok () := by
  obtain ⟨h1, h2⟩ := hex_all bytes
  unfold validateBlobId
  rw [if_neg (by rw [h2, h]; decide), if_pos h1]

end FileSec
