import FileSec.Commit
import FileSec.Lib.SymTerm

/-!
# The primitives with ideal cryptography

`Sym` is `Prims` over symbolic terms: hashing and encryption are constructors, so nothing collides and nothing opens
without its key.  On blobs, which stay byte strings, a ciphertext is the plaintext with a checksum of key, nonce and
plaintext as its tag.  A vault of one owner on a machine that does all it is asked to serves to evaluate the model on.
-/

namespace FileSec

open CrashDir Prog SymTerm

/-- The codec of the object types. -/
def objectTypeCodec : Codec StateObjectType :=
  Codec.nat.map (fun n => if n = 0 then .keystore else if n = 1 then .contacts else if n = 2 then .registry
      else .vaultManifest)
    (fun t => match t with
      | .keystore => 0
      | .contacts => 1
      | .registry => 2
      | .vaultManifest => 3)
    fun t => by cases t <;> rfl

/-- The codec of entry kinds. -/
def kindCodec : Codec EntryKind :=
  Codec.nat.map (fun n => if n = 0 then .file else .dir)
    (fun k => match k with
      | .file => 0
      | .dir => 1)
    fun k => by cases k <;> rfl

/-- The codec of `VaultHeaderV2`. -/
def headerCodec : Codec (VaultHeaderV2 Term) :=
  (Codec.nat.pair (Codec.nat.pair (Codec.name.pair Codec.term))).map
    (fun p => ⟨p.1, p.2.1, p.2.2.1, p.2.2.2⟩) (fun h => (h.formatVersion, h.suiteId, h.vaultId, h.manifestStanza))
    fun _ => rfl

/-- The codec of `StateMetadata`. -/
def stateCodec : Codec (StateMetadata Term) :=
  (Codec.name.pair (objectTypeCodec.pair (Codec.text.pair (Codec.nat.pair (Codec.nat.pair
    (Codec.term.pair Codec.term)))))).map
    (fun p => ⟨p.1, p.2.1, p.2.2.1, p.2.2.2.1, p.2.2.2.2.1, p.2.2.2.2.2.1, p.2.2.2.2.2.2⟩)
    (fun s => (s.identityFingerprint, s.objectType, s.objectId, s.suiteId, s.epoch, s.previousStateHash,
      s.currentStateHash))
    fun _ => rfl

/-- The codec of `EntryV2`. -/
def entryCodec : Codec EntryV2 :=
  (Codec.text.pair (kindCodec.pair (Codec.nat.pair (Codec.int.option.pair (Codec.nat.option.pair
    (Codec.name.pair (Codec.text.option.pair (Codec.name.option.pair (Codec.name.option.pair Codec.nat))))))))).map
    (fun p => ⟨⟨p.2.1, p.2.2.1, p.2.2.2.1, p.2.2.2.2.1, p.2.2.2.2.2.1, p.2.2.2.2.2.2.1, p.2.2.2.2.2.2.2.1,
      p.2.2.2.2.2.2.2.2.1, p.2.2.2.2.2.2.2.2.2⟩, p.1⟩)
    (fun e => (e.path, e.kind, e.size, e.mtime, e.mode, e.blake3, e.fileId, e.key, e.nonce, e.chunkSize))
    fun _ => rfl

/-- The codec of `ManifestV2`. -/
def manifestCodec : Codec ManifestV2 :=
  (Codec.text.pair (Codec.int.pair entryCodec.list)).map (fun p => ⟨p.1, p.2.1, p.2.2⟩)
    (fun m => (m.vaultName, m.createdAt, m.entries)) fun _ => rfl

/-- The codec of `ManifestEnvelopeV3`. -/
def envelopeCodec : Codec (ManifestEnvelopeV3 Term Term) :=
  (Codec.nat.pair (stateCodec.pair (Codec.name.pair Codec.term))).map (fun p => ⟨p.1, p.2.1, p.2.2.1, p.2.2.2⟩)
    (fun e => (e.version, e.state, e.nonce, e.ciphertext)) fun _ => rfl

/-- The codec of the associated data of a manifest. -/
def aadCodec : Codec (Term × StateMetadata Term) := Codec.term.pair stateCodec

/-- The term a state hash is the hash of. -/
def preimageTerm (p : StatePreimage Term Term) : Term :=
  (stateCodec.pair Codec.term).enc (⟨p.identityFingerprint, p.objectType, p.objectId, p.suiteId, p.epoch,
    p.previousStateHash, .nat 0⟩, p.payload)

/-- The checksum that stands for a BLAKE3 hash or an AEAD tag: the sum of the bytes, in `n` bytes. -/
def checksum (n : Nat) (b : Bytes) : Bytes :=
  UInt8.ofNat (b.map UInt8.toNat).sum :: UInt8.ofNat b.length :: List.replicate (n - 2) 0

/-- The primitives over symbolic terms. -/
def Sym : Prims where
  Raw := Term
  Stanza := Term
  Digest := Term
  decRaw := inferInstance
  decDigest := inferInstance
  rawLen := Term.size
  genesisHash := .nat 0
  hashState p := .hash (preimageTerm p)
  hashContent := checksum 32
  encodeHeader := headerCodec.enc
  decodeHeader := headerCodec.dec
  encodeManifest := manifestCodec.enc
  decodeManifest := manifestCodec.dec
  encodeEnvelope := envelopeCodec.enc
  decodeEnvelope := envelopeCodec.dec
  sealWith _ key nonce aad pt := .enc key nonce (aadCodec.enc aad) pt
  openWith _ key nonce aad ct := match ct with
    | .enc key' nonce' aad' pt => if key' = key ∧ nonce' = nonce ∧ aad' = aadCodec.enc aad then some pt else none
    | _ => none
  sealBytes _ key nonce _ pt := pt ++ checksum 16 (key ++ nonce ++ pt)
  openBytes _ key nonce _ ct :=
    let pt := ct.take (ct.length - 16)
    if ct.drop (ct.length - 16) = checksum 16 (key ++ nonce ++ pt) then some pt else none
  wrapForRecipient key recipient suite seed :=
    if suite = .hybrid ∧ recipient.hybridCapable = false then
      .error (.missingPqcKey "recipient has no ML-KEM key".toList)
    else .ok (.wrap recipient.fingerprint key seed)
  unwrapWithIdentity stanza identity := match stanza with
    | .wrap recipient key _ => if recipient = identity.fingerprint then .ok key else .error .notARecipient
    | _ => .error .notARecipient
  decodeHeader_encodeHeader := headerCodec.dec_enc
  decodeManifest_encodeManifest := manifestCodec.dec_enc
  decodeEnvelope_encodeEnvelope := envelopeCodec.dec_enc
  openWith_sealWith alg key nonce aad pt := by simp
  openBytes_sealBytes alg key nonce aad pt := by simp [checksum]
  length_sealBytes alg key nonce aad pt := by simp [checksum, tagLen]
  unwrap_wrap key identity suite seed stanza h := by
    split at h
    · simp at h
    · simp only [Except.ok.injEq] at h
      subst h
      simp [Identity.fingerprint]

/-! ### A vault to evaluate on -/

/-- Every step of sealing works. -/
def SealIo.fine : SealIo := ⟨true, none, true⟩

/-- Every step of a commit works. -/
def CommitIo.fine : CommitIo := ⟨.fine, fun _ => true⟩

/-- Every step of creating a vault works. -/
def CreateIo.fine : CreateIo := ⟨none, none, true, 0, .fine⟩

/-- Every step of writing a blob works. -/
def BlobIo.fine : BlobIo := ⟨none, true⟩

/-- A result that is known to be there. -/
theorem eq_ok_get {α : Type} {x : Result α} (h : x.toOption.isSome = true) : x = .ok (x.toOption.get h) := by
  cases x with
  | error e => simp [Except.toOption] at h
  | ok a => rfl

namespace Sym

/-- The owner. -/
def alice : Identity := ⟨⟨[1], false⟩⟩

/-- An empty machine with a generator that makes `n` draws. -/
def host (n : Nat) : Host Sym := ⟨.empty, .empty, .counting n⟩

/-- Creating a vault for the owner. -/
def created (n : Nat) : Result (VaultReaderV2 Sym) × Host Sym :=
  exec (create Sym alice .classic "v".toList 0 .fine) (host n)

theorem created_ok : (created 16).1.toOption.isSome = true := by decide

/-- The session of the new vault. -/
def session : Session Sym := ⟨(created 16).1.toOption.get created_ok, (created 16).2⟩

/-- A path of 64 components. -/
def deepPath : Str := ['/'].intercalate (List.replicate 64 ['a'])

end Sym

end FileSec
