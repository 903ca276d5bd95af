import FileSec.Fsec.Symbolic
import FileSec.Keys.Format

/-!
# The primitives of keystores, computable

`keys` puts the primitives of a keystore beside those of containers: the codecs write terms as bytes, and Argon2id is a
checksum of its inputs.
-/

namespace FileSec.Keys.Sym

open SymTerm Fsec Fsec.Sym

/-- The codec of `SecretBundle`. -/
def bundleCodec : Codec SecretBundle :=
  (Codec.text.pair (Codec.int.pair (bytes32Codec.pair (bytes32Codec.pair (Codec.name.option.pair
    (Codec.name.option.pair (Codec.name.option.pair Codec.name.option))))))).map
    (fun p => ⟨p.1, p.2.1, p.2.2.1, p.2.2.2.1, p.2.2.2.2.1, p.2.2.2.2.2.1, p.2.2.2.2.2.2.1, p.2.2.2.2.2.2.2⟩)
    (fun b => (b.name, b.createdAt, b.signSecret, b.kemSecret, b.mldsaSeed, b.mldsaPublic, b.mlkemSeed, b.mlkemPublic))
    fun _ => rfl

/-- The codec of `KdfParams`. -/
def kdfCodec : Codec KdfParams :=
  (Codec.nat.pair (Codec.nat.pair Codec.nat)).map (fun p => ⟨p.1, p.2.1, p.2.2⟩) (fun k => (k.mCost, k.tCost, k.pCost))
    fun _ => rfl

/-- The codec of `KeystoreV1`. -/
def legacyCodec : Codec KeystoreV1 :=
  (Codec.nat.pair (kdfCodec.pair (Codec.name.pair (Codec.name.pair Codec.name)))).map
    (fun p => ⟨p.1, p.2.1, p.2.2.1, p.2.2.2.1, p.2.2.2.2⟩)
    (fun k => (k.version, k.kdf, k.salt, k.nonce, k.ciphertext)) fun _ => rfl

/-- The codec of `PassphraseSlot`. -/
def passphraseCodec : Codec PassphraseSlot :=
  (kdfCodec.pair (Codec.name.pair (Codec.name.pair Codec.name))).map (fun p => ⟨p.1, p.2.1, p.2.2.1, p.2.2.2⟩)
    (fun s => (s.kdf, s.salt, s.nonce, s.wrappedDek)) fun _ => rfl

/-- The codec of truth values. -/
def boolCodec : Codec Bool :=
  Codec.nat.map (fun n => n = 1) (fun b => if b then 1 else 0) fun b => by cases b <;> rfl

/-- The codec of `PasskeySlot`. -/
def passkeyCodec : Codec PasskeySlot :=
  (Codec.name.pair (Codec.text.pair (Codec.name.pair (Codec.text.pair (Codec.int.pair (boolCodec.pair
    (Codec.name.pair Codec.name))))))).map
    (fun p => ⟨p.1, p.2.1, p.2.2.1, p.2.2.2.1, p.2.2.2.2.1, p.2.2.2.2.2.1, p.2.2.2.2.2.2.1, p.2.2.2.2.2.2.2⟩)
    (fun s => (s.credentialId, s.rpId, s.hmacSalt, s.label, s.addedAt, s.metadataBound, s.nonce, s.wrappedDek))
    fun _ => rfl

/-- The codec of `DeviceSlot`. -/
def deviceCodec : Codec DeviceSlot :=
  (Codec.name.pair Codec.name).map (fun p => ⟨p.1, p.2⟩) (fun s => (s.nonce, s.wrappedDek)) fun _ => rfl

/-- The codec of `KeystoreV2`. -/
def bodyCodec : Codec KeystoreV2 :=
  (Codec.nat.pair (Codec.name.pair (Codec.name.pair (passphraseCodec.pair (passkeyCodec.list.pair
    deviceCodec.option))))).map
    (fun p => ⟨p.1, p.2.1, p.2.2.1, p.2.2.2.1, p.2.2.2.2.1, p.2.2.2.2.2⟩)
    (fun k => (k.version, k.bundleNonce, k.bundleCt, k.passphrase, k.passkeys, k.device)) fun _ => rfl

/-- The codec of the state of a keystore. -/
def keyStateCodec : Codec (StateMetadata Bytes) :=
  (Codec.name.pair (objectTypeCodec.pair (Codec.text.pair (Codec.nat.pair (Codec.nat.pair
    (Codec.name.pair Codec.name)))))).map
    (fun p => ⟨p.1, p.2.1, p.2.2.1, p.2.2.2.1, p.2.2.2.2.1, p.2.2.2.2.2.1, p.2.2.2.2.2.2⟩)
    (fun s => (s.identityFingerprint, s.objectType, s.objectId, s.suiteId, s.epoch, s.previousStateHash,
      s.currentStateHash))
    fun _ => rfl

/-- The codec of `PublicIdentity`. -/
def publicCodec : Codec Peer.PublicIdentity :=
  (Codec.text.pair (Codec.int.pair (bytes32Codec.pair (bytes32Codec.pair (Codec.name.option.pair
    Codec.name.option))))).map
    (fun p => ⟨p.1, p.2.1, p.2.2.1.1, p.2.2.2.1.1, p.2.2.2.2.1, p.2.2.2.2.2, p.2.2.1.2, p.2.2.2.1.2⟩)
    (fun p => (p.name, p.createdAt, ⟨p.signPublic, p.signPublic_length⟩, ⟨p.kemPublic, p.kemPublic_length⟩,
      p.mldsaPublic, p.mlkemPublic))
    fun _ => rfl

/-- The codec of `KeystoreV3`. -/
def frameCodec : Codec KeystoreV3 :=
  (Codec.nat.pair (keyStateCodec.pair (publicCodec.pair (bodyCodec.pair Codec.name)))).map
    (fun p => ⟨p.1, p.2.1, p.2.2.1, p.2.2.2.1, p.2.2.2.2⟩)
    (fun k => (k.version, k.state, k.publicIdentity, k.body, k.signature)) fun _ => rfl

/-- A codec as bytes. -/
def rawCodec {α : Type} (c : Codec α) : RawCodec Bytes α := ⟨c.toBytes, c.ofBytes, c.ofBytes_toBytes⟩

/-- The primitives of a keystore. -/
def keys : KeyPrims where
  argon2id passphrase salt _ := some (checksum 32 (passphrase ++ salt))
  bundle := rawCodec bundleCodec
  legacy := rawCodec legacyCodec
  body := rawCodec bodyCodec
  frame := rawCodec frameCodec

/-- Another identity. -/
def bob : Fsec.Identity container where
  name := "bob".toList
  createdAt := 0
  signSecret := ⟨List.replicate 32 3, by simp⟩
  kemSecret := ⟨List.replicate 32 4, by simp⟩
  mldsa := none
  mlkem := none

/-- Cheap parameters that pass. -/
def cheap : KdfParams := ⟨8, 1, 1⟩

/-- The passphrase. -/
def phrase : Bytes := [112, 119]

/-- A token. -/
def token : Bytes := List.replicate 32 7

private theorem created_ok : (KeystoreFile.create keys alice phrase cheap draws).toOption.isSome = true := by
  decide

/-- A keystore that opens with a passphrase. -/
@[irreducible]
def created : KeystoreFile := (KeystoreFile.create keys alice phrase cheap draws).toOption.get created_ok

theorem create_ok : KeystoreFile.create keys alice phrase cheap draws = .ok created := by
  unfold created
  exact eq_ok_get created_ok

end FileSec.Keys.Sym
