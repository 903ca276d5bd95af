import FileSec.Fsec.Writer

/-!
# The keystore

The private identity at rest (`keystore.rs`): the secret bundle is sealed under a data key, which is wrapped once under the
passphrase and once for each passkey and device token; the whole is signed and carries an epoch and a hash chain
(`state.rs`).  Two older generations open only through an explicit recovery.
-/

namespace FileSec.Keys

open Fsec

/-! ### Records -/

/-- `KdfParams` -/
structure KdfParams where
  mCost : Nat
  tCost : Nat
  pCost : Nat
  deriving DecidableEq

/-- `SecretBundle` -/
structure SecretBundle where
  name : Str
  createdAt : Int
  signSecret : Bytes32
  kemSecret : Bytes32
  mldsaSeed : Option Bytes
  mldsaPublic : Option Bytes
  mlkemSeed : Option Bytes
  mlkemPublic : Option Bytes
  deriving DecidableEq

/-- `KeystoreV1` -/
structure KeystoreV1 where
  version : Nat
  kdf : KdfParams
  salt : Bytes
  nonce : Bytes
  ciphertext : Bytes
  deriving DecidableEq

/-- `PassphraseSlot` -/
structure PassphraseSlot where
  kdf : KdfParams
  salt : Bytes
  nonce : Bytes
  wrappedDek : Bytes
  deriving DecidableEq

/-- `PasskeySlot` -/
structure PasskeySlot where
  credentialId : Bytes
  rpId : Str
  hmacSalt : Bytes
  label : Str
  addedAt : Int
  metadataBound : Bool
  nonce : Bytes
  wrappedDek : Bytes
  deriving DecidableEq

/-- `DeviceSlot` -/
structure DeviceSlot where
  nonce : Bytes
  wrappedDek : Bytes
  deriving DecidableEq

/-- `KeystoreV2` -/
structure KeystoreV2 where
  version : Nat
  bundleNonce : Bytes
  bundleCt : Bytes
  passphrase : PassphraseSlot
  passkeys : List PasskeySlot
  device : Option DeviceSlot
  deriving DecidableEq

/-- `KeystoreV3` -/
structure KeystoreV3 where
  version : Nat
  state : StateMetadata Bytes
  publicIdentity : Peer.PublicIdentity
  body : KeystoreV2
  signature : Bytes
  deriving DecidableEq

/-- `PasskeyEnrollment` -/
structure PasskeyEnrollment where
  credentialId : Bytes
  rpId : Str
  hmacSalt : Bytes
  label : Str
  addedAt : Int
  hmacOutput : Bytes

/-- What the keystore uses besides the primitives of containers: Argon2id, and the CBOR codecs of its records. -/
structure KeyPrims where
  argon2id : Bytes → Bytes → KdfParams → Option Bytes
  bundle : RawCodec Bytes SecretBundle
  legacy : RawCodec Bytes KeystoreV1
  body : RawCodec Bytes KeystoreV2
  frame : RawCodec Bytes KeystoreV3

/-! ### Deriving keys -/

/-- `VERSION_V1` -/
def versionV1 : Nat := 1

/-- `VERSION_V2` -/
def versionV2 : Nat := 2

/-- `VERSION_V3` -/
def versionV3 : Nat := 3

/-- `MAGIC_V2` -/
def magicV2 : Bytes := [0x46, 0x53, 0x4b, 0x1a]

/-- `SALT_LEN` -/
def saltLen : Nat := 16

/-- `AAD_V1` -/
def aadV1 : Bytes := asBytes "FileSec keystore v1".toList

/-- `AAD_BUNDLE_V2` -/
def aadBundleV2 : Bytes := asBytes "FileSec keystore v2 bundle".toList

/-- `WRAP_AAD_V2` -/
def wrapAadV2 : Bytes := asBytes "FileSec keystore v2 dek-wrap".toList

/-- `PASSKEY_KEK_CONTEXT` -/
def passkeyKekContext : Str := "FileSec passkey keyslot v1".toList

/-- `DEVICE_KEK_CONTEXT` -/
def deviceKekContext : Str := "FileSec device unlock keyslot v1".toList

/-- `KdfPolicy::validate` for the policy `KdfPolicy::open`. -/
def KdfParams.validateForOpen (params : KdfParams) : Result Unit := do
  refuseIf (params.mCost = 0) (.kdfParams "memory cost must be non-zero".toList)
  refuseIf (params.tCost = 0) (.kdfParams "iteration count must be non-zero".toList)
  refuseIf (params.pCost = 0) (.kdfParams "parallelism must be non-zero".toList)
  refuseIf (params.mCost > 256 * 1024) (.kdfParams "memory cost exceeds local policy".toList)
  refuseIf (params.tCost > 10) (.kdfParams "iteration count exceeds local policy".toList)
  refuseIf (params.pCost > 4) (.kdfParams "parallelism exceeds local policy".toList)
  refuseIf (params.pCost * 8 > u32Max) (.kdfParams "parallelism is invalid".toList)
  refuseIf (params.mCost < params.pCost * 8) (.kdfParams "memory cost is too low for parallelism".toList)

variable {P : Prims} (C : FsecPrims P) (K : KeyPrims)

/-- `derive_master_key` -/
def deriveMasterKey (passphrase salt : Bytes) (params : KdfParams) : Result Bytes := do
  params.validateForOpen
  match K.argon2id passphrase salt params with
  | none => .error .kdf
  | some key => .ok key

/-- The `k` low bytes of a number, the lowest first. -/
def leBytes (k n : Nat) : Bytes := (List.range k).map fun i => UInt8.ofNat (n / 256 ^ i)

/-- `update_lp`, `append_lp`: a field behind its length. -/
def lengthPrefixed (field : Bytes) : Bytes := leBytes 8 field.length ++ field

/-- The associated data of a wrapped data key: the fields of the slot are hashed. -/
def wrapAad (P : Prims) (fields : List Bytes) : Bytes := wrapAadV2 ++ P.hashContent (fields.flatMap lengthPrefixed)

/-- `passphrase_wrap_aad` -/
def passphraseWrapAad (P : Prims) (salt : Bytes) (params : KdfParams) : Bytes :=
  wrapAad P [asBytes "passphrase".toList, salt, leBytes 4 params.mCost, leBytes 4 params.tCost, leBytes 4 params.pCost]

/-- `passkey_wrap_aad` -/
def passkeyWrapAad (P : Prims) (credentialId : Bytes) (rpId : Str) (hmacSalt : Bytes) (metadata : Option (Str × Int)) :
    Bytes :=
  wrapAad P ([asBytes "passkey".toList, credentialId, asBytes rpId, hmacSalt] ++
    match metadata with
    | none => []
    | some (label, addedAt) => [asBytes label, leBytes 8 (addedAt % 2 ^ 64).toNat])

/-- `device_wrap_aad` -/
def deviceWrapAad (P : Prims) : Bytes := wrapAad P [asBytes "device".toList]

/-! ### Sealing -/

/-- `aead::seal` under a fresh nonce. -/
def sealFresh (key aad plaintext : Bytes) (draw : Option (Nat → UInt8)) : Result (Bytes × Bytes) := do
  let nonce ← randomVec AeadAlg.xchacha20Poly1305.nonceLen draw
  .ok (nonce, P.sealBytes .xchacha20Poly1305 key nonce (C.aad aad) plaintext)

/-- `aead::open` -/
def aeadOpen (key nonce aad ciphertext : Bytes) : Result Bytes :=
  if nonce.length ≠ AeadAlg.xchacha20Poly1305.nonceLen then .error (.format "aead nonce length".toList)
  else
    match P.openBytes .xchacha20Poly1305 key nonce (C.aad aad) ciphertext with
    | none => .error .auth
    | some plaintext => .ok plaintext

/-- `wrap_dek` -/
def wrapDek (kek dek aad : Bytes) (draw : Option (Nat → UInt8)) : Result (Bytes × Bytes) :=
  sealFresh C kek aad dek draw

/-- `unwrap_dek` -/
def unwrapDek (kek nonce ciphertext aad : Bytes) : Result Bytes := do
  let plaintext ← aeadOpen C kek nonce aad ciphertext
  refuseIf (plaintext.length ≠ symKeyLen) (.badKey "wrapped DEK length".toList)
  .ok plaintext

/-- `map_err(|_| e)` -/
def orElse {α : Type} (e : Error) : Result α → Result α
  | .ok a => .ok a
  | .error _ => .error e

/-! ### The secret bundle -/

variable {C} in
/-- `build_bundle` -/
def buildBundle (identity : Fsec.Identity C) : SecretBundle where
  name := identity.name
  createdAt := identity.createdAt
  signSecret := identity.signSecret
  kemSecret := identity.kemSecret
  mldsaSeed := identity.mldsa.map (·.seed)
  mldsaPublic := identity.mldsa.map (·.publicKey)
  mlkemSeed := identity.mlkem.map (·.seed)
  mlkemPublic := identity.mlkem.map (·.publicKey)

/-- The halves of a key pair, both or neither. -/
def pqcPair : Option Bytes → Option Bytes → Result (Option (Bytes × Bytes))
  | some publicKey, some seed => .ok (some (publicKey, seed))
  | none, none => .ok none
  | _, _ => .error (.format "incomplete post-quantum key pair in identity".toList)

/-- A key pair whose halves match, for a scheme whose seeds have length `len`. -/
def pqcMaterial (key : Bytes → Bytes) (len : Nat) (what : Str) :
    Option (Bytes × Bytes) → Result (Option (PqcMaterial key len))
  | none => .ok none
  | some (publicKey, seed) =>
    if hlen : seed.length = len then
      if hkey : publicKey = key seed then .ok (some ⟨publicKey, seed, hlen, hkey⟩)
      else .error (.format "post-quantum public key does not match its secret seed".toList)
    else .error (.badKey what)

/-- `bundle_into_identity` -/
def bundleIntoIdentity (bundle : SecretBundle) : Result (Fsec.Identity C) := do
  let mldsa ← pqcPair bundle.mldsaPublic bundle.mldsaSeed
  let mlkem ← pqcPair bundle.mlkemPublic bundle.mlkemSeed
  refuseIf (mldsa.isSome ≠ mlkem.isSome)
    (.format "identity carries only one of the two post-quantum keys".toList)
  let mldsa ← pqcMaterial C.mldsaKey mldsaSeedLen "ml-dsa seed length".toList mldsa
  let mlkem ← pqcMaterial C.mlkemKey mlkemSeedLen "ml-kem seed length".toList mlkem
  .ok ⟨bundle.name, bundle.createdAt, bundle.signSecret, bundle.kemSecret, mldsa, mlkem⟩

variable {C} in
/-- `encrypt_bundle` -/
def encryptBundle (dek : Bytes) (identity : Fsec.Identity C) (draw : Option (Nat → UInt8)) : Result (Bytes × Bytes) :=
  sealFresh C dek aadBundleV2 (K.bundle.encode (buildBundle identity)) draw

/-- What opens as a bundle is decoded. -/
def openBundle (plaintext : Bytes) : Result (Fsec.Identity C) := do
  let bundle ← decoded (K.bundle.decode plaintext)
  bundleIntoIdentity C bundle

/-- `decrypt_bundle` -/
def decryptBundle (dek nonce ciphertext : Bytes) : Result (Fsec.Identity C) := do
  let plaintext ← aeadOpen C dek nonce aadBundleV2 ciphertext
  openBundle C K plaintext

/-- `KeystoreV1::unlock` -/
def KeystoreV1.unlock (v1 : KeystoreV1) (passphrase : Bytes) : Result (Fsec.Identity C) := do
  let master ← deriveMasterKey K passphrase v1.salt v1.kdf
  let plaintext ← orElse .badPassphrase (aeadOpen C master v1.nonce aadV1 v1.ciphertext)
  openBundle C K plaintext

/-! ### Key slots -/

/-- `build_passphrase_slot` with its two draws. -/
def buildPassphraseSlot (dek passphrase : Bytes) (params : KdfParams)
    (saltDraw nonceDraw : Option (Nat → UInt8)) : Result PassphraseSlot := do
  let salt ← randomVec saltLen saltDraw
  let kek ← deriveMasterKey K passphrase salt params
  let (nonce, wrappedDek) ← wrapDek C kek dek (passphraseWrapAad P salt params) nonceDraw
  .ok ⟨params, salt, nonce, wrappedDek⟩

variable {C} in
/-- `KeystoreV2::create_with_dek` with its four draws. -/
def KeystoreV2.createWithDek (identity : Fsec.Identity C) (passphrase : Bytes) (params : KdfParams) (draws : Draws) :
    Result (KeystoreV2 × Bytes) := do
  let dek ← randomVec symKeyLen (draws 0)
  let (bundleNonce, bundleCt) ← encryptBundle K dek identity (draws 1)
  let slot ← buildPassphraseSlot C K dek passphrase params (draws 2) (draws 3)
  .ok (⟨versionV2, bundleNonce, bundleCt, slot, [], none⟩, dek)

/-- `KeystoreV2::unlock_dek_with_passphrase` -/
def KeystoreV2.unlockDekWithPassphrase (v2 : KeystoreV2) (passphrase : Bytes) : Result Bytes := do
  let kek ← deriveMasterKey K passphrase v2.passphrase.salt v2.passphrase.kdf
  orElse .badPassphrase
    (unwrapDek C kek v2.passphrase.nonce v2.passphrase.wrappedDek
      (passphraseWrapAad P v2.passphrase.salt v2.passphrase.kdf))

/-- The bundle of a body is decrypted. -/
def KeystoreV2.identity (v2 : KeystoreV2) (dek : Bytes) : Result (Fsec.Identity C) :=
  decryptBundle C K dek v2.bundleNonce v2.bundleCt

/-- `KeystoreV2::unlock` -/
def KeystoreV2.unlock (v2 : KeystoreV2) (passphrase : Bytes) : Result (Fsec.Identity C) := do
  let dek ← v2.unlockDekWithPassphrase C K passphrase
  v2.identity C K dek

/-- The key-encryption key of a passkey slot. -/
def passkeyKek (hmacOutput : Bytes) : Bytes := C.deriveKey passkeyKekContext hmacOutput

/-- The associated data of a passkey slot. -/
def PasskeySlot.aad (P : Prims) (slot : PasskeySlot) : Bytes :=
  passkeyWrapAad P slot.credentialId slot.rpId slot.hmacSalt
    (if slot.metadataBound then some (slot.label, slot.addedAt) else none)

/-- The data key of a passkey slot. -/
def PasskeySlot.unlockDek (slot : PasskeySlot) (hmacOutput : Bytes) : Result Bytes :=
  unwrapDek C (passkeyKek C hmacOutput) slot.nonce slot.wrappedDek (slot.aad P)

/-- `KeystoreV2::unlock_with_passkey` -/
def KeystoreV2.unlockWithPasskey (v2 : KeystoreV2) (index : Nat) (hmacOutput : Bytes) : Result (Fsec.Identity C) :=
  match v2.passkeys[index]? with
  | none => .error (.format "passkey slot index out of range".toList)
  | some slot => do
    let dek ← slot.unlockDek C hmacOutput
    v2.identity C K dek

/-- The slot that `KeystoreV2::add_passkey` makes. -/
def PasskeyEnrollment.slot (dek : Bytes) (enrollment : PasskeyEnrollment) (draw : Option (Nat → UInt8)) :
    Result PasskeySlot := do
  let aad := passkeyWrapAad P enrollment.credentialId enrollment.rpId enrollment.hmacSalt
    (some (enrollment.label, enrollment.addedAt))
  let (nonce, wrappedDek) ← wrapDek C (passkeyKek C enrollment.hmacOutput) dek aad draw
  .ok ⟨enrollment.credentialId, enrollment.rpId, enrollment.hmacSalt, enrollment.label, enrollment.addedAt, true, nonce,
    wrappedDek⟩

/-- `KeystoreV2::add_passkey` -/
def KeystoreV2.addPasskey (v2 : KeystoreV2) (dek : Bytes) (enrollment : PasskeyEnrollment)
    (draw : Option (Nat → UInt8)) : Result KeystoreV2 := do
  let slot ← enrollment.slot C dek draw
  .ok { v2 with passkeys := v2.passkeys ++ [slot] }

/-- The slot that `KeystoreV2::set_device_slot` makes. -/
def deviceSlot (dek token : Bytes) (draw : Option (Nat → UInt8)) : Result DeviceSlot := do
  let (nonce, wrappedDek) ← wrapDek C (C.deriveKey deviceKekContext token) dek (deviceWrapAad P) draw
  .ok ⟨nonce, wrappedDek⟩

/-- `KeystoreV2::set_device_slot` -/
def KeystoreV2.setDeviceSlot (v2 : KeystoreV2) (dek token : Bytes) (draw : Option (Nat → UInt8)) : Result KeystoreV2 := do
  let slot ← deviceSlot C dek token draw
  .ok { v2 with device := some slot }

/-- The data key of a device slot. -/
def DeviceSlot.unlockDek (slot : DeviceSlot) (token : Bytes) : Result Bytes :=
  unwrapDek C (C.deriveKey deviceKekContext token) slot.nonce slot.wrappedDek (deviceWrapAad P)

/-- `KeystoreV2::unlock_with_device` -/
def KeystoreV2.unlockWithDevice (v2 : KeystoreV2) (token : Bytes) : Result (Fsec.Identity C) :=
  match v2.device with
  | none => .error (.format "no device-unlock slot is enrolled".toList)
  | some slot => do
    let dek ← slot.unlockDek C token
    v2.identity C K dek

/-! ### The signed state -/

/-- `STATE_HASH_CONTEXT` -/
def stateHashContext : Bytes := asBytes "FileSec local state hash v1".toList

/-- `STATE_AAD_CONTEXT` -/
def stateAadContext : Bytes := asBytes "FileSec local state authenticated data v1".toList

/-- `GENESIS_HASH` -/
def genesisHash : Bytes := List.replicate 32 0

/-- `StateObjectType::tag` -/
def objectTag : StateObjectType → Bytes
  | .keystore => asBytes "keystore".toList
  | .contacts => asBytes "contacts".toList
  | .registry => asBytes "registry".toList
  | .vaultManifest => asBytes "vault-manifest".toList

/-- The hash of `StateMetadata::expected_hash`. -/
def hashState (P : Prims) (p : StatePreimage Bytes Bytes) : Bytes :=
  P.hashContent ([stateHashContext, p.identityFingerprint, objectTag p.objectType, asBytes p.objectId,
    leBytes 2 p.suiteId, leBytes 8 p.epoch, p.previousStateHash, p.payload].flatMap lengthPrefixed)

/-- `StateMetadata::authenticated_data` -/
def authenticatedData (s : StateMetadata Bytes) : Bytes :=
  [stateAadContext, s.identityFingerprint, objectTag s.objectType, asBytes s.objectId, leBytes 2 s.suiteId,
    leBytes 8 s.epoch, s.previousStateHash, s.currentStateHash].flatMap lengthPrefixed

/-- The object id of a keystore. -/
def keystoreId : Str := "identity-keystore".toList

variable {C} in
/-- `StateMetadata::next` for a keystore. -/
def nextState (identity : Fsec.Identity C) (previous : Option (StateAnchor Bytes)) (payload : Bytes) :
    Result (StateMetadata Bytes) :=
  StateMetadata.next (hashState P) genesisHash identity.fingerprint .keystore keystoreId 0 previous payload

variable {C} in
/-- `KeystoreV3::build` -/
def KeystoreV3.build (body : KeystoreV2) (identity : Fsec.Identity C) (previous : Option (StateAnchor Bytes)) :
    Result KeystoreV3 := do
  let state ← nextState identity previous (K.body.encode body)
  .ok ⟨versionV3, state, identity.publicPart, body, identity.sign (authenticatedData state)⟩

/-- `KeystoreV3::verify` -/
def KeystoreV3.verify (v3 : KeystoreV3) : Result Unit := do
  refuseIf (v3.version ≠ versionV3 ∨ v3.state.objectType ≠ .keystore ∨ v3.state.objectId ≠ keystoreId ∨
      v3.state.suiteId ≠ 0 ∨ v3.state.identityFingerprint ≠ v3.publicIdentity.fingerprint P.hashContent)
    (.stateMismatch "keystore identity-keystore".toList)
  v3.state.verifyPayload (hashState P) (K.body.encode v3.body)
  refuseIf (v3.signature.length ≠ signatureLen) (.format "bad keystore state signature length".toList)
  orElse (.stateMismatch v3.state.label)
    (C.verify ⟨v3.publicIdentity.signPublic, v3.publicIdentity.signPublic_length⟩ (authenticatedData v3.state)
      v3.signature)

variable {C} in
/-- `KeystoreV3::advance`; on an error nothing is changed. -/
def KeystoreV3.advance (v3 : KeystoreV3) (identity : Fsec.Identity C) : Result KeystoreV3 := do
  refuseIf (identity.fingerprint ≠ v3.state.identityFingerprint) (.stateMismatch v3.state.label)
  let state ← nextState identity (some (StateAnchor.fromMetadata v3.state)) (K.body.encode v3.body)
  .ok { v3 with state, signature := identity.sign (authenticatedData state) }

/-! ### Keystore files -/

/-- `KeystoreFile` -/
inductive KeystoreFile where
  | v1 (file : KeystoreV1)
  | v2 (file : KeystoreV2)
  | v3 (file : KeystoreV3)
  deriving DecidableEq

variable {C} in
/-- `KeystoreFile::create` -/
def KeystoreFile.create (identity : Fsec.Identity C) (passphrase : Bytes) (params : KdfParams) (draws : Draws) :
    Result KeystoreFile := do
  let (body, _) ← KeystoreV2.createWithDek K identity passphrase params draws
  let v3 ← KeystoreV3.build K body identity none
  .ok (.v3 v3)

/-- `KeystoreFile::to_bytes` -/
def KeystoreFile.toBytes : KeystoreFile → Result Bytes
  | .v3 file => do
    file.verify C K
    .ok (magicV2 ++ be16 versionV3 ++ K.frame.encode file)
  | .v1 _ => .error (.legacyState "keystore".toList)
  | .v2 _ => .error (.legacyState "keystore".toList)

/-- The bytes begin with the magic and a version. -/
def Framed (bytes : Bytes) : Prop := magicV2.length + 2 ≤ bytes.length ∧ bytes.take magicV2.length = magicV2

instance (bytes : Bytes) : Decidable (Framed bytes) := inferInstanceAs (Decidable (_ ∧ _))

/-- The version behind the magic. -/
def frameVersion (bytes : Bytes) : Nat := ofBe ((bytes.drop magicV2.length).take 2)

/-- What stands behind the version. -/
def framePayload (bytes : Bytes) : Bytes := bytes.drop (magicV2.length + 2)

/-- The framed branch of `KeystoreFile::parse_legacy`. -/
def parseLegacyV2 (bytes : Bytes) : Result KeystoreFile := do
  refuseIf (frameVersion bytes ≠ versionV2) (.format "unsupported legacy keystore version".toList)
  let v2 ← decoded (K.body.decode (framePayload bytes))
  refuseIf (v2.version ≠ versionV2) (.format "keystore version mismatch".toList)
  v2.passphrase.kdf.validateForOpen
  .ok (.v2 v2)

/-- The bare branch of `KeystoreFile::parse_legacy`. -/
def parseLegacyV1 (bytes : Bytes) : Result KeystoreFile := do
  let v1 ← decoded (K.legacy.decode bytes)
  refuseIf (v1.version ≠ versionV1) (.format "unsupported keystore version".toList)
  v1.kdf.validateForOpen
  .ok (.v1 v1)

/-- `KeystoreFile::parse_legacy` -/
def parseLegacy (bytes : Bytes) : Result KeystoreFile :=
  if Framed bytes then parseLegacyV2 K bytes else parseLegacyV1 K bytes

/-- The current branch of `KeystoreFile::from_bytes`. -/
def parseCurrent (bytes : Bytes) : Result KeystoreFile := do
  let v3 ← decoded (K.frame.decode (framePayload bytes))
  v3.body.passphrase.kdf.validateForOpen
  v3.verify C K
  .ok (.v3 v3)

/-- Valid legacy bytes are not opened. -/
def refuseLegacy (bytes : Bytes) : Result KeystoreFile := do
  let _ ← parseLegacy K bytes
  .error (.legacyState "keystore".toList)

/-- `KeystoreFile::from_bytes` -/
def KeystoreFile.fromBytes (bytes : Bytes) : Result KeystoreFile :=
  if ¬ Framed bytes then refuseLegacy K bytes
  else if frameVersion bytes = versionV3 then parseCurrent C K bytes
  else if frameVersion bytes = versionV2 then refuseLegacy K bytes
  else .error (.format "unsupported keystore version".toList)

/-- The match of `KeystoreFile::recover_legacy`. -/
def recoverParsed (passphrase : Bytes) (draws : Draws) : KeystoreFile → Result KeystoreFile
  | .v1 file => do
    let identity ← file.unlock C K passphrase
    KeystoreFile.create K identity passphrase file.kdf draws
  | .v2 body => do
    let identity ← body.unlock C K passphrase
    let v3 ← KeystoreV3.build K body identity none
    .ok (.v3 v3)
  | .v3 _ => .error (.format "keystore is already rollback protected".toList)

/-- `KeystoreFile::recover_legacy` -/
def KeystoreFile.recoverLegacy (bytes passphrase : Bytes) (draws : Draws) : Result KeystoreFile := do
  let legacy ← parseLegacy K bytes
  recoverParsed C K passphrase draws legacy

/-- `KeystoreFile::unlock` -/
def KeystoreFile.unlock (passphrase : Bytes) : KeystoreFile → Result (Fsec.Identity C)
  | .v1 file => file.unlock C K passphrase
  | .v2 file => file.unlock C K passphrase
  | .v3 file => file.body.unlock C K passphrase

/-- `KeystoreFile::unlock_with_passkey` -/
def KeystoreFile.unlockWithPasskey (index : Nat) (hmacOutput : Bytes) : KeystoreFile → Result (Fsec.Identity C)
  | .v1 _ => .error (.format "no passkeys are enrolled".toList)
  | .v2 file => file.unlockWithPasskey C K index hmacOutput
  | .v3 file => file.body.unlockWithPasskey C K index hmacOutput

/-- `KeystoreFile::unlock_with_device_token` -/
def KeystoreFile.unlockWithDeviceToken (token : Bytes) : KeystoreFile → Result (Fsec.Identity C)
  | .v3 file => file.body.unlockWithDevice C K token
  | .v1 _ => .error (.format "no device-unlock slot is enrolled".toList)
  | .v2 _ => .error (.format "no device-unlock slot is enrolled".toList)

end FileSec.Keys
