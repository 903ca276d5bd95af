import FileSec.Path
import FileSec.State

/-!
# The v2 manifest

The header, manifest and envelope of the `.fsv2` vault format, and the validation that runs on every freshly decrypted
manifest (`format_v2.rs`).
-/

namespace FileSec

/-- `aead::AeadAlg` -/
inductive AeadAlg where
  | xchacha20Poly1305
  | aes256Gcm
  deriving DecidableEq, Repr

/-- `STREAM_OVERHEAD` -/
def streamOverhead : Nat := 5

/-- `AeadAlg::nonce_len` -/
def AeadAlg.nonceLen : AeadAlg → Nat
  | .xchacha20Poly1305 => 24
  | .aes256Gcm => 12

/-- `AeadAlg::stream_nonce_len` -/
def AeadAlg.streamNonceLen (alg : AeadAlg) : Nat := alg.nonceLen - streamOverhead

/-- `SuiteId` -/
inductive SuiteId where
  | classic
  | aes256Gcm
  | hybrid
  deriving DecidableEq, Repr

/-- `SuiteId::to_u16` -/
def SuiteId.toU16 : SuiteId → Nat
  | .classic => 0x0001
  | .aes256Gcm => 0x0002
  | .hybrid => 0x0101

/-- `SuiteId::from_u16` -/
def SuiteId.fromU16 (value : Nat) : Result SuiteId :=
  if value = 0x0001 then .ok .classic
  else if value = 0x0002 then .ok .aes256Gcm
  else if value = 0x0101 then .ok .hybrid
  else .error (.unsupportedSuite value)

/-- `SuiteId::aead_alg` -/
def SuiteId.aeadAlg : SuiteId → AeadAlg
  | .classic => .xchacha20Poly1305
  | .aes256Gcm => .aes256Gcm
  | .hybrid => .xchacha20Poly1305

@[simp] theorem fromU16_toU16 (suite : SuiteId) : SuiteId.fromU16 suite.toU16 = .ok suite := by
  cases suite <;> rfl

/-! ### Limits -/

/-- `aead::TAG_LEN` -/
def tagLen : Nat := 16

/-- `aead::DEFAULT_CHUNK_SIZE` -/
def defaultChunkSize : Nat := 64 * 1024

theorem defaultChunkSize_pos : 0 < defaultChunkSize := by decide

/-- `aead::MAX_CHUNK_SIZE` -/
def maxChunkSize : Nat := 16 * 1024 * 1024

/-- `MAX_VAULT_HEADER_LEN` -/
def maxHeaderLen : Nat := 1024 * 1024

/-- `MAX_MANIFEST_LEN` -/
def maxManifestLen : Nat := 256 * 1024 * 1024

/-- `MAX_MANIFEST_ENTRIES` -/
def maxManifestEntries : Nat := 1000000

/-- `BLOB_ID_LEN` -/
def blobIdLen : Nat := 32

/-- The largest `u32`. -/
def u32Max : Nat := 2 ^ 32 - 1

/-- `FORMAT_VERSION_V2` -/
def formatVersionV2 : Nat := 2

/-- `MANIFEST_ENVELOPE_VERSION` -/
def manifestEnvelopeVersion : Nat := 3

/-! ### Records -/

/-- `VaultHeaderV2`; `Stanza` is the type of recipient stanzas. -/
structure VaultHeaderV2 (Stanza : Type) where
  formatVersion : Nat
  suiteId : Nat
  vaultId : Bytes
  manifestStanza : Stanza
  deriving DecidableEq

/-- The fields of `EntryV2` other than its path. -/
structure EntryAttrs where
  kind : EntryKind
  size : Nat
  mtime : Option Int
  mode : Option Nat
  blake3 : Bytes
  fileId : Option Str
  key : Option Bytes
  nonce : Option Bytes
  chunkSize : Nat
  deriving DecidableEq

/-- `EntryV2` -/
structure EntryV2 extends EntryAttrs where
  path : Str
  deriving DecidableEq

/-- `ManifestV2` -/
structure ManifestV2 where
  vaultName : Str
  createdAt : Int
  entries : List EntryV2
  deriving DecidableEq

/-- `ManifestEnvelopeV3`; `Raw` is the type of ciphertexts. -/
structure ManifestEnvelopeV3 (Digest Raw : Type) where
  version : Nat
  state : StateMetadata Digest
  nonce : Bytes
  ciphertext : Raw
  deriving DecidableEq

/-- The hash recorded for directories: all zero. -/
def zeroHash : Bytes := List.replicate 32 0

/-- The attributes of an entry `dir_entry` makes. -/
def dirAttrs : EntryAttrs where
  kind := .dir
  size := 0
  mtime := none
  mode := none
  blake3 := zeroHash
  fileId := none
  key := none
  nonce := none
  chunkSize := 0

/-- `dir_entry` -/
def dirEntry (path : Str) : EntryV2 := { dirAttrs with path := path }

/-- `num_chunks` -/
def numChunks (size chunk : Nat) : Nat := if size = 0 then 1 else (size + chunk - 1) / chunk

/-- The blobs a manifest refers to. -/
def ManifestV2.blobIds (m : ManifestV2) : List Str := m.entries.filterMap (·.fileId)

/-! ### Validation -/

/-- A lowercase hexadecimal digit. -/
def isBlobIdChar (c : Char) : Bool := ('0' ≤ c && c ≤ '9') || ('a' ≤ c && c ≤ 'f')

/-- `validate_blob_id` -/
def validateBlobId (id : Str) : Result Unit :=
  if byteLen id ≠ blobIdLen then .error (.format "blob id must be 32 hex chars".toList)
  else if id.all isBlobIdChar then .ok ()
  else .error (.format "blob id must be lowercase hex".toList)

/-- The checks of `validate_manifest_v2` on a file entry; `total` is the size of the files before it. -/
def validateFileEntry (alg : AeadAlg) (total : Nat) (e : EntryV2) : Result Nat :=
  match e.fileId with
  | none => .error (.format "missing blob id".toList)
  | some id =>
    match validateBlobId id with
    | .error err => .error err
    | .ok () =>
      if e.chunkSize = 0 ∨ e.chunkSize > maxChunkSize then .error (.format "bad chunk size".toList)
      else if numChunks e.size e.chunkSize > u32Max then .error (.format "too many blob chunks".toList)
      else if total + e.size > u64Max then .error (.format "size overflow".toList)
      else if e.key.isNone then .error (.format "missing blob key".toList)
      else if e.nonce.map List.length ≠ some alg.streamNonceLen then
        .error (.format "bad blob nonce length".toList)
      else .ok (total + e.size)

/-- The loop of `validate_manifest_v2`: the paths seen so far with their kinds, oldest first, and the total size. -/
def validateEntries (alg : AeadAlg) :
    List EntryV2 → List (Str × EntryKind) → Nat → Result (List (Str × EntryKind))
  | [], shape, _ => .ok shape
  | e :: rest, shape, total =>
    match normalizeStoredPath e.path with
    | .error err => .error err
    | .ok norm =>
      if norm ∈ shape.map (·.1) then .error (.format "duplicate path in manifest".toList)
      else if e.kind = .file then
        match validateFileEntry alg total e with
        | .error err => .error err
        | .ok total => validateEntries alg rest (shape ++ [(norm, e.kind)]) total
      else validateEntries alg rest (shape ++ [(norm, e.kind)]) total

/-- `validate_manifest_v2` -/
def validateManifestV2 (m : ManifestV2) (alg : AeadAlg) : Result Unit :=
  if m.entries.length > maxManifestEntries then .error (.format "too many manifest entries".toList)
  else
    match validateEntries alg m.entries [] 0 with
    | .error err => .error err
    | .ok shape => checkTreeShape shape

end FileSec
