import FileSec.Host

/-!
# Readers

A `VaultReaderV2` is what a process holds of an opened vault: keys, the decrypted manifest, its state and the queue of
blobs to reclaim.  This file opens a vault from its files and reads entries back (`format_v2.rs`).
-/

namespace FileSec

open CrashDir

/-- `Entry` of the v1 manifest: how callers see an entry. -/
structure Entry where
  path : Str
  kind : EntryKind
  size : Nat
  mtime : Option Int
  mode : Option Nat
  blake3 : Bytes
  dataOffset : Nat
  deriving DecidableEq

/-- `VaultReaderV2` -/
structure VaultReaderV2 (P : Prims) where
  suite : SuiteId
  headerBytes : P.Raw
  manifestKey : Bytes
  manifest : ManifestV2
  ownerFingerprint : Bytes
  state : Option P.State
  view : List Entry
  pendingReclaim : List Str

/-- `view_of` -/
def viewOf (m : ManifestV2) : List Entry :=
  m.entries.map fun e => ⟨e.path, e.kind, e.size, e.mtime, e.mode, e.blake3, 0⟩

/-- `vault_object_id` -/
def vaultObjectId (P : Prims) (headerBytes : P.Raw) : Result Str :=
  match P.decodeHeader headerBytes with
  | some header => .ok (hex header.vaultId)
  | none => .error .serialization

/-! ### Opening -/

/-- What `open` checks of an envelope before it decrypts. -/
def envelopeMatches (P : Prims) (header : VaultHeaderV2 P.Stanza) (suite : SuiteId) (identity : Identity)
    (env : ManifestEnvelopeV3 P.Digest P.Raw) : Bool :=
  env.version = manifestEnvelopeVersion ∧ env.state.objectType = .vaultManifest ∧
    env.state.objectId = hex header.vaultId ∧ env.state.suiteId = suite.toU16 ∧
    env.state.identityFingerprint = identity.fingerprint ∧ env.nonce.length = suite.aeadAlg.nonceLen

/-- The part of `open` after the header: unwrap nothing more, authenticate, decode and validate the manifest file. -/
def openManifest (P : Prims) (header : VaultHeaderV2 P.Stanza) (headerBytes : P.Raw) (suite : SuiteId)
    (manifestKey : Bytes) (identity : Identity) (raw : P.Raw) : Result (P.State × ManifestV2) :=
  match P.decodeEnvelope raw with
  | none => .error (.legacyState "v2 vault manifest".toList)
  | some env =>
    if envelopeMatches P header suite identity env then
      match P.openWith suite.aeadAlg manifestKey env.nonce (headerBytes, env.state) env.ciphertext with
      | none => .error .auth
      | some pt => do
        env.state.verifyPayload P.hashState pt
        match P.decodeManifest pt with
        | none => .error .serialization
        | some m => do
          validateManifestV2 m suite.aeadAlg
          .ok (env.state, m)
    else .error (.stateMismatch env.state.label)

/-- The part of `open` that reads the header: the header, the suite and the manifest key. -/
def openHeader (P : Prims) (headerBytes : P.Raw) (identity : Identity) :
    Result (VaultHeaderV2 P.Stanza × SuiteId × Bytes) :=
  match P.decodeHeader headerBytes with
  | none => .error .serialization
  | some header =>
    if header.formatVersion ≠ formatVersionV2 then .error (.format "unsupported v2 format version".toList)
    else do
      let suite ← SuiteId.fromU16 header.suiteId
      let manifestKey ← P.unwrapWithIdentity header.manifestStanza identity
      .ok (header, suite, manifestKey)

/-- `VaultReaderV2::open` on the files of the vault directory. -/
def openVault (P : Prims) (files : VaultFile → Option P.Raw) (identity : Identity) : Result (VaultReaderV2 P) := do
  let headerBytes ← readBounded P (files .header) maxHeaderLen
  let (header, suite, manifestKey) ← openHeader P headerBytes identity
  let raw ← readBounded P (files .manifest) maxManifestLen
  let (state, manifest) ← openManifest P header headerBytes suite manifestKey identity raw
  .ok {
    suite := suite
    headerBytes := headerBytes
    manifestKey := manifestKey
    manifest := manifest
    ownerFingerprint := identity.fingerprint
    state := some state
    view := viewOf manifest
    pendingReclaim := [] }

/-! ### Reading entries -/

/-- `TRASH_DIR` -/
def trashDir : Str := ".trash".toList

/-- `is_trashed` -/
def isTrashed (path : Str) : Bool := path = trashDir || ".trash/".toList.isPrefixOf path

section Read

variable {P : Prims}

/-- `blob_id` -/
def blobId (e : EntryV2) : Result Str :=
  match e.fileId with
  | none => .error (.format "file entry missing blob id".toList)
  | some id => do
    validateBlobId id
    .ok id

/-- `open_blob`: the bytes of the blob, if it has the length of the entry's ciphertext. -/
def openBlob (blobs : Str → Option Bytes) (fileId : Str) (size chunkSize : Nat) : Result Bytes :=
  if chunkSize = 0 then .error (.format "bad chunk size".toList)
  else if numChunks size chunkSize > u32Max then .error (.format "too many blob chunks".toList)
  else if size + numChunks size chunkSize * tagLen > u64Max then .error (.format "blob length overflow".toList)
  else
    match blobs fileId with
    | none => .error (.io "not found".toList)
    | some file =>
      if file.length ≠ size + numChunks size chunkSize * tagLen then .error (.format "blob length mismatch".toList)
      else .ok file

/-- `file_entry` -/
def VaultReaderV2.fileEntry (r : VaultReaderV2 P) (path : Str) : Result EntryV2 := do
  let norm ← normalizeStoredPath path
  match r.manifest.entries.find? (·.path = norm) with
  | none => .error (.vault "entry not found".toList)
  | some e => if e.kind = .file then .ok e else .error (.vault "not a file".toList)

/-- `decrypt_blob_chunk` -/
def VaultReaderV2.decryptBlobChunk (r : VaultReaderV2 P) (file : Bytes) (e : EntryV2) (key nonce : Bytes) (c : Nat) :
    Result Bytes :=
  let lastIndex := numChunks e.size e.chunkSize - 1
  let ptLen := if c = lastIndex then e.size - lastIndex * e.chunkSize else e.chunkSize
  let ct := (file.drop (c * (e.chunkSize + tagLen))).take (ptLen + tagLen)
  if ct.length < ptLen + tagLen then .error (.io "failed to fill whole buffer".toList)
  else decryptChunkWith P r.suite.aeadAlg key nonce r.headerBytes c (c = lastIndex) ct

/-- The loop of `read_entry_to_writer`: the plaintexts of the given chunks, one after the other. -/
def VaultReaderV2.readChunks (r : VaultReaderV2 P) (file : Bytes) (e : EntryV2) (key nonce : Bytes) :
    List Nat → Result Bytes
  | [] => .ok []
  | c :: cs => do
    let pt ← r.decryptBlobChunk file e key nonce c
    let rest ← r.readChunks file e key nonce cs
    .ok (pt ++ rest)

/-- `read_entry_to_writer`: what it has written when it succeeds. -/
def VaultReaderV2.readEntryToWriter (r : VaultReaderV2 P) (blobs : Str → Option Bytes) (path : Str) :
    Result Bytes := do
  let e ← r.fileEntry path
  if e.chunkSize = 0 then .error (.format "bad chunk size".toList)
  else
    match e.key, e.nonce with
    | none, _ => .error (.format "missing blob key".toList)
    | some _, none => .error (.format "missing blob nonce".toList)
    | some key, some nonce => do
      let file ← openBlob blobs (← blobId e) e.size e.chunkSize
      let out ← r.readChunks file e key nonce (List.range (numChunks e.size e.chunkSize))
      if P.hashContent out = e.blake3 then .ok out else .error .auth

end Read

end FileSec
