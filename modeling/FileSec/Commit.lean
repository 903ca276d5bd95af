import FileSec.Batch

/-!
# Commits

What turns an edited batch into the new state of a vault: sealing the manifest and renaming it into place, adopting it
in the reader, reclaiming the blobs it no longer refers to, collecting garbage, and creating a vault (`format_v2.rs`).
-/

namespace FileSec

open CrashDir Prog

variable {P : Prims}

/-- How the machine treats the sealing of a manifest. -/
structure SealIo where
  /-- Whether the sync of the blobs directory succeeds. -/
  blobsSync : Bool
  /-- The temp file cannot be created, written, synced or renamed. -/
  writeFault : Option Error
  /-- Whether the sync of the vault directory succeeds. -/
  vaultSync : Bool

/-- How the machine treats a commit; `unlinkOk` says which blobs it can unlink. -/
structure CommitIo extends SealIo where
  unlinkOk : Str → Bool

/-- A reader and the machine its vault lives on. -/
structure Session (P : Prims) where
  reader : VaultReaderV2 P
  host : Host P

/-- Programs that work with a session. -/
abbrev SessionM (P : Prims) := Prog (Session P) Error

/-- Use the machine of a session. -/
def onHost {α : Type} (p : HostM P α) : SessionM P α := zoom (·.host) (fun h s => { s with host := h }) p

/-- `write_atomic`: whether the rename is known durable. -/
def writeAtomic (file : VaultFile) (raw : P.Raw) (fault : Option Error) (synced : Bool) : HostM P Bool :=
  match fault with
  | some e => throw e
  | none => do
    modify fun h => { h with top := (h.top.write file raw).sync synced }
    pure synced

/-! ### Sealing -/

/-- `seal_and_write` -/
def VaultReaderV2.sealAndWrite (r : VaultReaderV2 P) (m : ManifestV2) (io : SealIo) : HostM P (P.State × Bool) := do
  modify fun h => { h with blobs := h.blobs.sync io.blobsSync }
  let objectId ← vaultObjectId P r.headerBytes
  let state ← StateMetadata.next P.hashState P.genesisHash r.ownerFingerprint .vaultManifest objectId r.suite.toU16
    (r.state.map StateAnchor.fromMetadata) (P.encodeManifest m)
  let nonce ← draw P r.suite.aeadAlg.nonceLen
  let ciphertext := P.sealWith r.suite.aeadAlg r.manifestKey nonce (r.headerBytes, state) (P.encodeManifest m)
  let durable ← writeAtomic .manifest (P.encodeEnvelope ⟨manifestEnvelopeVersion, state, nonce, ciphertext⟩)
    io.writeFault io.vaultSync
  pure (state, durable)

/-! ### Committing -/

/-- `reclaim` -/
def reclaim (superseded : List Str) (durable : Bool) (unlinkOk : Str → Bool) : SessionM P Unit := do
  modify fun s => { s with reader := { s.reader with pendingReclaim := s.reader.pendingReclaim ++ superseded } }
  if durable then
    modify fun s => { s with
      reader := { s.reader with pendingReclaim := [] }
      host := { s.host with blobs := s.host.blobs.unlinkAll s.reader.pendingReclaim unlinkOk } }
  else pure ()

/-- Adopt a committed manifest: the three fields of the reader that change together. -/
def VaultReaderV2.adopt (r : VaultReaderV2 P) (m : ManifestV2) (state : P.State) : VaultReaderV2 P :=
  { r with manifest := m, state := some state, view := viewOf m }

/-- The part of `commit_with` after the closure has left the batch `b` with the result `edited`. -/
def concludeCommit (edited : Result Unit) (b : VaultBatch P) (io : CommitIo) : SessionM P Unit := do
  let s ← get
  let committed ← attempt do
    edited
    if b.changed then do
      let sealed ← onHost (s.reader.sealAndWrite b.manifest io.toSealIo)
      pure (some sealed)
    else pure none
  match committed with
  | .ok (some (state, durable)) => do
    modify fun s => { s with reader := s.reader.adopt b.manifest state }
    reclaim b.superseded durable io.unlinkOk
  | .ok none => pure ()
  | .error e => do
    onHost (modify fun h => { h with blobs := h.blobs.unlinkAll b.staged io.unlinkOk })
    throw e

/-- `commit_with` -/
def commitWith (limit : Option Nat) (edits : Edits) (io : CommitIo) : SessionM P Unit := do
  let s ← get
  let edited := exec (edits.run P) (VaultBatch.new s.reader limit s.host)
  modify fun s => { s with host := edited.2.host }
  concludeCommit edited.1 edited.2 io

/-- `MAX_BATCH_OPS` -/
def maxBatchOps : Nat := 1024

/-- `commit_build` -/
def commitBuild (edits : Edits) (io : CommitIo) : SessionM P Unit := commitWith none edits io

/-- A commit and how the machine treats it. -/
structure CommitCall where
  limit : Option Nat
  edits : Edits
  io : CommitIo

/-! ### Garbage collection -/

/-- A name the scan of the blobs directory comes across. -/
structure ScanItem where
  name : Str
  isFile : Result Bool
  unlinkOk : Bool

/-- How the machine treats a garbage collection. -/
structure GcIo where
  vaultSync : Bool
  blobsSync : Bool
  /-- What reading the blobs directory yields. -/
  scan : Result (List (Result ScanItem))

/-- `char::is_ascii_hexdigit` -/
def isAsciiHexdigit (c : Char) : Bool := ('0' ≤ c && c ≤ '9') || ('a' ≤ c && c ≤ 'f') || ('A' ≤ c && c ≤ 'F')

/-- `is_safe_writer_temp` -/
def isSafeWriterTemp (name : Str) : Bool :=
  match ".filesec-".toList.isPrefixOf? name with
  | none => false
  | some rest =>
    match ".fstmp".toList.isSuffixOf? rest with
    | none => false
    | some digits => byteLen digits = 16 && digits.all isAsciiHexdigit

/-- Whether `collect_garbage` takes a name for garbage. -/
def isGarbage (referenced : List Str) (name : Str) : Bool :=
  ((validateBlobId name).toOption.isSome && !referenced.contains name) || isSafeWriterTemp name

/-- The loop of `collect_garbage`; the result counts the files removed. -/
def sweep (referenced : List Str) : List (Result ScanItem) → HostM P Nat
  | [] => pure 0
  | item :: items => do
    let item ← item
    if isGarbage referenced item.name then do
      let file ← item.isFile
      if file ∧ item.unlinkOk then do
        let h ← get
        modify fun h => { h with blobs := h.blobs.unlink item.name }
        let removed ← sweep referenced items
        pure (if (h.blobs.shown item.name).isSome then removed + 1 else removed)
      else sweep referenced items
    else sweep referenced items

/-- `collect_garbage` -/
def collectGarbage (io : GcIo) : SessionM P Nat :=
  if io.vaultSync = false then pure 0
  else do
    onHost (modify fun h => { h with top := h.top.sync true })
    if io.blobsSync = false then pure 0
    else do
      onHost (modify fun h => { h with blobs := h.blobs.sync true })
      let s ← get
      let items ← io.scan
      let removed ← onHost (sweep s.reader.manifest.blobIds items)
      modify fun s => { s with reader := { s.reader with pendingReclaim := [] } }
      pure removed

/-! ### Creating a vault -/

/-- How the machine treats the creation of a vault. -/
structure CreateIo where
  /-- The directories cannot be created. -/
  dirFault : Option Error
  headerFault : Option Error
  headerSync : Bool
  /-- The ephemeral key and nonce of the recipient stanza. -/
  wrapSeed : Nat
  manifest : SealIo

/-- `create_inner` -/
def createInner (P : Prims) (identity : Identity) (suite : SuiteId) (vaultName : Str) (createdAt : Int)
    (vaultId : Bytes) (io : CreateIo) : HostM P (VaultReaderV2 P) :=
  match io.dirFault with
  | some e => throw e
  | none => do
    let manifestKey ← draw P 32
    let stanza ← P.wrapForRecipient manifestKey identity.publicPart suite io.wrapSeed
    let headerBytes := P.encodeHeader ⟨formatVersionV2, suite.toU16, vaultId, stanza⟩
    let _ ← writeAtomic .header headerBytes io.headerFault io.headerSync
    let r : VaultReaderV2 P := {
      suite := suite
      headerBytes := headerBytes
      manifestKey := manifestKey
      manifest := ⟨vaultName, createdAt, []⟩
      ownerFingerprint := identity.fingerprint
      state := none
      view := []
      pendingReclaim := [] }
    let sealed ← r.sealAndWrite r.manifest io.manifest
    pure (r.adopt r.manifest sealed.1)

/-- `create` -/
def create (P : Prims) (identity : Identity) (suite : SuiteId) (vaultName : Str) (createdAt : Int) (io : CreateIo) :
    HostM P (VaultReaderV2 P) := do
  let vaultId ← draw P 16
  createInner P identity suite vaultName createdAt vaultId io

/-- The value of a lowercase hexadecimal digit. -/
def unhexDigit (c : Char) : Option Nat :=
  if '0' ≤ c ∧ c ≤ '9' then some (c.toNat - 48)
  else if 'a' ≤ c ∧ c ≤ 'f' then some (c.toNat - 87)
  else none

/-- `HEXLOWER.decode` -/
def unhex : Str → Option Bytes
  | [] => some []
  | [_] => none
  | hi :: lo :: rest => do
    let h ← unhexDigit hi
    let l ← unhexDigit lo
    let bytes ← unhex rest
    some (UInt8.ofNat (16 * h + l) :: bytes)

/-- `create_with_object_id` -/
def createWithObjectId (P : Prims) (identity : Identity) (suite : SuiteId) (vaultName : Str) (createdAt : Int)
    (objectId : Str) (io : CreateIo) : HostM P (VaultReaderV2 P) :=
  match unhex objectId with
  | none => throw (.format "vault object id must be lowercase hex".toList)
  | some vaultId =>
    if vaultId.length ≠ 16 then throw (.format "vault object id must encode 16 bytes".toList)
    else createInner P identity suite vaultName createdAt vaultId io

end FileSec
