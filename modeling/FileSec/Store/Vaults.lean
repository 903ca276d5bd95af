import FileSec.Store.Records
import Mathlib.Data.List.Sort

/-!
# Vaults in a store

The directory `vaults/` and the transactions on it (`store.rs`): creating and opening vaults, mutating them against the
anchor, deleting them through tombstones, and bringing the directory and the registry back into agreement.
-/

namespace FileSec

open CrashDir Folders Prog

variable {S : StorePrims}

/-! ### Names -/

/-- `vault_dir_v2` -/
def vaultDirV2 (id : Str) : Str := id ++ ".fsv2".toList

/-- `vault_path` -/
def vaultPath (id : Str) : Str := id ++ ".fsec".toList

/-- The scratch directory of a vault that is being created. -/
def vaultPartial (id : Str) : Str := id ++ ".fsv2.partial".toList

/-- `vault_tombstone` -/
def vaultTombstone (id : Str) : Str := id ++ ".fsv2.deleted".toList

/-- `legacy_vault_tombstone` -/
def legacyVaultTombstone (id : Str) : Str := id ++ ".fsec.deleted".toList

theorem vaultPath_ne_vaultDirV2 (id : Str) : vaultPath id ≠ vaultDirV2 id := by
  unfold vaultPath vaultDirV2
  intro h
  exact absurd (List.append_cancel_left h) (by decide)

/-- The order of `str`. -/
def strLe : Str → Str → Bool
  | [], _ => true
  | _ :: _, [] => false
  | a :: s, b :: t => a < b || (a = b && strLe s t)

/-! ### Working in a directory -/

/-- The machine as seen from the directory `name`; a missing directory looks empty. -/
def Store.host (s : Store S) (name : Str) : Host S.toPrims :=
  match s.vaults.get name with
  | some (.dir d) => ⟨d.top, d.blobs, s.rng⟩
  | _ => ⟨.empty, .empty, s.rng⟩

/-- Whether the name is that of a directory. -/
def Store.isDir (s : Store S) (name : Str) : Bool :=
  match s.vaults.get name with
  | some (.dir _) => true
  | _ => false

/-- The store after work in the directory `name`, if it is there, has left the machine `h`. -/
def Store.setHost (s : Store S) (name : Str) (h : Host S.toPrims) : Store S :=
  if s.isDir name then { s with vaults := s.vaults.adjust name (.dir ⟨h.top, h.blobs⟩), rng := h.rng }
  else { s with rng := h.rng }

/-- Let a reader work in its directory; the result and the reader it leaves. -/
def inVault {α : Type} (name : Str) (reader : VaultReaderV2 S.toPrims) (p : SessionM S.toPrims α) :
    StoreM S (Result α × VaultReaderV2 S.toPrims) := ExceptT.mk fun s =>
  let (r, t) := exec p ⟨reader, s.host name⟩
  (.ok (r, t.reader), s.setHost name t.host)

/-- The error of the system for a path that is not there. -/
def notFound : Error := .io "not found".toList

/-- The operation in a directory that is not there. -/
def Op.inMissing : Op → Op
  | .putFile vaultPath hashed source _ mtime mode =>
    .putFile vaultPath hashed source ⟨some notFound, false⟩ mtime mode
  | .putBytes vaultPath bytes _ mtime mode => .putBytes vaultPath bytes ⟨some notFound, false⟩ mtime mode
  | .putStreamTrusted path blake3 size source _ mtime mode =>
    .putStreamTrusted path blake3 size source ⟨some notFound, false⟩ mtime mode
  | op => op

/-- The closure in a directory that is not there. -/
def Edits.inMissing : Edits → Edits
  | .done r => .done r
  | .call op next => .call op.inMissing fun r => (next r).inMissing

/-- The commit in a directory that is not there: every write fails. -/
def CommitCall.inMissing (c : CommitCall) : CommitCall :=
  ⟨c.limit, c.edits.inMissing, ⟨⟨false, some notFound, false⟩, fun _ => false⟩⟩

/-- `commit_with` of a reader of the directory `name`; the reader it leaves. -/
def commitIn (name : Str) (writer : VaultReaderV2 S.toPrims) (c : CommitCall) : StoreM S (VaultReaderV2 S.toPrims) := do
  let s ← get
  let c := if s.isDir name then c else c.inMissing
  let (result, writer) ← inVault name writer (commitWith c.limit c.edits c.io)
  liftM (Result.text result)
  pure writer

/-! ### Mutating -/

/-- The error of a vault without a state. -/
def noVaultState : Str := "vault has no rollback-protection metadata".toList

/-- The state of a reader, or the error of a reader without one. -/
def VaultReaderV2.stateOr (reader : VaultReaderV2 S.toPrims) : StoreResult (StateMetadata S.Digest) :=
  match reader.state with
  | some state => .ok state
  | none => .error noVaultState

/-- `STALE_STATE` -/
def staleState : Str := "this vault changed since it was opened".toList

/-- `ensure_current_vault` -/
def ensureCurrentVault (reader : VaultReaderV2 S.toPrims) : StoreM S Unit := do
  let state ← liftM reader.stateOr
  let anchor ← currentAnchor state.identityFingerprint state.objectType state.objectId
  match anchor with
  | some anchor =>
    if anchor.epoch ≠ state.epoch ∨ anchor.currentStateHash ≠ state.currentStateHash then
      throw (staleState ++ "; reopen it and try again (vault ".toList ++ state.objectId ++ [')'])
    else pure ()
  | none => pure ()

/-- `commit_vault_reader` -/
def commitVaultReader (reader : VaultReaderV2 S.toPrims) : StoreM S Unit := do
  let state ← liftM reader.stateOr
  commitState state

/-- `mutate_vault`; the mutation is one commit. -/
def mutateVault (reader : VaultReaderV2 S.toPrims) (c : CommitCall) : StoreM S Unit := do
  let state ← liftM reader.stateOr
  ensureCurrentVault reader
  let writer ← commitIn (vaultDirV2 state.objectId) reader c
  commitVaultReader writer

/-- The loop of `mutate_vault_in_batches`: a commit and an anchor transition for each chunk. -/
def commitChunks (name : Str) : VaultReaderV2 S.toPrims → List (List Op × CommitIo) → StoreM S Unit
  | _, [] => pure ()
  | writer, (ops, io) :: chunks => do
    let writer ← commitIn name writer ⟨some maxBatchOps, .ofList ops, io⟩
    commitVaultReader writer
    commitChunks name writer chunks

/-- `mutate_vault_in_batches`, and the loop of `append_files_to_vault`; `io i` is how the machine treats the `i`-th
commit. -/
def mutateVaultInBatches (reader : VaultReaderV2 S.toPrims) (items : List Op) (io : Nat → CommitIo) : StoreM S Unit := do
  let state ← liftM reader.stateOr
  ensureCurrentVault reader
  commitChunks (vaultDirV2 state.objectId) reader ((items.toChunks maxBatchOps).zipIdx.map fun p => (p.1, io p.2))

/-! ### Wiping -/

/-- `secure_wipe` of a file of the directory `vaults/`: overwrite it, then remove it. -/
def wipeFile (name : Str) : StoreM S Unit := do
  let s ← get
  match s.vaults.get name with
  | none => pure ()
  | some (.dir _) => throw "refusing to wipe a non-regular file".toList
  | some (.file _) => do
    let noise ← drawBytes S 32
    call ioText
    modify fun s => { s with vaults := s.vaults.adjust name (.file (S.scrambled noise)) }
    call ioText
    modify fun s => { s with vaults := s.vaults.remove name }

/-- Work on the directory `name`, if it is there. -/
def Store.onDir (s : Store S) (name : Str) (f : VaultDir S.toPrims → VaultDir S.toPrims) : Store S :=
  match s.vaults.get name with
  | some (.dir d) => { s with vaults := s.vaults.adjust name (.dir (f d)) }
  | _ => s

/-- `secure_wipe` of a file in a vault directory, given what overwriting and removing it do to the directory. -/
def wipeIn (name : Str) (overwrite : Bytes → VaultDir S.toPrims → VaultDir S.toPrims)
    (unlink : VaultDir S.toPrims → VaultDir S.toPrims) : StoreM S Unit := do
  let noise ← drawBytes S 32
  call ioText
  modify fun s => s.onDir name (overwrite noise)
  call ioText
  modify fun s => s.onDir name unlink

/-- `secure_wipe` of a blob. -/
def wipeBlob (name blob : Str) : StoreM S Unit :=
  wipeIn name (fun noise d => { d with blobs := d.blobs.write blob noise })
    fun d => { d with blobs := d.blobs.unlink blob }

/-- `secure_wipe` of the header or the manifest. -/
def wipeTop (name : Str) (file : VaultFile) : StoreM S Unit :=
  wipeIn name (fun noise d => { d with top := d.top.write file (S.scrambled noise) })
    fun d => { d with top := d.top.unlink file }

/-- How the machine treats the wiping of a vault directory. -/
structure WipeIo where
  /-- The blobs that reading the directory of blobs yields. -/
  blobs : List Str
  /-- What a failing `remove_dir_all` has removed before it fails. -/
  removedTop : List VaultFile
  removedBlobs : List Str

/-- `remove_dir_all` of a vault directory. -/
def removeDirAll (name : Str) (io : WipeIo) : StoreM S Unit := do
  let removed ← attempt (call ioText)
  match removed with
  | .ok () => modify fun s => { s with vaults := s.vaults.remove name }
  | .error e => do
    modify fun s => s.onDir name fun d =>
      ⟨d.top.unlinkAll io.removedTop fun _ => true, d.blobs.unlinkAll io.removedBlobs fun _ => true⟩
    throw e

/-- The loop of `wipe_vault_dir` over the blobs. -/
def wipeBlobs (name : Str) : List Str → StoreM S Unit
  | [] => pure ()
  | blob :: blobs => do
    let _ ← attempt (wipeBlob name blob)
    wipeBlobs name blobs

/-- `wipe_vault_dir` -/
def wipeVaultDir (name : Str) (io : WipeIo) : StoreM S Unit := do
  let s ← get
  if s.isDir name then do
    wipeBlobs name io.blobs
    let _ ← attempt (wipeTop name .manifest)
    let _ ← attempt (wipeTop name .header)
    let _ ← attempt (removeDirAll name io)
    pure ()
  else pure ()

end FileSec
