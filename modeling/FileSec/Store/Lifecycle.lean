import FileSec.Store.Vaults

/-!
# The life of a vault in a store

Creating, opening and deleting vaults, and the repairs of every unlock: `clean_partial_dirs` and `reconcile_vaults`
(`store.rs`).
-/

namespace FileSec

open CrashDir Folders Prog

variable {S : StorePrims}

/-! ### Opening -/

/-- `VaultReaderV2::open` of the directory `name`. -/
def readVault (name : Str) (identity : Identity) : StoreM S (VaultReaderV2 S.toPrims) := do
  call (Error.io ioText).display
  call (Error.io ioText).display
  let s ← get
  liftM (Result.text (openVault S.toPrims (s.host name).top.shown identity))

/-- The part of `open_vault_locked` after the directory has been found. -/
def openVaultDir (identity : Identity) (id : Str) (io : GcIo) : StoreM S (VaultReaderV2 S.toPrims) := do
  let reader ← readVault (vaultDirV2 id) identity
  let state ← liftM reader.stateOr
  if state.objectId ≠ id then do
    let _ ← attempt (quarantine (.vault (vaultDirV2 id)))
    throw "vault object id does not match its registry/path id".toList
  else do
    acceptState state (some (.vault (vaultDirV2 id)))
    let _ ← attempt (wipeFile (vaultPath id))
    let (_, reader) ← inVault (vaultDirV2 id) reader (collectGarbage io)
    pure reader

/-- `open_vault_locked` -/
def openVaultLocked (identity : Identity) (id : Str) (io : GcIo) : StoreM S (VaultReaderV2 S.toPrims) := do
  let s ← get
  if (s.vaults.get (vaultDirV2 id)).isSome then openVaultDir identity id io
  else if (s.vaults.get (vaultPath id)).isSome then
    throw "legacy local vault requires explicit recovery before it can be opened".toList
  else throw ("vault not found: ".toList ++ id)

/-! ### Creating -/

/-- Sync the directory `vaults/`; whether this works is ignored. -/
def syncVaults : StoreM S Unit := do
  let synced ← attempt (call ioText)
  modify fun s => { s with vaults := s.vaults.sync synced.isOk }

/-- `rename` within `vaults/`. -/
def renameVault (m n : Str) : StoreM S Unit := do
  call ioText
  let s ← get
  match s.vaults.get m with
  | none => throw ioText
  | some node =>
    if node.replaces (s.vaults.get n) then modify fun s => { s with vaults := s.vaults.rename m n }
    else throw ioText

/-- Whether `create_with_object_id` gets as far as creating the directory. -/
def CreateIo.makesDir (io : CreateIo) (objectId : Str) : Bool :=
  io.dirFault.isNone && (unhex objectId).any fun bytes => bytes.length = 16

/-- What `save_vault` and `import_reader_to_vault` build a vault from. -/
inductive VaultSource where
  | memory (v : Vault)
  | container (r : VaultReader)

/-- The builder for a source, with the object id `id`. -/
def VaultSource.builder (P : Prims) (identity : Identity) (id : Str) (io : BuildIo) : VaultSource → Builder P
  | .memory v => .fromVault (selfSuite identity) v (some id) io
  | .container r => .fromReaderV1 (selfSuite identity) r (some id) io

/-- Build a vault in the directory `name`. -/
def buildIn (name : Str) (identity : Identity) (id : Str) (io : BuildIo) (source : VaultSource) :
    StoreM S (VaultReaderV2 S.toPrims) := ExceptT.mk fun s =>
  let (r, h) := exec ((source.builder S.toPrims identity id io).run identity) (s.host name)
  let s := if s.isDir name || !io.create.makesDir id then s.setHost name h
    else { s with vaults := s.vaults.put name (.dir ⟨h.top, h.blobs⟩), rng := h.rng }
  (Result.text r, s)

/-- How the machine treats the creation of a vault directory; `wipes` is for the directories it wipes, in order. -/
structure CreateDirIo where
  build : BuildIo
  stale : WipeIo
  undo : WipeIo

/-- `create_vault_dir` -/
def createVaultDir (identity : Identity) (id : Str) (source : VaultSource) (io : CreateDirIo) : StoreM S Unit := do
  let s ← get
  if (s.vaults.get (vaultDirV2 id)).isSome ∨ (s.vaults.get (vaultTombstone id)).isSome then
    throw "vault already exists; use the rollback-aware mutation APIs".toList
  else do
    wipeVaultDir (vaultPartial id) io.stale
    let built ← attempt (buildIn (vaultPartial id) identity id io.build source)
    match built with
    | .error e => do
      wipeVaultDir (vaultPartial id) io.undo
      throw e
    | .ok reader =>
      match reader.state with
      | none => do
        wipeVaultDir (vaultPartial id) io.undo
        throw "new vault has no rollback-protection metadata".toList
      | some state => do
        let renamed ← attempt (renameVault (vaultPartial id) (vaultDirV2 id))
        match renamed with
        | .error e => do
          wipeVaultDir (vaultPartial id) io.undo
          throw e
        | .ok () => do
          syncVaults
          let committed ← attempt (commitState state)
          match committed with
          | .ok () => pure ()
          | .error e => do
            wipeVaultDir (vaultDirV2 id) io.undo
            throw e

/-- `NOT_ENOUGH_SPACE` -/
def notEnoughSpace : Str := "not enough free disk space".toList

/-- `save_vault` -/
def saveVault (identity : Identity) (id : Str) (vault : Vault) (io : CreateDirIo) : StoreM S Unit :=
  createVaultDir identity id (.memory vault) io

/-- `import_reader_to_vault`; `space` is whether there is enough free space. -/
def importReaderToVault (identity : Identity) (id : Str) (reader : VaultReader) (space : Bool) (io : CreateDirIo) :
    StoreM S Unit :=
  if space then createVaultDir identity id (.container reader) io else throw notEnoughSpace

/-! ### Deleting -/

/-- Rename `m` to `n` if there is something under `m`. -/
def renameIfThere (m n : Str) : StoreM S Unit := do
  let s ← get
  if (s.vaults.get m).isSome then renameVault m n else pure ()

/-- `tombstone_vault` -/
def tombstoneVault (id : Str) : StoreM S Unit := do
  renameIfThere (vaultDirV2 id) (vaultTombstone id)
  renameIfThere (vaultPath id) (legacyVaultTombstone id)
  syncVaults

/-- `restore_tombstone` -/
def restoreTombstone (id : Str) : StoreM S Unit := do
  renameIfThere (vaultTombstone id) (vaultDirV2 id)
  renameIfThere (legacyVaultTombstone id) (vaultPath id)
  syncVaults

/-- `deleted_vault_anchor`; `S.terminalHash` is the hash of all ones. -/
def deletedVaultAnchor (S : StorePrims) (identity : Identity) (id : Str) : StateAnchor S.Digest :=
  ⟨identity.fingerprint, .vaultManifest, id, 0, u64Max, S.terminalHash⟩

/-- `retire_tombstone` -/
def retireTombstone (identity : Identity) (id : Str) (io : WipeIo) : StoreM S Unit := do
  putAnchorLocked (deletedVaultAnchor S identity id)
  let s ← get
  if (s.vaults.get (vaultTombstone id)).isSome then wipeVaultDir (vaultTombstone id) io else pure ()
  let _ ← attempt (wipeFile (legacyVaultTombstone id))
  pure ()

/-- The text of `delete_vault` for a vault that stays behind as a tombstone. -/
def keptAsTombstone (e restore : Str) : Str :=
  e ++ " (the vault is kept as a tombstone and will be restored on the next unlock: ".toList ++ restore ++ [')']

/-- `delete_vault` -/
def deleteVault (identity : Identity) (registry : Registry) (id : Str) (io : WipeIo) : StoreM S Registry := do
  let updated := registry.remove id
  tombstoneVault id
  let saved ← attempt (saveRegistry identity updated)
  match saved with
  | .error e => do
    let restored ← attempt (restoreTombstone id)
    match restored with
    | .ok () => throw e
    | .error restore => throw (keptAsTombstone e restore)
  | .ok () => do
    let _ ← attempt (retireTombstone identity id io)
    pure updated

/-! ### The repairs of an unlock -/

/-- The ids of the names with one of the suffixes, sorted, each once. -/
def idsWithSuffix (suffixes : List Str) (names : List Str) : List Str :=
  ((names.filterMap fun name => suffixes.findSome? fun suffix => suffix.isSuffixOf? name).dedup).insertionSort
    fun a b => strLe a b

/-- What reading the directory `vaults/` yields: its names, or nothing when it cannot be read. -/
def readVaultsDir : StoreM S (List Str) := do
  let ok ← attempt (call ioText)
  let s ← get
  pure (if ok.isOk then s.vaults.shown.keys else [])

/-- `tombstoned_vaults` -/
def tombstonedVaults : StoreM S (List Str) := do
  let names ← readVaultsDir
  pure (idsWithSuffix [".fsv2.deleted".toList, ".fsec.deleted".toList] names)

/-- `v2_vaults` -/
def v2Vaults : StoreM S (List Str) := do
  let names ← readVaultsDir
  let s ← get
  pure (idsWithSuffix [".fsv2".toList] (names.filter s.isDir))

/-- `remove_dir_all` of any entry of `vaults/`, whose failure is ignored. -/
def removeEntry (name : Str) (io : WipeIo) : StoreM S Unit := do
  let s ← get
  if s.isDir name then do
    let _ ← attempt (removeDirAll name io)
    pure ()
  else pure ()

/-- One round of the loop of `clean_partial_dirs`. -/
def cleanEntry (io : WipeIo) (name : Str) : StoreM S Unit :=
  if ".fsv2.partial".toList.isSuffixOf name then removeEntry name io
  else
    match ".old".toList.isSuffixOf? name with
    | none => pure ()
    | some stem => do
      let s ← get
      if (s.vaults.get stem).isSome then removeEntry name io
      else do
        let _ ← attempt (renameVault name stem)
        pure ()

/-- The loop of `clean_partial_dirs`. -/
def cleanEntries (io : Str → WipeIo) : List Str → StoreM S Unit
  | [] => pure ()
  | name :: names => do
    cleanEntry (io name) name
    cleanEntries io names

/-- `clean_partial_dirs` -/
def cleanPartialDirs (io : Str → WipeIo) : StoreM S Unit := do
  let names ← readVaultsDir
  cleanEntries io names

/-- `file_count` -/
def VaultReaderV2.fileCount {P : Prims} (r : VaultReaderV2 P) : Nat := r.manifest.entries.countP (·.kind = .file)

/-- `total_size` -/
def VaultReaderV2.totalSize {P : Prims} (r : VaultReaderV2 P) : Nat :=
  ((r.manifest.entries.filter (·.kind = .file)).map (·.size)).sum

/-- The entry of the registry for an opened vault. -/
def VaultReaderV2.meta {P : Prims} (r : VaultReaderV2 P) (id : Str) (now : Int) : VaultMeta where
  id := id
  name := r.manifest.vaultName
  createdAt := r.manifest.createdAt
  modifiedAt := now
  fileCount := r.fileCount
  totalSize := r.totalSize

/-- How the machine treats `reconcile_vaults`, vault by vault. -/
structure ReconcileIo where
  wipe : Str → WipeIo
  gc : Str → GcIo
  now : Int

/-- `Kept vault ...` -/
def keptNote (name : Str) : Str :=
  "Kept vault \"".toList ++ name ++ "\": its deletion was interrupted before it completed.".toList

/-- `Recovered vault ...` -/
def recoveredNote (name : Str) : Str :=
  "Recovered vault \"".toList ++ name ++ "\", which was saved but missing from the vault list.".toList

/-- The first loop of `reconcile_vaults`; the notes it adds. -/
def settleTombstones (identity : Identity) (registry : Registry) (io : ReconcileIo) : List Str → StoreM S (List Str)
  | [] => pure []
  | id :: ids => do
    if registry.lists id then do
      restoreTombstone id
      let name := ((registry.vaults.find? (·.id = id)).map (·.name)).getD []
      let notes ← settleTombstones identity registry io ids
      pure (keptNote name :: notes)
    else do
      retireTombstone identity id (io.wipe id)
      settleTombstones identity registry io ids

/-- The second loop of `reconcile_vaults`: the registry, the notes it adds and whether it changed anything. -/
def registerVaults (identity : Identity) (io : ReconcileIo) :
    Registry → List Str → StoreM S (Registry × List Str × Bool)
  | registry, [] => pure (registry, [], false)
  | registry, id :: ids =>
    if registry.lists id then registerVaults identity io registry ids
    else do
      let opened ← attempt (openVaultLocked identity id (io.gc id))
      match opened with
      | .error _ => registerVaults identity io registry ids
      | .ok reader => do
        let (registry, notes, _) ← registerVaults identity io (registry.upsert (reader.meta id io.now)) ids
        pure (registry, recoveredNote reader.manifest.vaultName :: notes, true)

/-- `reconcile_vaults` -/
def reconcileVaults (identity : Identity) (registry : Registry) (io : ReconcileIo) :
    StoreM S (Registry × List Str) := do
  let tombstoned ← tombstonedVaults
  let kept ← settleTombstones identity registry io tombstoned
  let ids ← v2Vaults
  let (registry, notes, changed) ← registerVaults identity io registry ids
  if changed then saveRegistry identity registry else pure ()
  pure (registry, kept ++ notes)

end FileSec
