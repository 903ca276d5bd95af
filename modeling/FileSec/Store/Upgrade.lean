import FileSec.Store.Resume

/-!
# The upgrade to a hybrid identity

`migrate_to_hybrid` re-encrypts a store to a new identity: it authenticates every object under the old one, stages copies
for the new one under `migration/`, reads each of them back, and writes the journal; one write of its record into the
anchor backend commits it, and `finish_migration` does the rest (`store/migration.rs`).
-/

namespace FileSec

open CrashDir Folders Prog

variable {S : StorePrims}

/-! ### Staging -/

/-- `create_dir_all` of the staging area. -/
def createStaging : StoreM S Unit := do
  call ioText
  modify fun s => { s with migration := some (s.migration.getD ⟨∅, none, none⟩) }

/-- The store with a staged copy of a live path. -/
def Store.stage (s : Store S) (live : Str) (entry : DirEntry S.toPrims) : Store S :=
  { s with migration := s.migration.map fun d => { d with staged := d.staged.insert live entry } }

/-- `write_private_atomic` to the staged copy of a live path. -/
def stageFile (live : Str) (raw : S.Raw) : StoreM S Unit := do
  call ioText
  let _ ← attempt (call ioText)
  modify fun s => s.stage live (.file raw)

/-- The staged copy of a live path, if it is a file. -/
def Store.stagedFile (s : Store S) (live : Str) : Option S.Raw :=
  match s.stagedAt live with
  | some (.file raw) => some raw
  | _ => none

/-- `read_bounded_file` of a staged copy. -/
def readStagedFile (live : Str) (max : Nat) (label : Str) : StoreM S S.Raw := do
  call (label ++ ": ".toList ++ (Error.io ioText).display)
  let s ← get
  liftM (Result.labelled label (readBounded S.toPrims (s.stagedFile live) max))

/-- The part of `stage_migration` for the keystore. -/
def stageKeystore (resealed : S.KeystoreFile) : StoreM S (StateMetadata S.Digest) := do
  let state ← liftM (keystoreStateOr "re-sealed keystore has no state".toList resealed)
  let bytes ← liftM (Result.text (S.keystoreToBytes resealed))
  stageFile keystoreFile bytes
  let bytes ← readStagedFile keystoreFile maxKeystoreFileLen "staged keystore".toList
  let check ← liftM (Result.text (S.keystoreFromBytes bytes))
  if S.keystoreState check ≠ some state then throw "staged keystore failed validation".toList else pure state

/-- `save_blob` to the staged copy of a live path. -/
def saveStagedBlob (identity : Identity) (live name : Str) (bytes : S.Raw) : StoreM S Unit := do
  let seed ← drawBytes S 32
  let raw ← liftM (Result.text (S.exportBlob identity (selfSuite identity) name bytes seed))
  stageFile live raw

/-- `load_blob` of the staged copy of a live path. -/
def loadStagedBlob (identity : Identity) (live name : Str) : StoreM S (Option (S.Raw × SuiteId)) := do
  let s ← get
  match s.stagedFile live with
  | none => pure none
  | some raw => do
    call ioText
    if S.rawLen raw > maxSelfBlobContainerLen then throw "stored metadata file is too large".toList
    else do
      call (Error.io ioText).display
      let blob ← liftM (readContainer S identity raw name)
      pure (some blob)

/-- `stage_protected` -/
def stageProtected {T : Type} (o : RecordKind S T) (identity : Identity) (payload : T) :
    StoreM S (StateMetadata S.Digest) := do
  let state ← liftM (o.next identity none payload)
  saveStagedBlob identity o.path o.entryName (o.record.encode ⟨protectedStateVersion, state, payload⟩)
  let blob ← loadStagedBlob identity o.path o.entryName
  match blob with
  | none => throw ("staged ".toList ++ o.objectType.display ++ " is missing".toList)
  | some blob => do
    let check ← liftM (o.authenticate identity blob)
    if check.state ≠ state then throw ("staged ".toList ++ o.objectType.display ++ " failed validation".toList)
    else pure state

/-- The live path of a vault. -/
def vaultLive (id : Str) : Str := "vaults/".toList ++ vaultDirV2 id

/-- The machine as seen from the staged copy of a vault; one that is missing looks empty. -/
def Store.stagedHost (s : Store S) (live : Str) : Host S.toPrims :=
  match s.stagedAt live with
  | some (.dir d) => ⟨d.top, d.blobs, s.rng⟩
  | _ => ⟨.empty, .empty, s.rng⟩

/-- Build a vault as the staged copy of a live path; `makesDir` says whether its directory is created if it is missing. -/
def buildStaged (live : Str) (identity : Identity) (builder : Builder S.toPrims) (makesDir : Bool) :
    StoreM S (VaultReaderV2 S.toPrims) := ExceptT.mk fun s =>
  let (r, h) := exec (builder.run identity) (s.stagedHost live)
  let t := if (s.stagedAt live).isSome || makesDir then s.stage live (.dir ⟨h.top, h.blobs⟩) else s
  (Result.text r, { t with rng := h.rng })

/-- `VaultReaderV2::open` of the staged copy of a vault. -/
def readStagedVault (live : Str) (identity : Identity) : StoreM S (VaultReaderV2 S.toPrims) := do
  call (Error.io ioText).display
  call (Error.io ioText).display
  let s ← get
  liftM (Result.text (openVault S.toPrims (s.stagedHost live).top.shown identity))

/-- The round of the loop of `stage_migration` for the vault `id`, whose reader is `current`. -/
def stageVault (identity : Identity) (io : BuildIo) (id : Str) (current : VaultReaderV2 S.toPrims) :
    StoreM S (StateMetadata S.Digest) := do
  let s ← get
  let built ← buildStaged (vaultLive id) identity (.fromReaderV2 (selfSuite identity) current
    (s.host (vaultDirV2 id)).blobs.shown (some id) io) (io.create.makesDir id)
  match built.state with
  | none => throw ("staged vault ".toList ++ id ++ " has no state".toList)
  | some state => do
    let check ← readStagedVault (vaultLive id) identity
    if check.state ≠ some state ∨ check.view.length ≠ current.view.length then
      throw ("staged vault ".toList ++ id ++ " failed validation".toList)
    else pure state

/-- The loop of `stage_migration` over the vaults; the live paths and the states of the copies. -/
def stageVaults (identity : Identity) (io : Str → BuildIo) :
    List (Str × VaultReaderV2 S.toPrims) → StoreM S (List (Str × StateMetadata S.Digest))
  | [] => pure []
  | (id, current) :: vaults => do
    let state ← stageVault identity (io id) id current
    let rest ← stageVaults identity io vaults
    pure ((vaultLive id, state) :: rest)

/-- `staged_move` -/
def stagedMove (live : Str) : Str × Str := (stagedPath live, live)

/-- What `migrate_to_hybrid` has authenticated before it writes anything. -/
structure UpgradePlan (S : StorePrims) where
  new : Identity
  resealed : S.KeystoreFile
  contacts : S.ContactBook
  registry : Registry
  vaults : List (Str × VaultReaderV2 S.toPrims)

/-- The journal of staged copies, given their live paths and states. -/
def journalOf (old new : Identity) (staged : List (Str × StateMetadata S.Digest)) : MigrationJournal S.Digest where
  version := journalVersion
  oldFingerprint := old.fingerprint
  newFingerprint := new.fingerprint
  moves := staged.map fun p => stagedMove p.1
  anchors := staged.map fun p => StateAnchor.fromMetadata p.2

/-- `stage_migration` -/
def stageMigration (old : Identity) (plan : UpgradePlan S) (io : Str → BuildIo) :
    StoreM S (MigrationJournal S.Digest) := do
  createStaging
  let keystore ← stageKeystore plan.resealed
  let contacts ← stageProtected (contactsRecord S) plan.new plan.contacts
  let registry ← stageProtected (registryRecord S) plan.new plan.registry
  let vaults ← stageVaults plan.new io plan.vaults
  pure (journalOf old plan.new
    ((keystoreFile, keystore) :: (contactsFile, contacts) :: (indexFile, registry) :: vaults))

/-! ### Validating -/

/-- `unrecovered_legacy_vaults` -/
def unrecoveredLegacyVaults : StoreM S (List Str) := do
  let names ← readVaultsDir
  let s ← get
  pure (((names.filterMap fun name => ".fsec".toList.isSuffixOf? name).filter fun id =>
    (s.vaults.get (vaultDirV2 id)).isNone).insertionSort fun a b => strLe a b)

/-- How the machine treats an upgrade. -/
structure UpgradeIo where
  /-- What making the new identity and re-sealing the keystore draw. -/
  hybrid : Bytes
  reseal : Bytes
  gc : Str → GcIo
  build : Str → BuildIo
  /-- The wiping of `migration/` before staging, and after a failure or at the end. -/
  sweep : DiscardIo
  discard : DiscardIo

/-- The loop of `migrate_to_hybrid_exclusive` that opens the vaults. -/
def openVaults (old : Identity) (gc : Str → GcIo) : List Str → StoreM S (List (Str × VaultReaderV2 S.toPrims))
  | [] => pure []
  | id :: ids => do
    let opened ← attempt (openVaultLocked old id (gc id))
    match opened with
    | .error e => throw ("vault ".toList ++ id ++ " must open before upgrading: ".toList ++ e)
    | .ok reader => do
      let rest ← openVaults old gc ids
      pure ((id, reader) :: rest)

/-- The part of `migrate_to_hybrid_exclusive` that authenticates every object. -/
def validateUpgrade (old : Identity) (passphrase : S.Raw) (io : UpgradeIo) : StoreM S (UpgradePlan S) := do
  let new ← liftM (Result.text (S.upgradedToHybrid old io.hybrid))
  let ks ← loadKeystore
  let resealed ← liftM (Result.text (S.continueIdentity ks passphrase old new io.reseal))
  let contacts ← loadContacts old
  let registry ← loadRegistry old
  let tombstoned ← tombstonedVaults
  if tombstoned ≠ [] then
    throw "a vault deletion was interrupted; lock and unlock FileSec to finish it before upgrading".toList
  else do
    let legacy ← unrecoveredLegacyVaults
    match legacy with
    | id :: _ => throw ("legacy vault ".toList ++ id ++ " must be recovered before upgrading".toList)
    | [] => do
      let ids ← v2Vaults
      let vaults ← openVaults old io.gc ids
      pure ⟨new, resealed, contacts, registry, vaults⟩

/-! ### Upgrading -/

/-- `write_private_atomic` of the journal. -/
def writeJournal (bytes : S.Raw) : StoreM S Unit := do
  call ioText
  let _ ← attempt (call ioText)
  modify fun s => { s with migration := s.migration.map fun d => { d with journal := some bytes } }

/-- The record that commits to a journal. -/
def recordOf (journal : MigrationJournal S.Digest) : MigrationRecord S.Digest :=
  ⟨recordVersion, journal.oldFingerprint, journal.newFingerprint, S.hashRaw (S.journal.encode journal)⟩

/-- The part of `migrate_to_hybrid_exclusive` that commits to a journal. -/
def commitMigration (journal : MigrationJournal S.Digest) : StoreM S Unit := do
  writeJournal (S.journal.encode journal)
  setMigrationRecord (some (recordOf journal))

/-- `inspect_err(|_| self.abandon_uncommitted())` -/
def orAbandon {α : Type} (io : DiscardIo) (p : StoreM S α) : StoreM S α := do
  let result ← attempt p
  match result with
  | .ok a => pure a
  | .error e => do
    discardMigrationDir io
    throw e

/-- `migrate_to_hybrid_exclusive` -/
def migrateToHybridExclusive (old : Identity) (passphrase : S.Raw) (io : UpgradeIo) : StoreM S Identity := do
  let record ← migrationRecord
  if record.isSome then throw (migrationResumePending ++ "; restart FileSec to complete it".toList)
  else do
    let plan ← validateUpgrade old passphrase io
    discardMigrationDir io.sweep
    let journal ← orAbandon io.discard (stageMigration old plan io.build)
    orAbandon io.discard (commitMigration journal)
    let finished ← attempt (finishMigration (recordOf journal) io.discard)
    match finished with
    | .ok () => pure plan.new
    | .error e => throw (migrationResumePending ++ " (".toList ++ e ++ "); restart FileSec to complete it".toList)

/-- `migrate_to_hybrid` -/
def migrateToHybrid (old : Identity) (passphrase : S.Raw) (io : UpgradeIo) : StoreM S Identity :=
  if old.publicPart.hybridCapable then throw "this identity is already post-quantum".toList
  else migrateToHybridExclusive old passphrase io

end FileSec
