import FileSec.Lib.Tasks
import FileSec.Store.Within

/-!
# Finishing an identity migration

A migration is committed by one write of its record into the anchor backend; what comes after it is done by
`finish_migration`, here or at the next launch (`resume_identity_migration`): each live object is set aside and replaced
by its staged copy, the anchors of the journal are put, the record is cleared and the directory `migration/` is wiped
(`store/migration.rs`).
-/

namespace FileSec

open CrashDir Folders Prog

variable {S : StorePrims}

/-! ### Paths -/

/-- `MIGRATION_DIR` -/
def migrationDirName : Str := "migration".toList

/-- `JOURNAL_VERSION` -/
def journalVersion : Nat := 1

/-- `RECORD_VERSION` -/
def recordVersion : Nat := 1

/-- `MAX_JOURNAL_LEN` -/
def maxJournalLen : Nat := 16 * 1024 * 1024

/-- `MIGRATION_RESUME_PENDING` -/
def migrationResumePending : Str := "the post-quantum upgrade was committed but has not finished".toList

/-- `ANCHORS_BACKEND_FILE` -/
def anchorsBackendFile : Str := ".state-anchor-backend".toList

/-- The characters of the ids that `is_migratable_live_path` lets through. -/
def isVaultIdChar (c : Char) : Bool := c.isAlphanum || c = '-'

/-- `is_migratable_live_path` -/
def isMigratableLivePath (rel : Str) : Bool :=
  if rel = keystoreFile ∨ rel = contactsFile ∨ rel = indexFile then true
  else
    match ("vaults/".toList.isPrefixOf? rel).bind fun leaf => ".fsv2".toList.isSuffixOf? leaf with
    | none => false
    | some id => id ≠ [] && byteLen id ≤ 64 && id.all isVaultIdChar

/-- The staged path of a live one. -/
def stagedPath (live : Str) : Str := migrationDirName ++ '/' :: live

/-- Where a live path lies. -/
def liveSpot (rel : Str) : Spot :=
  match "vaults/".toList.isPrefixOf? rel with
  | some leaf => .vault leaf
  | none => .root rel

/-- The name of the old copy of the `index`-th live path. -/
def oldCopyName (index : Nat) (live : Str) : Str :=
  Nat.toDigits 10 index ++ '-' :: live.map fun c => if c = '/' then '-' else c

/-! ### The record -/

/-- `migration_record` -/
def migrationRecord : StoreM S (Option (MigrationRecord S.Digest)) := do
  let s ← get
  match s.backend with
  | .secureStorage => do
    let bytes ← loadSecure s.account
    match bytes with
    | none => pure none
    | some bytes =>
      match S.anchorRoot.decode bytes with
      | none => throw Error.serialization.display
      | some root => pure root.migration
  | .degradedFile => do
    let set ← loadFileAnchorSetLocked
    pure set.migration

/-- `set_migration_record` -/
def setMigrationRecord (record : Option (MigrationRecord S.Digest)) : StoreM S Unit := do
  let s ← get
  match s.backend with
  | .secureStorage => saveSecure s.account (S.anchorRoot.encode ⟨anchorRootVersion, record⟩)
  | .degradedFile => do
    let set ← loadFileAnchorSetLocked
    saveFileAnchorSetLocked { set with migration := record }

/-! ### The directory `migration/` -/

/-- The file `migration/journal`. -/
def Store.journalFile (s : Store S) : Option S.Raw := s.migration.bind (·.journal)

/-- The staged copy of a live path. -/
def Store.stagedAt (s : Store S) (live : Str) : Option (DirEntry S.toPrims) := s.migration.bind fun d => d.staged.lookup live

/-- The old copy of that name. -/
def Store.oldCopyAt (s : Store S) (name : Str) : Option (DirEntry S.toPrims) :=
  s.migration.bind fun d => d.oldCopies.bind fun copies => copies.lookup name

/-- A file below `migration/`: the journal, or a staged or old copy, or a file in one that is a vault. -/
inductive MigrationFile where
  | journal
  | staged (live : Str) (inner : Option (VaultFile ⊕ Str))
  | oldCopy (name : Str) (inner : Option (VaultFile ⊕ Str))

/-- The entry with another content of one of its files, or without the file, or `none` if nothing of it is left. -/
def DirEntry.withFile {P : Prims} (inner : Option (VaultFile ⊕ Str)) (content : Option (P.Raw × Bytes)) :
    DirEntry P → Option (DirEntry P)
  | .file raw =>
    match inner with
    | none => content.map fun c => .file c.1
    | some _ => some (.file raw)
  | .dir d =>
    match inner, content with
    | none, _ => some (.dir d)
    | some (.inl top), some c => some (.dir { d with top := d.top.write top c.1 })
    | some (.inl top), none => some (.dir { d with top := d.top.unlink top })
    | some (.inr blob), some c => some (.dir { d with blobs := d.blobs.write blob c.2 })
    | some (.inr blob), none => some (.dir { d with blobs := d.blobs.unlink blob })

/-- A listing with one of its entries changed. -/
def changedIn {P : Prims} (entries : Listing Str (DirEntry P)) (name : Str)
    (f : DirEntry P → Option (DirEntry P)) : Listing Str (DirEntry P) :=
  match entries.lookup name with
  | none => entries
  | some entry =>
    match f entry with
    | none => entries.erase name
    | some entry => entries.insert name entry

/-- The directory with another content of one of its files, or without the file. -/
def MigrationDir.withFile {P : Prims} (d : MigrationDir P) (file : MigrationFile) (content : Option (P.Raw × Bytes)) :
    MigrationDir P :=
  match file with
  | .journal => { d with journal := d.journal.bind fun _ => content.map (·.1) }
  | .staged live inner => { d with staged := changedIn d.staged live (DirEntry.withFile inner content) }
  | .oldCopy name inner =>
    { d with oldCopies := d.oldCopies.map fun copies => changedIn copies name (DirEntry.withFile inner content) }

/-- `secure_wipe` of a file below `migration/`. -/
def wipeMigrationFile (file : MigrationFile) : StoreM S Unit := do
  let noise ← drawBytes S 32
  call ioText
  modify fun s => { s with migration := s.migration.map (·.withFile file (some (S.scrambled noise, noise))) }
  call ioText
  modify fun s => { s with migration := s.migration.map (·.withFile file none) }

/-- The directory without some of its files. -/
def MigrationDir.withoutFiles {P : Prims} (d : MigrationDir P) (files : List MigrationFile) : MigrationDir P :=
  files.foldl (fun d file => d.withFile file none) d

/-- How the machine treats the wiping of `migration/`: the files that walking through it yields, and those that a
failing `remove_dir_all` has removed before it fails. -/
structure DiscardIo where
  walked : List MigrationFile
  removed : List MigrationFile

/-- The loop of `discard_migration_dir`. -/
def wipeMigrationFiles : List MigrationFile → StoreM S Unit
  | [] => pure ()
  | file :: files => do
    let _ ← attempt (wipeMigrationFile file)
    wipeMigrationFiles files

/-- `discard_migration_dir` -/
def discardMigrationDir (io : DiscardIo) : StoreM S Unit := do
  let s ← get
  match s.migration with
  | none => pure ()
  | some _ => do
    wipeMigrationFiles io.walked
    let removed ← attempt (call ioText)
    modify fun s => { s with migration := if removed.isOk then none else s.migration.map (·.withoutFiles io.removed) }

/-! ### Applying the moves -/

/-- The store with an entry at a spot. -/
def Store.place (s : Store S) : Spot → DirEntry S.toPrims → Store S
  | .root name, .file raw => { s with root := s.root.put name raw }
  | .root _, .dir _ => s
  | .vault name, entry => { s with vaults := s.vaults.put name entry }

/-- The store without the entry at a spot. -/
def Store.take (s : Store S) : Spot → Store S
  | .root name => { s with root := s.root.remove name }
  | .vault name => { s with vaults := s.vaults.remove name }

/-- Whether an entry can lie at a spot: the data directory has no vault directories of its own. -/
def Spot.fits {P : Prims} : Spot → DirEntry P → Bool
  | .root _, .dir _ => false
  | _, _ => true

/-- Whether the directory of the old copies has been created. -/
def Store.hasOldCopies (s : Store S) : Bool := s.migration.any (·.oldCopies.isSome)

/-- The store after the entry at a live path has become an old copy. -/
def Store.movedAside (s : Store S) (live name : Str) (entry : DirEntry S.toPrims) : Store S :=
  { s.take (liveSpot live) with
    migration := s.migration.map fun d => { d with oldCopies := d.oldCopies.map (·.insert name entry) } }

/-- The store after the staged copy of a live path has been put into place. -/
def Store.movedIntoPlace (s : Store S) (live : Str) (entry : DirEntry S.toPrims) : Store S :=
  { s.place (liveSpot live) entry with migration := s.migration.map fun d => { d with staged := d.staged.erase live } }

/-- Rename what lies at a live path to an old copy. -/
def moveAside (live name : Str) : StoreM S Unit := do
  call ioText
  let s ← get
  match s.node (liveSpot live) with
  | none => throw ioText
  | some entry => if s.hasOldCopies then modify fun s => s.movedAside live name entry else throw ioText

/-- Rename the staged copy of a live path into place. -/
def moveIntoPlace (live : Str) : StoreM S Unit := do
  call ioText
  let s ← get
  match s.stagedAt live with
  | none => throw ioText
  | some entry =>
    if (liveSpot live).fits entry then modify fun s => s.movedIntoPlace live entry else throw ioText

/-- One round of the loop of `finish_migration` over the moves, where its lookups answer. -/
def applyMove (move : (Str × Str) × Nat) : StoreM S Unit :=
  let live := move.1.2
  let name := oldCopyName move.2 live
  if ¬ isMigratableLivePath live ∨ move.1.1 ≠ stagedPath live then
    throw "the migration journal names an unexpected path".toList
  else do
    let s ← get
    match (s.stagedAt live).isSome, (s.node (liveSpot live)).isSome, (s.oldCopyAt name).isSome with
    | true, true, false => do
      moveAside live name
      moveIntoPlace live
    | true, false, _ => moveIntoPlace live
    | false, true, _ => pure ()
    | true, true, true => throw ("migration state for ".toList ++ live ++ " is inconsistent".toList)
    | false, false, _ => throw ("migrated ".toList ++ live ++ " is missing".toList)

/-- `create_dir_all` of `migration/old/`. -/
def createOldCopies : StoreM S Unit := do
  call ioText
  modify fun s => { s with migration := s.migration.map fun d => { d with oldCopies := some (d.oldCopies.getD ∅) } }

/-- `sync_dir` of the data directory. -/
def syncRoot : StoreM S Unit := do
  let synced ← attempt (call ioText)
  modify fun s => { s with root := s.root.sync synced.isOk }

/-- One round of the loop of `finish_migration` over the anchors. -/
def putJournalAnchor (fingerprint : Bytes) (anchor : StateAnchor S.Digest) : StoreM S Unit :=
  if anchor.identityFingerprint ≠ fingerprint then throw "the migration journal anchors another identity".toList
  else putAnchorLocked anchor

/-- `read_bounded_file` of the journal. -/
def readJournal : StoreM S S.Raw := do
  let label := "migration journal".toList
  call (label ++ ": ".toList ++ (Error.io ioText).display)
  let s ← get
  liftM (Result.labelled label (readBounded S.toPrims s.journalFile maxJournalLen))

/-- The journal is one that the record commits to. -/
def MigrationJournal.fits (journal : MigrationJournal S.Digest) (record : MigrationRecord S.Digest) : Bool :=
  journal.version = journalVersion ∧ record.version = recordVersion ∧
    journal.oldFingerprint = record.oldFingerprint ∧ journal.newFingerprint = record.newFingerprint

/-- The part of `finish_migration` before the first move: the journal that the record commits to. -/
def committedJournal (record : MigrationRecord S.Digest) : StoreM S (MigrationJournal S.Digest) := do
  let bytes ← readJournal
  if S.hashRaw bytes ≠ record.journalHash then
    throw "the migration journal does not match its committed record".toList
  else
    match S.journal.decode bytes with
    | none => throw Error.serialization.display
    | some journal =>
      if journal.fits record then pure journal
      else throw "unsupported or inconsistent migration journal".toList

/-- The part of `finish_migration` after the journal has been checked. -/
def applyJournal (journal : MigrationJournal S.Digest) (io : DiscardIo) : StoreM S Unit := do
  createOldCopies
  runAll applyMove journal.moves.zipIdx
  syncRoot
  syncVaults
  runAll (putJournalAnchor journal.newFingerprint) journal.anchors
  setMigrationRecord none
  discardMigrationDir io

/-- `finish_migration` -/
def finishMigration (record : MigrationRecord S.Digest) (io : DiscardIo) : StoreM S Unit := do
  let journal ← committedJournal record
  applyJournal journal io

/-- `resume_identity_migration` -/
def resumeIdentityMigration (io : DiscardIo) : StoreM S Unit := do
  let record ← migrationRecord
  match record with
  | none => discardMigrationDir io
  | some record => do
    let result ← attempt (finishMigration record io)
    match result with
    | .ok () => pure ()
    | .error e => throw (migrationResumePending ++ ": ".toList ++ e)

section

variable {s s' : Store S}

/-! ### What the backend shows -/

/-- What the backend shows depends on these parts of the store alone. -/
theorem backend_congr (haccount : s'.account = s.account) (hbackend : s'.backend = s.backend)
    (hsecure : s'.secure = s.secure) (hfile : s'.root.get anchorsFile = s.root.get anchorsFile) :
    (∀ ty id, s'.anchor ty id = s.anchor ty id) ∧ s'.migrationRecord = s.migrationRecord ∧
      (s.Overgrown → s'.Overgrown) := by
  have hset : s'.fileAnchorSet = s.fileAnchorSet := by
    unfold Store.fileAnchorSet
    rw [hfile]
  refine ⟨fun ty id => ?_, ?_, ?_⟩
  · unfold Store.anchor
    rw [hbackend, hsecure, haccount, hset]
  · unfold Store.migrationRecord
    rw [hbackend, hsecure, haccount, hset]
  · rintro ⟨hb, e, he⟩
    exact ⟨hbackend.trans hb, e, hset.trans he⟩

theorem Store.Overgrown.record (h : s.Overgrown) : ∃ e, s.migrationRecord = .error e := by
  obtain ⟨hb, e, he⟩ := h
  refine ⟨e, ?_⟩
  unfold Store.migrationRecord
  rw [hb]
  simp only [he]
  rfl

theorem get_of_node {name : Str} (h : s'.node (.root name) = s.node (.root name)) :
    s'.root.get name = s.root.get name := by
  have hinj : Function.Injective (DirEntry.file : S.Raw → DirEntry S.toPrims) := fun a b hab => DirEntry.file.inj hab
  exact Option.map_injective hinj h

/-- What `migration_record` returns. -/
theorem migrationRecord_spec (s : Store S) : wp migrationRecord (s.Read s.migrationRecord) s := by
  unfold migrationRecord Store.migrationRecord
  simp only [wp_bind, wp_get]
  cases hb : s.backend with
  | secureStorage =>
    unfold loadSecure secureStorage
    simp only [wp_bind, wp_get]
    cases hs : s.secure with
    | none => exact .of_value 0
    | some records =>
      simp only [wp_pure, wp_call]
      refine ⟨fun _ => ?_, fun hf => .of_failure 1 hf⟩
      cases hr : records s.account with
      | none => exact .of_value 1
      | some bytes =>
        simp only
        cases S.anchorRoot.decode bytes with
        | none => exact .of_value 1
        | some root => exact .of_value 1
  | degradedFile =>
    simp only [wp_bind]
    refine wp_mono (loadFileAnchorSetLocked_spec s) ?_
    intro r s' hr
    have hmap := hr.map (·.migration)
    cases r with
    | error e => exact hmap
    | ok set => exact hmap

/-! ### Clearing the record -/

/-- The store after the backend has taken another record. -/
inductive Store.RecordSet (s : Store S) (record : Option (MigrationRecord S.Digest)) : Store S → Prop
  | secure (records : Str → Option S.Raw) (k : Nat) (hb : s.backend = .secureStorage) (hr : s.secure = some records) :
      s.RecordSet record ((s.later k).withSecure
        (Function.update records s.account (some (S.anchorRoot.encode ⟨anchorRootVersion, record⟩))))
  | degraded (set : AnchorSet S.Digest) (k : Nat) (ok : Bool) (hb : s.backend = .degradedFile)
      (hset : s.fileAnchorSet = .ok set) :
      s.RecordSet record ((s.later k).withRoot
        ((s.root.put anchorsFile (S.anchorSet.encode { set with migration := record })).sync ok))

theorem setMigrationRecord_spec (record : Option (MigrationRecord S.Digest)) (s : Store S) :
    wp (setMigrationRecord record) (fun r s' => match r with
      | .ok () => s.RecordSet record s'
      | .error _ => ∃ k, s' = s.later k) s := by
  unfold setMigrationRecord
  simp only [wp_bind, wp_get]
  cases hb : s.backend with
  | secureStorage =>
    unfold saveSecure secureStorage
    simp only [wp_bind, wp_get]
    cases hs : s.secure with
    | none => exact ⟨0, rfl⟩
    | some records =>
      simp only [wp_pure, wp_call, wp_modify]
      exact ⟨fun _ => .secure records 1 hb hs, fun _ => ⟨1, rfl⟩⟩
  | degradedFile =>
    simp only [wp_bind]
    refine wp_mono (loadFileAnchorSetLocked_spec s) ?_
    rintro r s' ⟨⟨k, rfl⟩, hok, -⟩
    cases r with
    | error e => exact ⟨k, rfl⟩
    | ok set =>
      have hset := hok set rfl
      unfold saveFileAnchorSetLocked writePrivateAtomic
      simp only [wp_bind, wp_call, wp_attempt, wp_modify, later_tick]
      refine ⟨fun _ => ⟨fun _ => ?_, fun _ => ?_⟩, fun _ => ⟨k + 1, rfl⟩⟩
      · exact .degraded set (k + 2) true hb hset
      · exact .degraded set (k + 2) false hb hset

section RecordSet

variable {record : Option (MigrationRecord S.Digest)}

/-- Nothing but the record changes, unless the file of the anchors has become unreadable. -/
theorem Store.RecordSet.spec (h : s.RecordSet record s') :
    s'.account = s.account ∧ s'.backend = s.backend ∧ s'.quarantined = s.quarantined ∧
      s'.migration = s.migration ∧ ¬ s.Overgrown ∧
      (∀ spot, spot ≠ .root anchorsFile → s'.node spot = s.node spot) ∧
      (((∀ ty id, s'.anchor ty id = s.anchor ty id) ∧ s'.migrationRecord = .ok record) ∨ s'.Overgrown) := by
  cases h with
  | secure records k hb hr =>
    refine ⟨rfl, rfl, rfl, rfl, ?_, fun spot _ => by cases spot <;> rfl, Or.inl ⟨fun ty id => ?_, ?_⟩⟩
    · rintro ⟨hb', -⟩
      rw [hb] at hb'
      cases hb'
    · unfold Store.anchor Store.withSecure Store.later
      simp only [hb, hr]
      rw [Function.update_of_ne (account_ne_objectAnchorAccount s ty id).symm]
    · unfold Store.migrationRecord Store.withSecure Store.later
      simp only [hb, Function.update_self, RawCodec.decode_encode]
  | degraded set k ok hb hset =>
    have hget : ((s.root.put anchorsFile (S.anchorSet.encode { set with migration := record })).sync ok).get anchorsFile =
        some (S.anchorSet.encode { set with migration := record }) := by
      simp
    refine ⟨rfl, rfl, rfl, rfl, ?_, fun spot hs => ?_, ?_⟩
    · rintro ⟨-, e, he⟩
      rw [hset] at he
      cases he
    · cases spot with
      | root name =>
        have hne : name ≠ anchorsFile := fun he => hs (he ▸ rfl)
        show (((s.root.put anchorsFile _).sync ok).get name).map DirEntry.file = (s.root.get name).map DirEntry.file
        rw [get_sync, get_put_of_ne hne]
      | vault name => rfl
    · rcases fileAnchorSet_encode (s.later k) { set with migration := record } hget with hf | ⟨e, hf⟩
      · refine Or.inl ⟨fun ty id => ?_, ?_⟩
        · unfold Store.anchor
          rw [show ((s.later k).withRoot _).backend = .degradedFile from hb, hb]
          simp only [hf, hset]
          rfl
        · unfold Store.migrationRecord
          rw [show ((s.later k).withRoot _).backend = .degradedFile from hb]
          simp only [hf]
          rfl
      · exact Or.inr ⟨hb, e, hf⟩

end RecordSet

/-! ### Wiping the staging area -/

/-- Nothing but `migration/` and the draws has changed, and no old copies have come up. -/
structure Store.Beneath (s s' : Store S) : Prop where
  account : s'.account = s.account
  backend : s'.backend = s.backend
  secure : s'.secure = s.secure
  root : s'.root = s.root
  vaults : s'.vaults = s.vaults
  quarantined : s'.quarantined = s.quarantined
  rng : s.rng.Ahead s'.rng
  copies : s.hasOldCopies = false → s'.hasOldCopies = false

theorem beneath_later (s : Store S) (k : Nat) : s.Beneath (s.later k) := ⟨rfl, rfl, rfl, rfl, rfl, rfl, .refl _, id⟩

instance : IsPreorder (Store S) Store.Beneath where
  refl s := beneath_later s 0
  trans _ _ _ h h' := ⟨h'.account.trans h.account, h'.backend.trans h.backend, h'.secure.trans h.secure,
    h'.root.trans h.root, h'.vaults.trans h.vaults, h'.quarantined.trans h.quarantined, h.rng.trans h'.rng,
    fun hc => h'.copies (h.copies hc)⟩

/-- Besides, a `migration/` that was not there is not there. -/
structure Store.Swept (s s' : Store S) : Prop extends s.Beneath s' where
  none : s.migration = none → s'.migration = none

instance : IsPreorder (Store S) Store.Swept where
  refl s := ⟨beneath_later s 0, id⟩
  trans _ _ _ h h' := ⟨Trans.trans h.toBeneath h'.toBeneath, fun hn => h'.none (h.none hn)⟩

theorem call_swept (text : Str) : Respects Store.Swept (call text : StoreM S Unit) := by
  intro s
  rw [wp_call]
  exact ⟨fun _ => ⟨beneath_later s 1, id⟩, fun _ => ⟨beneath_later s 1, id⟩⟩

theorem drawBytes_swept (n : Nat) : Respects Store.Swept (drawBytes S n) :=
  .bind .get fun _ => .bind (.modify fun _ => ⟨⟨rfl, rfl, rfl, rfl, rfl, rfl, ⟨1, rfl⟩, id⟩, id⟩) fun _ => .lift _

/-- Working in `migration/`, with old copies only where there are some. -/
theorem modifyMigration_swept (f : MigrationDir S.toPrims → MigrationDir S.toPrims)
    (hf : ∀ d, d.oldCopies = none → (f d).oldCopies = none) :
    Respects Store.Swept (modify (fun s => { s with migration := s.migration.map f }) : StoreM S PUnit) := by
  refine .modify fun s => ⟨⟨rfl, rfl, rfl, rfl, rfl, rfl, .refl _, fun hc => ?_⟩, fun hn => ?_⟩
  · unfold Store.hasOldCopies at hc ⊢
    cases hm : s.migration with
    | none => rfl
    | some d =>
      rw [hm] at hc
      have hd : d.oldCopies = none := by simpa using hc
      show (f d).oldCopies.isSome = false
      rw [hf d hd]
      rfl
  · show s.migration.map f = none
    rw [hn]
    rfl

theorem oldCopies_withFile {P : Prims} {d : MigrationDir P} (h : d.oldCopies = none) (file : MigrationFile)
    (content : Option (P.Raw × Bytes)) : (d.withFile file content).oldCopies = none := by
  cases file with
  | journal => exact h
  | staged live inner => exact h
  | oldCopy name inner =>
    show d.oldCopies.map _ = none
    rw [h]
    rfl

theorem oldCopies_withoutFiles {P : Prims} {d : MigrationDir P} (h : d.oldCopies = none) (files : List MigrationFile) :
    (d.withoutFiles files).oldCopies = none := by
  unfold MigrationDir.withoutFiles
  induction files generalizing d with
  | nil => exact h
  | cons file files ih => exact ih (oldCopies_withFile h file none)

theorem wipeMigrationFile_swept (file : MigrationFile) :
    Respects Store.Swept (wipeMigrationFile file : StoreM S Unit) :=
  .bind (drawBytes_swept _) fun _ => .bind (call_swept _) fun _ =>
    .bind (modifyMigration_swept _ fun _ hd => oldCopies_withFile hd _ _) fun _ =>
      .bind (call_swept _) fun _ => modifyMigration_swept _ fun _ hd => oldCopies_withFile hd _ _

theorem wipeMigrationFiles_swept (files : List MigrationFile) :
    Respects Store.Swept (wipeMigrationFiles files : StoreM S Unit) := by
  induction files with
  | nil => exact .pure _
  | cons file files ih => exact .bind (.attempt (wipeMigrationFile_swept file)) fun _ => ih

theorem discardMigrationDir_swept (io : DiscardIo) : Respects Store.Swept (discardMigrationDir io : StoreM S Unit) := by
  refine .bind .get fun s => ?_
  cases s.migration with
  | none => exact .pure _
  | some d =>
    refine .bind (wipeMigrationFiles_swept _) fun _ => .bind (.attempt (call_swept _)) fun removed => ?_
    cases removed with
    | ok u => exact .modify fun t => ⟨⟨rfl, rfl, rfl, rfl, rfl, rfl, .refl _, fun _ => rfl⟩, fun _ => rfl⟩
    | error e => exact modifyMigration_swept _ fun _ hd => oldCopies_withoutFiles hd _

theorem wipeMigrationFiles_ok (files : List MigrationFile) (s : Store S) :
    wp (wipeMigrationFiles files) (fun r _ => r = .ok ()) s := by
  induction files generalizing s with
  | nil => exact rfl
  | cons file files ih =>
    unfold wipeMigrationFiles
    rw [wp_bind, wp_attempt]
    exact wp_mono (wipeMigrationFile_swept file s) fun r s' _ => ih s'

/-- Discarding never fails. -/
theorem discardMigrationDir_ok (io : DiscardIo) (s : Store S) :
    wp (discardMigrationDir io) (fun r _ => r = .ok ()) s := by
  unfold discardMigrationDir
  simp only [wp_bind, wp_get]
  cases s.migration with
  | none => exact rfl
  | some d =>
    simp only [wp_bind]
    refine wp_mono (wipeMigrationFiles_ok _ s) ?_
    rintro r s' rfl
    simp only [wp_attempt, wp_call, wp_modify, implies_true, and_self]

end

end FileSec
