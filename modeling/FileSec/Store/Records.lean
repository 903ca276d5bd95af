import FileSec.Store.Accept

/-!
# The keystore and the protected records

The objects of a store that are one file each: the keystore, which is signed and passphrase-protected, and the contact
book and the registry, which are containers that the identity encrypts to itself around a payload with its state.
-/

namespace FileSec

open CrashDir Folders Prog

variable {S : StorePrims}

/-- `KEYSTORE_FILE` -/
def keystoreFile : Str := "keystore.fsk".toList

/-- `CONTACTS_FILE` -/
def contactsFile : Str := "contacts.fsec".toList

/-- `INDEX_FILE` -/
def indexFile : Str := "index.fsec".toList

theorem keystoreFile_ne : keystoreFile ≠ anchorsFile := by decide

theorem contactsFile_ne : contactsFile ≠ anchorsFile := by decide

theorem indexFile_ne : indexFile ≠ anchorsFile := by decide

/-- `CONTACTS_BLOB` -/
def contactsBlob : Str := "contacts".toList

/-- `REGISTRY_BLOB` -/
def registryBlob : Str := "registry".toList

/-- `KEYSTORE_OBJECT_ID` -/
def keystoreObjectId : Str := "identity-keystore".toList

/-- `MAX_KEYSTORE_FILE_LEN` -/
def maxKeystoreFileLen : Nat := 16 * 1024 * 1024

/-- `MAX_SELF_BLOB_CONTAINER_LEN` -/
def maxSelfBlobContainerLen : Nat := 64 * 1024 * 1024

/-- `PROTECTED_STATE_VERSION` -/
def protectedStateVersion : Nat := 1

/-- `self_suite` -/
def selfSuite (identity : Identity) : SuiteId := if identity.publicPart.hybridCapable then .hybrid else .classic

/-! ### The keystore -/

/-- The state of a keystore, or the error of a keystore without one. -/
def keystoreStateOr (text : Str) (ks : S.KeystoreFile) : StoreResult (StateMetadata S.Digest) :=
  match S.keystoreState ks with
  | some state => .ok state
  | none => .error text

/-- `save_keystore` -/
def saveKeystore (ks : S.KeystoreFile) : StoreM S Unit := do
  let state ← liftM (keystoreStateOr "legacy keystore must be recovered before it can be saved".toList ks)
  checkStateTransition state
  let bytes ← liftM (Result.text (S.keystoreToBytes ks))
  writePrivateAtomic keystoreFile bytes
  commitState state

/-- The error of a keystore without a state. -/
def noKeystoreState : Str := "keystore has no rollback-protection metadata".toList

/-- `load_keystore` -/
def loadKeystore : StoreM S S.KeystoreFile := do
  let bytes ← readBoundedFile keystoreFile maxKeystoreFileLen "keystore file".toList
  let ks ← liftM (Result.text (S.keystoreFromBytes bytes))
  let state ← liftM (keystoreStateOr noKeystoreState ks)
  checkLoadedState state (.root keystoreFile)
  pure ks

/-- `confirm_unlocked_keystore` -/
def confirmUnlockedKeystore (ks : S.KeystoreFile) (identity : Identity) : StoreM S Unit := do
  let state ← liftM (keystoreStateOr noKeystoreState ks)
  if state.identityFingerprint ≠ identity.fingerprint then
    throw "the unlocked identity does not match the keystore".toList
  else acceptState state (some (.root keystoreFile))

/-! ### Containers -/

/-- `save_blob`; the bytes drawn stand for the keys and nonces of the container. -/
def saveBlob (identity : Identity) (path name : Str) (bytes : S.Raw) : StoreM S Unit := do
  let seed ← drawBytes S 32
  let raw ← liftM (Result.text (S.exportBlob identity (selfSuite identity) name bytes seed))
  writePrivateAtomic path raw

/-- The part of `load_blob` that looks into the container. -/
def readContainer (S : StorePrims) (identity : Identity) (raw : S.Raw) (name : Str) :
    StoreResult (S.Raw × SuiteId) :=
  match S.openContainer raw identity with
  | .error e => .error e.display
  | .ok reader =>
    match reader.entries.find? fun entry => entry.1 = name ∧ entry.2.1 = .file with
    | none => .error "stored blob is missing its entry".toList
    | some entry =>
      if entry.2.2 > maxSelfBlobPlaintextLen then .error "stored metadata blob is too large".toList
      else (Result.text (reader.readEntry name)).map fun bytes => (bytes, reader.suite)

/-- `load_blob`, where the lookup answers. -/
def loadBlob (identity : Identity) (path name : Str) : StoreM S (Option (S.Raw × SuiteId)) := do
  let s ← get
  match s.root.get path with
  | none => pure none
  | some raw => do
    call ioText
    if S.rawLen raw > maxSelfBlobContainerLen then throw "stored metadata file is too large".toList
    else do
      call (Error.io ioText).display
      let blob ← liftM (readContainer S identity raw name)
      pure (some blob)

/-! ### Protected records -/

/-- One of the records of a store, as its functions are called for it. -/
structure RecordKind (S : StorePrims) (T : Type) where
  path : Str
  entryName : Str
  objectType : StateObjectType
  objectId : Str
  payload : RawCodec S.Raw T
  record : RawCodec S.Raw (ProtectedState S.Digest T)

/-- The contact book. -/
def contactsRecord (S : StorePrims) : RecordKind S S.ContactBook where
  path := contactsFile
  entryName := contactsBlob
  objectType := .contacts
  objectId := "contacts".toList
  payload := S.book
  record := S.bookRecord

/-- The vault registry. -/
def registryRecord (S : StorePrims) : RecordKind S Registry where
  path := indexFile
  entryName := registryBlob
  objectType := .registry
  objectId := "registry".toList
  payload := S.registry
  record := S.registryRecord

section Record

variable {T : Type} (o : RecordKind S T)

/-- The state that a save gives the payload after the anchor. -/
def RecordKind.next (identity : Identity) (previous : Option (StateAnchor S.Digest)) (payload : T) :
    StoreResult (StateMetadata S.Digest) :=
  Result.text (StateMetadata.next S.hashState S.genesisHash identity.fingerprint o.objectType o.objectId
    (selfSuite identity).toU16 previous (o.payload.encode payload))

/-- `save_protected_blob` -/
def saveProtectedBlob (identity : Identity) (payload : T) : StoreM S Unit := do
  let previous ← currentAnchor identity.fingerprint o.objectType o.objectId
  let state ← liftM (o.next identity previous payload)
  saveBlob identity o.path o.entryName (o.record.encode ⟨protectedStateVersion, state, payload⟩)
  commitState state

/-- The prefix of the errors that put a record into quarantine. -/
def mismatchPrefix : Str := "state-anchor mismatch".toList

/-- The part of `read_protected_record` after the container has been read. -/
def RecordKind.authenticate (identity : Identity) (blob : S.Raw × SuiteId) :
    StoreResult (ProtectedState S.Digest T) :=
  match o.record.decode blob.1 with
  | none =>
    if (o.payload.decode blob.1).isSome then
      .error ("legacy ".toList ++ o.objectType.display ++ " state requires explicit recovery".toList)
    else .error ("malformed protected ".toList ++ o.objectType.display ++ " state".toList)
  | some record =>
    if record.version ≠ protectedStateVersion ∨ record.state.identityFingerprint ≠ identity.fingerprint ∨
        record.state.objectType ≠ o.objectType ∨ record.state.objectId ≠ o.objectId ∨
        record.state.suiteId ≠ blob.2.toU16 then
      .error ("state-anchor mismatch for ".toList ++ o.objectType.display ++ [' '] ++ o.objectId)
    else (Result.text (record.state.verifyPayload S.hashState (o.payload.encode record.payload))).map fun _ => record

/-- `read_protected_record` -/
def readProtectedRecord (identity : Identity) : StoreM S (Option (ProtectedState S.Digest T)) := do
  let blob ← loadBlob identity o.path o.entryName
  match blob with
  | none => pure none
  | some blob => do
    let record ← liftM (o.authenticate identity blob)
    pure (some record)

/-- `load_protected_blob`, with the state of the record it returns the payload of. -/
def loadProtectedRecord (identity : Identity) : StoreM S (Option (ProtectedState S.Digest T)) := do
  let result ← attempt (readProtectedRecord o identity)
  match result with
  | .ok none => pure none
  | .ok (some record) => do
    acceptState record.state (some (.root o.path))
    pure (some record)
  | .error e =>
    if mismatchPrefix.isPrefixOf e then do
      let _ ← attempt (quarantine (.root o.path))
      throw e
    else throw e

/-- `load_protected_blob` -/
def loadProtectedBlob (identity : Identity) : StoreM S (Option T) := do
  let record ← loadProtectedRecord o identity
  pure (record.map (·.payload))

end Record

/-- `load_contacts` -/
def loadContacts (identity : Identity) : StoreM S S.ContactBook := do
  let book ← loadProtectedBlob (contactsRecord S) identity
  pure (book.getD S.emptyBook)

/-- `save_contacts` -/
def saveContacts (identity : Identity) (book : S.ContactBook) : StoreM S Unit :=
  saveProtectedBlob (contactsRecord S) identity book

/-- `load_registry` -/
def loadRegistry (identity : Identity) : StoreM S Registry := do
  let registry ← loadProtectedBlob (registryRecord S) identity
  pure (registry.getD ⟨[]⟩)

/-- `save_registry` -/
def saveRegistry (identity : Identity) (registry : Registry) : StoreM S Unit :=
  saveProtectedBlob (registryRecord S) identity registry

end FileSec
