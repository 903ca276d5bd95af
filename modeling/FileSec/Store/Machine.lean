import FileSec.Build
import FileSec.Lib.Folder

/-!
# The machine a store lives on

The data directory, the secure storage of the operating system and what the code of the store takes from elsewhere: the
codecs of its records, the keystore and the container format that wraps a record (`StorePrims`).  Whether the next call
of the operating system succeeds is read off the stream `Store.works`, so a statement about all stores is one about all
failures of these; a crash is a stream that fails from some point on.  Looking whether something is there (`exists`,
`symlink_metadata`) is taken to answer: where the code takes a lookup that fails for one that finds nothing, the model
has no such failure.
-/

namespace FileSec

open CrashDir Folders Prog

/-! ### Records -/

/-- `VaultMeta` -/
structure VaultMeta where
  id : Str
  name : Str
  createdAt : Int
  modifiedAt : Int
  fileCount : Nat
  totalSize : Nat
  deriving DecidableEq

/-- `Registry` -/
structure Registry where
  vaults : List VaultMeta
  deriving DecidableEq

/-- Replace the first element for which `p` holds, or append the new one. -/
def upsertBy {α : Type} (p : α → Bool) (a : α) : List α → List α
  | [] => [a]
  | b :: l => if p b then a :: l else b :: upsertBy p a l

/-- `Registry::upsert` -/
def Registry.upsert (r : Registry) (vault : VaultMeta) : Registry := ⟨upsertBy (·.id = vault.id) vault r.vaults⟩

/-- `Registry::remove` -/
def Registry.remove (r : Registry) (id : Str) : Registry := ⟨r.vaults.filter (·.id ≠ id)⟩

/-- Whether the registry lists a vault. -/
def Registry.lists (r : Registry) (id : Str) : Bool := r.vaults.any (·.id = id)

/-- `ProtectedState` -/
structure ProtectedState (Digest T : Type) where
  version : Nat
  state : StateMetadata Digest
  payload : T

/-- `MigrationRecord` -/
structure MigrationRecord (Digest : Type) where
  version : Nat
  oldFingerprint : Bytes
  newFingerprint : Bytes
  journalHash : Digest

/-- `MigrationJournal` -/
structure MigrationJournal (Digest : Type) where
  version : Nat
  oldFingerprint : Bytes
  newFingerprint : Bytes
  moves : List (Str × Str)
  anchors : List (StateAnchor Digest)

/-- `AnchorSet` -/
structure AnchorSet (Digest : Type) where
  version : Nat
  anchors : List (StateAnchor Digest)
  migration : Option (MigrationRecord Digest)

/-- `AnchorRoot` -/
structure AnchorRoot (Digest : Type) where
  version : Nat
  migration : Option (MigrationRecord Digest)

/-- `ObjectAnchorRecord` -/
structure ObjectAnchorRecord (Digest : Type) where
  version : Nat
  anchor : StateAnchor Digest

/-- The CBOR codec of the values of one type. -/
structure RawCodec (Raw α : Type) where
  encode : α → Raw
  decode : Raw → Option α
  decode_encode : ∀ a, decode (encode a) = some a

attribute [simp] RawCodec.decode_encode

/-- A container as `open_vault_from_path` returns it: its entries with their sizes, and what reading one gives. -/
structure Container (Raw : Type) where
  entries : List (Str × EntryKind × Nat)
  readEntry : Str → Result Raw
  suite : SuiteId

/-- `MAX_SELF_BLOB_PLAINTEXT_LEN` -/
def maxSelfBlobPlaintextLen : Nat := 16 * 1024 * 1024

/-- What the store takes from elsewhere. -/
structure StorePrims extends Prims where
  ContactBook : Type
  /-- `ContactBook::default` -/
  emptyBook : ContactBook
  book : RawCodec Raw ContactBook
  bookRecord : RawCodec Raw (ProtectedState Digest ContactBook)
  registry : RawCodec Raw Registry
  registryRecord : RawCodec Raw (ProtectedState Digest Registry)
  objectAnchor : RawCodec Raw (ObjectAnchorRecord Digest)
  anchorRoot : RawCodec Raw (AnchorRoot Digest)
  anchorSet : RawCodec Raw (AnchorSet Digest)
  /-- The version field of an encoded record, `AnchorVersionProbe`. -/
  probeVersion : Raw → Option Nat
  journal : RawCodec Raw (MigrationJournal Digest)
  /-- BLAKE3 over a file. -/
  hashRaw : Raw → Digest
  /-- A text file and what reading it as text gives. -/
  text : RawCodec Raw Str
  /-- What a file holds after it has been overwritten with random bytes. -/
  scrambled : Bytes → Raw
  /-- The hash whose bytes are all ones. -/
  terminalHash : Digest
  KeystoreFile : Type
  /-- `KeystoreFile::state_metadata` -/
  keystoreState : KeystoreFile → Option (StateMetadata Digest)
  /-- `KeystoreFile::from_bytes` and `to_bytes` -/
  keystoreFromBytes : Raw → Result KeystoreFile
  keystoreToBytes : KeystoreFile → Result Raw
  /-- `keystore_is_v3` on the content of a file. -/
  keystoreIsV3 : Raw → Bool
  /-- `KeystoreFile::unlock` -/
  unlock : KeystoreFile → Raw → Result Identity
  /-- `KeystoreFile::continue_identity` and `Identity::upgraded_to_hybrid`; the bytes stand for what they draw. -/
  continueIdentity : KeystoreFile → Raw → Identity → Identity → Bytes → Result KeystoreFile
  upgradedToHybrid : Identity → Bytes → Result Identity
  /-- `export_vault_to_path` of a vault with one file to the identity itself. -/
  exportBlob : Identity → SuiteId → Str → Raw → Bytes → Result Raw
  /-- `open_vault_from_path` -/
  openContainer : Raw → Identity → Result (Container Raw)
  rawLen_anchorSet : ∀ s, 0 < rawLen (anchorSet.encode s)
  probeVersion_anchorRoot : ∀ r, probeVersion (anchorRoot.encode r) = some r.version
  probeVersion_anchorSet : ∀ s, probeVersion (anchorSet.encode s) = some s.version
  keystoreFromBytes_toBytes : ∀ ks raw, keystoreToBytes ks = .ok raw → keystoreFromBytes raw = .ok ks
  keystoreState_of_fromBytes : ∀ raw ks, keystoreFromBytes raw = .ok ks →
    ∃ state, keystoreState ks = some state ∧ state.objectType = .keystore ∧
      state.objectId = "identity-keystore".toList
  openContainer_exportBlob : ∀ identity suite name bytes seed raw, exportBlob identity suite name bytes seed = .ok raw →
    ∃ c, openContainer raw identity = .ok c ∧ c.suite = suite ∧ c.readEntry name = .ok bytes ∧
      c.entries = [(name, .file, rawLen bytes)]
  /-- The container format knows nothing of states. -/
  openContainer_error : ∀ raw identity e label, openContainer raw identity = .error e → e ≠ .stateMismatch label
  readEntry_error : ∀ raw identity c name e label, openContainer raw identity = .ok c →
    c.readEntry name = .error e → e ≠ .stateMismatch label

attribute [simp] StorePrims.probeVersion_anchorRoot StorePrims.probeVersion_anchorSet

/-! ### The data directory -/

/-- The files of a vault directory. -/
structure VaultDir (P : Prims) where
  top : Dir VaultFile P.Raw
  blobs : Dir Str Bytes

/-- What lies under a name of the data directory. -/
inductive DirEntry (P : Prims) where
  | file (raw : P.Raw)
  | dir (d : VaultDir P)

/-- `AnchorBackend` -/
inductive AnchorBackend where
  | secureStorage
  | degradedFile
  deriving DecidableEq, Repr

/-- The directory `migration/`: the staged copies by the live path they replace, the journal and the old copies. -/
structure MigrationDir (P : Prims) where
  staged : Listing Str (DirEntry P)
  journal : Option P.Raw
  /-- The old copies, once their directory has been created. -/
  oldCopies : Option (Listing Str (DirEntry P))

/-- `Store`, with the machine it lives on. -/
structure Store (S : StorePrims) where
  /-- `anchor_account`: the canonical path of the data directory, which is absolute. -/
  account : Str
  account_absolute : ¬ "anchor:".toList <+: account
  backend : AnchorBackend
  /-- The records of the OS secure storage by account, `none` in a build without one. -/
  secure : Option (Str → Option S.Raw)
  /-- The files of the data directory. -/
  root : Folder Str S.Raw
  /-- The directory `vaults/`. -/
  vaults : Folder Str (DirEntry S.toPrims)
  migration : Option (MigrationDir S.toPrims)
  /-- The directory `quarantine/`. -/
  quarantined : Listing Str (DirEntry S.toPrims)
  /-- Whether each of the coming calls of the operating system succeeds. -/
  works : Nat → Bool
  rng : Rng

/-- Programs of the store. -/
abbrev StoreM (S : StorePrims) := Prog (Store S) Str

variable {S : StorePrims}

/-- The text of a system error. -/
def ioText : Str := "i/o error".toList

/-- The store after one more call of the operating system. -/
def Store.tick (s : Store S) : Store S := { s with works := fun i => s.works (i + 1) }

/-- The store with another stream of outcomes. -/
def Store.withWorks (s : Store S) (works : Nat → Bool) : Store S := { s with works := works }

/-- A call of the operating system: it fails with the given text, if it does. -/
def call (text : Str) : StoreM S Unit := do
  let s ← get
  modify Store.tick
  if s.works 0 then pure () else throw text

/-- `secret::random_array`, through `map_err(err)`. -/
def drawBytes (S : StorePrims) (n : Nat) : StoreM S Bytes := do
  let s ← get
  modify fun s => { s with rng := fun i => s.rng (i + 1) }
  liftM (Result.text (randomVec n (s.rng 0)))

/-- `write_private_atomic` to a file of the data directory; whether the directory could be synced is ignored. -/
def writePrivateAtomic (name : Str) (raw : S.Raw) : StoreM S Unit := do
  call ioText
  let synced ← attempt (call ioText)
  modify fun s => { s with root := (s.root.put name raw).sync synced.isOk }

/-- `map_err(|e| format!("{label}: {e}"))` -/
def Result.labelled {α : Type} (label : Str) : Result α → StoreResult α
  | .ok a => .ok a
  | .error e => .error (label ++ ": ".toList ++ e.display)

theorem Result.labelled_eq_ok {α : Type} {label : Str} {r : Result α} {a : α} :
    Result.labelled label r = .ok a ↔ r = .ok a := by
  cases r with
  | ok b => exact ⟨fun h => congrArg _ (Except.ok.inj h), fun h => congrArg _ (Except.ok.inj h)⟩
  | error e => exact ⟨nofun, nofun⟩

/-- `read_bounded_file` of the store. -/
def readBoundedFile (name : Str) (max : Nat) (label : Str) : StoreM S S.Raw := do
  call (label ++ ": ".toList ++ (Error.io ioText).display)
  let s ← get
  liftM (Result.labelled label (readBounded S.toPrims (s.root.get name) max))

/-! ### The stream of outcomes -/

section Tick

variable (s : Store S)

@[simp] theorem tick_account : s.tick.account = s.account := rfl

@[simp] theorem tick_backend : s.tick.backend = s.backend := rfl

@[simp] theorem tick_secure : s.tick.secure = s.secure := rfl

@[simp] theorem tick_root : s.tick.root = s.root := rfl

@[simp] theorem tick_vaults : s.tick.vaults = s.vaults := rfl

@[simp] theorem tick_migration : s.tick.migration = s.migration := rfl

@[simp] theorem tick_quarantined : s.tick.quarantined = s.quarantined := rfl

@[simp] theorem tick_rng : s.tick.rng = s.rng := rfl

end Tick

@[simp] theorem wp_call {text : Str} {s : Store S} {Q : StoreResult Unit → Store S → Prop} :
    wp (call text) Q s ↔ (s.works 0 = true → Q (.ok ()) s.tick) ∧ (s.works 0 = false → Q (.error text) s.tick) := by
  unfold call
  simp only [wp_bind, wp_get, wp_modify, wp_ite, wp_pure, wp_throw, Bool.not_eq_true]

end FileSec
