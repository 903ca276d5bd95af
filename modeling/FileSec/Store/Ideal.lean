import FileSec.Store.Lifecycle
import FileSec.Symbolic

/-!
# The primitives of a store with ideal cryptography

`Sym.store` extends `Sym` by the records of a store as symbolic terms: a container is its plaintext encrypted under a
key that is wrapped for the identity, and a keystore is its owner, its passphrase and its state.
-/

namespace FileSec

open CrashDir Folders Prog SymTerm

/-- The codec of `VaultMeta`. -/
def vaultMetaCodec : Codec VaultMeta :=
  (Codec.text.pair (Codec.text.pair (Codec.int.pair (Codec.int.pair (Codec.nat.pair Codec.nat))))).map
    (fun p => ⟨p.1, p.2.1, p.2.2.1, p.2.2.2.1, p.2.2.2.2.1, p.2.2.2.2.2⟩)
    (fun m => (m.id, m.name, m.createdAt, m.modifiedAt, m.fileCount, m.totalSize)) fun _ => rfl

/-- The codec of `Registry`. -/
def registryCodec : Codec Registry := vaultMetaCodec.list.map (fun l => ⟨l⟩) (fun r => r.vaults) fun _ => rfl

/-- The codec of `ProtectedState`. -/
def protectedCodec {T : Type} (payload : Codec T) : Codec (ProtectedState Term T) :=
  (Codec.nat.pair (stateCodec.pair payload)).map (fun p => ⟨p.1, p.2.1, p.2.2⟩)
    (fun s => (s.version, s.state, s.payload)) fun _ => rfl

/-- The codec of `StateAnchor`. -/
def anchorCodec : Codec (StateAnchor Term) :=
  (Codec.name.pair (objectTypeCodec.pair (Codec.text.pair (Codec.nat.pair (Codec.nat.pair Codec.term))))).map
    (fun p => ⟨p.1, p.2.1, p.2.2.1, p.2.2.2.1, p.2.2.2.2.1, p.2.2.2.2.2⟩)
    (fun a => (a.identityFingerprint, a.objectType, a.objectId, a.suiteId, a.epoch, a.currentStateHash)) fun _ => rfl

/-- The codec of `MigrationRecord`. -/
def migrationCodec : Codec (MigrationRecord Term) :=
  (Codec.nat.pair (Codec.name.pair (Codec.name.pair Codec.term))).map (fun p => ⟨p.1, p.2.1, p.2.2.1, p.2.2.2⟩)
    (fun r => (r.version, r.oldFingerprint, r.newFingerprint, r.journalHash)) fun _ => rfl

/-- The codec of `MigrationJournal`. -/
def journalCodec : Codec (MigrationJournal Term) :=
  (Codec.nat.pair (Codec.name.pair (Codec.name.pair ((Codec.text.pair Codec.text).list.pair anchorCodec.list)))).map
    (fun p => ⟨p.1, p.2.1, p.2.2.1, p.2.2.2.1, p.2.2.2.2⟩)
    (fun j => (j.version, j.oldFingerprint, j.newFingerprint, j.moves, j.anchors)) fun _ => rfl

/-- The codec of `AnchorSet`. -/
def anchorSetCodec : Codec (AnchorSet Term) :=
  (Codec.nat.pair (anchorCodec.list.pair migrationCodec.option)).map (fun p => ⟨p.1, p.2.1, p.2.2⟩)
    (fun s => (s.version, s.anchors, s.migration)) fun _ => rfl

/-- The codec of `AnchorRoot`. -/
def anchorRootCodec : Codec (AnchorRoot Term) :=
  (Codec.nat.pair migrationCodec.option).map (fun p => ⟨p.1, p.2⟩) (fun r => (r.version, r.migration)) fun _ => rfl

/-- The codec of `ObjectAnchorRecord`. -/
def objectAnchorCodec : Codec (ObjectAnchorRecord Term) :=
  (Codec.nat.pair anchorCodec).map (fun p => ⟨p.1, p.2⟩) (fun r => (r.version, r.anchor)) fun _ => rfl

/-- A codec of terms as one of raw files. -/
def rawCodec {α : Type} (c : Codec α) : RawCodec Term α := ⟨c.enc, c.dec, c.dec_enc⟩

namespace Sym

/-- A keystore. -/
structure Keystore where
  owner : Identity
  passphrase : Term
  state : StateMetadata Term
  deriving DecidableEq

/-- The codec of keystores. -/
def keystoreCodec : Codec Keystore :=
  (Codec.name.pair (Codec.nat.pair (Codec.term.pair stateCodec))).map
    (fun p => ⟨⟨⟨p.1, p.2.1 = 1⟩⟩, p.2.2.1, p.2.2.2⟩)
    (fun k => (k.owner.publicPart.fingerprint, if k.owner.publicPart.hybridCapable then 1 else 0, k.passphrase, k.state))
    fun k => by
      obtain ⟨⟨⟨fingerprint, hybrid⟩⟩, passphrase, state⟩ := k
      cases hybrid <;> rfl

/-- The state of a keystore names the keystore object. -/
def Keystore.valid (k : Keystore) : Bool :=
  k.state.objectType = .keystore ∧ k.state.objectId = "identity-keystore".toList

/-- The keystore of `owner` at its first state. -/
def Keystore.first (owner : Identity) (passphrase : Term) : Keystore :=
  ⟨owner, passphrase, StateMetadata.commitTo Sym.hashState
    ⟨owner.fingerprint, .keystore, "identity-keystore".toList, 1, 1, .nat 0, .nat 0⟩ passphrase⟩

/-- A container for `recipient`. -/
def container (recipient : PublicIdentity) (suite : SuiteId) (name : Str) (bytes : Term) (key : Bytes) : Term :=
  .pair (.nat suite.toU16) (.pair (.wrap recipient.fingerprint key 0) (.enc key [] (.nat 0) (.pair (.text name) bytes)))

/-- Open a container. -/
def openContainer (raw : Term) (identity : Identity) : Result (Container Term) :=
  match raw with
  | .pair (.nat suite) (.pair (.wrap recipient key _) (.enc key' _ _ (.pair (.text name) bytes))) =>
    match SuiteId.fromU16 suite with
    | .error e => .error e
    | .ok suite =>
      if recipient = identity.fingerprint ∧ key' = key then
        .ok ⟨[(name, .file, bytes.size)], fun n => if n = name then .ok bytes else .error .auth, suite⟩
      else .error .notARecipient
  | _ => .error .serialization

/-- The version of an encoded record. -/
def probeVersion : Term → Option Nat
  | .pair (.nat v) _ => some v
  | _ => none

/-- Read a keystore. -/
def keystoreFromBytes (raw : Term) : Result Keystore :=
  match keystoreCodec.dec raw with
  | some k => if k.valid then .ok k else .error .serialization
  | none => .error .serialization

/-- Write a keystore. -/
def keystoreToBytes (k : Keystore) : Result Term := if k.valid then .ok (keystoreCodec.enc k) else .error .serialization

/-- Unlock a keystore. -/
def unlock (k : Keystore) (passphrase : Term) : Result Identity :=
  if passphrase = k.passphrase then .ok k.owner else .error .auth

/-- The keystore of a successor. -/
def continueIdentity (k : Keystore) (passphrase : Term) (current successor : Identity) : Result Keystore :=
  if passphrase = k.passphrase ∧ k.owner = current then .ok (.first successor passphrase) else .error .auth

private theorem keystoreFromBytes_toBytes (k : Keystore) (raw : Term) (h : keystoreToBytes k = .ok raw) :
    keystoreFromBytes raw = .ok k := by
  unfold keystoreToBytes at h
  split at h
  · rename_i hv
    simp only [Except.ok.injEq] at h
    subst h
    simp [keystoreFromBytes, hv]
  · simp at h

private theorem valid_of_fromBytes {raw : Term} {k : Keystore} (h : keystoreFromBytes raw = .ok k) : k.valid = true := by
  unfold keystoreFromBytes at h
  split at h
  · split at h
    · rename_i hv
      simp only [Except.ok.injEq] at h
      exact h ▸ hv
    · simp at h
  · simp at h

private theorem openContainer_container (identity : Identity) (suite : SuiteId) (name : Str) (bytes : Term)
    (seed : Bytes) : openContainer (container identity.publicPart suite name bytes seed) identity =
      .ok ⟨[(name, .file, bytes.size)], fun n => if n = name then .ok bytes else .error .auth, suite⟩ := by
  simp only [openContainer, container, fromU16_toU16, Identity.fingerprint, and_self, if_true]

private theorem fromU16_error {n : Nat} {e : Error} {label : Str} (h : SuiteId.fromU16 n = .error e) :
    e ≠ .stateMismatch label := by
  rintro rfl
  unfold SuiteId.fromU16 at h
  split at h
  · simp at h
  · split at h
    · simp at h
    · split at h <;> simp at h

private theorem openContainer_error {raw : Term} {identity : Identity} {e : Error} {label : Str}
    (h : openContainer raw identity = .error e) : e ≠ .stateMismatch label := by
  unfold openContainer at h
  split at h
  · split at h
    · rename_i e' he
      simp only [Except.error.injEq] at h
      exact h ▸ fromU16_error he
    · split at h
      · simp at h
      · rintro rfl
        simp at h
  · rintro rfl
    simp at h

private theorem readEntry_error {raw : Term} {identity : Identity} {c : Container Term} {name : Str} {e : Error}
    {label : Str} (h : openContainer raw identity = .ok c) (he : c.readEntry name = .error e) :
    e ≠ .stateMismatch label := by
  rintro rfl
  unfold openContainer at h
  split at h
  · split at h
    · simp at h
    · split at h
      · simp only [Except.ok.injEq] at h
        subst h
        simp only at he
        split at he <;> simp at he
      · simp at h
  · simp at h

/-- The primitives of a store over symbolic terms. -/
def store : StorePrims where
  toPrims := Sym
  ContactBook := Term
  emptyBook := .nat 0
  book := rawCodec Codec.term
  bookRecord := rawCodec (protectedCodec Codec.term)
  registry := rawCodec registryCodec
  registryRecord := rawCodec (protectedCodec registryCodec)
  objectAnchor := rawCodec objectAnchorCodec
  anchorRoot := rawCodec anchorRootCodec
  anchorSet := rawCodec anchorSetCodec
  probeVersion := probeVersion
  journal := rawCodec journalCodec
  hashRaw := .hash
  text := rawCodec Codec.text
  scrambled := .name
  terminalHash := .nat 255
  KeystoreFile := Keystore
  keystoreState k := some k.state
  keystoreFromBytes := keystoreFromBytes
  keystoreToBytes := keystoreToBytes
  keystoreIsV3 raw := (keystoreCodec.dec raw).isSome
  unlock := unlock
  continueIdentity k passphrase current successor _ := continueIdentity k passphrase current successor
  upgradedToHybrid _ seed := .ok ⟨⟨seed, true⟩⟩
  exportBlob identity suite name bytes seed := .ok (container identity.publicPart suite name bytes seed)
  openContainer := openContainer
  rawLen_anchorSet s := by
    show 0 < Term.size (.pair _ _)
    simp [Term.size]
  probeVersion_anchorRoot _ := rfl
  probeVersion_anchorSet _ := rfl
  keystoreFromBytes_toBytes := keystoreFromBytes_toBytes
  keystoreState_of_fromBytes raw k h := by
    have hv := valid_of_fromBytes h
    simp only [Keystore.valid, decide_eq_true_eq] at hv
    exact ⟨_, rfl, hv⟩
  openContainer_exportBlob identity suite name bytes seed _ h :=
    Except.ok.inj h ▸ ⟨_, openContainer_container identity suite name bytes seed, rfl, if_pos rfl, rfl⟩
  openContainer_error _ _ _ _ h := openContainer_error h
  readEntry_error _ _ _ _ _ _ h he := readEntry_error h he

/-! ### A store to evaluate on -/

/-- An empty store with a generator that makes `n` draws, on a machine that does all it is asked to. -/
def machine (backend : AnchorBackend) (n : Nat) : Store store where
  account := "/d".toList
  account_absolute := by decide
  backend := backend
  secure := some fun _ => none
  root := .empty
  vaults := .empty
  migration := none
  quarantined := ∅
  works _ := true
  rng := .counting n

/-- The owner's store with a contact book. -/
def withBook (backend : AnchorBackend) : Store store :=
  (exec (saveContacts (S := store) alice (Term.nat 5)) (machine backend 100)).2

/-- The file of the contact book. -/
def bookFile (s : Store store) : Option Term := s.root.get contactsFile

end Sym

/-- A value that is known to be there. -/
theorem eq_ok_some {ε α : Type} {x : Except ε (Option α)} (h : x.toOption.join.isSome = true) :
    x = .ok (some (x.toOption.join.get h)) := by
  cases x with
  | error e => simp [Except.toOption] at h
  | ok o =>
    cases o with
    | none => simp [Except.toOption] at h
    | some a => rfl

end FileSec
