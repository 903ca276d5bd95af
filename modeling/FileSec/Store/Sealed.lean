import FileSec.Store.History
import FileSec.Store.Launch

/-!
# A store on the degraded file leaves the secure storage alone

No operation changes the backend an open store works on, its marker or its root record, and one that works on the
degraded file changes no record of the secure storage (`Store.Held`); nor does resuming a migration there
(`Store.Parted`).  So the anchors that the secure storage holds survive whatever is done without reaching it.
-/

namespace FileSec

open CrashDir Folders Prog

variable {S : StorePrims} {s s' : Store S}

/-- The backend, its marker and the root record are the same, and so are all records of the secure storage if it is not
the backend. -/
structure Store.Held (s s' : Store S) : Prop where
  account : s'.account = s.account
  backend : s'.backend = s.backend
  marker : s'.root.get anchorsBackendFile = s.root.get anchorsBackendFile
  record : ∀ raw, s.RootRecord raw → s'.RootRecord raw
  secure : s.backend = .degradedFile → s'.secure = s.secure

instance : IsPreorder (Store S) Store.Held where
  refl _ := ⟨rfl, rfl, rfl, fun _ => id, fun _ => rfl⟩
  trans _ _ _ h h' := ⟨h'.account.trans h.account, h'.backend.trans h.backend, h'.marker.trans h.marker,
    fun raw hr => h'.record raw (h.record raw hr), fun hb => (h'.secure (h.backend.trans hb)).trans (h.secure hb)⟩

theorem held_of_marker (haccount : s'.account = s.account) (hbackend : s'.backend = s.backend)
    (hsecure : s'.secure = s.secure) (hmarker : s'.root.get anchorsBackendFile = s.root.get anchorsBackendFile) :
    s.Held s' := by
  refine ⟨haccount, hbackend, hmarker, ?_, fun _ => hsecure⟩
  rintro raw ⟨records, hs, hr⟩
  exact ⟨records, hsecure.trans hs, haccount ▸ hr⟩

theorem held_of_same (haccount : s'.account = s.account) (hbackend : s'.backend = s.backend)
    (hsecure : s'.secure = s.secure) (hroot : s'.root = s.root) : s.Held s' :=
  held_of_marker haccount hbackend hsecure (by rw [hroot])

theorem held_later (s : Store S) (k : Nat) : s.Held (s.later k) := held_of_same rfl rfl rfl rfl

theorem Store.Put.held {a : StateAnchor S.Digest} (h : s.Put a s') : s.Held s' := by
  cases h with
  | secure records k hb hr =>
    refine ⟨rfl, rfl, rfl, ?_, fun hb' => ?_⟩
    · -- the root record lies under an account of its own
      rintro raw ⟨records', hs, hraw⟩
      obtain rfl := Option.some.inj (hr.symm.trans hs)
      refine ⟨_, rfl, Eq.trans ?_ hraw⟩
      exact Function.update_of_ne (account_ne_objectAnchorAccount s _ _) _ _
    · rw [hb] at hb'
      cases hb'
  | degraded set k ok hb hset =>
    exact held_of_marker rfl rfl rfl ((get_sync _ _ _).trans (get_put_of_ne (by decide)))

theorem Store.Beneath.held (h : s.Beneath s') : s.Held s' := held_of_same h.account h.backend h.secure h.root

/-! ### The anchors -/

theorem call_held (text : Str) : Respects Store.Held (call text : StoreM S Unit) := by
  intro s
  rw [wp_call]
  exact ⟨fun _ => held_later s 1, fun _ => held_later s 1⟩

theorem drawBytes_held (n : Nat) : Respects Store.Held (drawBytes S n) :=
  .bind .get fun _ => .bind (.modify fun _ => held_of_same rfl rfl rfl rfl) fun _ => .lift _

theorem writePrivateAtomic_held {name : Str} (raw : S.Raw) (hname : anchorsBackendFile ≠ name) :
    Respects Store.Held (writePrivateAtomic name raw) :=
  .bind (call_held _) fun _ => .bind (.attempt (call_held _)) fun _ => .modify fun _ =>
    held_of_marker rfl rfl rfl ((get_sync _ _ _).trans (get_put_of_ne hname))

theorem readBoundedFile_held (name : Str) (max : Nat) (label : Str) :
    Respects Store.Held (readBoundedFile name max label : StoreM S S.Raw) :=
  .bind (call_held _) fun _ => .bind .get fun _ => .lift _

theorem putAnchorLocked_held (a : StateAnchor S.Digest) : Respects Store.Held (putAnchorLocked a) := by
  intro s
  refine wp_mono (putAnchorLocked_spec a s) ?_
  intro r s' hr
  cases r with
  | ok u => exact hr.held
  | error e =>
    obtain ⟨k, rfl⟩ := hr
    exact held_later s k

theorem currentAnchor_held (fingerprint : Bytes) (ty : StateObjectType) (id : Str) :
    Respects Store.Held (currentAnchor fingerprint ty id : StoreM S _) := by
  intro s
  refine wp_mono (currentAnchor_spec fingerprint ty id s) ?_
  rintro r _ ⟨⟨k, rfl⟩, -⟩
  exact held_later s k

theorem checkStateTransition_held (state : StateMetadata S.Digest) :
    Respects Store.Held (checkStateTransition state) := by
  intro s
  refine wp_mono (checkStateTransition_spec state s) ?_
  rintro r _ ⟨⟨k, rfl⟩, -⟩
  exact held_later s k

theorem Store.Quarantined.held {spot : Spot} (h : s.Quarantined spot s') (hspot : spot ≠ .root anchorsBackendFile) :
    s.Held s' := by
  cases h with
  | moved k target node hnode =>
    cases spot with
    | root name =>
      have hname : anchorsBackendFile ≠ name := fun he => hspot (he ▸ rfl)
      exact held_of_marker rfl rfl rfl (get_remove_of_ne hname)
    | vault name => exact held_of_same rfl rfl rfl rfl
  | kept k j => exact held_of_same rfl rfl rfl rfl

theorem quarantine_held {spot : Spot} (hspot : spot ≠ .root anchorsBackendFile) :
    Respects Store.Held (quarantine spot : StoreM S Unit) := by
  intro s
  refine wp_mono (quarantine_spec spot s) ?_
  intro r s' hr
  cases r with
  | ok u =>
    obtain ⟨k, target, node, hnode, rfl⟩ := hr
    exact (Store.Quarantined.moved k target node hnode).held hspot
  | error e =>
    obtain ⟨k, j, rfl⟩ := hr
    have hq : s.Quarantined spot ((s.later k).drawn j) := .kept k j
    exact hq.held hspot

theorem Store.Passed.held {first : Bool} {state : StateMetadata S.Digest} (h : s.Passed first state s') :
    s.Held s' := by
  cases h with
  | anchored a k ha hc => exact held_later s k
  | successor a k ha hc hput => exact Trans.trans (held_later s k) hput.held
  | first k ha hf hput => exact Trans.trans (held_later s k) hput.held
  | unanchored k ha hf => exact held_later s k

theorem judge_held (first : Bool) (state : StateMetadata S.Digest) {suspect : Option Spot}
    (hspot : ∀ spot, suspect = some spot → spot ≠ .root anchorsBackendFile) :
    Respects Store.Held (judge first state suspect) := by
  intro s
  refine wp_mono (judge_spec first state suspect s) ?_
  intro r s' hr
  cases r with
  | ok u => exact hr.held
  | error e =>
    rcases hr with ⟨k, rfl⟩ | ⟨k, spot, hs, hq⟩
    · exact held_later s k
    · exact Trans.trans (held_later s k) (hq.held (hspot spot hs))

theorem commitState_held (state : StateMetadata S.Digest) : Respects Store.Held (commitState state) :=
  judge_held true state (by simp)

/-! ### Records -/

theorem loadBlob_held (identity : Identity) (path name : Str) :
    Respects Store.Held (loadBlob identity path name : StoreM S _) := by
  refine .bind .get fun s => ?_
  cases s.root.get path with
  | none => exact .pure _
  | some raw =>
    refine .bind (call_held _) fun _ => .ite (.throw _) ?_
    exact .bind (call_held _) fun _ => .bind (.lift _) fun _ => .pure _

section Record

variable {T : Type} (o : RecordKind S T)

theorem readProtectedRecord_held (identity : Identity) : Respects Store.Held (readProtectedRecord o identity) := by
  refine .bind (loadBlob_held _ _ _) fun blob => ?_
  cases blob with
  | none => exact .pure _
  | some blob => exact .bind (.lift _) fun _ => .pure _

theorem saveProtectedBlob_held (identity : Identity) (payload : T) (hpath : anchorsBackendFile ≠ o.path) :
    Respects Store.Held (saveProtectedBlob o identity payload) := by
  refine .bind (currentAnchor_held _ _ _) fun previous => .bind (.lift _) fun state => ?_
  refine .bind ?_ fun _ => commitState_held state
  exact .bind (drawBytes_held _) fun _ => .bind (.lift _) fun _ => writePrivateAtomic_held _ hpath

theorem loadProtectedRecord_held (identity : Identity) (hpath : anchorsBackendFile ≠ o.path) :
    Respects Store.Held (loadProtectedRecord o identity) := by
  have hspot : Spot.root o.path ≠ .root anchorsBackendFile := fun he => hpath (Spot.root.inj he).symm
  refine .bind (.attempt (readProtectedRecord_held o identity)) fun result => ?_
  cases result with
  | error e => exact .ite (.bind (.attempt (quarantine_held hspot)) fun _ => .throw _) (.throw _)
  | ok record =>
    cases record with
    | none => exact .pure _
    | some record => exact .bind (judge_held _ _ fun spot he => Option.some.inj he ▸ hspot) fun _ => .pure _

end Record

theorem saveKeystore_held (ks : S.KeystoreFile) : Respects Store.Held (saveKeystore ks) :=
  .bind (.lift _) fun _ => .bind (checkStateTransition_held _) fun _ => .bind (.lift _) fun _ =>
    .bind (writePrivateAtomic_held _ (by decide)) fun _ => commitState_held _

/-- A keystore that does not pass is set aside. -/
private theorem keystore_suspect {spot : Spot} (h : some (Spot.root keystoreFile) = some spot) :
    spot ≠ .root anchorsBackendFile := by
  obtain rfl := Option.some.inj h
  exact fun he => absurd (Spot.root.inj he) (by decide)

theorem loadKeystore_held : Respects Store.Held (loadKeystore : StoreM S S.KeystoreFile) :=
  .bind (readBoundedFile_held _ _ _) fun _ => .bind (.lift _) fun _ => .bind (.lift _) fun _ =>
    .bind (judge_held _ _ fun _ h => keystore_suspect h) fun _ => .pure _

theorem confirmUnlockedKeystore_held (ks : S.KeystoreFile) (identity : Identity) :
    Respects Store.Held (confirmUnlockedKeystore ks identity) :=
  .bind (.lift _) fun _ => .ite (.throw _) (judge_held _ _ fun _ h => keystore_suspect h)

/-! ### Vaults -/

theorem held_setHost (s : Store S) (name : Str) (h : Host S.toPrims) : s.Held (s.setHost name h) := by
  unfold Store.setHost
  split <;> exact held_of_same rfl rfl rfl rfl

theorem held_onDir (s : Store S) (name : Str) (f : VaultDir S.toPrims → VaultDir S.toPrims) :
    s.Held (s.onDir name f) := by
  unfold Store.onDir
  split
  · exact held_of_same rfl rfl rfl rfl
  · exact Std.Refl.refl s

theorem inVault_held {α : Type} (name : Str) (reader : VaultReaderV2 S.toPrims) (p : SessionM S.toPrims α) :
    Respects Store.Held (inVault name reader p) := by
  intro s
  rw [wp_inVault]
  exact held_setHost s name _

theorem commitIn_held (name : Str) (writer : VaultReaderV2 S.toPrims) (c : CommitCall) :
    Respects Store.Held (commitIn name writer c) :=
  .bind .get fun _ => .bind (inVault_held _ _ _) fun _ => .bind (.lift _) fun _ => .pure _

theorem ensureCurrentVault_held (reader : VaultReaderV2 S.toPrims) :
    Respects Store.Held (ensureCurrentVault reader) := by
  refine .bind (.lift _) fun state => .bind (currentAnchor_held _ _ _) fun anchor => ?_
  cases anchor with
  | none => exact .pure _
  | some anchor => exact .ite (.throw _) (.pure _)

theorem commitVaultReader_held (reader : VaultReaderV2 S.toPrims) :
    Respects Store.Held (commitVaultReader reader) :=
  .bind (.lift _) fun _ => commitState_held _

theorem mutateVault_held (reader : VaultReaderV2 S.toPrims) (c : CommitCall) :
    Respects Store.Held (mutateVault reader c) :=
  .bind (.lift _) fun _ => .bind (ensureCurrentVault_held _) fun _ => .bind (commitIn_held _ _ _) fun _ =>
    commitVaultReader_held _

theorem commitChunks_held (name : Str) (writer : VaultReaderV2 S.toPrims) (chunks : List (List Op × CommitIo)) :
    Respects Store.Held (commitChunks name writer chunks) := by
  induction chunks generalizing writer with
  | nil => exact .pure _
  | cons chunk chunks ih =>
    exact .bind (commitIn_held _ _ _) fun w => .bind (commitVaultReader_held w) fun _ => ih w

theorem mutateVaultInBatches_held (reader : VaultReaderV2 S.toPrims) (items : List Op) (io : Nat → CommitIo) :
    Respects Store.Held (mutateVaultInBatches reader items io) :=
  .bind (.lift _) fun _ => .bind (ensureCurrentVault_held _) fun _ => commitChunks_held _ _ _

theorem wipeFile_held (name : Str) : Respects Store.Held (wipeFile name : StoreM S Unit) := by
  refine .bind .get fun s => ?_
  cases s.vaults.get name with
  | none => exact .pure _
  | some node =>
    cases node with
    | dir d => exact .throw _
    | file raw =>
      refine .bind (drawBytes_held _) fun noise => .bind (call_held _) fun _ => ?_
      refine .bind (.modify fun s => held_of_same rfl rfl rfl rfl) fun _ => ?_
      exact .bind (call_held _) fun _ => .modify fun s => held_of_same rfl rfl rfl rfl

theorem wipeIn_held (name : Str) (overwrite : Bytes → VaultDir S.toPrims → VaultDir S.toPrims)
    (unlink : VaultDir S.toPrims → VaultDir S.toPrims) : Respects Store.Held (wipeIn name overwrite unlink) := by
  refine .bind (drawBytes_held _) fun noise => .bind (call_held _) fun _ => ?_
  refine .bind (.modify fun s => held_onDir s _ _) fun _ => .bind (call_held _) fun _ => ?_
  exact .modify fun s => held_onDir s _ _

theorem wipeBlobs_held (name : Str) (blobs : List Str) : Respects Store.Held (wipeBlobs name blobs : StoreM S Unit) := by
  induction blobs with
  | nil => exact .pure _
  | cons blob blobs ih => exact .bind (.attempt (wipeIn_held _ _ _)) fun _ => ih

theorem removeDirAll_held (name : Str) (io : WipeIo) : Respects Store.Held (removeDirAll name io : StoreM S Unit) := by
  refine .bind (.attempt (call_held _)) fun removed => ?_
  cases removed with
  | ok u => exact .modify fun s => held_of_same rfl rfl rfl rfl
  | error e => exact .bind (.modify fun s => held_onDir s _ _) fun _ => .throw _

theorem wipeVaultDir_held (name : Str) (io : WipeIo) : Respects Store.Held (wipeVaultDir name io : StoreM S Unit) := by
  refine .bind .get fun s => .ite ?_ (.pure _)
  refine .bind (wipeBlobs_held _ _) fun _ => .bind (.attempt (wipeIn_held _ _ _)) fun _ => ?_
  refine .bind (.attempt (wipeIn_held _ _ _)) fun _ => ?_
  exact .bind (.attempt (removeDirAll_held _ io)) fun _ => .pure _

theorem syncVaults_held : Respects Store.Held (syncVaults : StoreM S Unit) :=
  .bind (.attempt (call_held _)) fun _ => .modify fun _ => held_of_same rfl rfl rfl rfl

theorem renameVault_held (m n : Str) : Respects Store.Held (renameVault m n : StoreM S Unit) := by
  refine .bind (call_held _) fun _ => .bind .get fun s => ?_
  cases s.vaults.get m with
  | none => exact .throw _
  | some node => exact .ite (.modify fun s => held_of_same rfl rfl rfl rfl) (.throw _)

theorem buildIn_held (name : Str) (identity : Identity) (id : Str) (io : BuildIo) (source : VaultSource) :
    Respects Store.Held (buildIn name identity id io source : StoreM S _) := by
  intro s
  show s.Held (exec (buildIn name identity id io source) s).2
  unfold buildIn
  simp only [exec, ExceptT.run, ExceptT.mk, StateT.run]
  split
  · exact held_setHost s name _
  · exact held_of_same rfl rfl rfl rfl

theorem createVaultDir_held (identity : Identity) (id : Str) (source : VaultSource) (io : CreateDirIo) :
    Respects Store.Held (createVaultDir identity id source io : StoreM S Unit) := by
  have hwipe : ∀ name wipe, Respects Store.Held (wipeVaultDir name wipe : StoreM S Unit) := wipeVaultDir_held
  refine .bind .get fun s => .ite (.throw _) (.bind (hwipe _ _) fun _ => ?_)
  refine .bind (.attempt (buildIn_held _ _ _ _ _)) fun built => ?_
  cases built with
  | error e => exact .bind (hwipe _ _) fun _ => .throw _
  | ok reader =>
    simp only
    cases reader.state with
    | none => exact .bind (hwipe _ _) fun _ => .throw _
    | some state =>
      refine .bind (.attempt (renameVault_held _ _)) fun renamed => ?_
      cases renamed with
      | error e => exact .bind (hwipe _ _) fun _ => .throw _
      | ok u =>
        refine .bind syncVaults_held fun _ => .bind (.attempt (commitState_held state)) fun committed => ?_
        cases committed with
        | ok u => exact .pure _
        | error e => exact .bind (hwipe _ _) fun _ => .throw _

theorem openVaultLocked_held (identity : Identity) (id : Str) (io : GcIo) :
    Respects Store.Held (openVaultLocked identity id io : StoreM S _) := by
  have hspot : Spot.vault (vaultDirV2 id) ≠ .root anchorsBackendFile := by rintro ⟨⟩
  have hread : Respects Store.Held (readVault (vaultDirV2 id) identity : StoreM S _) :=
    .bind (call_held _) fun _ => .bind (call_held _) fun _ => .bind .get fun _ => .lift _
  refine .bind .get fun s => .ite ?_ (.ite (.throw _) (.throw _))
  refine .bind hread fun reader => .bind (.lift _) fun state => .ite ?_ ?_
  · exact .bind (.attempt (quarantine_held hspot)) fun _ => .throw _
  · refine .bind (judge_held _ _ fun spot he => Option.some.inj he ▸ hspot) fun _ => .bind (.attempt (wipeFile_held _)) fun _ => ?_
    exact .bind (inVault_held _ _ _) fun _ => .pure _

theorem contactsFile_ne_marker : anchorsBackendFile ≠ contactsFile := by decide

theorem indexFile_ne_marker : anchorsBackendFile ≠ indexFile := by decide

/-- Every load and save. -/
theorem StoreOp.held (op : StoreOp S) : Respects Store.Held op.run := by
  have hsave : ∀ {p : StoreM S Unit}, Respects Store.Held p → Respects Store.Held (asSave p) :=
    fun hp => .bind hp fun _ => .pure _
  cases op with
  | saveKeystore ks => exact hsave (saveKeystore_held ks)
  | loadKeystore => exact .bind loadKeystore_held fun _ => .pure _
  | confirmUnlockedKeystore ks identity => exact .bind (confirmUnlockedKeystore_held ks identity) fun _ => .pure _
  | saveContacts identity book => exact hsave (saveProtectedBlob_held (contactsRecord S) identity book contactsFile_ne_marker)
  | loadContacts identity =>
    exact .bind (loadProtectedRecord_held (contactsRecord S) identity contactsFile_ne_marker) fun _ => .pure _
  | saveRegistry identity registry => exact hsave (saveProtectedBlob_held (registryRecord S) identity registry indexFile_ne_marker)
  | loadRegistry identity =>
    exact .bind (loadProtectedRecord_held (registryRecord S) identity indexFile_ne_marker) fun _ => .pure _
  | saveVault identity id vault io => exact hsave (createVaultDir_held identity id (.memory vault) io)
  | importVault identity id reader space io =>
    exact hsave (.ite (createVaultDir_held identity id (.container reader) io) (.throw _))
  | mutateVault reader c => exact hsave (mutateVault_held reader c)
  | mutateVaultInBatches reader items io => exact hsave (mutateVaultInBatches_held reader items io)
  | openVault identity id io => exact .bind (openVaultLocked_held identity id io) fun _ => .pure _

/-! ### Resuming a migration -/

/-- The secure storage holds a root record of the present layout. -/
def Store.RootV2 (s : Store S) : Prop := ∃ raw, s.RootRecord raw ∧ S.probeVersion raw = some anchorRootVersion

/-- The backend and its marker are the same, a root record stays one, and so are the records of the secure storage if it
is not the backend. -/
structure Store.Parted (s s' : Store S) : Prop where
  account : s'.account = s.account
  backend : s'.backend = s.backend
  marker : s'.root.get anchorsBackendFile = s.root.get anchorsBackendFile
  rootV2 : s.RootV2 → s'.RootV2
  secure : s.backend = .degradedFile → s'.secure = s.secure

instance : IsPreorder (Store S) Store.Parted where
  refl _ := ⟨rfl, rfl, rfl, id, fun _ => rfl⟩
  trans _ _ _ h h' := ⟨h'.account.trans h.account, h'.backend.trans h.backend, h'.marker.trans h.marker,
    fun hr => h'.rootV2 (h.rootV2 hr), fun hb => (h'.secure (h.backend.trans hb)).trans (h.secure hb)⟩

theorem Store.Held.parted (h : s.Held s') : s.Parted s' :=
  ⟨h.account, h.backend, h.marker, fun ⟨raw, hr, hv⟩ => ⟨raw, h.record raw hr, hv⟩, h.secure⟩

theorem parted_of_held {α : Type} {p : StoreM S α} (h : Respects Store.Held p) : Respects Store.Parted p :=
  fun s => wp_mono (h s) fun _ _ h => h.parted

theorem setMigrationRecord_parted (record : Option (MigrationRecord S.Digest)) :
    Respects Store.Parted (setMigrationRecord record) := by
  intro s
  refine wp_mono (setMigrationRecord_spec record s) ?_
  intro r s' hr
  cases r with
  | error e =>
    obtain ⟨k, rfl⟩ := hr
    exact (held_later s k).parted
  | ok u =>
    cases hr with
    | secure records k hb hr =>
      refine ⟨rfl, rfl, rfl, fun _ => ?_, fun hb' => ?_⟩
      · exact ⟨_, ⟨_, rfl, Function.update_self _ _ _⟩, S.probeVersion_anchorRoot _⟩
      · rw [hb] at hb'
        cases hb'
    | degraded set k ok hb hset =>
      refine ⟨rfl, rfl, (get_sync _ _ _).trans (get_put_of_ne (by decide)), ?_, fun _ => rfl⟩
      rintro ⟨raw, ⟨records, hs, hr⟩, hv⟩
      exact ⟨raw, ⟨records, hs, hr⟩, hv⟩

theorem held_take {spot : Spot} (s : Store S) (hspot : spot ≠ .root anchorsBackendFile) : s.Held (s.take spot) := by
  cases spot with
  | root name =>
    have hname : anchorsBackendFile ≠ name := fun he => hspot (he ▸ rfl)
    exact held_of_marker rfl rfl rfl (get_remove_of_ne hname)
  | vault name => exact held_of_same rfl rfl rfl rfl

theorem held_place {spot : Spot} (s : Store S) (entry : DirEntry S.toPrims) (hspot : spot ≠ .root anchorsBackendFile) :
    s.Held (s.place spot entry) := by
  cases spot with
  | root name =>
    cases entry with
    | file raw =>
      have hname : anchorsBackendFile ≠ name := fun he => hspot (he ▸ rfl)
      exact held_of_marker rfl rfl rfl (get_put_of_ne hname)
    | dir d => exact Std.Refl.refl s
  | vault name => exact held_of_same rfl rfl rfl rfl

theorem moveAside_held {live : Str} (name : Str) (hlive : isMigratableLivePath live = true) :
    Respects Store.Held (moveAside live name : StoreM S Unit) := by
  refine .bind (call_held _) fun _ => .bind .get fun s => ?_
  cases s.node (liveSpot live) with
  | none => exact .throw _
  | some entry =>
    refine .ite (.modify fun s => ?_) (.throw _)
    have hmoved : (s.take (liveSpot live)).Held (s.movedAside live name entry) := held_of_same rfl rfl rfl rfl
    exact Trans.trans (held_take s (liveSpot_ne_marker hlive)) hmoved

theorem moveIntoPlace_held {live : Str} (hlive : isMigratableLivePath live = true) :
    Respects Store.Held (moveIntoPlace live : StoreM S Unit) := by
  refine .bind (call_held _) fun _ => .bind .get fun s => ?_
  cases s.stagedAt live with
  | none => exact .throw _
  | some entry =>
    refine .ite (.modify fun s => ?_) (.throw _)
    have hmoved : (s.place (liveSpot live) entry).Held (s.movedIntoPlace live entry) := held_of_same rfl rfl rfl rfl
    exact Trans.trans (held_place s entry (liveSpot_ne_marker hlive)) hmoved

/-- A move is carried out for the migratable paths only. -/
theorem applyMove_held (move : (Str × Str) × Nat) : Respects Store.Held (applyMove move : StoreM S Unit) := by
  unfold applyMove
  by_cases hpath : ¬ isMigratableLivePath move.1.2 = true ∨ move.1.1 ≠ stagedPath move.1.2
  · rw [if_pos hpath]
    exact .throw _
  · rw [if_neg hpath]
    have hlive : isMigratableLivePath move.1.2 = true := not_not.1 fun h => hpath (Or.inl h)
    refine .bind .get fun s => ?_
    cases (s.stagedAt move.1.2).isSome with
    | false =>
      cases (s.node (liveSpot move.1.2)).isSome with
      | false => exact .throw _
      | true => exact .pure _
    | true =>
      cases (s.node (liveSpot move.1.2)).isSome with
      | false => exact moveIntoPlace_held hlive
      | true =>
        cases (s.oldCopyAt (oldCopyName move.2 move.1.2)).isSome with
        | false => exact .bind (moveAside_held _ hlive) fun _ => moveIntoPlace_held hlive
        | true => exact .throw _

theorem committedJournal_held (record : MigrationRecord S.Digest) : Respects Store.Held (committedJournal record) := by
  refine .bind (.bind (call_held _) fun _ => .bind .get fun _ => .lift _) fun bytes => .ite (.throw _) ?_
  cases S.journal.decode bytes with
  | none => exact .throw _
  | some journal => exact .ite (.pure _) (.throw _)

theorem migrationRecord_held : Respects Store.Held (migrationRecord : StoreM S _) := by
  intro s
  refine wp_mono (migrationRecord_spec s) ?_
  rintro r _ ⟨⟨k, rfl⟩, -⟩
  exact held_later s k

theorem discardMigrationDir_held (io : DiscardIo) : Respects Store.Held (discardMigrationDir io : StoreM S Unit) :=
  fun s => wp_mono (discardMigrationDir_swept io s) fun _ _ h => h.toBeneath.held

theorem finishMigration_parted (record : MigrationRecord S.Digest) (io : DiscardIo) :
    Respects Store.Parted (finishMigration record io) := by
  have hcopies : Respects Store.Held (createOldCopies : StoreM S Unit) :=
    .bind (call_held _) fun _ => .modify fun s => held_of_same rfl rfl rfl rfl
  have hsync : Respects Store.Held (syncRoot : StoreM S Unit) :=
    .bind (.attempt (call_held _)) fun _ => .modify fun s => held_of_marker rfl rfl rfl (get_sync _ _ _)
  refine .bind (parted_of_held (committedJournal_held record)) fun journal => ?_
  refine .bind (parted_of_held hcopies) fun _ => ?_
  refine .bind (.runAll fun m _ => parted_of_held (applyMove_held m)) fun _ => ?_
  refine .bind (parted_of_held hsync) fun _ => .bind (parted_of_held syncVaults_held) fun _ => ?_
  refine .bind (.runAll fun a _ => .ite (.throw _) (parted_of_held (putAnchorLocked_held a))) fun _ => ?_
  exact .bind (setMigrationRecord_parted none) fun _ => parted_of_held (discardMigrationDir_held io)

theorem resumeIdentityMigration_parted (io : DiscardIo) :
    Respects Store.Parted (resumeIdentityMigration io : StoreM S Unit) := by
  refine .bind (parted_of_held migrationRecord_held) fun record => ?_
  cases record with
  | none => exact parted_of_held (discardMigrationDir_held io)
  | some record =>
    refine .bind (.attempt (finishMigration_parted record io)) fun result => ?_
    cases result with
    | ok u => exact .pure _
    | error e => exact .throw _

end FileSec
