import FileSec.Store.Carried

/-!
# Recovering the rollback anchors

`recover_rollback_anchors` moves a store whose backend cannot be trusted onto a new one: the passphrase has to unlock
the keystore and every object has to authenticate, and the states found become the anchors.  It changes no object,
nothing at all before everything has authenticated (`recoverRollbackAnchors_spec`), and a store it returns loads every
object (`recover_restores`).
-/

namespace FileSec

open CrashDir Folders Prog

variable {S : StorePrims} {s s' : Store S}

/-! ### The program -/

/-- The anchor of a record, if there is one. -/
def recordAnchor {T : Type} (o : RecordKind S T) (identity : Identity) : StoreM S (List (StateAnchor S.Digest)) := do
  let record ← readProtectedRecord o identity
  pure (record.toList.map fun record => StateAnchor.fromMetadata record.state)

/-- The round of the loop of `recover_rollback_anchors` for a vault. -/
def vaultAnchor (identity : Identity) (id : Str) : StoreM S (StateAnchor S.Digest) := do
  let opened ← attempt (readVault (vaultDirV2 id) identity)
  match opened with
  | .error e => throw ("vault ".toList ++ id ++ " could not be authenticated: ".toList ++ e)
  | .ok reader =>
    match reader.state with
    | none => throw ("vault ".toList ++ id ++ " has no rollback-protection metadata".toList)
    | some state =>
      if state.objectId ≠ id ∨ state.identityFingerprint ≠ identity.fingerprint then
        throw ("vault ".toList ++ id ++ " does not belong to this store".toList)
      else pure (StateAnchor.fromMetadata state)

/-- The loop of `recover_rollback_anchors` over the vaults. -/
def vaultAnchors (identity : Identity) : List Str → StoreM S (List (StateAnchor S.Digest))
  | [] => pure []
  | id :: ids => do
    let anchor ← vaultAnchor identity id
    let rest ← vaultAnchors identity ids
    pure (anchor :: rest)

/-- The part of `recover_rollback_anchors` that authenticates every object. -/
def authenticatedAnchors (passphrase : S.Raw) : StoreM S (List (StateAnchor S.Digest)) := do
  let bytes ← readBoundedFile keystoreFile maxKeystoreFileLen "keystore file".toList
  let ks ← liftM (Result.text (S.keystoreFromBytes bytes))
  let identity ← liftM (Result.text (S.unlock ks passphrase))
  let state ← liftM (keystoreStateOr noKeystoreState ks)
  if state.identityFingerprint ≠ identity.fingerprint then
    throw "keystore state does not belong to the unlocked identity".toList
  else do
    let contacts ← recordAnchor (contactsRecord S) identity
    let registry ← recordAnchor (registryRecord S) identity
    let ids ← v2Vaults
    let vaults ← vaultAnchors identity ids
    pure (StateAnchor.fromMetadata state :: (contacts ++ registry ++ vaults))

/-- The backend that a probe leads to. -/
def SecureProbe.backend : SecureProbe → AnchorBackend
  | .unreachable => .degradedFile
  | .established => .secureStorage
  | .empty => .secureStorage

/-- The part of `recover_rollback_anchors` that writes the anchors. -/
def recordAnchors (anchors : List (StateAnchor S.Digest)) : StoreM S Unit := do
  let s ← get
  match s.backend with
  | .secureStorage => do
    runAll putAnchorLocked anchors
    saveSecure s.account (encodeRootRecord S)
  | .degradedFile => saveFileAnchorSetLocked ⟨anchorsVersion, anchors, none⟩

/-- `recover_rollback_anchors` -/
def recoverRollbackAnchors (passphrase : S.Raw) : StoreM S Unit := do
  unselected
  let anchors ← authenticatedAnchors passphrase
  let probe ← probeSecure
  modify fun s => { s with backend := probe.backend }
  recordAnchors anchors
  writeBackendMarker probe.backend

/-! ### What has authenticated -/

section Found

variable {T : Type} {o : RecordKind S T} {identity : Identity}

/-- What reading a record has found. -/
def Store.Found (s : Store S) (o : RecordKind S T) (identity : Identity) : Option (ProtectedState S.Digest T) → Prop
  | none => s.root.get o.path = none
  | some record => ∃ raw, s.root.get o.path = some raw ∧ S.rawLen raw ≤ maxSelfBlobContainerLen ∧
    o.Reads identity raw record

theorem readProtectedRecord_found (s : Store S) : wp (readProtectedRecord o identity) (fun r s' =>
    (∃ k, s' = s.later k) ∧ ∀ record, r = .ok record → s.Found o identity record) s := by
  unfold readProtectedRecord loadBlob
  simp only [wp_bind, wp_get]
  cases hg : s.root.get o.path with
  | none =>
    refine ⟨⟨0, rfl⟩, ?_⟩
    rintro _ ⟨⟩
    exact hg
  | some raw =>
    simp only [wp_bind, wp_call, wp_ite, wp_throw, wp_liftM]
    refine ⟨fun _ => ⟨fun _ => ⟨⟨1, rfl⟩, by rintro _ ⟨⟩⟩, fun hlen => ⟨fun _ => ?_, fun _ => ?_⟩⟩,
      fun _ => ⟨⟨1, rfl⟩, by rintro _ ⟨⟩⟩⟩
    case refine_2 => exact ⟨⟨2, rfl⟩, by rintro _ ⟨⟩⟩
    cases hc : readContainer S identity raw o.entryName with
    | error e => exact ⟨⟨2, rfl⟩, by rintro _ ⟨⟩⟩
    | ok blob =>
      simp only [wp_pure, wp_bind, wp_liftM]
      cases ha : o.authenticate identity blob with
      | error e => exact ⟨⟨2, rfl⟩, by rintro _ ⟨⟩⟩
      | ok record =>
        refine ⟨⟨2, rfl⟩, ?_⟩
        rintro _ ⟨⟩
        exact ⟨raw, hg, Nat.not_lt.1 hlen, blob, hc, ha⟩

end Found

/-- The state that the store holds of an object, read as the identity. -/
def Store.HoldsState (s : Store S) (identity : Identity) (state : StateMetadata S.Digest) : Prop :=
  match state.objectType with
  | .keystore => ∃ raw ks, s.root.get keystoreFile = some raw ∧ S.keystoreFromBytes raw = .ok ks ∧
    S.keystoreState ks = some state
  | .contacts => ∃ raw record, s.root.get contactsFile = some raw ∧ (contactsRecord S).Reads identity raw record ∧
    record.state = state
  | .registry => ∃ raw record, s.root.get indexFile = some raw ∧ (registryRecord S).Reads identity raw record ∧
    record.state = state
  | .vaultManifest => ∃ r : VaultReaderV2 S.toPrims,
    openVault S.toPrims (s.host (vaultDirV2 state.objectId)).top.shown identity = .ok r ∧ r.state = some state

/-- An object has one state. -/
theorem Store.HoldsState.unique {identity : Identity} {x y : StateMetadata S.Digest} (hx : s.HoldsState identity x)
    (hy : s.HoldsState identity y) (hty : x.objectType = y.objectType) (hid : x.objectId = y.objectId) : x = y := by
  unfold Store.HoldsState at hx hy
  rw [← hty] at hy
  rw [← hid] at hy
  cases ht : x.objectType with
  | keystore =>
    rw [ht] at hx hy
    obtain ⟨raw, ks, hraw, hks, hstate⟩ := hx
    obtain ⟨raw', ks', hraw', hks', hstate'⟩ := hy
    obtain rfl := Option.some.inj (hraw.symm.trans hraw')
    obtain rfl := Except.ok.inj (hks.symm.trans hks')
    exact Option.some.inj (hstate.symm.trans hstate')
  | contacts =>
    rw [ht] at hx hy
    obtain ⟨raw, record, hraw, hreads, rfl⟩ := hx
    obtain ⟨raw', record', hraw', hreads', rfl⟩ := hy
    obtain rfl := Option.some.inj (hraw.symm.trans hraw')
    rw [hreads.unique hreads']
  | registry =>
    rw [ht] at hx hy
    obtain ⟨raw, record, hraw, hreads, rfl⟩ := hx
    obtain ⟨raw', record', hraw', hreads', rfl⟩ := hy
    obtain rfl := Option.some.inj (hraw.symm.trans hraw')
    rw [hreads.unique hreads']
  | vaultManifest =>
    rw [ht] at hx hy
    obtain ⟨r, hopen, hstate⟩ := hx
    obtain ⟨r', hopen', hstate'⟩ := hy
    obtain rfl := Except.ok.inj (hopen.symm.trans hopen')
    exact Option.some.inj (hstate.symm.trans hstate')

/-- The record, if there is one, has its anchor in the list. -/
def Store.Listed {T : Type} (s : Store S) (o : RecordKind S T) (identity : Identity)
    (anchors : List (StateAnchor S.Digest)) : Prop :=
  ∃ record, s.Found o identity record ∧ ∀ r, record = some r → StateAnchor.fromMetadata r.state ∈ anchors

/-- The anchor is that of a state that the store holds, and of the identity. -/
def Store.Sound (s : Store S) (identity : Identity) (a : StateAnchor S.Digest) : Prop :=
  ∃ state, a = StateAnchor.fromMetadata state ∧ s.HoldsState identity state ∧
    state.identityFingerprint = identity.fingerprint

/-- The anchors are those of the objects of the store, all of which authenticate under the identity that the passphrase
unlocks. -/
structure Store.Authenticated (s : Store S) (passphrase : S.Raw) (identity : Identity)
    (anchors : List (StateAnchor S.Digest)) : Prop where
  keystore : ∃ raw ks state, s.root.get keystoreFile = some raw ∧ S.rawLen raw ≤ maxKeystoreFileLen ∧
    S.keystoreFromBytes raw = .ok ks ∧ S.unlock ks passphrase = .ok identity ∧ S.keystoreState ks = some state ∧
    StateAnchor.fromMetadata state ∈ anchors
  contacts : s.Listed (contactsRecord S) identity anchors
  registry : s.Listed (registryRecord S) identity anchors
  vaults : s.Working → ∀ id, s.isDir (vaultDirV2 id) = true → ∃ r : VaultReaderV2 S.toPrims, ∃ state,
    openVault S.toPrims (s.host (vaultDirV2 id)).top.shown identity = .ok r ∧ r.state = some state ∧
    state.objectId = id ∧ StateAnchor.fromMetadata state ∈ anchors
  sound : ∀ a ∈ anchors, s.Sound identity a

/-- Two anchors of one object are the same. -/
theorem Store.Authenticated.objects {passphrase : S.Raw} {identity : Identity} {anchors : List (StateAnchor S.Digest)}
    (h : s.Authenticated passphrase identity anchors) :
    ∀ a ∈ anchors, ∀ b ∈ anchors, a.Of b.objectType b.objectId → a = b := by
  intro a ha b hb hof
  obtain ⟨x, rfl, hx, -⟩ := h.sound a ha
  obtain ⟨y, rfl, hy, -⟩ := h.sound b hb
  rw [hx.unique hy hof.1 hof.2]

theorem recordAnchor_spec {T : Type} (o : RecordKind S T) (identity : Identity) (s : Store S) :
    wp (recordAnchor o identity) (fun r s' => (∃ k, s' = s.later k) ∧ ∀ anchors, r = .ok anchors → ∃ record,
      s.Found o identity record ∧ anchors = record.toList.map fun record => StateAnchor.fromMetadata record.state)
      s := by
  unfold recordAnchor
  rw [wp_bind]
  refine wp_mono (readProtectedRecord_found s) ?_
  rintro r _ ⟨⟨k, rfl⟩, hfound⟩
  cases r with
  | error e => exact ⟨⟨k, rfl⟩, by rintro _ ⟨⟩⟩
  | ok record =>
    refine ⟨⟨k, rfl⟩, ?_⟩
    rintro _ ⟨⟩
    exact ⟨record, hfound record rfl, rfl⟩

/-- The anchor is that of the vault `id`. -/
def Store.VaultAnchor (s : Store S) (identity : Identity) (id : Str) (a : StateAnchor S.Digest) : Prop :=
  ∃ r : VaultReaderV2 S.toPrims, ∃ state, openVault S.toPrims (s.host (vaultDirV2 id)).top.shown identity = .ok r ∧
    r.state = some state ∧ state.objectId = id ∧ state.identityFingerprint = identity.fingerprint ∧
    a = StateAnchor.fromMetadata state

theorem vaultAnchor_spec (identity : Identity) (id : Str) (s : Store S) : wp (vaultAnchor identity id) (fun r s' =>
    (∃ k, s' = s.later k) ∧ ∀ a, r = .ok a → s.VaultAnchor identity id a) s := by
  unfold vaultAnchor
  simp only [wp_bind, wp_attempt]
  refine wp_mono (readVault_spec _ _ s) ?_
  rintro r _ ⟨k, rfl, hopen⟩
  cases r with
  | error e => exact ⟨⟨k, rfl⟩, by rintro _ ⟨⟩⟩
  | ok reader =>
    cases hstate : reader.state with
    | none =>
      simp only [hstate]
      exact ⟨⟨k, rfl⟩, by rintro _ ⟨⟩⟩
    | some state =>
      simp only [hstate, wp_ite, wp_throw, wp_pure]
      refine ⟨fun _ => ⟨⟨k, rfl⟩, by rintro _ ⟨⟩⟩, fun hof => ⟨⟨k, rfl⟩, ?_⟩⟩
      rintro _ ⟨⟩
      rw [not_or, not_ne_iff, not_ne_iff] at hof
      exact ⟨reader, state, hopen reader rfl, hstate, hof.1, hof.2, rfl⟩

theorem vaultAnchors_spec (identity : Identity) (ids : List Str) (s : Store S) :
    wp (vaultAnchors identity ids) (fun r s' => (∃ k, s' = s.later k) ∧ ∀ anchors, r = .ok anchors →
      List.Forall₂ (s.VaultAnchor identity) ids anchors) s := by
  induction ids generalizing s with
  | nil =>
    refine ⟨⟨0, rfl⟩, ?_⟩
    rintro _ ⟨⟩
    exact .nil
  | cons id ids ih =>
    unfold vaultAnchors
    rw [wp_bind]
    refine wp_mono (vaultAnchor_spec identity id s) ?_
    rintro r _ ⟨⟨k, rfl⟩, hanchor⟩
    cases r with
    | error e => exact ⟨⟨k, rfl⟩, by rintro _ ⟨⟩⟩
    | ok a =>
      simp only [wp_bind]
      refine wp_mono (ih (s.later k)) ?_
      rintro r _ ⟨⟨j, rfl⟩, hrest⟩
      have hlater : ∃ i, (s.later k).later j = s.later i := ⟨k + j, later_later s k j⟩
      cases r with
      | error e => exact ⟨hlater, by rintro _ ⟨⟩⟩
      | ok rest =>
        refine ⟨hlater, ?_⟩
        rintro _ ⟨⟩
        exact .cons (hanchor a rfl) (hrest rest rfl)

private theorem listed_of_found {T : Type} {o : RecordKind S T} {identity : Identity}
    {record : Option (ProtectedState S.Digest T)} {anchors : List (StateAnchor S.Digest)}
    (h : s.Found o identity record)
    (hin : record.toList.map (fun record => StateAnchor.fromMetadata record.state) ⊆ anchors) :
    s.Listed o identity anchors := by
  refine ⟨record, h, ?_⟩
  rintro r rfl
  exact hin List.mem_cons_self

/-- A record that is read is of its object and of the identity. -/
theorem RecordKind.Reads.object {T : Type} {o : RecordKind S T} {identity : Identity} {raw : S.Raw}
    {record : ProtectedState S.Digest T} (h : o.Reads identity raw record) :
    record.state.objectType = o.objectType ∧ record.state.identityFingerprint = identity.fingerprint := by
  obtain ⟨blob, -, hauth⟩ := h
  obtain ⟨hty, -, hfpr⟩ := authenticate_object o hauth
  exact ⟨hty, hfpr⟩

private theorem holdsState_contacts {identity : Identity} {raw : S.Raw} {record : ProtectedState S.Digest S.ContactBook}
    (hraw : s.root.get contactsFile = some raw) (h : (contactsRecord S).Reads identity raw record) :
    s.HoldsState identity record.state := by
  have hty : record.state.objectType = .contacts := h.object.1
  unfold Store.HoldsState
  rw [hty]
  exact ⟨raw, record, hraw, h, rfl⟩

private theorem holdsState_registry {identity : Identity} {raw : S.Raw} {record : ProtectedState S.Digest Registry}
    (hraw : s.root.get indexFile = some raw) (h : (registryRecord S).Reads identity raw record) :
    s.HoldsState identity record.state := by
  have hty : record.state.objectType = .registry := h.object.1
  unfold Store.HoldsState
  rw [hty]
  exact ⟨raw, record, hraw, h, rfl⟩

/-- The anchor of a record that has been found is sound. -/
private theorem Store.Found.sound {T : Type} {o : RecordKind S T} {identity : Identity}
    {record : Option (ProtectedState S.Digest T)} (h : s.Found o identity record)
    (ho : ∀ raw r, s.root.get o.path = some raw → o.Reads identity raw r → s.HoldsState identity r.state)
    {a : StateAnchor S.Digest} (ha : a ∈ record.toList.map fun record => StateAnchor.fromMetadata record.state) :
    s.Sound identity a := by
  cases record with
  | none => cases ha
  | some r =>
    obtain rfl := List.mem_singleton.1 ha
    obtain ⟨raw, hraw, -, hreads⟩ := h
    exact ⟨r.state, rfl, ho raw r hraw hreads, hreads.object.2⟩

/-- So is that of a vault. -/
private theorem Store.VaultAnchor.sound {identity : Identity} {id : Str} {a : StateAnchor S.Digest}
    (h : s.VaultAnchor identity id a) : s.Sound identity a := by
  obtain ⟨r, state, hopen, hstate, rfl, hfpr, rfl⟩ := h
  obtain ⟨id', hcoherent⟩ := coherent_of_openVault hopen
  obtain ⟨state', pt, hstate', hof, -⟩ := hcoherent.state
  obtain rfl := Option.some.inj (hstate.symm.trans hstate')
  refine ⟨state, rfl, ?_, hfpr⟩
  unfold Store.HoldsState
  rw [hof.objectType]
  exact ⟨r, hopen, hstate⟩

private theorem exists_of_forall₂ {α β : Type} {R : α → β → Prop} {l : List α} {l' : List β} (h : List.Forall₂ R l l') :
    (∀ a ∈ l, ∃ b ∈ l', R a b) ∧ ∀ b ∈ l', ∃ a ∈ l, R a b := by
  induction h with
  | nil => simp
  | @cons a b l l' hab _ ih =>
    refine ⟨fun x hx => ?_, fun y hy => ?_⟩
    · rcases List.mem_cons.1 hx with rfl | hx
      · exact ⟨b, List.mem_cons_self, hab⟩
      · obtain ⟨y, hy, hxy⟩ := ih.1 x hx
        exact ⟨y, List.mem_cons_of_mem _ hy, hxy⟩
    · rcases List.mem_cons.1 hy with rfl | hy
      · exact ⟨a, List.mem_cons_self, hab⟩
      · obtain ⟨x, hx, hxy⟩ := ih.2 y hy
        exact ⟨x, List.mem_cons_of_mem _ hx, hxy⟩

/-- The anchors are come to only when everything has authenticated, by reading alone. -/
theorem authenticatedAnchors_spec (passphrase : S.Raw) (s : Store S) : wp (authenticatedAnchors passphrase) (fun r s' =>
    (∃ k, s' = s.later k) ∧ ∀ anchors, r = .ok anchors → ∃ identity, s.Authenticated passphrase identity anchors)
    s := by
  unfold authenticatedAnchors readBoundedFile
  simp only [wp_bind, wp_call, wp_get, wp_liftM]
  refine ⟨fun _ => ?_, fun _ => ⟨⟨1, rfl⟩, by rintro _ ⟨⟩⟩⟩
  cases hread : Result.labelled "keystore file".toList
      (readBounded S.toPrims (s.tick.root.get keystoreFile) maxKeystoreFileLen) with
  | error e => exact ⟨⟨1, rfl⟩, by rintro _ ⟨⟩⟩
  | ok raw =>
    obtain ⟨hraw, hlen⟩ := readBounded_eq_ok.1 (Result.labelled_eq_ok.1 hread)
    have hraw : s.root.get keystoreFile = some raw := hraw
    simp only
    cases hks : S.keystoreFromBytes raw with
    | error e => exact ⟨⟨1, rfl⟩, by rintro _ ⟨⟩⟩
    | ok ks =>
      simp only [Result.text_ok]
      cases hunlock : S.unlock ks passphrase with
      | error e => exact ⟨⟨1, rfl⟩, by rintro _ ⟨⟩⟩
      | ok identity =>
        simp only [Result.text_ok]
        obtain ⟨state, hstate, hty, -⟩ := S.keystoreState_of_fromBytes raw ks hks
        simp only [keystoreStateOr, hstate, wp_ite, wp_throw]
        refine ⟨fun _ => ⟨⟨1, rfl⟩, by rintro _ ⟨⟩⟩, fun hfpr => ?_⟩
        rw [not_ne_iff] at hfpr
        rw [wp_bind]
        refine wp_mono (recordAnchor_spec (contactsRecord S) identity (s.later 1)) ?_
        rintro r _ ⟨⟨k, rfl⟩, hcontacts⟩
        rw [later_later]
        cases r with
        | error e => exact ⟨⟨_, rfl⟩, by rintro _ ⟨⟩⟩
        | ok contacts =>
          obtain ⟨book, hbook, rfl⟩ := hcontacts contacts rfl
          simp only [wp_bind]
          refine wp_mono (recordAnchor_spec (registryRecord S) identity (s.later (1 + k))) ?_
          rintro r _ ⟨⟨j, rfl⟩, hregistry⟩
          rw [later_later]
          cases r with
          | error e => exact ⟨⟨_, rfl⟩, by rintro _ ⟨⟩⟩
          | ok registry =>
            obtain ⟨known, hknown, rfl⟩ := hregistry registry rfl
            simp only
            refine wp_mono (v2Vaults_spec (s.later (1 + k + j))) ?_
            rintro r _ ⟨rfl, ids, rfl, -, hall⟩
            rw [later_later]
            simp only
            refine wp_mono (vaultAnchors_spec identity ids (s.later (1 + k + j + 1))) ?_
            rintro r _ ⟨⟨i, rfl⟩, hvaults⟩
            rw [later_later]
            cases r with
            | error e => exact ⟨⟨_, rfl⟩, by rintro _ ⟨⟩⟩
            | ok vaults =>
              have hvaults := hvaults vaults rfl
              refine ⟨⟨_, rfl⟩, ?_⟩
              rintro _ ⟨⟩
              refine ⟨identity, ⟨raw, ks, state, hraw, hlen, hks, hunlock, hstate, List.mem_cons_self⟩,
                listed_of_found hbook fun a ha => ?_, listed_of_found hknown fun a ha => ?_, fun hw id hdir => ?_,
                fun a ha => ?_⟩
              · exact List.mem_cons_of_mem _ (List.mem_append_left _ (List.mem_append_left _ ha))
              · exact List.mem_cons_of_mem _ (List.mem_append_left _ (List.mem_append_right _ ha))
              · obtain ⟨a, ha, r, st, hopen, hst, hid, -, rfl⟩ :=
                  (exists_of_forall₂ hvaults).1 _ (hall (hw.later _) id hdir)
                exact ⟨r, st, hopen, hst, hid, List.mem_cons_of_mem _ (List.mem_append_right _ ha)⟩
              · rcases List.mem_cons.1 ha with rfl | ha
                · refine ⟨state, rfl, ?_, hfpr⟩
                  unfold Store.HoldsState
                  rw [hty]
                  exact ⟨raw, ks, hraw, hks, hstate⟩
                rcases List.mem_append.1 ha with ha | ha
                · rcases List.mem_append.1 ha with ha | ha
                  · exact hbook.sound (fun _ _ => holdsState_contacts) ha
                  · exact hknown.sound (fun _ _ => holdsState_registry) ha
                · obtain ⟨id, -, hanchor⟩ := (exists_of_forall₂ hvaults).2 _ ha
                  exact hanchor.sound

/-! ### What the anchors are written to -/

/-- Nothing but the anchors and the marker of the backend has changed. -/
structure Store.Spared (s s' : Store S) : Prop where
  account : s'.account = s.account
  root : ∀ name, name ≠ anchorsFile → name ≠ anchorsBackendFile → s'.root.get name = s.root.get name
  vaults : s'.vaults = s.vaults
  migration : s'.migration = s.migration
  quarantined : s'.quarantined = s.quarantined

instance : IsPreorder (Store S) Store.Spared where
  refl _ := ⟨rfl, fun _ _ _ => rfl, rfl, rfl, rfl⟩
  trans _ _ _ h h' := ⟨h'.account.trans h.account, fun name hn hn' => (h'.root name hn hn').trans (h.root name hn hn'),
    h'.vaults.trans h.vaults, h'.migration.trans h.migration, h'.quarantined.trans h.quarantined⟩

theorem spared_later (s : Store S) (k : Nat) : s.Spared (s.later k) := ⟨rfl, fun _ _ _ => rfl, rfl, rfl, rfl⟩

/-- The anchor of each object is the one in the list. -/
def Store.HasAnchors (s : Store S) (anchors : List (StateAnchor S.Digest)) : Prop :=
  ∀ a ∈ anchors, s.anchor a.objectType a.objectId = .ok (some a)

theorem Store.HasAnchors.of_mem {anchors : List (StateAnchor S.Digest)} {state : StateMetadata S.Digest}
    (h : s.HasAnchors anchors) (hin : StateAnchor.fromMetadata state ∈ anchors) : s.Anchors state := by
  have hanchor := h (StateAnchor.fromMetadata state) hin
  exact hanchor

section Record

variable {anchors : List (StateAnchor S.Digest)}

/-- Writing the anchors one by one to the secure storage. -/
theorem putAll_secure (hobjects : ∀ a ∈ anchors, ∀ b ∈ anchors, a.Of b.objectType b.objectId → a = b)
    (hb : s.backend = .secureStorage) : wp (runAll putAnchorLocked anchors) (fun r s' => s.Spared s' ∧
      s'.root = s.root ∧ s'.backend = .secureStorage ∧ (r = .ok () → s'.HasAnchors anchors)) s := by
  have htasks : Resumable putAnchorLocked
      (fun t : Store S => s.Spared t ∧ t.root = s.root ∧ t.backend = .secureStorage)
      (fun a t => t.anchor a.objectType a.objectId = .ok (some a)) anchors := by
    constructor
    rintro a ha t ⟨hspared, hroot, hback⟩
    refine wp_mono (putAnchorLocked_spec a t) ?_
    intro r t' hr
    cases r with
    | error e =>
      obtain ⟨k, rfl⟩ := hr
      exact ⟨⟨Trans.trans hspared (spared_later t k), hroot, hback⟩, fun _ _ hd => hd, by simp⟩
    | ok u =>
      have hanchor := hr.anchor
      cases hr with
      | degraded set k ok hb' hset =>
        rw [hback] at hb'
        cases hb'
      | secure records k hb' hrec =>
        obtain ⟨hself, hothers⟩ := hanchor.resolve_right fun hd => by
          rw [hback] at hd
          cases hd.1
        refine ⟨⟨⟨hspared.account, hspared.root, hspared.vaults, hspared.migration, hspared.quarantined⟩, hroot,
          hback⟩, fun b hbin hd => ?_, fun _ => hself⟩
        by_cases hof : a.Of b.objectType b.objectId
        · obtain rfl := hobjects a ha b hbin hof
          exact hself
        · exact (hothers _ _ hof).trans hd
  refine wp_mono (htasks.run ⟨Std.Refl.refl s, rfl, hb⟩) ?_
  rintro r s' ⟨⟨hspared, hroot, hback⟩, -, hdone⟩
  exact ⟨hspared, hroot, hback, hdone⟩

/-- The anchors have been written, or the degraded file has grown too large to be read. -/
theorem recordAnchors_spec (hobjects : ∀ a ∈ anchors, ∀ b ∈ anchors, a.Of b.objectType b.objectId → a = b)
    (s : Store S) : wp (recordAnchors anchors) (fun r s' => s.Spared s' ∧ s'.backend = s.backend ∧
      (r = .ok () → (s'.HasAnchors anchors ∧ s'.migrationRecord = .ok none ∨ s'.Overgrown) ∧
        (s.backend = .secureStorage → s'.RootRecord (encodeRootRecord S)))) s := by
  unfold recordAnchors
  simp only [wp_bind, wp_get]
  cases hb : s.backend with
  | secureStorage =>
    simp only [wp_bind]
    refine wp_mono (putAll_secure hobjects hb) ?_
    rintro r t ⟨hspared, -, hback, hdone⟩
    cases r with
    | error e => exact ⟨hspared, hback, by simp⟩
    | ok u =>
      -- writing the root record is clearing the record of a migration
      have hsave : wp (setMigrationRecord none) (fun r s' => s.Spared s' ∧ s'.backend = .secureStorage ∧
          (r = .ok () → (s'.HasAnchors anchors ∧ s'.migrationRecord = .ok none ∨ s'.Overgrown) ∧
            (AnchorBackend.secureStorage = .secureStorage → s'.RootRecord (encodeRootRecord S)))) t := by
        refine wp_mono (setMigrationRecord_spec none t) ?_
        intro r t' hr
        cases r with
        | error e =>
          obtain ⟨k, rfl⟩ := hr
          exact ⟨Trans.trans hspared (spared_later t k), hback, by simp⟩
        | ok u =>
          obtain ⟨-, -, -, -, -, -, hrecord⟩ := hr.spec
          cases hr with
          | degraded set k ok hb' hset =>
            rw [hback] at hb'
            cases hb'
          | secure records k hb' hrec =>
            refine ⟨⟨hspared.account, hspared.root, hspared.vaults, hspared.migration, hspared.quarantined⟩, hback,
              fun _ => ⟨hrecord.imp (fun h => ⟨fun a ha => ?_, h.2⟩) id, fun _ => ?_⟩⟩
            · exact (h.1 _ _).trans (hdone rfl a ha)
            · exact ⟨_, rfl, Function.update_self _ _ _⟩
      unfold setMigrationRecord at hsave
      simp only [wp_bind, wp_get, hback] at hsave
      rw [hspared.account] at hsave
      exact hsave
  | degradedFile =>
    unfold saveFileAnchorSetLocked writePrivateAtomic
    simp only [wp_bind, wp_call, wp_attempt, wp_modify]
    have hwritten : ∀ ok t, t = (s.later 2).withRoot
        ((s.root.put anchorsFile (S.anchorSet.encode ⟨anchorsVersion, anchors, none⟩)).sync ok) →
        s.Spared t ∧ t.backend = .degradedFile ∧
          (t.HasAnchors anchors ∧ t.migrationRecord = .ok none ∨ t.Overgrown) := by
      rintro ok t ht
      have hback : t.backend = .degradedFile := ht ▸ hb
      refine ⟨ht ▸ ⟨rfl, fun name hn _ => ?_, rfl, rfl, rfl⟩, hback, ?_⟩
      · exact (get_sync _ _ _).trans (get_put_of_ne hn)
      have hget : ((s.root.put anchorsFile (S.anchorSet.encode ⟨anchorsVersion, anchors, none⟩)).sync ok).get anchorsFile
          = some (S.anchorSet.encode ⟨anchorsVersion, anchors, none⟩) := by
        simp
      rcases fileAnchorSet_encode (s.later 2) ⟨anchorsVersion, anchors, none⟩ hget with hset | ⟨e, hset⟩
      · rw [← ht] at hset
        refine Or.inl ⟨fun a ha => ?_, ?_⟩
        · unfold Store.anchor
          rw [hback]
          simp only [hset]
          have hfind : anchors.find? (fun b => b.Of a.objectType a.objectId) = some a := by
            cases hf : anchors.find? (fun b => b.Of a.objectType a.objectId) with
            | none =>
              rw [List.find?_eq_none] at hf
              exact absurd (by simp [StateAnchor.Of]) (hf a ha)
            | some b =>
              have hof : b.Of a.objectType a.objectId := by simpa using List.find?_some hf
              rw [hobjects b (List.mem_of_find?_eq_some hf) a ha hof]
          exact congrArg Except.ok hfind
        · unfold Store.migrationRecord
          rw [hback]
          simp only [hset]
          rfl
      · exact Or.inr ⟨hback, e, ht ▸ hset⟩
    refine ⟨fun _ => ⟨fun _ => ?_, fun _ => ?_⟩, fun _ => ⟨spared_later s 1, hb, by simp⟩⟩
    · obtain ⟨hspared, hback, hanchors⟩ := hwritten true _ rfl
      exact ⟨hspared, hback, fun _ => ⟨hanchors, fun hne => by cases hne⟩⟩
    · obtain ⟨hspared, hback, hanchors⟩ := hwritten false _ rfl
      exact ⟨hspared, hback, fun _ => ⟨hanchors, fun hne => by cases hne⟩⟩

end Record

/-! ### The recovery -/

theorem Store.Authenticated.congr {passphrase : S.Raw} {identity : Identity} {anchors : List (StateAnchor S.Digest)}
    {k : Nat} {b : AnchorBackend} (h : ((s.later k).on b).Authenticated passphrase identity anchors) :
    s.Authenticated passphrase identity anchors :=
  ⟨h.keystore, h.contacts, h.registry, fun hw => h.vaults (hw.later k), h.sound⟩

/-- What a recovery that returns has done: the anchors are those of the objects, and the marker names the backend, which
is the secure storage unless that could not be reached. -/
structure Store.Recovered (s : Store S) (anchors : List (StateAnchor S.Digest)) (s' : Store S) : Prop where
  anchors : s'.HasAnchors anchors ∧ s'.migrationRecord = .ok none ∨ s'.Overgrown
  marker : s'.root.get anchorsBackendFile = some (S.text.encode (markerText s'.backend))
  secure : s'.backend = .secureStorage → s'.RootRecord (encodeRootRecord S)
  degraded : s'.backend = .degradedFile → s.secure = none ∨ ¬ s.Working

private theorem anchorsFile_ne_marker : anchorsFile ≠ anchorsBackendFile := by decide

private theorem records_ne_marker : keystoreFile ≠ anchorsBackendFile ∧ contactsFile ≠ anchorsBackendFile ∧
    indexFile ≠ anchorsBackendFile := by decide

private theorem writeBackendMarker_recovered {anchors : List (StateAnchor S.Digest)} {t : Store S}
    (hspared : s.Spared t) (hanchors : t.HasAnchors anchors ∧ t.migrationRecord = .ok none ∨ t.Overgrown)
    (hsecure : t.backend = .secureStorage → t.RootRecord (encodeRootRecord S))
    (hdegraded : t.backend = .degradedFile → s.secure = none ∨ ¬ s.Working) :
    wp (writeBackendMarker t.backend) (fun r s' => s.Spared s' ∧ (r = .ok () → s.Recovered anchors s')) t := by
  unfold writeBackendMarker writePrivateAtomic
  simp only [wp_bind, wp_call, wp_attempt, wp_modify]
  have hwritten : ∀ root, root.get anchorsBackendFile = some (S.text.encode (markerText t.backend)) →
      (∀ name, name ≠ anchorsBackendFile → root.get name = t.root.get name) →
      s.Spared ((t.later 2).withRoot root) ∧ s.Recovered anchors ((t.later 2).withRoot root) := by
    intro root hself hfile
    have hcongr : (∀ ty id, ((t.later 2).withRoot root).anchor ty id = t.anchor ty id) ∧
        ((t.later 2).withRoot root).migrationRecord = t.migrationRecord ∧
        (t.Overgrown → ((t.later 2).withRoot root).Overgrown) :=
      backend_congr rfl rfl rfl (hfile anchorsFile anchorsFile_ne_marker)
    obtain ⟨hanchor, hrecord, hover⟩ := hcongr
    refine ⟨⟨hspared.account, fun name hn hn' => (hfile name hn').trans (hspared.root name hn hn'), hspared.vaults,
      hspared.migration, hspared.quarantined⟩, ?_, hself, hsecure, hdegraded⟩
    exact hanchors.imp (fun h => ⟨fun a ha => (hanchor _ _).trans (h.1 a ha), hrecord.trans h.2⟩) hover
  have hput : ∀ ok, s.Spared ((t.later 2).withRoot
      ((t.root.put anchorsBackendFile (S.text.encode (markerText t.backend))).sync ok)) ∧
      s.Recovered anchors ((t.later 2).withRoot
        ((t.root.put anchorsBackendFile (S.text.encode (markerText t.backend))).sync ok)) := by
    intro ok
    refine hwritten _ (by simp) fun name hn => ?_
    exact (get_sync _ _ _).trans (get_put_of_ne hn)
  refine ⟨fun _ => ⟨fun _ => ?_, fun _ => ?_⟩, fun _ => ⟨Trans.trans hspared (spared_later t 1), by simp⟩⟩
  · exact (hput true).imp id fun h _ => h
  · exact (hput false).imp id fun h _ => h

/-- **Recovery.**  It spares every object, changes nothing at all before everything has authenticated, and when it
returns the anchors are those of the objects. -/
theorem recoverRollbackAnchors_spec (passphrase : S.Raw) (s : Store S) :
    wp (recoverRollbackAnchors passphrase) (fun r s' => s.Spared s' ∧
      ((r.isOk = false ∧ s'.secure = s.secure ∧ s'.root = s.root) ∨ ∃ identity anchors,
        s.Authenticated passphrase identity anchors ∧ (r = .ok () → s.Recovered anchors s'))) s := by
  have hfail : ∀ (e : Str) k, s.Spared (s.later k) ∧ ((Except.error e : StoreResult Unit).isOk = false ∧
      (s.later k).secure = s.secure ∧ (s.later k).root = s.root ∨ ∃ identity anchors,
        s.Authenticated passphrase identity anchors ∧
          ((Except.error e : StoreResult Unit) = .ok () → s.Recovered anchors (s.later k))) :=
    fun e k => ⟨spared_later s k, Or.inl ⟨rfl, rfl, rfl⟩⟩
  unfold recoverRollbackAnchors unselected
  simp only [wp_bind, wp_call, wp_modify]
  refine ⟨fun _ => ⟨fun _ => ⟨fun _ => ⟨fun _ => ?_, fun _ => hfail _ 4⟩, fun _ => hfail _ 3⟩, fun _ => hfail _ 2⟩,
    fun _ => hfail _ 1⟩
  refine wp_mono (authenticatedAnchors_spec passphrase ((s.later 4).on .degradedFile)) ?_
  rintro r _ ⟨⟨k, rfl⟩, hauth⟩
  have hspared : s.Spared (((s.later 4).on .degradedFile).later k) := ⟨rfl, fun _ _ _ => rfl, rfl, rfl, rfl⟩
  cases r with
  | error e => exact ⟨hspared, Or.inl ⟨rfl, rfl, rfl⟩⟩
  | ok anchors =>
    obtain ⟨identity, hauth⟩ := hauth anchors rfl
    have hauth : s.Authenticated passphrase identity anchors := hauth.congr
    simp only
    refine wp_mono (probeSecure_spec (((s.later 4).on .degradedFile).later k)) ?_
    rintro r _ ⟨⟨j, rfl⟩, probe, rfl, hprobed⟩
    simp only
    have hstart : s.Spared (((((s.later 4).on .degradedFile).later k).later j).on probe.backend) :=
      ⟨rfl, fun _ _ _ => rfl, rfl, rfl, rfl⟩
    refine wp_mono (recordAnchors_spec hauth.objects _) ?_
    rintro r t ⟨ht, hback, hdone⟩
    have ht : s.Spared t := Trans.trans hstart ht
    have hback : t.backend = probe.backend := hback
    cases r with
    | error e => exact ⟨ht, Or.inr ⟨identity, anchors, hauth, by simp⟩⟩
    | ok u =>
      obtain ⟨hanchors, hroot⟩ := hdone rfl
      have hdegraded : t.backend = .degradedFile → s.secure = none ∨ ¬ s.Working := by
        intro hb
        rw [hback] at hb
        cases probe with
        | unreachable => exact hprobed.imp id fun hnw hw => hnw ((hw.later 4).later k)
        | established => cases hb
        | empty => cases hb
      have hmarker := writeBackendMarker_recovered ht hanchors (fun hb => hroot (hback.symm.trans hb)) hdegraded
      rw [hback] at hmarker
      refine wp_mono hmarker ?_
      rintro r s' ⟨hs', hrec⟩
      exact ⟨hs', Or.inr ⟨identity, anchors, hauth, hrec⟩⟩

/-! ### Loading after a recovery -/

/-- What a load returns, read off the store. -/
def Load.Returns {α : Type} (s : Store S) (identity : Identity) : Load S α → α → Prop
  | .keystore, ks => ∃ raw, s.root.get keystoreFile = some raw ∧ S.keystoreFromBytes raw = .ok ks
  | .contacts _, book => ∃ p, s.Payload (contactsRecord S) identity p ∧ book = p.getD S.emptyBook
  | .registry _, known => ∃ p, s.Payload (registryRecord S) identity p ∧ known = p.getD ⟨[]⟩
  | .vault _ id _, reader => openVault S.toPrims (s.host (vaultDirV2 id)).top.shown identity = .ok reader

/-- The object of the load is one of the store, and has been seen; records that are missing are empty. -/
def Store.Has {α : Type} (s : Store S) : Load S α → Prop
  | .vault _ id _ => s.Working ∧ s.isDir (vaultDirV2 id) = true
  | _ => True

/-- The store shows the objects of `s`, with these anchors. -/
structure Store.Shows (t s : Store S) (anchors : List (StateAnchor S.Digest)) : Prop where
  root : ∀ name, name ≠ anchorsFile → name ≠ anchorsBackendFile → t.root.get name = s.root.get name
  tops : ∀ id, s.isDir (vaultDirV2 id) = true →
    (t.host (vaultDirV2 id)).top.shown = (s.host (vaultDirV2 id)).top.shown
  anchors : t.HasAnchors anchors

section Shows

variable {t : Store S} {passphrase : S.Raw} {identity : Identity} {anchors : List (StateAnchor S.Digest)}

theorem Store.Shows.later (h : t.Shows s anchors) (k : Nat) : (t.later k).Shows s anchors :=
  ⟨h.root, h.tops, h.anchors⟩

theorem Store.Shows.withWorks (h : t.Shows s anchors) (works : Nat → Bool) : (t.withWorks works).Shows s anchors :=
  ⟨h.root, h.tops, h.anchors⟩

/-- A record that is missing is loaded as none. -/
theorem loadProtectedBlob_missing {T : Type} {o : RecordKind S T} (h : t.root.get o.path = none) :
    wp (loadProtectedBlob o identity) (LoadsAs t none) t := by
  unfold loadProtectedBlob loadProtectedRecord readProtectedRecord loadBlob
  simp only [wp_bind, wp_attempt, wp_get, h, wp_pure]
  exact ⟨rfl, 0, rfl⟩

/-- A record whose anchor is in the list is loaded. -/
private theorem loadProtectedBlob_listed {T : Type} {o : RecordKind S T} (h : t.Shows s anchors) (hw : t.Working)
    (hne : o.path ≠ anchorsFile ∧ o.path ≠ anchorsBackendFile) (hl : s.Listed o identity anchors) :
    wp (loadProtectedBlob o identity) (fun r t' => ∃ p, s.Payload o identity p ∧ LoadsAs t p r t') t := by
  obtain ⟨record, hfound, hin⟩ := hl
  cases record with
  | none =>
    refine wp_mono (loadProtectedBlob_missing ((h.root _ hne.1 hne.2).trans hfound)) ?_
    intro r t' ht'
    exact ⟨none, hfound, ht'⟩
  | some record =>
    obtain ⟨raw, hraw, hlen, hreads⟩ := hfound
    have ha := h.anchors.of_mem (hin record rfl)
    refine wp_mono (loadProtectedBlob_anchored hw ((h.root _ hne.1 hne.2).trans hraw) hlen hreads ha) ?_
    intro r t' ht'
    exact ⟨some record.payload, ⟨raw, record, hraw, hreads, rfl⟩, ht'⟩

/-- **One load.**  It returns what the store holds of the object, which it leaves as it is. -/
theorem load_shows {α : Type} (h : t.Shows s anchors) (hauth : s.Authenticated passphrase identity anchors)
    (hw : t.Working) (l : Load S α) (hl : s.Has l) : wp (l.as identity).run (fun r t' =>
      t'.Shows s anchors ∧ ∃ a, r = .ok a ∧ l.Returns s identity a) t := by
  cases l with
  | keystore =>
    obtain ⟨raw, ks, state, hraw, hlen, hks, -, hstate, hin⟩ := hauth.keystore
    have ha := h.anchors.of_mem hin
    have hget : t.root.get keystoreFile = some raw := (h.root _ keystoreFile_ne records_ne_marker.1).trans hraw
    refine wp_mono (loadKeystore_anchored hw hget hlen hks hstate ha) ?_
    rintro r _ ⟨rfl, k, rfl⟩
    exact ⟨h.later k, ks, rfl, raw, hraw, hks⟩
  | contacts _ =>
    have hload := loadProtectedBlob_listed h hw ⟨contactsFile_ne, records_ne_marker.2.1⟩ hauth.contacts
    show wp (loadContacts identity) _ t
    unfold loadContacts
    rw [wp_bind]
    refine wp_mono hload ?_
    rintro r _ ⟨p, hp, rfl, k, rfl⟩
    exact ⟨h.later k, _, rfl, p, hp, rfl⟩
  | registry _ =>
    have hload := loadProtectedBlob_listed h hw ⟨indexFile_ne, records_ne_marker.2.2⟩ hauth.registry
    show wp (loadRegistry identity) _ t
    unfold loadRegistry
    rw [wp_bind]
    refine wp_mono hload ?_
    rintro r _ ⟨p, hp, rfl, k, rfl⟩
    exact ⟨h.later k, _, rfl, p, hp, rfl⟩
  | vault _ id io =>
    obtain ⟨hs, hdir⟩ : s.Working ∧ s.isDir (vaultDirV2 id) = true := hl
    obtain ⟨r, state, hopen, hstate, hid, hin⟩ := hauth.vaults hs id hdir
    have ha := h.anchors.of_mem hin
    have hopen' : openVault S.toPrims (t.host (vaultDirV2 id)).top.shown identity = .ok r := by
      rw [h.tops id hdir]
      exact hopen
    refine wp_mono (openVaultLocked_anchored hw hopen' hstate hid ha io) ?_
    rintro _ t' ⟨rfl, hkept⟩
    refine ⟨⟨fun name hn hn' => ?_, fun id' hdir' => ?_, fun a hain => ?_⟩, r, rfl, hopen⟩
    · rw [hkept.root]
      exact h.root name hn hn'
    · by_cases hsame : id' = id
      · rw [hsame, hkept.top]
        exact h.tops id hdir
      · have hget := hkept.others (vaultDirV2 id') (fun he => hsame (vaultDirV2_injective he))
          (vaultDirV2_ne_vaultPath _ _)
        rw [(host_congr hget).1]
        exact h.tops id' hdir'
    · obtain ⟨st, rfl, -⟩ := hauth.sound a hain
      have hanchor := hkept.toOnlyVaults.anchors (h.anchors.of_mem hain)
      exact hanchor

/-- A run of loads. -/
theorem loads_show (h : t.Shows s anchors) (hauth : s.Authenticated passphrase identity anchors)
    (ls : List (Σ α, Load S α)) (hls : ∀ l ∈ ls, s.Has l.2) : (t.loads identity ls).Shows s anchors := by
  refine loads_inv (fun u => u.Shows s anchors) (fun u hu l hl => ?_) h
  exact (load_shows (hu.withWorks fun _ => true) hauth (fun _ => rfl) l.2 (hls l hl)).1

end Shows

/-- A store whose secure storage has been reset. -/
def Sym.reset : Store Sym.store := { Sym.provisioned.store with secure := some fun _ => none }

/-- Its recovery. -/
def Sym.recovered : StoreResult Unit × Store Sym.store := exec (recoverRollbackAnchors (SymTerm.Term.nat 7)) Sym.reset

theorem recovered_isOk : (exec (openAt ⟨[], []⟩) Sym.reset).1.isOk = false ∧ Sym.recovered.1.isOk = true ∧
    Sym.recovered.2.backend = .secureStorage := by decide +kernel

end FileSec
