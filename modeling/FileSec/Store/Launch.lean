import FileSec.Peer.Names
import FileSec.Store.Completion

/-!
# Launching a store

`Store::at`: lay out the directory, decide where the anchors live, bring the secure storage up to its present layout and
finish a committed migration (`store.rs`).  The marker in the data directory is only a hint; the root record in the
secure storage decides when there is one.
-/

namespace FileSec

open CrashDir Folders Prog

variable {S : StorePrims}

/-- `BACKEND_MARKER_SECURE` -/
def backendMarkerSecure : Str := "secure-v1".toList

/-- `BACKEND_MARKER_DEGRADED` -/
def backendMarkerDegraded : Str := "degraded-v1".toList

/-- `MAX_BACKEND_MARKER_LEN` -/
def maxBackendMarkerLen : Nat := 64

/-- `ANCHOR_RECOVERY_REQUIRED` -/
def anchorRecoveryRequired : Str := "rollback-protection anchors need recovery".toList

/-! ### The secure storage -/

/-- `SecureProbe` -/
inductive SecureProbe where
  | established
  | empty
  | unreachable
  deriving DecidableEq, Repr

/-- `probe_secure` -/
def probeSecure : StoreM S SecureProbe := do
  let s ← get
  match s.secure with
  | none => pure .unreachable
  | some records => do
    let loaded ← attempt (call ioText)
    match loaded with
    | .error _ => pure .unreachable
    | .ok () => pure (if (records s.account).isSome then .established else .empty)

/-- `encode_root_record` -/
def encodeRootRecord (S : StorePrims) : S.Raw := S.anchorRoot.encode ⟨anchorRootVersion, none⟩

/-- `establish_secure_anchor_record` -/
def establishSecureAnchorRecord (protectedState : Bool) : StoreM S AnchorBackend := do
  let s ← get
  match s.secure with
  | none =>
    if protectedState then throw (anchorRecoveryRequired ++ ": OS secure storage is not available".toList)
    else pure .degradedFile
  | some records => do
    let saved ← attempt (call ioText)
    match saved with
    | .ok () => do
      modify fun t => t.withSecure (Function.update records s.account (some (encodeRootRecord S)))
      pure .secureStorage
    | .error e =>
      if protectedState then
        throw (anchorRecoveryRequired ++ ": could not record anchors in OS secure storage: ".toList ++ e)
      else pure .degradedFile

/-! ### The marker -/

/-- `BackendMarker` -/
inductive BackendMarker where
  | secure
  | degraded
  | malformed
  deriving DecidableEq, Repr

/-- `str::trim` -/
def trim (text : Str) : Str := ((text.dropWhile Peer.isWhitespace).reverse.dropWhile Peer.isWhitespace).reverse

/-- The marker that a text is. -/
def BackendMarker.ofText : Option Str → BackendMarker
  | none => .malformed
  | some text =>
    if trim text = backendMarkerSecure then .secure
    else if trim text = backendMarkerDegraded then .degraded
    else .malformed

/-- `read_backend_marker`, where the lookup answers; what lies in the data directory itself are files. -/
def readBackendMarker : StoreM S (Option BackendMarker) := do
  let s ← get
  match s.root.get anchorsBackendFile with
  | none => pure none
  | some raw =>
    if S.rawLen raw > maxBackendMarkerLen then pure (some .malformed)
    else do
      let read ← attempt (call ioText)
      match read with
      | .error _ => pure (some .malformed)
      | .ok () => pure (some (.ofText (S.text.decode raw)))

/-- The marker of a backend. -/
def BackendMarker.wanted : AnchorBackend → BackendMarker
  | .secureStorage => .secure
  | .degradedFile => .degraded

/-- The text of the marker of a backend. -/
def markerText : AnchorBackend → Str
  | .secureStorage => backendMarkerSecure ++ ['\n']
  | .degradedFile => backendMarkerDegraded ++ ['\n']

/-- `write_backend_marker` -/
def writeBackendMarker (backend : AnchorBackend) : StoreM S Unit :=
  writePrivateAtomic anchorsBackendFile (S.text.encode (markerText backend))

/-! ### Choosing the backend -/

/-- `keystore_is_v3` of the keystore; a file that cannot be read is none. -/
def keystoreIsV3 : StoreM S Bool := do
  let s ← get
  match s.root.get keystoreFile with
  | none => pure false
  | some raw => do
    let read ← attempt (call ioText)
    pure (read.isOk && S.keystoreIsV3 raw)

/-- The table of `select_anchor_backend`. -/
def chooseBackend (probe : SecureProbe) (marker : Option BackendMarker) (protectedState fileAnchors : Bool) :
    StoreResult AnchorBackend :=
  match probe, marker with
  | .established, _ => .ok .secureStorage
  | _, some .malformed => .error (anchorRecoveryRequired ++ ": the anchor backend marker is malformed".toList)
  | .empty, some .secure =>
    if protectedState then
      .error (anchorRecoveryRequired ++
        ": the anchors are missing from OS secure storage; refusing to trust existing protected state".toList)
    else .ok .secureStorage
  | .unreachable, some .secure =>
    .error (anchorRecoveryRequired ++ ": OS secure storage holding this store's anchors is unavailable".toList)
  | _, some .degraded => .ok .degradedFile
  | .empty, none => if fileAnchors then .ok .degradedFile else .ok .secureStorage
  | .unreachable, none =>
    if fileAnchors then .ok .degradedFile
    else if protectedState then
      .error (anchorRecoveryRequired ++
        ": the anchor backend marker is missing and OS secure storage is unavailable".toList)
    else .ok .degradedFile

/-- `select_anchor_backend` -/
def selectAnchorBackend : StoreM S AnchorBackend := do
  let marker ← readBackendMarker
  let protectedState ← keystoreIsV3
  let s ← get
  let probe ← probeSecure
  let chosen ← liftM (chooseBackend probe marker protectedState (s.root.get anchorsFile).isSome)
  let backend ←
    if chosen = .secureStorage ∧ probe = .empty then establishSecureAnchorRecord protectedState else pure chosen
  if marker ≠ some (.wanted backend) then do
    writeBackendMarker backend
    pure backend
  else pure backend

/-! ### The layout of the secure storage -/

/-- `upgrade_secure_anchor_layout` -/
def upgradeSecureAnchorLayout : StoreM S Unit := do
  let s ← get
  if s.backend ≠ .secureStorage then pure ()
  else do
    let bytes ← loadSecure s.account
    match bytes with
    | none =>
      throw (anchorRecoveryRequired ++ ": the anchor root record disappeared from OS secure storage".toList)
    | some bytes =>
      match S.probeVersion bytes with
      | none => throw Error.serialization.display
      | some version =>
        if version = anchorRootVersion then pure ()
        else if version = anchorsVersion then
          match S.anchorSet.decode bytes with
          | none => throw Error.serialization.display
          | some legacy => do
            runAll putAnchorLocked legacy.anchors
            saveSecure s.account (encodeRootRecord S)
        else throw "unsupported state anchor format".toList

/-! ### Opening -/

/-- `unselected`: lay out the directory, find its canonical path and take the lock, which fails when another process
holds it. -/
def unselected : StoreM S Unit := do
  call ioText
  call ioText
  call ioText
  call "this FileSec data directory is already in use".toList
  modify fun s => { s with backend := .degradedFile }

/-- `at_with_secure_storage` -/
def openAt (io : DiscardIo) : StoreM S Unit := do
  unselected
  let backend ← selectAnchorBackend
  modify fun s => { s with backend := backend }
  upgradeSecureAnchorLayout
  resumeIdentityMigration io

/-! ### What the selection sees and does -/

/-- What the marker says when it can be read. -/
def Store.marker (s : Store S) : Option BackendMarker :=
  (s.root.get anchorsBackendFile).map fun raw =>
    if S.rawLen raw > maxBackendMarkerLen then .malformed else .ofText (S.text.decode raw)

/-- Whether there is a keystore with protected state. -/
def Store.protectedState (s : Store S) : Bool := (s.root.get keystoreFile).any S.keystoreIsV3

/-- The secure storage holds this root record for the store. -/
def Store.RootRecord (s : Store S) (raw : S.Raw) : Prop :=
  ∃ records, s.secure = some records ∧ records s.account = some raw

/-- What the marker may have been taken for: what it says, or, when reading it fails, a malformed one. -/
def Store.Marked (s : Store S) (marker : Option BackendMarker) : Prop :=
  marker = s.marker ∨ marker = some .malformed ∧ ¬ s.Working

variable {s s' : Store S}

theorem not_working {i : Nat} (hf : s.works i = false) : ¬ s.Working := by
  intro hw
  rw [hw i] at hf
  cases hf

theorem readBackendMarker_spec (s : Store S) : wp readBackendMarker (fun r s' => (∃ k, s' = s.later k) ∧
    ∃ marker, r = .ok marker ∧ s.Marked marker) s := by
  unfold readBackendMarker Store.Marked Store.marker
  simp only [wp_bind, wp_get]
  cases s.root.get anchorsBackendFile with
  | none => exact ⟨⟨0, rfl⟩, none, rfl, Or.inl rfl⟩
  | some raw =>
    simp only [wp_ite, wp_pure, wp_bind, wp_attempt, wp_call, Option.map_some]
    refine ⟨fun hlen => ⟨⟨0, rfl⟩, _, rfl, Or.inl ?_⟩, fun hlen => ⟨fun _ => ?_, fun hf => ?_⟩⟩
    · rw [if_pos hlen]
    · rw [if_neg hlen]
      exact ⟨⟨1, rfl⟩, _, rfl, Or.inl rfl⟩
    · exact ⟨⟨1, rfl⟩, _, rfl, Or.inr ⟨rfl, not_working hf⟩⟩

theorem keystoreIsV3_spec (s : Store S) : wp keystoreIsV3 (fun r s' => (∃ k, s' = s.later k) ∧
    ∃ found, r = .ok found ∧ (found = true → s.protectedState = true)) s := by
  unfold keystoreIsV3 Store.protectedState
  simp only [wp_bind, wp_get]
  cases s.root.get keystoreFile with
  | none => exact ⟨⟨0, rfl⟩, false, rfl, by simp⟩
  | some raw =>
    simp only [wp_bind, wp_attempt, wp_call, wp_pure]
    refine ⟨fun _ => ⟨⟨1, rfl⟩, _, rfl, fun h => ?_⟩, fun _ => ⟨⟨1, rfl⟩, _, rfl, fun h => ?_⟩⟩
    · simpa [Except.isOk, Except.toBool] using h
    · simp [Except.isOk, Except.toBool] at h

/-- What the probe found. -/
def Store.Probed (s : Store S) : SecureProbe → Prop
  | .established => ∃ raw, s.RootRecord raw
  | .empty => ∃ records, s.secure = some records ∧ records s.account = none
  | .unreachable => s.secure = none ∨ ¬ s.Working

theorem probeSecure_spec (s : Store S) : wp probeSecure (fun r s' => (∃ k, s' = s.later k) ∧
    ∃ probe, r = .ok probe ∧ s.Probed probe) s := by
  unfold probeSecure
  simp only [wp_bind, wp_get]
  cases hs : s.secure with
  | none => exact ⟨⟨0, rfl⟩, .unreachable, rfl, Or.inl hs⟩
  | some records =>
    simp only [wp_bind, wp_attempt, wp_call, wp_pure]
    refine ⟨fun _ => ⟨⟨1, rfl⟩, _, rfl, ?_⟩, fun hf => ⟨⟨1, rfl⟩, _, rfl, Or.inr (not_working hf)⟩⟩
    cases hr : records s.account with
    | none => exact ⟨records, hs, hr⟩
    | some raw => exact ⟨raw, records, hs, hr⟩

/-- A root record that is there is found, unless the storage cannot be reached. -/
theorem Store.Probed.of_record {raw : S.Raw} {probe : SecureProbe} (h : s.Probed probe) (hr : s.RootRecord raw) :
    probe = .established ∨ probe = .unreachable ∧ ¬ s.Working := by
  obtain ⟨records, hs, hraw⟩ := hr
  cases probe with
  | established => exact Or.inl rfl
  | empty =>
    obtain ⟨records', hs', hnone⟩ := h
    obtain rfl := Option.some.inj (hs.symm.trans hs')
    rw [hraw] at hnone
    cases hnone
  | unreachable =>
    refine Or.inr ⟨rfl, h.resolve_left fun hs' => ?_⟩
    rw [hs] at hs'
    cases hs'

/-- What the selection of a backend leaves alone: all but the marker, and the root record of a secure storage that held
none and was chosen. -/
structure Store.Chose (s s' : Store S) : Prop where
  account : s'.account = s.account
  backend : s'.backend = s.backend
  vaults : s'.vaults = s.vaults
  migration : s'.migration = s.migration
  quarantined : s'.quarantined = s.quarantined
  root : s'.root = s.root ∨ ∃ backend ok,
    s'.root = (s.root.put anchorsBackendFile (S.text.encode (markerText backend))).sync ok
  secure : s'.secure = s.secure ∨ ∃ records marker found, s.secure = some records ∧ records s.account = none ∧
    s.Marked marker ∧ chooseBackend .empty marker found (s.root.get anchorsFile).isSome = .ok .secureStorage ∧
    s'.secure = some (Function.update records s.account (some (encodeRootRecord S)))

/-- Why a selection on a working machine comes to no backend: the table refuses what was found. -/
def Store.Refused (s : Store S) : Prop := ∃ marker found probe e, s.Marked marker ∧ s.Probed probe ∧
  chooseBackend probe marker found (s.root.get anchorsFile).isSome = .error e

/-- The backend that a selection has come to, and why. -/
structure Store.Selection (s : Store S) (backend : AnchorBackend) (s' : Store S) : Prop where
  reason : ∃ marker found probe chosen, s.Marked marker ∧ (found = true → s.protectedState = true) ∧ s.Probed probe ∧
    chooseBackend probe marker found (s.root.get anchorsFile).isSome = .ok chosen ∧
    (backend = chosen ∧ (chosen = .secureStorage ∧ probe = .empty → s'.RootRecord (encodeRootRecord S)) ∨
      backend = .degradedFile ∧ chosen = .secureStorage ∧ probe = .empty ∧ found = false)
  marker : s'.root = s.root ∧ s.marker = some (.wanted backend) ∨
    ∃ ok, s'.root = (s.root.put anchorsBackendFile (S.text.encode (markerText backend))).sync ok

theorem chose_later (s : Store S) (k : Nat) : s.Chose (s.later k) :=
  ⟨rfl, rfl, rfl, rfl, rfl, Or.inl rfl, Or.inl rfl⟩

/-- Establishing the root record, or falling back. -/
private theorem establish_spec {found : Bool} {records : Str → Option S.Raw} (hs : s.secure = some records) :
    wp (establishSecureAnchorRecord found) (fun r s' =>
      (r = .ok .secureStorage ∧ ∃ k, s' = (s.later k).withSecure
        (Function.update records s.account (some (encodeRootRecord S)))) ∨
      (∃ k, s' = s.later k) ∧ ¬ s.Working ∧ (∀ b, r = .ok b → b = .degradedFile ∧ found = false)) s := by
  unfold establishSecureAnchorRecord
  simp only [wp_bind, wp_get, hs, wp_attempt, wp_call, wp_modify, wp_pure, wp_ite, wp_throw]
  refine ⟨fun _ => Or.inl ⟨trivial, 1, rfl⟩, fun hf => ⟨fun _ => Or.inr ?_, fun hfound => Or.inr ?_⟩⟩
  · exact ⟨⟨1, rfl⟩, not_working hf, by simp⟩
  refine ⟨⟨1, rfl⟩, not_working hf, ?_⟩
  rintro b ⟨⟩
  exact ⟨rfl, by simpa using hfound⟩

/-- Repairing the marker. -/
private theorem writeBackendMarker_spec (backend : AnchorBackend) (s : Store S) :
    wp (writeBackendMarker backend) (fun r s' => match r with
      | .ok () => ∃ k ok, s' = { s.later k with
          root := (s.root.put anchorsBackendFile (S.text.encode (markerText backend))).sync ok }
      | .error _ => (∃ k, s' = s.later k) ∧ ¬ s.Working) s := by
  unfold writeBackendMarker writePrivateAtomic
  simp only [wp_bind, wp_call, wp_attempt, wp_modify]
  exact ⟨fun _ => ⟨fun _ => ⟨2, true, rfl⟩, fun _ => ⟨2, false, rfl⟩⟩, fun hf => ⟨⟨1, rfl⟩, not_working hf⟩⟩

/-- The last step of the selection: the marker is repaired if it does not say what was chosen. -/
private theorem repair_spec {t : Store S} {backend : AnchorBackend} {marker : Option BackendMarker}
    (hchose : s.Chose t) (hsame : t.root = s.root) (hmarker : s.Marked marker) :
    wp (if marker ≠ some (.wanted backend) then do
        writeBackendMarker backend
        pure backend
      else pure backend) (fun r s' => s.Chose s' ∧ s'.secure = t.secure ∧ s'.account = t.account ∧
        (∀ e, r = .error e → s'.root = s.root ∧ ¬ t.Working) ∧ ∀ b, r = .ok b → b = backend ∧
          (s'.root = s.root ∧ s.marker = some (.wanted backend) ∨
            ∃ ok, s'.root = (s.root.put anchorsBackendFile (S.text.encode (markerText backend))).sync ok)) t := by
  rw [wp_ite]
  refine ⟨fun hne => ?_, fun heq => ?_⟩
  · rw [wp_bind]
    refine wp_mono (writeBackendMarker_spec backend t) ?_
    intro r t' hr
    cases r with
    | error e =>
      obtain ⟨⟨k, rfl⟩, hfail⟩ := hr
      exact ⟨⟨hchose.account, hchose.backend, hchose.vaults, hchose.migration, hchose.quarantined, hchose.root,
        hchose.secure⟩, rfl, rfl, fun _ _ => ⟨hsame, hfail⟩, by simp⟩
    | ok u =>
      obtain ⟨k, ok, rfl⟩ := hr
      have hroot : (t.root.put anchorsBackendFile (S.text.encode (markerText backend))).sync ok =
          (s.root.put anchorsBackendFile (S.text.encode (markerText backend))).sync ok := by
        rw [hsame]
      refine ⟨⟨hchose.account, hchose.backend, hchose.vaults, hchose.migration, hchose.quarantined,
        Or.inr ⟨backend, ok, hroot⟩, hchose.secure⟩, rfl, rfl, by simp, ?_⟩
      rintro _ ⟨⟩
      exact ⟨rfl, Or.inr ⟨ok, hroot⟩⟩
  · rw [wp_pure]
    refine ⟨hchose, rfl, rfl, by simp, ?_⟩
    rintro _ ⟨⟩
    have hsome : marker = some (.wanted backend) := not_not.1 heq
    refine ⟨rfl, Or.inl ⟨hsame, ?_⟩⟩
    rcases hmarker with h | ⟨h, -⟩
    · exact h.symm.trans hsome
    · rw [hsome] at h
      cases backend <;> cases h

/-- **Choosing a backend.**  Only the marker and a missing root record are written.  A selection that comes to a backend
has gone by the table; on a working machine, one that does not was refused by it. -/
theorem selectAnchorBackend_spec (s : Store S) : wp selectAnchorBackend (fun r s' => s.Chose s' ∧
    (∀ e, r = .error e → s'.root = s.root ∧ (s.Working → s.Refused)) ∧
    ∀ backend, r = .ok backend → s.Selection backend s') s := by
  unfold selectAnchorBackend
  rw [wp_bind]
  refine wp_mono (readBackendMarker_spec s) ?_
  rintro r _ ⟨⟨k₁, rfl⟩, marker, rfl, hmarker⟩
  simp only [wp_bind]
  refine wp_mono (keystoreIsV3_spec _) ?_
  rintro r _ ⟨⟨k₂, rfl⟩, found, rfl, hfound⟩
  simp only [wp_get]
  refine wp_mono (probeSecure_spec _) ?_
  rintro r _ ⟨⟨k₃, rfl⟩, probe, rfl, hprobe⟩
  simp only [later_later, wp_liftM]
  have hprobe' : s.Probed probe := by
    cases probe with
    | established => exact hprobe
    | empty => exact hprobe
    | unreachable =>
      rcases hprobe with hs | hf
      · exact Or.inl hs
      · refine Or.inr fun hw => hf ?_
        rw [later_later]
        exact hw.later _
  have hroot : (s.later (k₁ + k₂)).root = s.root := rfl
  rw [hroot]
  cases hchoice : chooseBackend probe marker found (s.root.get anchorsFile).isSome with
  | error e =>
    exact ⟨chose_later s _, fun _ _ => ⟨rfl, fun _ => ⟨marker, found, probe, e, hmarker, hprobe', hchoice⟩⟩, by simp⟩
  | ok chosen =>
    -- what is left to do, once the backend is known
    have hrest : ∀ (backend : AnchorBackend) (t : Store S), s.Chose t → t.root = s.root → (s.Working → t.Working) →
        (backend = chosen ∧ (chosen = .secureStorage ∧ probe = .empty → t.RootRecord (encodeRootRecord S)) ∨
          backend = .degradedFile ∧ chosen = .secureStorage ∧ probe = .empty ∧ found = false) →
        wp (if marker ≠ some (.wanted backend) then do
            writeBackendMarker backend
            pure backend
          else pure backend) (fun r s' => s.Chose s' ∧
            (∀ e, r = .error e → s'.root = s.root ∧ (s.Working → s.Refused)) ∧
            ∀ backend, r = .ok backend → s.Selection backend s') t := by
      intro backend t hchose hsame hworks hwhy
      refine wp_mono (repair_spec hchose hsame hmarker) ?_
      rintro r s' ⟨hchose', hsecure, haccount, herr, hok⟩
      refine ⟨hchose', fun e he => ?_, fun b hb => ?_⟩
      · obtain ⟨hroot', hfail⟩ := herr e he
        exact ⟨hroot', fun hw => absurd (hworks hw) hfail⟩
      · obtain ⟨rfl, hmark⟩ := hok b hb
        refine ⟨⟨marker, found, probe, chosen, hmarker, hfound, hprobe', hchoice, hwhy.imp_left ?_⟩, hmark⟩
        rintro ⟨hbc, hrec⟩
        refine ⟨hbc, fun hce => ?_⟩
        unfold Store.RootRecord
        rw [hsecure, haccount]
        exact hrec hce
    simp only
    rw [wp_ite]
    refine ⟨fun hemp => ?_, fun hne => ?_⟩
    · obtain ⟨hchosen, hempty⟩ := hemp
      subst hempty
      subst hchosen
      obtain ⟨records, hs, hnone⟩ := hprobe'
      have hs' : (s.later (k₁ + k₂ + k₃)).secure = some records := hs
      rw [wp_bind]
      refine wp_mono (establish_spec hs') ?_
      intro r t hr
      rcases hr with ⟨rfl, k, rfl⟩ | ⟨⟨k, rfl⟩, hfail, hb⟩
      · refine hrest _ _ ⟨rfl, rfl, rfl, rfl, rfl, Or.inl rfl,
          Or.inr ⟨records, marker, found, hs, hnone, hmarker, hchoice, rfl⟩⟩ rfl
          (fun hw => (hw.later (k₁ + k₂ + k₃)).later k) (Or.inl ⟨rfl, fun _ => ?_⟩)
        exact ⟨_, rfl, Function.update_self _ _ _⟩
      · have hchose : s.Chose ((s.later (k₁ + k₂ + k₃)).later k) := by
          rw [later_later]
          exact chose_later s _
        cases r with
        | error e => exact ⟨hchose, fun _ _ => ⟨rfl, fun hw => absurd (hw.later _) hfail⟩, by simp⟩
        | ok b =>
          obtain ⟨rfl, hfalse⟩ := hb b rfl
          exact hrest _ _ hchose rfl (fun hw => (hw.later (k₁ + k₂ + k₃)).later k)
            (Or.inr ⟨rfl, rfl, rfl, hfalse⟩)
    · exact hrest chosen _ (chose_later s _) rfl (fun hw => hw.later _) (Or.inl ⟨rfl, fun h => absurd h hne⟩)

/-! ### The outcomes that are left -/

theorem writePrivateAtomic_ticked (name : Str) (raw : S.Raw) : Respects Store.Ticked (writePrivateAtomic name raw) :=
  .bind (call_ticked _) fun _ => .bind (.attempt (call_ticked _)) fun _ => .modify fun _ => ⟨0, fun _ => rfl⟩

theorem selectAnchorBackend_ticked : Respects Store.Ticked (selectAnchorBackend : StoreM S AnchorBackend) := by
  have hmarker : Respects Store.Ticked (readBackendMarker : StoreM S _) := by
    intro s
    refine wp_mono (readBackendMarker_spec s) ?_
    rintro r _ ⟨⟨k, rfl⟩, -⟩
    exact ⟨k, fun _ => rfl⟩
  have hkeystore : Respects Store.Ticked (keystoreIsV3 : StoreM S Bool) := by
    intro s
    refine wp_mono (keystoreIsV3_spec s) ?_
    rintro r _ ⟨⟨k, rfl⟩, -⟩
    exact ⟨k, fun _ => rfl⟩
  have hprobe : Respects Store.Ticked (probeSecure : StoreM S SecureProbe) := by
    intro s
    refine wp_mono (probeSecure_spec s) ?_
    rintro r _ ⟨⟨k, rfl⟩, -⟩
    exact ⟨k, fun _ => rfl⟩
  have hestablish : ∀ found, Respects Store.Ticked (establishSecureAnchorRecord found : StoreM S AnchorBackend) := by
    intro found
    refine .bind .get fun s => ?_
    cases s.secure with
    | none => exact .ite (.throw _) (.pure _)
    | some records =>
      refine .bind (.attempt (call_ticked _)) fun saved => ?_
      cases saved with
      | ok u => exact .bind (.modify fun _ => ⟨0, fun _ => rfl⟩) fun _ => .pure _
      | error e => exact .ite (.throw _) (.pure _)
  refine .bind hmarker fun marker => .bind hkeystore fun found => .bind .get fun s => .bind hprobe fun probe => ?_
  refine .bind (.lift _) fun chosen => ?_
  have hrest : ∀ backend : AnchorBackend, Respects Store.Ticked (if marker ≠ some (.wanted backend) then do
      writeBackendMarker backend
      pure backend
    else pure backend : StoreM S AnchorBackend) :=
    fun backend => .ite (.bind (writePrivateAtomic_ticked _ _) fun _ => .pure _) (.pure _)
  exact .ite (.bind (hestablish _) hrest) (.bind (.pure _) hrest)

/-! ### The launch -/

/-- The store on another backend. -/
def Store.on (s : Store S) (backend : AnchorBackend) : Store S := { s with backend := backend }

/-- The rule for a launch: the directory is laid out, and then a backend is chosen. -/
theorem openAt_rule {io : DiscardIo} {Q : StoreResult Unit → Store S → Prop}
    (hfail : ∀ e k, ¬ s.Working → Q (.error e) (s.later k))
    (hselect : wp selectAnchorBackend (fun r t => match r with
      | .error e => Q (.error e) t
      | .ok backend => wp (do upgradeSecureAnchorLayout; resumeIdentityMigration io) Q (t.on backend))
      ((s.later 4).on .degradedFile)) : wp (openAt io) Q s := by
  unfold openAt unselected
  simp only [wp_bind, wp_call, wp_modify] at hselect ⊢
  refine ⟨fun _ => ⟨fun _ => ⟨fun _ => ⟨fun _ => ?_, fun hf => hfail _ 4 (not_working (i := 3) hf)⟩,
    fun hf => hfail _ 3 (not_working (i := 2) hf)⟩, fun hf => hfail _ 2 (not_working (i := 1) hf)⟩,
    fun hf => hfail _ 1 (not_working (i := 0) hf)⟩
  refine wp_mono hselect ?_
  intro r t h
  cases r with
  | error e => exact h
  | ok backend => exact h

end FileSec
