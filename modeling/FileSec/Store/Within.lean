import FileSec.Store.Lifecycle

/-!
# What the programs of a store leave alone

`Store.Within R V A` relates two stores that differ at most in the files `R` of the data directory, the entries `V` of
`vaults/` and the anchors of the objects `A`.  Every program of the store respects it for the names it works on.
-/

namespace FileSec

open CrashDir Folders Prog

variable {S : StorePrims}

/-- The degraded file cannot be read as a set of anchors, so no anchor can. -/
def Store.Overgrown (s : Store S) : Prop := s.backend = .degradedFile ∧ ∃ e, s.fileAnchorSet = .error e

theorem Store.Overgrown.anchor {s : Store S} (h : s.Overgrown) : ∃ e, ∀ ty id, s.anchor ty id = .error e := by
  obtain ⟨hb, e, he⟩ := h
  refine ⟨e, fun ty id => ?_⟩
  unfold Store.anchor
  rw [hb]
  simp only [he]
  rfl

/-- What `migration_record` returns when the machine does all it is asked to. -/
def Store.migrationRecord (s : Store S) : StoreResult (Option (MigrationRecord S.Digest)) :=
  match s.backend with
  | .secureStorage =>
    match s.secure with
    | none => .error "OS secure storage is not available in this build".toList
    | some records =>
      match records s.account with
      | none => .ok none
      | some bytes =>
        match S.anchorRoot.decode bytes with
        | none => .error Error.serialization.display
        | some root => .ok root.migration
  | .degradedFile => s.fileAnchorSet.map (·.migration)

/-- The stores differ at most in the given files, entries of `vaults/` and anchors. -/
structure Store.Within (R V : Str → Prop) (A : StateObjectType → Str → Prop) (s s' : Store S) : Prop where
  account : s'.account = s.account
  backend : s'.backend = s.backend
  build : s'.secure.isSome = s.secure.isSome
  migration : s'.migration = s.migration
  root : s.root.AgreeOff (fun n => R n ∨ n = anchorsFile) s'.root
  vaults : s.vaults.AgreeOff V s'.vaults
  anchors : (∀ ty id, ¬ A ty id → s'.anchor ty id = s.anchor ty id) ∨ s'.Overgrown
  record : s'.migrationRecord = s.migrationRecord ∨ s'.Overgrown
  overgrown : s.Overgrown → s'.Overgrown
  rng : s.rng.Ahead s'.rng

section

variable {R V : Str → Prop} {A : StateObjectType → Str → Prop}

theorem within_refl (s : Store S) : s.Within R V A s :=
  ⟨rfl, rfl, rfl, rfl, agreeOff_refl _ _, agreeOff_refl _ _, Or.inl fun _ _ _ => rfl, Or.inl rfl, id, .refl _⟩

theorem Store.Within.trans {s s' s'' : Store S} (h : s.Within R V A s') (h' : s'.Within R V A s'') :
    s.Within R V A s'' := by
  refine ⟨h'.account.trans h.account, h'.backend.trans h.backend, h'.build.trans h.build,
    h'.migration.trans h.migration, h.root.trans h'.root, h.vaults.trans h'.vaults, ?_, ?_,
    fun ho => h'.overgrown (h.overgrown ho), h.rng.trans h'.rng⟩
  · rcases h'.anchors with ha' | ho
    · rcases h.anchors with ha | ho
      · exact Or.inl fun ty id hA => (ha' ty id hA).trans (ha ty id hA)
      · exact Or.inr (h'.overgrown ho)
    · exact Or.inr ho
  · rcases h'.record with hr' | ho
    · rcases h.record with hr | ho
      · exact Or.inl (hr'.trans hr)
      · exact Or.inr (h'.overgrown ho)
    · exact Or.inr ho

instance : IsPreorder (Store S) (Store.Within R V A) where
  refl := within_refl
  trans _ _ _ := .trans

theorem Store.Within.mono {R' V' : Str → Prop} {A' : StateObjectType → Str → Prop} {s s' : Store S}
    (h : s.Within R V A s') (hR : ∀ n, R n → R' n) (hV : ∀ n, V n → V' n) (hA : ∀ ty id, A ty id → A' ty id) :
    s.Within R' V' A' s' := by
  refine { h with root := ?_, vaults := h.vaults.mono hV, anchors := ?_ }
  · refine h.root.mono fun n hn => ?_
    rcases hn with hn | hn
    · exact Or.inl (hR n hn)
    · exact Or.inr hn
  · rcases h.anchors with ha | ho
    · exact Or.inl fun ty id hn => ha ty id fun hA' => hn (hA ty id hA')
    · exact Or.inr ho

/-- A change of files and entries that leaves the backend alone. -/
theorem within_of_files {s s' : Store S} (haccount : s'.account = s.account) (hbackend : s'.backend = s.backend)
    (hsecure : s'.secure = s.secure) (hmigration : s'.migration = s.migration)
    (hfile : s'.root.get anchorsFile = s.root.get anchorsFile) (hroot : s.root.AgreeOff R s'.root)
    (hvaults : s.vaults.AgreeOff V s'.vaults) (hrng : s.rng.Ahead s'.rng) : s.Within R V A s' := by
  have hset : s'.fileAnchorSet = s.fileAnchorSet := by
    unfold Store.fileAnchorSet
    rw [hfile]
  have hanchor : ∀ ty id, s'.anchor ty id = s.anchor ty id := by
    intro ty id
    unfold Store.anchor
    rw [hbackend, hsecure, haccount, hset]
  refine ⟨haccount, hbackend, by rw [hsecure], hmigration, hroot.mono fun _ h => Or.inl h, hvaults,
    Or.inl fun ty id _ => hanchor ty id, Or.inl ?_, ?_, hrng⟩
  · unfold Store.migrationRecord
    rw [hbackend, hsecure, haccount, hset]
  · rintro ⟨hb, e, he⟩
    exact ⟨hbackend.trans hb, e, hset.trans he⟩

theorem within_later (s : Store S) (k : Nat) : s.Within R V A (s.later k) :=
  within_of_files rfl rfl rfl rfl rfl (agreeOff_refl _ _) (agreeOff_refl _ _) (.refl _)

theorem within_drawn (s : Store S) (k : Nat) : s.Within R V A (s.drawn k) :=
  within_of_files rfl rfl rfl rfl rfl (agreeOff_refl _ _) (agreeOff_refl _ _) ⟨k, rfl⟩

/-! ### The anchors -/

/-- Putting an anchor changes that anchor alone. -/
theorem Store.Put.within {s s' : Store S} {a : StateAnchor S.Digest} (h : s.Put a s')
    (hA : A a.objectType a.objectId) : s.Within R V A s' := by
  have hanchor := h.anchor
  have hA' : ∀ ty id, ¬ A ty id → ¬ a.Of ty id := fun ty id hn hof => hn (hof.1 ▸ hof.2 ▸ hA)
  cases h with
  | secure records k hb hr =>
    refine ⟨rfl, rfl, ?_, rfl, agreeOff_refl _ _, agreeOff_refl _ _, ?_, Or.inl ?_, ?_, .refl _⟩
    · rw [hr]
      rfl
    · rcases hanchor with ⟨-, hothers⟩ | ⟨hb', -⟩
      · exact Or.inl fun ty id hn => hothers ty id (hA' ty id hn)
      · rw [hb] at hb'
        simp at hb'
    · unfold Store.migrationRecord Store.withSecure Store.later
      simp only [hb, hr]
      rw [Function.update_of_ne (account_ne_objectAnchorAccount s _ _)]
    · rintro ⟨hb', -⟩
      rw [hb] at hb'
      simp at hb'
  | degraded set k ok hb hset =>
    have hroot : s.root.AgreeOff (fun n => R n ∨ n = anchorsFile)
        ((s.root.put anchorsFile (S.anchorSet.encode (set.put a))).sync ok) :=
      Folder.AgreeOff.trans (agreeOff_put (N := fun n => R n ∨ n = anchorsFile) (Or.inr rfl)) (agreeOff_sync _ _ _)
    have hget : ((s.root.put anchorsFile (S.anchorSet.encode (set.put a))).sync ok).get anchorsFile =
        some (S.anchorSet.encode (set.put a)) := by
      simp
    rcases fileAnchorSet_encode (s.later k) (set.put a) hget with hf | ⟨e, hf⟩
    · refine ⟨rfl, rfl, rfl, rfl, hroot, agreeOff_refl _ _, ?_, Or.inl ?_, ?_, .refl _⟩
      · rcases hanchor with ⟨-, hothers⟩ | ⟨-, e, he⟩
        · exact Or.inl fun ty id hn => hothers ty id (hA' ty id hn)
        · have := he .keystore []
          unfold Store.anchor at this
          rw [show ((s.later k).withRoot _).backend = .degradedFile from hb] at this
          simp only [hf] at this
          simp [Except.map] at this
      · unfold Store.migrationRecord
        rw [show ((s.later k).withRoot _).backend = .degradedFile from hb, hb]
        simp only [hf, hset]
        rfl
      · rintro ⟨-, e, he⟩
        rw [hset] at he
        simp at he
    · have ho : Store.Overgrown ((s.later k).withRoot
          ((s.root.put anchorsFile (S.anchorSet.encode (set.put a))).sync ok)) := ⟨hb, e, hf⟩
      exact ⟨rfl, rfl, rfl, rfl, hroot, agreeOff_refl _ _, Or.inr ho, Or.inr ho, fun _ => ho, .refl _⟩

/-! ### The programs -/

theorem call_within (text : Str) : Respects (Store.Within R V A) (call text : StoreM S Unit) := by
  intro s
  rw [wp_call]
  exact ⟨fun _ => within_later s 1, fun _ => within_later s 1⟩

theorem drawBytes_within (n : Nat) : Respects (Store.Within R V A) (drawBytes S n) :=
  .bind .get fun _ => .bind (.modify fun s => within_drawn s 1) fun _ => .lift _

theorem writePrivateAtomic_within {name : Str} (raw : S.Raw) (hR : R name) (hne : name ≠ anchorsFile) :
    Respects (Store.Within R V A) (writePrivateAtomic name raw) := by
  refine .bind (call_within _) fun _ => .bind (.attempt (call_within _)) fun synced => .modify fun s => ?_
  refine within_of_files rfl rfl rfl rfl ?_ ((agreeOff_put hR).trans (agreeOff_sync _ _ _)) (agreeOff_refl _ _) (.refl _)
  exact (get_sync _ _ _).trans (get_put_of_ne hne.symm)

theorem readBoundedFile_within (name : Str) (max : Nat) (label : Str) :
    Respects (Store.Within R V A) (readBoundedFile name max label : StoreM S S.Raw) :=
  .bind (call_within _) fun _ => .bind .get fun _ => .lift _

theorem getAnchorLocked_within (ty : StateObjectType) (id : Str) :
    Respects (Store.Within R V A) (getAnchorLocked ty id : StoreM S _) := by
  intro s
  refine wp_mono (getAnchorLocked_spec ty id s) ?_
  rintro r _ ⟨⟨k, rfl⟩, -⟩
  exact within_later s k

theorem putAnchorLocked_within {a : StateAnchor S.Digest} (hA : A a.objectType a.objectId) :
    Respects (Store.Within R V A) (putAnchorLocked a) := by
  intro s
  refine wp_mono (putAnchorLocked_spec a s) ?_
  intro r s' hr
  cases r with
  | ok u => exact hr.within hA
  | error e =>
    obtain ⟨k, rfl⟩ := hr
    exact within_later s k

theorem currentAnchor_within (fingerprint : Bytes) (ty : StateObjectType) (id : Str) :
    Respects (Store.Within R V A) (currentAnchor fingerprint ty id : StoreM S _) := by
  intro s
  refine wp_mono (currentAnchor_spec fingerprint ty id s) ?_
  rintro r _ ⟨⟨k, rfl⟩, -⟩
  exact within_later s k

theorem checkStateTransition_within (state : StateMetadata S.Digest) :
    Respects (Store.Within R V A) (checkStateTransition state) := by
  intro s
  refine wp_mono (checkStateTransition_spec state s) ?_
  rintro r _ ⟨⟨k, rfl⟩, -⟩
  exact within_later s k

theorem Store.Passed.within {s s' : Store S} {first : Bool} {state : StateMetadata S.Digest}
    (h : s.Passed first state s') (hA : A state.objectType state.objectId) : s.Within R V A s' := by
  cases h with
  | anchored a k ha hc => exact within_later s k
  | successor a k ha hc hput => exact (within_later s k).trans (hput.within hA)
  | first k ha hf hput => exact (within_later s k).trans (hput.within hA)
  | unanchored k ha hf => exact within_later s k

/-- The path of a suspect object is among the names. -/
def Spot.In (R V : Str → Prop) : Spot → Prop
  | .root name => R name ∧ name ≠ anchorsFile
  | .vault name => V name

theorem Store.Quarantined.within {s s' : Store S} {spot : Spot} (h : s.Quarantined spot s') (hspot : spot.In R V) :
    s.Within R V A s' := by
  cases h with
  | moved k target node hnode =>
    refine (within_later s k).trans ((within_drawn _ 1).trans ?_)
    cases spot with
    | root name =>
      exact within_of_files rfl rfl rfl rfl (get_remove_of_ne hspot.2.symm) (agreeOff_remove hspot.1) (agreeOff_refl _ _)
        (.refl _)
    | vault name => exact within_of_files rfl rfl rfl rfl rfl (agreeOff_refl _ _) (agreeOff_remove hspot) (.refl _)
  | kept k j => exact (within_later s k).trans (within_drawn _ j)

theorem quarantine_within {spot : Spot} (hspot : spot.In R V) :
    Respects (Store.Within R V A) (quarantine spot : StoreM S Unit) := by
  intro s
  refine wp_mono (quarantine_spec spot s) ?_
  intro r s' hr
  cases r with
  | ok u =>
    obtain ⟨k, target, node, hnode, rfl⟩ := hr
    exact (Store.Quarantined.moved k target node hnode).within hspot
  | error e =>
    obtain ⟨k, j, rfl⟩ := hr
    have hq : s.Quarantined spot ((s.later k).drawn j) := .kept k j
    exact hq.within hspot

theorem judge_within {first : Bool} {state : StateMetadata S.Digest} {suspect : Option Spot}
    (hA : A state.objectType state.objectId) (hspot : ∀ spot, suspect = some spot → spot.In R V) :
    Respects (Store.Within R V A) (judge first state suspect) := by
  intro s
  refine wp_mono (judge_spec first state suspect s) ?_
  intro r s' hr
  cases r with
  | ok u => exact hr.within hA
  | error e =>
    rcases hr with ⟨k, rfl⟩ | ⟨k, spot, hs, hq⟩
    · exact within_later s k
    · exact (within_later s k).trans (hq.within (hspot spot hs))

theorem commitState_within {state : StateMetadata S.Digest} (hA : A state.objectType state.objectId) :
    Respects (Store.Within R V A) (commitState state) :=
  judge_within hA (by simp)

theorem saveBlob_within (identity : Identity) {path : Str} (name : Str) (bytes : S.Raw) (hR : R path)
    (hne : path ≠ anchorsFile) : Respects (Store.Within R V A) (saveBlob identity path name bytes) :=
  .bind (drawBytes_within _) fun _ => .bind (.lift _) fun _ => writePrivateAtomic_within _ hR hne

theorem loadBlob_within (identity : Identity) (path name : Str) :
    Respects (Store.Within R V A) (loadBlob identity path name : StoreM S _) := by
  refine .bind .get fun s => ?_
  cases s.root.get path with
  | none => exact .pure _
  | some raw =>
    refine .bind (call_within _) fun _ => .ite (.throw _) ?_
    exact .bind (call_within _) fun _ => .bind (.lift _) fun _ => .pure _

section Record

variable {T : Type} (o : RecordKind S T)

theorem readProtectedRecord_within (identity : Identity) :
    Respects (Store.Within R V A) (readProtectedRecord o identity) := by
  refine .bind (loadBlob_within _ _ _) fun blob => ?_
  cases blob with
  | none => exact .pure _
  | some blob => exact .bind (.lift _) fun _ => .pure _

theorem next_object {identity : Identity} {previous : Option (StateAnchor S.Digest)} {payload : T}
    {state : StateMetadata S.Digest} (h : o.next identity previous payload = .ok state) :
    state.objectType = o.objectType ∧ state.objectId = o.objectId := by
  obtain ⟨-, hty, hid, -⟩ := next_ok (Result.text_eq_ok.1 h)
  exact ⟨hty, hid⟩

theorem authenticate_object {identity : Identity} {blob : S.Raw × SuiteId} {record : ProtectedState S.Digest T}
    (h : o.authenticate identity blob = .ok record) :
    record.state.objectType = o.objectType ∧ record.state.objectId = o.objectId ∧
      record.state.identityFingerprint = identity.fingerprint := by
  unfold RecordKind.authenticate at h
  split at h
  · split at h <;> simp at h
  · rename_i record' _
    split at h
    · simp at h
    · rename_i hne
      push Not at hne
      cases hv : record'.state.verifyPayload S.hashState (o.payload.encode record'.payload) with
      | error e => simp [hv, Except.map] at h
      | ok u =>
        rw [hv] at h
        obtain rfl := Except.ok.inj h
        exact ⟨hne.2.2.1, hne.2.2.2.1, hne.2.1⟩

theorem readProtectedRecord_returns (identity : Identity) :
    Returns (fun r : Option (ProtectedState S.Digest T) => ∀ record, r = some record →
      record.state.objectType = o.objectType ∧ record.state.objectId = o.objectId ∧
        record.state.identityFingerprint = identity.fingerprint) (readProtectedRecord o identity) := by
  refine .bind fun blob => ?_
  cases blob with
  | none => exact .pure (by simp)
  | some blob =>
    refine .bind_of (.lift fun record h => authenticate_object o h) fun record hrecord => .pure ?_
    rintro _ ⟨⟩
    exact hrecord

theorem saveProtectedBlob_within (identity : Identity) (payload : T) (hR : R o.path) (hne : o.path ≠ anchorsFile)
    (hA : A o.objectType o.objectId) : Respects (Store.Within R V A) (saveProtectedBlob o identity payload) := by
  refine .bind (currentAnchor_within _ _ _) fun previous => ?_
  refine .bind_of (.lift _) (.lift fun state h => next_object o h) fun state hstate => ?_
  refine .bind (saveBlob_within _ _ _ hR hne) fun _ => commitState_within ?_
  rw [hstate.1, hstate.2]
  exact hA

theorem loadProtectedRecord_within (identity : Identity) (hR : R o.path) (hne : o.path ≠ anchorsFile)
    (hA : A o.objectType o.objectId) : Respects (Store.Within R V A) (loadProtectedRecord o identity) := by
  have hspot : (Spot.root o.path).In R V := ⟨hR, hne⟩
  refine .bind_of (.attempt (readProtectedRecord_within o identity))
    (.attempt (readProtectedRecord_returns o identity)) fun result hresult => ?_
  cases result with
  | error e => exact .ite (.bind (.attempt (quarantine_within hspot)) fun _ => .throw _) (.throw _)
  | ok record =>
    cases record with
    | none => exact .pure _
    | some record =>
      obtain ⟨hty, hid, -⟩ := hresult _ rfl record rfl
      refine .bind (judge_within ?_ ?_) fun _ => .pure _
      · rw [hty, hid]
        exact hA
      · rintro spot ⟨⟩
        exact hspot

end Record

theorem saveKeystore_within (ks : S.KeystoreFile) (hR : R keystoreFile)
    (hA : ∀ state, S.keystoreState ks = some state → A state.objectType state.objectId) :
    Respects (Store.Within R V A) (saveKeystore ks) := by
  have hstate : ∀ text state, keystoreStateOr text ks = .ok state → A state.objectType state.objectId := by
    intro text state h
    unfold keystoreStateOr at h
    cases hk : S.keystoreState ks with
    | none => simp [hk] at h
    | some state' =>
      rw [hk] at h
      exact Except.ok.inj h ▸ hA state' hk
  refine .bind_of (.lift _) (.lift (hstate _)) fun state hs => ?_
  exact .bind (checkStateTransition_within _) fun _ => .bind (.lift _) fun _ =>
    .bind (writePrivateAtomic_within _ hR (by decide)) fun _ => commitState_within hs

theorem keystoreStateOr_of_fromBytes {raw : S.Raw} {ks : S.KeystoreFile} (h : S.keystoreFromBytes raw = .ok ks)
    (text : Str) : ∃ state, keystoreStateOr text ks = .ok state ∧ state.objectType = .keystore ∧
      state.objectId = keystoreObjectId := by
  obtain ⟨state, hs, hty, hid⟩ := S.keystoreState_of_fromBytes raw ks h
  refine ⟨state, ?_, hty, hid⟩
  unfold keystoreStateOr
  rw [hs]

theorem loadKeystore_within (hR : R keystoreFile) (hA : A .keystore keystoreObjectId) :
    Respects (Store.Within R V A) (loadKeystore : StoreM S S.KeystoreFile) := by
  refine .bind (readBoundedFile_within _ _ _) fun raw => ?_
  refine .bind_of (.lift _) (.lift fun ks h => Result.text_eq_ok.1 h) fun ks hks => ?_
  obtain ⟨state, hs, hty, hid⟩ := keystoreStateOr_of_fromBytes hks noKeystoreState
  rw [hs]
  refine .bind_of (.lift _) (Q := fun s => s = state) (.lift fun s h => (Except.ok.inj h).symm) ?_
  rintro _ rfl
  refine .bind (judge_within ?_ ?_) fun _ => .pure _
  · rw [hty, hid]
    exact hA
  · rintro spot ⟨⟩
    exact ⟨hR, by decide⟩

end

end FileSec
