import FileSec.Store.Launch
import FileSec.Store.Staging
import FileSec.Store.Suspects
import Mathlib.Data.List.Dedup

/-!
# What an upgrade has authenticated

Before anything is staged, `migrate_to_hybrid` loads every object under the old identity.  The plan it comes to holds what
the store holds: the keystore re-sealed, the payloads of the records and a reader of every vault
(`validateUpgrade_spec`).
-/

namespace FileSec

open CrashDir Folders Prog

variable {S : StorePrims} {s s' : Store S}

/-! ### Looking at objects -/

/-- Objects have been read and accepted: at most their anchors have changed. -/
structure Store.Looked (s s' : Store S) : Prop
    extends s.Within (fun _ => False) (fun _ => False) (fun _ _ => True) s' where
  ticked : s.Ticked s'

instance : IsPreorder (Store S) Store.Looked where
  refl s := ⟨within_refl s, ⟨0, fun _ => rfl⟩⟩
  trans _ _ _ h h' := ⟨h.toWithin.trans h'.toWithin, Trans.trans h.ticked h'.ticked⟩

theorem looked_later (s : Store S) (k : Nat) : s.Looked (s.later k) := ⟨within_later s k, k, fun _ => rfl⟩

theorem Store.Idle.looked (h : s.Idle s') : s.Looked s' := by
  obtain ⟨k, j, rfl⟩ := h
  exact ⟨(within_later s k).trans (within_drawn _ j), k, fun _ => rfl⟩

theorem Store.Put.looked {a : StateAnchor S.Digest} (h : s.Put a s') : s.Looked s' := by
  refine ⟨h.within trivial, ?_⟩
  cases h with
  | secure records k hb hr => exact ⟨k, fun _ => rfl⟩
  | degraded set k ok hb hset => exact ⟨k, fun _ => rfl⟩

theorem Store.Passed.looked {first : Bool} {state : StateMetadata S.Digest} (h : s.Passed first state s') :
    s.Looked s' := by
  cases h with
  | anchored a k ha hc => exact looked_later s k
  | successor a k ha hc hput => exact Trans.trans (looked_later s k) hput.looked
  | first k ha hf hput => exact Trans.trans (looked_later s k) hput.looked
  | unanchored k ha hf => exact looked_later s k

theorem Store.Looked.rootFile (h : s.Looked s') {name : Str} (hname : name ≠ anchorsFile) :
    s'.root.get name = s.root.get name :=
  h.toWithin.root.get name (by simpa using hname)

theorem Store.Looked.vault (h : s.Looked s') (name : Str) : s'.vaults.get name = s.vaults.get name :=
  h.vaults.get name not_false

/-- The files of the keystore and of the records. -/
def IsRecordFile (name : Str) : Prop := name = keystoreFile ∨ name = contactsFile ∨ name = indexFile

/-- A load has left the other objects alone; if it returns, it has only looked. -/
def LoadsTo {α : Type} (s : Store S) (Q : α → Prop) (r : StoreResult α) (s' : Store S) : Prop :=
  s.Within IsRecordFile (fun _ => False) (fun _ _ => True) s' ∧ ∀ a, r = .ok a → s.Looked s' ∧ Q a

theorem loadKeystore_looked (s : Store S) : wp loadKeystore (LoadsTo s fun ks => ∃ raw,
    s.root.get keystoreFile = some raw ∧ S.keystoreFromBytes raw = .ok ks) s := by
  refine wp_and (loadKeystore_within (Or.inl rfl) trivial s) ?_
  unfold loadKeystore
  rw [wp_bind]
  refine wp_mono (readBoundedFile_spec _ _ _ s) ?_
  rintro r _ ⟨rfl, hget⟩
  cases r with
  | error e => rintro _ ⟨⟩
  | ok raw =>
    simp only [wp_bind, wp_liftM]
    cases hks : S.keystoreFromBytes raw with
    | error e => rintro _ ⟨⟩
    | ok ks =>
      simp only [Result.text_ok]
      cases keystoreStateOr noKeystoreState ks with
      | error e => rintro _ ⟨⟩
      | ok state =>
        simp only
        refine wp_mono (judge_spec false state (some (.root keystoreFile)) (s.later 1)) ?_
        intro r s' hr
        cases r with
        | error e => rintro _ ⟨⟩
        | ok u =>
          rintro _ ⟨⟩
          exact ⟨Trans.trans (looked_later s 1) hr.looked, raw, hget raw rfl, hks⟩

section Record

variable {T : Type} (o : RecordKind S T) (identity : Identity)

/-- What a load of the record returns: nothing if there is no file, else the payload that the file authenticates with. -/
def Store.Payload (s : Store S) (o : RecordKind S T) (identity : Identity) : Option T → Prop
  | none => s.root.get o.path = none
  | some payload => ∃ raw record, s.root.get o.path = some raw ∧ o.Reads identity raw record ∧ record.payload = payload

theorem readProtectedRecord_reads (s : Store S) : wp (readProtectedRecord o identity) (fun r s' => s.Idle s' ∧
    ∀ record, r = .ok record → match record with
      | none => s.root.get o.path = none
      | some record => ∃ raw, s.root.get o.path = some raw ∧ o.Reads identity raw record) s := by
  refine wp_and (wp_mono (readProtectedRecord_spec o identity s) fun _ _ h => h.1) ?_
  unfold readProtectedRecord loadBlob
  simp only [wp_bind, wp_get]
  cases hg : s.root.get o.path with
  | none =>
    rintro _ ⟨⟩
    rfl
  | some raw =>
    simp only [wp_bind, wp_call, wp_ite, wp_throw, wp_liftM]
    refine ⟨fun _ => ⟨fun _ => by rintro _ ⟨⟩, fun _ => ⟨fun _ => ?_, fun _ => by rintro _ ⟨⟩⟩⟩, fun _ => by rintro _ ⟨⟩⟩
    cases hc : readContainer S identity raw o.entryName with
    | error e => rintro _ ⟨⟩
    | ok blob =>
      simp only [wp_pure, wp_bind, wp_liftM]
      cases ha : o.authenticate identity blob with
      | error e => rintro _ ⟨⟩
      | ok record =>
        rintro _ ⟨⟩
        exact ⟨raw, rfl, blob, hc, ha⟩

theorem loadProtectedBlob_looked (hR : IsRecordFile o.path) (hne : o.path ≠ anchorsFile) (s : Store S) :
    wp (loadProtectedBlob o identity) (LoadsTo s fun payload => s.Payload o identity payload) s := by
  have hwithin : Respects (Store.Within IsRecordFile (fun _ => False) fun _ _ => True) (loadProtectedBlob o identity) :=
    .bind (loadProtectedRecord_within o identity hR hne trivial) fun _ => .pure _
  refine wp_and (hwithin s) ?_
  unfold loadProtectedBlob loadProtectedRecord
  simp only [wp_bind, wp_attempt]
  refine wp_mono (readProtectedRecord_reads o identity s) ?_
  rintro r s₁ ⟨hidle, hr⟩
  cases r with
  | error e =>
    simp only [wp_ite, wp_bind, wp_attempt, wp_throw]
    refine ⟨fun _ => wp_mono (quarantine_spec (.root o.path) s₁) ?_, fun _ => by rintro _ ⟨⟩⟩
    intro r t _
    rintro _ ⟨⟩
  | ok record =>
    have hrecord := hr record rfl
    cases record with
    | none =>
      rintro _ ⟨⟩
      exact ⟨hidle.looked, hrecord⟩
    | some record =>
      simp only [wp_bind]
      refine wp_mono (judge_spec true record.state (some (.root o.path)) s₁) ?_
      intro r s₂ hr
      cases r with
      | error e => rintro _ ⟨⟩
      | ok u =>
        rintro _ ⟨⟩
        obtain ⟨raw, hget, hreads⟩ := hrecord
        exact ⟨Trans.trans hidle.looked hr.looked, raw, record, hget, hreads, rfl⟩

end Record

/-- A record is as it was before other objects were looked at. -/
theorem Store.Looked.payload {T : Type} {o : RecordKind S T} {identity : Identity} {payload : Option T}
    (h : s.Looked s') (hne : o.path ≠ anchorsFile) (hp : s'.Payload o identity payload) :
    s.Payload o identity payload := by
  have hget := h.rootFile hne
  cases payload with
  | none =>
    unfold Store.Payload at hp
    rw [hget] at hp
    exact hp
  | some payload =>
    obtain ⟨raw, record, hraw, hrest⟩ := hp
    rw [hget] at hraw
    exact ⟨raw, record, hraw, hrest⟩

/-! ### The vaults -/

theorem vaultDirV2_injective : Function.Injective vaultDirV2 := fun _ _ h => List.append_cancel_right h

theorem vaultDirV2_ne_vaultPath (id id' : Str) : vaultDirV2 id ≠ vaultPath id' := by
  intro h
  have hlast := congrArg (fun l : Str => l.getLast?) h
  unfold vaultDirV2 vaultPath at hlast
  rw [List.getLast?_append, List.getLast?_append] at hlast
  cases hlast

/-- The vault is read as the reader, in both stores, and the blobs that the reader refers to are the same. -/
structure Store.OpensTo (s s' : Store S) (identity : Identity) (p : Str × VaultReaderV2 S.toPrims) : Prop where
  before : openVault S.toPrims (s.host (vaultDirV2 p.1)).top.shown identity = .ok p.2
  after : openVault S.toPrims (s'.host (vaultDirV2 p.1)).top.shown identity = .ok p.2
  coherent : p.2.Coherent identity p.1
  blobs : ∀ b ∈ p.2.manifest.blobIds, validateBlobId b = .ok () →
    (s'.host (vaultDirV2 p.1)).blobs.shown b = (s.host (vaultDirV2 p.1)).blobs.shown b

theorem Store.OpensTo.congr {identity : Identity} {p : Str × VaultReaderV2 S.toPrims} {t t' : Store S}
    (h : s.OpensTo s' identity p) (hs : t.vaults.get (vaultDirV2 p.1) = s.vaults.get (vaultDirV2 p.1))
    (hs' : t'.vaults.get (vaultDirV2 p.1) = s'.vaults.get (vaultDirV2 p.1)) : t.OpensTo t' identity p := by
  obtain ⟨htop, hblobs⟩ := host_congr hs
  obtain ⟨htop', hblobs'⟩ := host_congr hs'
  refine ⟨by rw [htop]; exact h.before, by rw [htop']; exact h.after, h.coherent, fun b hb hv => ?_⟩
  rw [hblobs, hblobs']
  exact h.blobs b hb hv

/-- The entry belongs to one of the vaults. -/
def IsVaultOf (ids : List Str) (name : Str) : Prop := ∃ id ∈ ids, name = vaultDirV2 id ∨ name = vaultPath id

/-- Every vault opens, or the upgrade does not go on. -/
theorem openVaults_spec (old : Identity) (gc : Str → GcIo) {ids : List Str} (hnd : ids.Nodup) :
    wp (openVaults old gc ids) (fun r s' => s.Within (fun _ => False) (IsVaultOf ids) (fun _ _ => True) s' ∧
      ∀ vaults, r = .ok vaults → vaults.map (·.1) = ids ∧ ∀ p ∈ vaults, s.OpensTo s' old p) s := by
  induction ids generalizing s with
  | nil =>
    refine ⟨within_refl s, ?_⟩
    rintro _ ⟨⟩
    exact ⟨rfl, by simp⟩
  | cons id ids ih =>
    rw [List.nodup_cons] at hnd
    unfold openVaults
    simp only [wp_bind, wp_attempt]
    have hwithin : Respects (Store.Within (fun _ => False) (fun n => n = vaultDirV2 id ∨ n = vaultPath id)
        fun _ _ => True) (openVaultLocked old id (gc id) : StoreM S _) :=
      openVaultLocked_within (Or.inl rfl) (Or.inr rfl) trivial (gc id)
    refine wp_mono (wp_and (openVaultLocked_spec old id (gc id) s) (hwithin s)) ?_
    rintro r s₁ ⟨hopened, hw₁⟩
    have hw₁' : s.Within (fun _ => False) (IsVaultOf (id :: ids)) (fun _ _ => True) s₁ :=
      hw₁.mono (fun _ h => h) (fun _ h => ⟨id, List.mem_cons_self, h⟩) fun _ _ h => h
    cases r with
    | error e => exact ⟨hw₁', by rintro _ ⟨⟩⟩
    | ok reader =>
      have hopened := hopened reader rfl
      simp only [wp_bind]
      refine wp_mono (ih hnd.2) ?_
      rintro r s₂ ⟨hw₂, hrest⟩
      have hmore : ∀ name, IsVaultOf ids name → IsVaultOf (id :: ids) name := by
        rintro name ⟨id', hid', h⟩
        exact ⟨id', List.mem_cons_of_mem _ hid', h⟩
      have hw : s.Within (fun _ => False) (IsVaultOf (id :: ids)) (fun _ _ => True) s₂ :=
        hw₁'.trans (hw₂.mono (fun _ h => h) hmore fun _ _ h => h)
      cases r with
      | error e => exact ⟨hw, by rintro _ ⟨⟩⟩
      | ok vaults =>
        obtain ⟨hids, hvaults⟩ := hrest vaults rfl
        refine ⟨hw, ?_⟩
        rintro _ ⟨⟩
        refine ⟨by rw [List.map_cons, hids], fun p hp => ?_⟩
        rcases List.mem_cons.1 hp with rfl | hp
        · -- the vaults after the first one leave it alone
          have hkeep : s₂.vaults.get (vaultDirV2 id) = s₁.vaults.get (vaultDirV2 id) := by
            refine hw₂.vaults.get _ ?_
            rintro ⟨id', hid', h | h⟩
            · exact hnd.1 (vaultDirV2_injective h ▸ hid')
            · exact vaultDirV2_ne_vaultPath _ _ h
          have hfirst : s.OpensTo s₁ old (id, reader) :=
            ⟨hopened.opens, hopened.top ▸ hopened.opens, hopened.coherent, hopened.blobs⟩
          exact hfirst.congr rfl hkeep
        · refine (hvaults p hp).congr ?_ rfl
          refine (hw₁.vaults.get _ ?_).symm
          rintro (h | h)
          · have hin : p.1 ∈ ids := hids ▸ List.mem_map_of_mem hp
            exact hnd.1 (vaultDirV2_injective h ▸ hin)
          · exact vaultDirV2_ne_vaultPath _ _ h

theorem readVaultsDir_spec (s : Store S) : wp readVaultsDir (fun r s' => s' = s.later 1 ∧ ∃ names, r = .ok names ∧
    (s.Working → names = s.vaults.shown.keys)) s := by
  unfold readVaultsDir
  simp only [wp_bind, wp_attempt, wp_call, wp_get, wp_pure]
  exact ⟨fun _ => ⟨rfl, _, rfl, fun _ => rfl⟩, fun hf => ⟨rfl, _, rfl, fun hw => absurd hw (not_working hf)⟩⟩

/-- The vaults that are found are different ones, and on a working machine they are all there are. -/
theorem v2Vaults_spec (s : Store S) : wp v2Vaults (fun r s' => s' = s.later 1 ∧ ∃ ids, r = .ok ids ∧ ids.Nodup ∧
    (s.Working → ∀ id, s.isDir (vaultDirV2 id) = true → id ∈ ids)) s := by
  unfold v2Vaults
  rw [wp_bind]
  refine wp_mono (readVaultsDir_spec s) ?_
  rintro r _ ⟨rfl, names, rfl, hnames⟩
  simp only [wp_bind, wp_get, wp_pure]
  unfold idsWithSuffix
  refine ⟨trivial, _, rfl, ((List.perm_insertionSort _ _).nodup_iff).2 (List.nodup_dedup _), fun hw id hdir => ?_⟩
  rw [hnames hw, (List.perm_insertionSort _ _).mem_iff, List.mem_dedup, List.mem_filterMap]
  refine ⟨vaultDirV2 id, List.mem_filter.2 ⟨?_, hdir⟩, ?_⟩
  · obtain ⟨d, hd⟩ := Store.isDir_iff.1 hdir
    exact mem_keys_iff.2 (by rw [hd]; simp)
  · have hsuffix : ".fsv2".toList.isSuffixOf? (vaultDirV2 id) = some id := by
      unfold List.isSuffixOf? vaultDirV2
      rw [List.reverse_append, List.isPrefixOf?_eq_some_iff_append_eq.2 rfl, Option.map_some, List.reverse_reverse]
    rw [List.findSome?_cons, hsuffix]

/-! ### The whole -/

/-- The plan holds what the store `s` holds for the identity; when all of it had been read, the store was `s₀`. -/
structure UpgradePlan.Validated (plan : UpgradePlan S) (old : Identity) (passphrase : S.Raw) (io : UpgradeIo)
    (s s₀ : Store S) : Prop where
  new : S.upgradedToHybrid old io.hybrid = .ok plan.new
  keystore : ∃ raw ks, s.root.get keystoreFile = some raw ∧ S.keystoreFromBytes raw = .ok ks ∧
    S.continueIdentity ks passphrase old plan.new io.reseal = .ok plan.resealed
  contacts : ∃ book, s.Payload (contactsRecord S) old book ∧ plan.contacts = book.getD S.emptyBook
  registry : ∃ registry, s.Payload (registryRecord S) old registry ∧ plan.registry = registry.getD ⟨[]⟩
  distinct : (plan.vaults.map (·.1)).Nodup
  vaults : ∀ p ∈ plan.vaults, s.OpensTo s₀ old p
  all : s.Working → ∀ id, s.isDir (vaultDirV2 id) = true → id ∈ plan.vaults.map (·.1)
  within : s.Within (fun _ => False) (IsVaultOf (plan.vaults.map (·.1))) (fun _ _ => True) s₀

/-- The objects of the store are others at most in a record that is in quarantine, in the vaults and in the anchors. -/
def Store.Disturbed (s s' : Store S) : Prop := s.Within IsRecordFile (fun _ => True) (fun _ _ => True) s'

theorem Store.Looked.disturbed (h : s.Looked s') : s.Disturbed s' :=
  h.toWithin.mono (fun _ h => h.elim) (fun _ h => h.elim) fun _ _ h => h

theorem loadContacts_looked (identity : Identity) (s : Store S) : wp (loadContacts identity) (LoadsTo s fun book =>
    ∃ payload, s.Payload (contactsRecord S) identity payload ∧ book = payload.getD S.emptyBook) s := by
  unfold loadContacts
  rw [wp_bind]
  refine wp_mono (loadProtectedBlob_looked (contactsRecord S) identity (Or.inr (Or.inl rfl)) contactsFile_ne s) ?_
  rintro r s' ⟨hw, hr⟩
  cases r with
  | error e => exact ⟨hw, by rintro _ ⟨⟩⟩
  | ok payload =>
    obtain ⟨hlooked, hpayload⟩ := hr payload rfl
    refine ⟨hw, ?_⟩
    rintro _ ⟨⟩
    exact ⟨hlooked, payload, hpayload, rfl⟩

theorem loadRegistry_looked (identity : Identity) (s : Store S) : wp (loadRegistry identity) (LoadsTo s fun registry =>
    ∃ payload, s.Payload (registryRecord S) identity payload ∧ registry = payload.getD ⟨[]⟩) s := by
  unfold loadRegistry
  rw [wp_bind]
  refine wp_mono (loadProtectedBlob_looked (registryRecord S) identity (Or.inr (Or.inr rfl)) indexFile_ne s) ?_
  rintro r s' ⟨hw, hr⟩
  cases r with
  | error e => exact ⟨hw, by rintro _ ⟨⟩⟩
  | ok payload =>
    obtain ⟨hlooked, hpayload⟩ := hr payload rfl
    refine ⟨hw, ?_⟩
    rintro _ ⟨⟩
    exact ⟨hlooked, payload, hpayload, rfl⟩

private theorem LoadsTo.disturbed {α : Type} {Q : α → Prop} {r : StoreResult α} {s₁ : Store S} (h : LoadsTo s₁ Q r s')
    (hs : s.Looked s₁) : s.Disturbed s' :=
  hs.disturbed.trans (h.1.mono (fun _ h => h) (fun _ _ => trivial) fun _ _ h => h)

theorem tombstonedVaults_looked (s : Store S) : wp tombstonedVaults (fun r s' => s.Looked s' ∧ ∃ ids, r = .ok ids) s := by
  unfold tombstonedVaults
  rw [wp_bind]
  refine wp_mono (readVaultsDir_spec s) ?_
  rintro r _ ⟨rfl, names, rfl, -⟩
  exact ⟨looked_later s 1, _, rfl⟩

theorem unrecoveredLegacyVaults_looked (s : Store S) :
    wp unrecoveredLegacyVaults (fun r s' => s.Looked s' ∧ ∃ ids, r = .ok ids) s := by
  unfold unrecoveredLegacyVaults
  rw [wp_bind]
  refine wp_mono (readVaultsDir_spec s) ?_
  rintro r _ ⟨rfl, names, rfl, -⟩
  exact ⟨looked_later s 1, _, rfl⟩

/-- **Validation.**  A plan that an upgrade comes to holds every object of the store, read under the old identity; one
that does not come to a plan has disturbed nothing but what it was reading. -/
theorem validateUpgrade_spec (old : Identity) (passphrase : S.Raw) (io : UpgradeIo) (s : Store S) :
    wp (validateUpgrade old passphrase io) (fun r s' => s.Disturbed s' ∧
      ∀ plan, r = .ok plan → plan.Validated old passphrase io s s') s := by
  have hrefl : s.Looked s := Std.Refl.refl s
  unfold validateUpgrade
  rw [wp_bind, wp_liftM]
  cases hnew : S.upgradedToHybrid old io.hybrid with
  | error e => exact ⟨hrefl.disturbed, by rintro _ ⟨⟩⟩
  | ok new =>
    simp only [Result.text_ok, wp_bind]
    refine wp_mono (loadKeystore_looked s) ?_
    intro r s₁ h₁
    cases r with
    | error e => exact ⟨h₁.disturbed hrefl, by rintro _ ⟨⟩⟩
    | ok ks =>
      obtain ⟨hl₁, raw, hraw, hks⟩ := h₁.2 ks rfl
      simp only [wp_liftM]
      cases hresealed : S.continueIdentity ks passphrase old new io.reseal with
      | error e => exact ⟨hl₁.disturbed, by rintro _ ⟨⟩⟩
      | ok resealed =>
        simp only [Result.text_ok]
        refine wp_mono (loadContacts_looked old s₁) ?_
        intro r s₂ h₂
        cases r with
        | error e => exact ⟨h₂.disturbed hl₁, by rintro _ ⟨⟩⟩
        | ok contacts =>
          obtain ⟨hl₂, book, hbook, hcontacts⟩ := h₂.2 contacts rfl
          have hl₂ : s.Looked s₂ := Trans.trans hl₁ hl₂
          simp only
          refine wp_mono (loadRegistry_looked old s₂) ?_
          intro r s₃ h₃
          cases r with
          | error e => exact ⟨h₃.disturbed hl₂, by rintro _ ⟨⟩⟩
          | ok registry =>
            obtain ⟨hl₃, known, hknown, hregistry⟩ := h₃.2 registry rfl
            have hl₃ : s.Looked s₃ := Trans.trans hl₂ hl₃
            simp only
            refine wp_mono (tombstonedVaults_looked s₃) ?_
            rintro r s₄ ⟨hl₄, tombstoned, rfl⟩
            have hl₄ : s.Looked s₄ := Trans.trans hl₃ hl₄
            simp only [wp_ite, wp_throw, wp_bind]
            refine ⟨fun _ => ⟨hl₄.disturbed, by rintro _ ⟨⟩⟩, fun _ => ?_⟩
            refine wp_mono (unrecoveredLegacyVaults_looked s₄) ?_
            rintro r s₅ ⟨hl₅, legacy, rfl⟩
            have hl₅ : s.Looked s₅ := Trans.trans hl₄ hl₅
            cases legacy with
            | cons id legacy => exact ⟨hl₅.disturbed, by rintro _ ⟨⟩⟩
            | nil =>
              simp only [wp_bind]
              refine wp_mono (v2Vaults_spec s₅) ?_
              rintro r _ ⟨rfl, ids, rfl, hnd, hall⟩
              have hl₆ : s.Looked (s₅.later 1) := Trans.trans hl₅ (looked_later s₅ 1)
              simp only
              refine wp_mono (openVaults_spec old io.gc hnd) ?_
              rintro r s₇ ⟨hw₇, hopened⟩
              have hd : s.Disturbed s₇ :=
                hl₆.disturbed.trans (hw₇.mono (fun _ h => h.elim) (fun _ _ => trivial) fun _ _ h => h)
              cases r with
              | error e => exact ⟨hd, by rintro _ ⟨⟩⟩
              | ok vaults =>
                obtain ⟨rfl, hvaults⟩ := hopened vaults rfl
                refine ⟨hd, ?_⟩
                rintro _ ⟨⟩
                refine ⟨hnew, ⟨raw, ks, hraw, hks, hresealed⟩, ⟨book, hl₁.payload contactsFile_ne hbook, hcontacts⟩,
                  ⟨known, hl₂.payload indexFile_ne hknown, hregistry⟩, hnd, fun p hp => ?_, fun hw id hdir => ?_, ?_⟩
                · exact (hvaults p hp).congr (hl₆.vault _).symm rfl
                · refine hall (hw.ticked hl₅.ticked) id ?_
                  rw [isDir_congr (hl₅.vault _)]
                  exact hdir
                · exact (hl₆.toWithin.mono (fun _ h => h) (fun _ h => h.elim) fun _ _ h => h).trans hw₇

end FileSec
