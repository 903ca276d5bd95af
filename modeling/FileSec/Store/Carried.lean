import FileSec.Store.Upgraded

/-!
# What an upgrade carries over

An upgrade that has put its copies into place leaves each object anchored at the state of its copy.  So every load under
the new identity gives what it gave under the old one, in whatever order the objects are loaded (`upgrade_carries`).
-/

namespace FileSec

open CrashDir Folders Prog

variable {S : StorePrims} {s s' s₀ : Store S} {plan : UpgradePlan S}

/-! ### Loads of anchored objects -/

/-- The state of an object is the anchored one. -/
def Store.Anchors (s : Store S) (state : StateMetadata S.Digest) : Prop :=
  s.anchor state.objectType state.objectId = .ok (some (StateAnchor.fromMetadata state))

/-- A load that works and returns `a` makes calls only. -/
def LoadsAs {α : Type} (s : Store S) (a : α) (r : StoreResult α) (s' : Store S) : Prop :=
  r = .ok a ∧ ∃ k, s' = s.later k

theorem judge_anchored {first : Bool} {state : StateMetadata S.Digest} {suspect : Option Spot} (hw : s.Working)
    (ha : s.Anchors state) : wp (judge first state suspect) (LoadsAs s ()) s := by
  unfold judge moveAnchor
  simp only [wp_bind, wp_attempt]
  refine wp_mono (getAnchorLocked_spec _ _ s) ?_
  rintro r _ ⟨⟨k, rfl⟩, -, hworking⟩
  rw [hworking hw, ha]
  simp only [wp_bind, wp_liftM, checkCandidate_fromMetadata, Result.text_ok, wp_ite, wp_pure]
  exact ⟨fun hf => (by cases hf), fun _ => ⟨rfl, k, rfl⟩⟩

theorem loadKeystore_anchored {raw : S.Raw} {ks : S.KeystoreFile} {state : StateMetadata S.Digest} (hw : s.Working)
    (hraw : s.root.get keystoreFile = some raw) (hlen : S.rawLen raw ≤ maxKeystoreFileLen)
    (hks : S.keystoreFromBytes raw = .ok ks) (hstate : S.keystoreState ks = some state) (ha : s.Anchors state) :
    wp loadKeystore (LoadsAs s ks) s := by
  unfold loadKeystore readBoundedFile readBounded keystoreStateOr
  simp only [wp_bind, wp_call, wp_get, wp_liftM]
  refine ⟨fun _ => ?_, fun hf => absurd hw (not_working hf)⟩
  have hget : s.tick.root.get keystoreFile = some raw := hraw
  simp only [hget, if_neg (Nat.not_lt.2 hlen), Result.labelled, hks, Result.text_ok, hstate]
  refine wp_mono (judge_anchored (hw.later 1) ha) ?_
  rintro r _ ⟨rfl, k, rfl⟩
  exact ⟨rfl, 1 + k, later_later s 1 k⟩

section Record

variable {T : Type} {o : RecordKind S T} {identity : Identity}

theorem loadProtectedBlob_anchored {raw : S.Raw} {record : ProtectedState S.Digest T} (hw : s.Working)
    (hraw : s.root.get o.path = some raw) (hlen : S.rawLen raw ≤ maxSelfBlobContainerLen)
    (hreads : o.Reads identity raw record) (ha : s.Anchors record.state) :
    wp (loadProtectedBlob o identity) (LoadsAs s (some record.payload)) s := by
  obtain ⟨blob, hblob, hauth⟩ := hreads
  unfold loadProtectedBlob loadProtectedRecord readProtectedRecord loadBlob
  simp only [wp_bind, wp_attempt, wp_get, hraw, wp_call, wp_ite, wp_throw, wp_liftM, wp_pure]
  refine ⟨fun _ => ⟨fun hlt => absurd hlen (by omega), fun _ => ⟨fun _ => ?_, fun hf => ?_⟩⟩,
    fun hf => absurd hw (not_working hf)⟩
  · simp only [hblob, hauth]
    refine wp_mono (judge_anchored (hw.later 2) ha) ?_
    rintro r _ ⟨rfl, k, rfl⟩
    exact ⟨rfl, 2 + k, later_later s 2 k⟩
  · exact absurd (hw.later 1) (not_working hf)

end Record

theorem loadContacts_anchored {raw : S.Raw} {identity : Identity} {record : ProtectedState S.Digest S.ContactBook}
    (hw : s.Working) (hraw : s.root.get contactsFile = some raw) (hlen : S.rawLen raw ≤ maxSelfBlobContainerLen)
    (hreads : (contactsRecord S).Reads identity raw record) (ha : s.Anchors record.state) :
    wp (loadContacts identity) (LoadsAs s record.payload) s := by
  unfold loadContacts
  rw [wp_bind]
  refine wp_mono (loadProtectedBlob_anchored hw hraw hlen hreads ha) ?_
  rintro r _ ⟨rfl, k, rfl⟩
  exact ⟨rfl, k, rfl⟩

theorem loadRegistry_anchored {raw : S.Raw} {identity : Identity} {record : ProtectedState S.Digest Registry}
    (hw : s.Working) (hraw : s.root.get indexFile = some raw) (hlen : S.rawLen raw ≤ maxSelfBlobContainerLen)
    (hreads : (registryRecord S).Reads identity raw record) (ha : s.Anchors record.state) :
    wp (loadRegistry identity) (LoadsAs s record.payload) s := by
  unfold loadRegistry
  rw [wp_bind]
  refine wp_mono (loadProtectedBlob_anchored hw hraw hlen hreads ha) ?_
  rintro r _ ⟨rfl, k, rfl⟩
  exact ⟨rfl, k, rfl⟩

/-! ### Opening an anchored vault -/

/-- At most `vaults/` and the draws have changed. -/
structure Store.OnlyVaults (s s' : Store S) : Prop where
  account : s'.account = s.account
  backend : s'.backend = s.backend
  secure : s'.secure = s.secure
  root : s'.root = s.root

instance : IsPreorder (Store S) Store.OnlyVaults where
  refl _ := ⟨rfl, rfl, rfl, rfl⟩
  trans _ _ _ h h' := ⟨h'.account.trans h.account, h'.backend.trans h.backend, h'.secure.trans h.secure,
    h'.root.trans h.root⟩

theorem Store.OnlyVaults.anchors (h : s.OnlyVaults s') {state : StateMetadata S.Digest} (ha : s.Anchors state) :
    s'.Anchors state := by
  unfold Store.Anchors Store.anchor Store.fileAnchorSet
  rw [h.account, h.backend, h.secure, h.root]
  exact ha

theorem wipeFile_onlyVaults (name : Str) : Respects Store.OnlyVaults (wipeFile name : StoreM S Unit) := by
  have hcall : ∀ e, Respects Store.OnlyVaults (call e : StoreM S Unit) := by
    intro e s
    rw [wp_call]
    exact ⟨fun _ => ⟨rfl, rfl, rfl, rfl⟩, fun _ => ⟨rfl, rfl, rfl, rfl⟩⟩
  have hdraw : Respects Store.OnlyVaults (drawBytes S 32) :=
    .bind .get fun _ => .bind (.modify fun _ => ⟨rfl, rfl, rfl, rfl⟩) fun _ => .lift _
  refine .bind .get fun s => ?_
  cases s.vaults.get name with
  | none => exact .pure _
  | some node =>
    cases node with
    | dir d => exact .throw _
    | file raw =>
      refine .bind hdraw fun noise => .bind (hcall _) fun _ => ?_
      exact .bind (.modify fun s => ⟨rfl, rfl, rfl, rfl⟩) fun _ => .bind (hcall _) fun _ =>
        .modify fun s => ⟨rfl, rfl, rfl, rfl⟩

theorem inVault_onlyVaults {α : Type} (name : Str) (reader : VaultReaderV2 S.toPrims) (p : SessionM S.toPrims α) :
    Respects Store.OnlyVaults (inVault name reader p) := by
  intro s
  rw [wp_inVault]
  refine wp_mono (wp_self p _) ?_
  rintro r t -
  unfold Store.setHost
  split <;> exact ⟨rfl, rfl, rfl, rfl⟩

/-- Nothing that a reader of the directory needs has changed, and nothing outside of the files of the vault. -/
structure Store.Kept (s s' : Store S) (id : Str) (reader : VaultReaderV2 S.toPrims) : Prop
    extends s.OnlyVaults s' where
  others : ∀ name, name ≠ vaultDirV2 id → name ≠ vaultPath id → s'.vaults.get name = s.vaults.get name
  isDir : s'.isDir (vaultDirV2 id) = true
  top : (s'.host (vaultDirV2 id)).top.shown = (s.host (vaultDirV2 id)).top.shown
  blobs : ∀ b ∈ reader.manifest.blobIds, validateBlobId b = .ok () →
    (s'.host (vaultDirV2 id)).blobs.shown b = (s.host (vaultDirV2 id)).blobs.shown b

/-- Opening a vault whose state is the anchored one works. -/
theorem openVaultLocked_anchored {identity : Identity} {id : Str} {reader : VaultReaderV2 S.toPrims}
    {state : StateMetadata S.Digest} (hw : s.Working)
    (hopen : openVault S.toPrims (s.host (vaultDirV2 id)).top.shown identity = .ok reader)
    (hstate : reader.state = some state) (hid : state.objectId = id) (ha : s.Anchors state) (io : GcIo) :
    wp (openVaultLocked identity id io) (fun r s' => r = .ok reader ∧ s.Kept s' id reader) s := by
  have hthere : (s.vaults.get (vaultDirV2 id)).isSome = true := by
    obtain ⟨d, hd⟩ := Store.isDir_iff.1 (isDir_of_openVault hopen)
    rw [hd]
    rfl
  have hstateOr : reader.stateOr = .ok state := by
    unfold VaultReaderV2.stateOr
    rw [hstate]
  unfold openVaultLocked openVaultDir readVault
  simp only [wp_bind, wp_get, hthere, if_true, wp_call, wp_liftM]
  refine ⟨fun _ => ⟨fun _ => ?_, fun hf => absurd (hw.later 1) (not_working hf)⟩, fun hf => absurd hw (not_working hf)⟩
  have hopen₂ : openVault S.toPrims (s.tick.tick.host (vaultDirV2 id)).top.shown identity = .ok reader := hopen
  simp only [hopen₂, Result.text_ok, hstateOr, wp_ite]
  refine ⟨fun hne => absurd hid hne, fun _ => ?_⟩
  rw [wp_bind]
  refine wp_mono (judge_anchored (hw.later 2) ha) ?_
  rintro r _ ⟨rfl, k, rfl⟩
  simp only [wp_bind, wp_attempt]
  have hsame : s.OnlyVaults ((s.later 2).later k) := ⟨rfl, rfl, rfl, rfl⟩
  refine wp_mono (wp_and (wipeFile_onlyVaults (vaultPath id) _) (wipeFile_within (R := fun _ => False)
    (V := fun n => n = vaultPath id) (A := fun _ _ => False) rfl ((s.later 2).later k))) ?_
  rintro _ t ⟨honly, hwipe⟩
  -- the directory is still as it was
  have hget : t.vaults.get (vaultDirV2 id) = s.vaults.get (vaultDirV2 id) :=
    hwipe.vaults.get _ (vaultPath_ne_vaultDirV2 id).symm
  obtain ⟨htop, hblobs⟩ := host_congr hget
  have hopen₃ : openVault S.toPrims (t.host (vaultDirV2 id)).top.shown identity = .ok reader := by
    rw [htop]
    exact hopen
  refine wp_mono (wp_and (wp_and (collectGarbage_opened hopen₃ io) (inVault_onlyVaults _ reader (collectGarbage io) t))
    (inVault_within (R := fun _ => False) (V := fun n => n = vaultDirV2 id) (A := fun _ _ => False) rfl reader
      (collectGarbage_ahead io) t)) ?_
  rintro _ t' ⟨⟨⟨res, rfl, hdir, htop', hblobs'⟩, honly'⟩, hgc⟩
  have hall : s.OnlyVaults t' := Trans.trans (Trans.trans hsame honly) honly'
  refine ⟨rfl, hall, fun name hne hne' => ?_, hdir, htop'.trans (congrArg Dir.shown htop), fun b hb hv => ?_⟩
  · exact (hgc.vaults.get name hne).trans (hwipe.vaults.get name hne')
  · exact (hblobs' b hb hv).trans (by rw [hblobs])

/-! ### Reading what stays -/

section Blobs

variable {P : Prims} {r : VaultReaderV2 P} {blobs blobs' : Str → Option Bytes}

/-- An entry that is found is one of the manifest. -/
theorem mem_of_fileEntry {path : Str} {e : EntryV2} (h : r.fileEntry path = .ok e) : e ∈ r.manifest.entries := by
  unfold VaultReaderV2.fileEntry at h
  cases hn : normalizeStoredPath path with
  | error err => simp [hn, bind, Except.bind] at h
  | ok n =>
    simp only [hn, bind, Except.bind] at h
    split at h
    · cases h
    · rename_i d hd
      split at h
      · exact Except.ok.inj h ▸ List.mem_of_find?_eq_some hd
      · cases h

private theorem blob_of_id {e : EntryV2} {id : Str} (he : e ∈ r.manifest.entries) (hid : blobId e = .ok id)
    (h : ∀ b ∈ r.manifest.blobIds, validateBlobId b = .ok () → blobs' b = blobs b) : blobs' id = blobs id := by
  unfold blobId at hid
  split at hid
  · cases hid
  · rename_i b hb
    cases hv : validateBlobId b with
    | error err => simp [hv, bind, Except.bind] at hid
    | ok u =>
      simp only [hv, bind, Except.bind, Except.ok.injEq] at hid
      subst hid
      exact h b (List.mem_filterMap.2 ⟨e, he, hb⟩) hv

/-- Reading depends on the blobs that the manifest refers to. -/
theorem readEntryToWriter_blobs (h : ∀ b ∈ r.manifest.blobIds, validateBlobId b = .ok () → blobs' b = blobs b)
    (path : Str) : r.readEntryToWriter blobs' path = r.readEntryToWriter blobs path :=
  readEntryToWriter_congr rfl rfl rfl fun _ he _ hid => blob_of_id (mem_of_fileEntry he) hid h

theorem VaultReaderV2.Copies.congr {vs : List VaultEntry} (h : r.Copies blobs vs)
    (hblobs : ∀ b ∈ r.manifest.blobIds, validateBlobId b = .ok () → blobs' b = blobs b) : r.Copies blobs' vs :=
  ⟨h.distinct, h.listed, fun v hv hk => (readEntryToWriter_blobs hblobs _).trans (h.contents v hv hk), h.only⟩

/-- So does decrypting an entry. -/
private theorem entryPlaintext_blobs {e : EntryV2} (he : e ∈ r.manifest.entries)
    (h : ∀ b ∈ r.manifest.blobIds, validateBlobId b = .ok () → blobs' b = blobs b) :
    r.entryPlaintext blobs' e = r.entryPlaintext blobs e := by
  unfold VaultReaderV2.entryPlaintext
  cases hid : blobId e with
  | error err => rfl
  | ok id =>
    have hsame : openBlob blobs' id e.size e.chunkSize = openBlob blobs id e.size e.chunkSize := by
      unfold openBlob
      rw [blob_of_id he hid h]
    simp only [bind, Except.bind, hsame]

theorem VaultReaderV2.Lists.congr {e : EntryV2} {v : VaultEntry} (h : r.Lists blobs e v) (he : e ∈ r.manifest.entries)
    (hblobs : ∀ b ∈ r.manifest.blobIds, validateBlobId b = .ok () → blobs' b = blobs b) : r.Lists blobs' e v where
  path := h.path
  attrs := h.attrs
  authentic hk := (entryPlaintext_blobs he hblobs).trans (h.authentic hk)
  file := h.file
  reads path hfind := (readEntryToWriter_blobs hblobs _).trans (h.reads path hfind)
  dir := h.dir

end Blobs

section Rekeyed

variable {r source : VaultReaderV2 S.toPrims} {d d' : VaultDir S.toPrims} {identity : Identity} {id : Str}
  {blobs blobs' : Str → Option Bytes}

theorem VaultReaderV2.Rekeyed.congr (h : r.Rekeyed d identity id source blobs) (htop : d'.top.shown = d.top.shown)
    (hblobs : ∀ b ∈ r.manifest.blobIds, validateBlobId b = .ok () → d'.blobs.shown b = d.blobs.shown b) :
    r.Rekeyed d' identity id source blobs := by
  obtain ⟨vs, hlists, hcopies⟩ := h.copies
  exact ⟨htop ▸ h.opens, h.coherent, h.label, h.length, vs, hlists, hcopies.congr hblobs⟩

/-- The source may be read from blobs that are the same to it. -/
theorem VaultReaderV2.Rekeyed.readFrom (h : r.Rekeyed d identity id source blobs)
    (hblobs : ∀ b ∈ source.manifest.blobIds, validateBlobId b = .ok () → blobs' b = blobs b) :
    r.Rekeyed d identity id source blobs' := by
  obtain ⟨vs, hlists, hcopies⟩ := h.copies
  have hall := List.forall₂_iff_zip.1 hlists
  refine ⟨h.opens, h.coherent, h.label, h.length, vs, List.forall₂_iff_zip.2 ⟨hall.1, fun hz => ?_⟩, hcopies⟩
  exact (hall.2 hz).congr (List.of_mem_zip hz).1 hblobs

end Rekeyed

/-! ### A store after an upgrade -/

/-- The file of the record holds the payload for the identity, at the anchored state. -/
def Store.HoldsRecord {T : Type} (s : Store S) (o : RecordKind S T) (identity : Identity) (payload : T) : Prop :=
  ∃ raw record, s.root.get o.path = some raw ∧ S.rawLen raw ≤ maxSelfBlobContainerLen ∧
    o.Reads identity raw record ∧ record.payload = payload ∧ s.Anchors record.state

/-- Every object is the copy that the plan has of it, at the anchored state; the blobs of the vaults were those of
`s₀`. -/
structure Store.HoldsPlan (s : Store S) (plan : UpgradePlan S) (s₀ : Store S) : Prop where
  keystore : ∃ raw state, s.root.get keystoreFile = some raw ∧ S.rawLen raw ≤ maxKeystoreFileLen ∧
    S.keystoreFromBytes raw = .ok plan.resealed ∧ S.keystoreState plan.resealed = some state ∧ s.Anchors state
  contacts : s.HoldsRecord (contactsRecord S) plan.new plan.contacts
  registry : s.HoldsRecord (registryRecord S) plan.new plan.registry
  vaults : ∀ p ∈ plan.vaults, ∃ d state, ∃ r : VaultReaderV2 S.toPrims,
    s.vaults.get (vaultDirV2 p.1) = some (.dir d) ∧
      r.Rekeyed d plan.new p.1 p.2 (s₀.host (vaultDirV2 p.1)).blobs.shown ∧ r.state = some state ∧ s.Anchors state

/-- What a copy is, by the live path it is for. -/
theorem UpgradePlan.Copies.of_live {live : Str} {state : StateMetadata S.Digest} {entry : DirEntry S.toPrims}
    (h : plan.Copies s₀ live state entry) : live = keystoreFile ∧ KeystoreCopy plan.resealed state entry ∨
      live = contactsFile ∧ (contactsRecord S).Copy plan.new plan.contacts state entry ∨
      live = indexFile ∧ (registryRecord S).Copy plan.new plan.registry state entry ∨
      ∃ p ∈ plan.vaults, live = vaultLive p.1 ∧
        VaultCopy plan.new p.1 p.2 (s₀.host (vaultDirV2 p.1)).blobs.shown state entry := by
  cases h with
  | keystore h => exact Or.inl ⟨rfl, h⟩
  | contacts h => exact Or.inr (Or.inl ⟨rfl, h⟩)
  | registry h => exact Or.inr (Or.inr (Or.inl ⟨rfl, h⟩))
  | vault hp h => exact Or.inr (Or.inr (Or.inr ⟨_, hp, rfl, h⟩))

private theorem rootFile_of_node {name : Str} {raw : S.Raw} (h : s.node (.root name) = some (.file raw)) :
    s.root.get name = some raw := by
  obtain ⟨raw', hraw, heq⟩ := Option.map_eq_some_iff.1 h
  cases heq
  exact hraw

private theorem holdsRecord_of_copy {T : Type} {o : RecordKind S T} {identity : Identity} {payload : T}
    {state : StateMetadata S.Digest} {entry : DirEntry S.toPrims} (hnode : s.node (.root o.path) = some entry)
    (h : o.Copy identity payload state entry) (ha : s.Anchors state) : s.HoldsRecord o identity payload := by
  obtain ⟨raw, rfl, hlen, hreads⟩ := h.file
  exact ⟨raw, _, rootFile_of_node hnode, hlen, hreads, rfl, ha⟩

private theorem liveSpot_records : liveSpot keystoreFile = .root keystoreFile ∧
    liveSpot contactsFile = .root contactsFile ∧ liveSpot indexFile = .root indexFile := by decide

/-- A finished upgrade leaves each object anchored at the state of its copy, unless the degraded file has grown too
large. -/
theorem Store.Finished.holdsPlan {c : Commitment S} (h : s.Finished c s₀) (hc : c.Carries plan s₀) (hplan : plan.Sound)
    (hgrown : ¬ s.Overgrown) : s.HoldsPlan plan s₀ := by
  have hlive : ∀ live ∈ plan.lives, ∃ state, s.node (liveSpot live) = some (c.new live) ∧
      plan.Copies s₀ live state (c.new live) ∧ s.Anchors state := by
    intro live hin
    obtain ⟨state, hcopy, ha⟩ := hc.copies live hin
    obtain ⟨m, hm, rfl⟩ := List.mem_map.1 (hc.lives ▸ hin : live ∈ c.journal.moves.map (·.2))
    refine ⟨state, h.live m hm, hcopy, ?_⟩
    have hanchor := (h.anchors.resolve_right hgrown).1 (StateAnchor.fromMetadata state) ha
    exact hanchor
  have hks : keystoreFile ∈ plan.lives := List.mem_cons_self
  have hcs : contactsFile ∈ plan.lives := List.mem_cons_of_mem _ List.mem_cons_self
  have hrs : indexFile ∈ plan.lives := List.mem_cons_of_mem _ (List.mem_cons_of_mem _ List.mem_cons_self)
  have hne : ∀ {rel id : Str}, "vaults/".toList.isPrefixOf? rel = none → rel ≠ vaultLive id :=
    fun hrel => (vaultLive_ne hrel).symm
  refine ⟨?_, ?_, ?_, fun p hp => ?_⟩
  · obtain ⟨state, hnode, hcopy, ha⟩ := hlive _ hks
    rw [liveSpot_records.1] at hnode
    rcases hcopy.of_live with ⟨-, hk⟩ | ⟨hl, -⟩ | ⟨hl, -⟩ | ⟨p, -, hl, -⟩
    · obtain ⟨raw, hentry, hraw, hlen⟩ := hk.file
      rw [hentry] at hnode
      exact ⟨raw, state, rootFile_of_node hnode, hlen, S.keystoreFromBytes_toBytes _ raw hraw, hk.state, ha⟩
    · exact absurd hl (by decide)
    · exact absurd hl (by decide)
    · exact absurd hl (hne (by decide))
  · obtain ⟨state, hnode, hcopy, ha⟩ := hlive _ hcs
    rw [liveSpot_records.2.1] at hnode
    rcases hcopy.of_live with ⟨hl, -⟩ | ⟨-, hk⟩ | ⟨hl, -⟩ | ⟨p, -, hl, -⟩
    · exact absurd hl (by decide)
    · exact holdsRecord_of_copy hnode hk ha
    · exact absurd hl (by decide)
    · exact absurd hl (hne (by decide))
  · obtain ⟨state, hnode, hcopy, ha⟩ := hlive _ hrs
    rw [liveSpot_records.2.2] at hnode
    rcases hcopy.of_live with ⟨hl, -⟩ | ⟨hl, -⟩ | ⟨-, hk⟩ | ⟨p, -, hl, -⟩
    · exact absurd hl (by decide)
    · exact absurd hl (by decide)
    · exact holdsRecord_of_copy hnode hk ha
    · exact absurd hl (hne (by decide))
  · have hin : vaultLive p.1 ∈ plan.lives :=
      List.mem_cons_of_mem _ (List.mem_cons_of_mem _ (List.mem_cons_of_mem _ (List.mem_map_of_mem hp)))
    obtain ⟨state, hnode, hcopy, ha⟩ := hlive _ hin
    rcases hcopy.of_live with ⟨hl, -⟩ | ⟨hl, -⟩ | ⟨hl, -⟩ | ⟨q, hq, hl, hk⟩
    · exact absurd hl.symm (hne (by decide))
    · exact absurd hl.symm (hne (by decide))
    · exact absurd hl.symm (hne (by decide))
    · obtain rfl : p = q := List.inj_on_of_nodup_map hplan.distinct hp hq (vaultLive_injective hl)
      obtain ⟨d, r, hentry, hrekeyed, hstate⟩ := hk.dir
      rw [hentry, liveSpot_vaultLive] at hnode
      exact ⟨d, state, r, hnode, hrekeyed, hstate, ha⟩

/-! ### Loading after an upgrade -/

/-- The load for another identity. -/
def Load.as {α : Type} (identity : Identity) : Load S α → Load S α
  | .keystore => .keystore
  | .contacts _ => .contacts identity
  | .registry _ => .registry identity
  | .vault _ id io => .vault identity id io

/-- The load is of an object of the plan. -/
def UpgradePlan.Covers {α : Type} (plan : UpgradePlan S) : Load S α → Prop
  | .vault _ id _ => id ∈ plan.vaults.map (·.1)
  | _ => True

/-- What a load under the new identity returns. -/
def UpgradePlan.Gives {α : Type} (plan : UpgradePlan S) (s₀ s' : Store S) : Load S α → α → Prop
  | .keystore, ks => ks = plan.resealed
  | .contacts _, book => book = plan.contacts
  | .registry _, registry => registry = plan.registry
  | .vault _ id _, reader => ∃ p ∈ plan.vaults, p.1 = id ∧ ∃ d, s'.vaults.get (vaultDirV2 id) = some (.dir d) ∧
      reader.Rekeyed d plan.new id p.2 (s₀.host (vaultDirV2 id)).blobs.shown

theorem Store.HoldsPlan.later (h : s.HoldsPlan plan s₀) (k : Nat) : (s.later k).HoldsPlan plan s₀ :=
  ⟨h.keystore, h.contacts, h.registry, h.vaults⟩

theorem Store.HoldsPlan.withWorks (h : s.HoldsPlan plan s₀) (works : Nat → Bool) :
    (s.withWorks works).HoldsPlan plan s₀ :=
  ⟨h.keystore, h.contacts, h.registry, h.vaults⟩

private theorem Store.HoldsRecord.kept {T : Type} {o : RecordKind S T} {identity : Identity} {payload : T}
    (h : s.HoldsRecord o identity payload) (hs : s.OnlyVaults s') : s'.HoldsRecord o identity payload := by
  obtain ⟨raw, record, hraw, hlen, hreads, hpayload, ha⟩ := h
  have hget : s'.root.get o.path = s.root.get o.path := by rw [hs.root]
  exact ⟨raw, record, hget.trans hraw, hlen, hreads, hpayload, hs.anchors ha⟩

/-- The vault that a copy is read as, after it has been opened. -/
private theorem Store.Kept.dir {id : Str} {r : VaultReaderV2 S.toPrims} {d : VaultDir S.toPrims}
    {identity : Identity} {source : VaultReaderV2 S.toPrims} {blobs : Str → Option Bytes} (hk : s.Kept s' id r)
    (hget : s.vaults.get (vaultDirV2 id) = some (.dir d)) (hr : r.Rekeyed d identity id source blobs) :
    ∃ d', s'.vaults.get (vaultDirV2 id) = some (.dir d') ∧ r.Rekeyed d' identity id source blobs := by
  obtain ⟨d', hd'⟩ := Store.isDir_iff.1 hk.isDir
  have hhost : s.host (vaultDirV2 id) = ⟨d.top, d.blobs, s.rng⟩ := by
    unfold Store.host
    rw [hget]
  have hhost' : s'.host (vaultDirV2 id) = ⟨d'.top, d'.blobs, s'.rng⟩ := by
    unfold Store.host
    rw [hd']
  have htop := hk.top
  have hblobs := hk.blobs
  rw [hhost, hhost'] at htop hblobs
  exact ⟨d', hd', hr.congr htop hblobs⟩

/-- **One load.**  It gives what the plan has of the object, and the store still carries the plan. -/
theorem load_carries {α : Type} (h : s.HoldsPlan plan s₀) (hplan : plan.Sound) (hw : s.Working) (l : Load S α)
    (hl : plan.Covers l) : wp (l.as plan.new).run (fun r s' => s'.HoldsPlan plan s₀ ∧ ∃ a, r = .ok a ∧
      plan.Gives s₀ s' l a) s := by
  cases l with
  | keystore =>
    obtain ⟨raw, state, hraw, hlen, hks, hstate, ha⟩ := h.keystore
    refine wp_mono (loadKeystore_anchored hw hraw hlen hks hstate ha) ?_
    rintro r _ ⟨rfl, k, rfl⟩
    exact ⟨h.later k, _, rfl, rfl⟩
  | contacts identity =>
    obtain ⟨raw, record, hraw, hlen, hreads, hpayload, ha⟩ := h.contacts
    refine wp_mono (loadContacts_anchored hw hraw hlen hreads ha) ?_
    rintro r _ ⟨rfl, k, rfl⟩
    exact ⟨h.later k, _, rfl, hpayload⟩
  | registry identity =>
    obtain ⟨raw, record, hraw, hlen, hreads, hpayload, ha⟩ := h.registry
    refine wp_mono (loadRegistry_anchored hw hraw hlen hreads ha) ?_
    rintro r _ ⟨rfl, k, rfl⟩
    exact ⟨h.later k, _, rfl, hpayload⟩
  | vault identity id io =>
    obtain ⟨p, hp, rfl⟩ := List.mem_map.1 (show id ∈ plan.vaults.map (·.1) from hl)
    obtain ⟨d, state, r, hget, hrekeyed, hstate, ha⟩ := h.vaults p hp
    have hopen : openVault S.toPrims (s.host (vaultDirV2 p.1)).top.shown plan.new = .ok r := by
      unfold Store.host
      rw [hget]
      exact hrekeyed.opens
    have hid : state.objectId = p.1 := by
      obtain ⟨state', pt, hst, hof, -⟩ := hrekeyed.coherent.state
      obtain rfl := Option.some.inj (hst.symm.trans hstate)
      exact hof.objectId
    refine wp_mono (openVaultLocked_anchored hw hopen hstate hid ha io) ?_
    rintro _ s' ⟨rfl, hkept⟩
    obtain ⟨d', hget', hrekeyed'⟩ := hkept.dir hget hrekeyed
    refine ⟨⟨?_, h.contacts.kept hkept.toOnlyVaults, h.registry.kept hkept.toOnlyVaults, fun q hq => ?_⟩,
      r, rfl, p, hp, rfl, d', hget', hrekeyed'⟩
    · obtain ⟨raw, kstate, hraw, hlen, hks, hkstate, hka⟩ := h.keystore
      have hget : s'.root.get keystoreFile = s.root.get keystoreFile := by rw [hkept.root]
      exact ⟨raw, kstate, hget.trans hraw, hlen, hks, hkstate, hkept.toOnlyVaults.anchors hka⟩
    · by_cases hqp : q.1 = p.1
      · obtain rfl : q = p := List.inj_on_of_nodup_map hplan.distinct hq hp hqp
        exact ⟨d', state, r, hget', hrekeyed', hstate, hkept.toOnlyVaults.anchors ha⟩
      · obtain ⟨dq, qstate, rq, hgetq, hrekeyedq, hqstate, hqa⟩ := h.vaults q hq
        have hother : s'.vaults.get (vaultDirV2 q.1) = s.vaults.get (vaultDirV2 q.1) :=
          hkept.others _ (fun he => hqp (vaultDirV2_injective he)) (vaultDirV2_ne_vaultPath _ _)
        exact ⟨dq, qstate, rq, hother.trans hgetq, hrekeyedq, hqstate, hkept.toOnlyVaults.anchors hqa⟩

/-! ### Before and after -/

/-- A load under the identity, when all of its calls work. -/
def Store.load {α : Type} (s : Store S) (identity : Identity) (l : Load S α) : StoreResult α × Store S :=
  exec (l.as identity).run (s.withWorks fun _ => true)

/-- The store after loads under the identity. -/
def Store.loads (s : Store S) (identity : Identity) (ls : List (Σ α, Load S α)) : Store S :=
  Runs.run (fun s l => (s.load identity l.2).2) s ls

/-- What a load returned under the old identity, and what it returns under the new one: a keystore that continues it, the
same payload, or a vault with the same name and the same bytes under each of its entries. -/
def Load.Carried {α : Type} (s s' : Store S) (passphrase : S.Raw) (old new : Identity) : Load S α → α → α → Prop
  | .keystore, ks, ks' => ∃ draws, S.continueIdentity ks passphrase old new draws = .ok ks'
  | .contacts _, book, book' => book' = book
  | .registry _, known, known' => known' = known
  | .vault _ id _, reader, reader' => ∃ d, s'.vaults.get (vaultDirV2 id) = some (.dir d) ∧
      reader'.Rekeyed d new id reader (s.host (vaultDirV2 id)).blobs.shown

/-- What each of the loads keeps, a run of them keeps. -/
theorem loads_inv {identity : Identity} (inv : Store S → Prop) {ls : List (Σ α, Load S α)}
    (hstep : ∀ t, inv t → ∀ l ∈ ls, inv (t.load identity l.2).2) (h : inv s) : inv (s.loads identity ls) := by
  unfold Store.loads
  induction ls generalizing s with
  | nil => exact h
  | cons l ls ih =>
    have hnext : inv (s.load identity l.2).2 := hstep s h l List.mem_cons_self
    exact ih (fun t ht l' hl' => hstep t ht l' (List.mem_cons_of_mem _ hl')) hnext

/-- A run of loads keeps what the store carries. -/
theorem loads_carry (h : s.HoldsPlan plan s₀) (hplan : plan.Sound) (ls : List (Σ α, Load S α))
    (hls : ∀ l ∈ ls, plan.Covers l.2) : (s.loads plan.new ls).HoldsPlan plan s₀ := by
  refine loads_inv (fun t => t.HoldsPlan plan s₀) (fun t ht l hl => ?_) h
  exact (load_carries (ht.withWorks fun _ => true) hplan (fun _ => rfl) l.2 (hls l hl)).1

theorem RecordKind.Reads.unique {T : Type} {o : RecordKind S T} {identity : Identity} {raw : S.Raw}
    {record record' : ProtectedState S.Digest T} (h : o.Reads identity raw record) (h' : o.Reads identity raw record') :
    record' = record := by
  obtain ⟨blob, hblob, hauth⟩ := h
  obtain ⟨blob', hblob', hauth'⟩ := h'
  obtain rfl := Except.ok.inj (hblob.symm.trans hblob')
  exact Except.ok.inj (hauth'.symm.trans hauth)

theorem Store.Payload.unique {T : Type} {o : RecordKind S T} {identity : Identity} {p p' : Option T}
    (h : s.Payload o identity p) (h' : s.Payload o identity p') : p' = p := by
  cases p with
  | none =>
    cases p' with
    | none => rfl
    | some payload' =>
      obtain ⟨raw, record, hraw, -⟩ := h'
      cases hraw.symm.trans h
  | some payload =>
    obtain ⟨raw, record, hraw, hreads, rfl⟩ := h
    cases p' with
    | none => cases hraw.symm.trans h'
    | some payload' =>
      obtain ⟨raw', record', hraw', hreads', rfl⟩ := h'
      obtain rfl := Option.some.inj (hraw.symm.trans hraw')
      rw [hreads.unique hreads']

/-- What a load returned before is an object of the plan, and what the plan gives for it carries it. -/
theorem UpgradePlan.Validated.carried {α : Type} {old : Identity} {passphrase : S.Raw} {io : UpgradeIo}
    (h : plan.Validated old passphrase io s s₀) (hw : s.Working) {l : Load S α} {a : α}
    (hl : (s.load old l).1 = .ok a) : plan.Covers l ∧
      ∀ t b, plan.Gives s₀ t l b → l.Carried s t passphrase old plan.new a b := by
  cases l with
  | keystore =>
    have hlooked := (loadKeystore_looked (s.withWorks fun _ => true)).2 a hl
    obtain ⟨-, raw, hraw, hks⟩ := hlooked
    obtain ⟨raw', ks, hraw', hks', hcont⟩ := h.keystore
    obtain rfl := Option.some.inj (hraw'.symm.trans hraw)
    obtain rfl := Except.ok.inj (hks'.symm.trans hks)
    refine ⟨trivial, ?_⟩
    rintro t _ rfl
    exact ⟨io.reseal, hcont⟩
  | contacts identity =>
    have hlooked := (loadContacts_looked old (s.withWorks fun _ => true)).2 a hl
    obtain ⟨-, payload, hpayload, rfl⟩ := hlooked
    obtain ⟨book, hbook, hplan⟩ := h.contacts
    have hp : s.Payload (contactsRecord S) old payload := hpayload
    refine ⟨trivial, ?_⟩
    rintro t _ rfl
    rw [hbook.unique hp]
    exact hplan
  | registry identity =>
    have hlooked := (loadRegistry_looked old (s.withWorks fun _ => true)).2 a hl
    obtain ⟨-, payload, hpayload, rfl⟩ := hlooked
    obtain ⟨registry, hregistry, hplan⟩ := h.registry
    have hp : s.Payload (registryRecord S) old payload := hpayload
    refine ⟨trivial, ?_⟩
    rintro t _ rfl
    rw [hregistry.unique hp]
    exact hplan
  | vault identity id gc =>
    have hopened := openVaultLocked_spec old id gc (s.withWorks fun _ => true) a hl
    have hopen : openVault S.toPrims (s.host (vaultDirV2 id)).top.shown old = .ok a := hopened.opens
    refine ⟨h.all hw id (isDir_of_openVault hopen), ?_⟩
    rintro t b ⟨p, hp, rfl, d, hget, hrekeyed⟩
    have hbefore := h.vaults p hp
    have hsame : p.2 = a := Except.ok.inj (hbefore.before.symm.trans hopen)
    refine ⟨d, hget, hsame ▸ hrekeyed.readFrom fun b' hb' hv' => ?_⟩
    exact (hbefore.blobs b' hb' hv').symm

/-- **What an upgrade carries over.**  After an upgrade that reports success, every load under the new identity returns
what it returned under the old one, in whatever order the objects are loaded. -/
theorem upgrade_carries (hreseals : S.Reseals) (old : Identity) (passphrase : S.Raw) (io : UpgradeIo) (hw : s.Working)
    (hclean : s.hasOldCopies = false) (fresh : s.rng.Fresh fun _ => False) (hsize : s.Convertible old) {new : Identity}
    (hok : (exec (migrateToHybrid old passphrase io) s).1 = .ok new)
    (hgrown : ¬ (exec (migrateToHybrid old passphrase io) s).2.Overgrown) (ls : List (Σ α, Load S α))
    (hls : ∀ l ∈ ls, ∃ a, (s.load old l.2).1 = .ok a) {α : Type} (l : Load S α) {a : α}
    (hl : (s.load old l).1 = .ok a) :
    let t := (exec (migrateToHybrid old passphrase io) s).2.loads new ls
    ∃ b, (t.load new l).1 = .ok b ∧ l.Carried s (t.load new l).2 passphrase old new a b := by
  intro t
  have hend : s.UpgradeEnd old passphrase io (exec (migrateToHybrid old passphrase io) s).1
      (exec (migrateToHybrid old passphrase io) s).2 :=
    migrateToHybrid_spec hreseals old passphrase io hclean fresh hsize
  rw [hok] at hend
  cases hend with
  | @committed r plan c s₀ _ hv hc hs hdone =>
    obtain ⟨rfl, hfinished⟩ := hdone new rfl
    have hplan := hv.sound hsize
    have hcarries := hfinished.holdsPlan hc hplan hgrown
    have ht : t.HoldsPlan plan s₀ := by
      refine loads_carry hcarries hplan ls fun l' hl' => ?_
      obtain ⟨a', ha'⟩ := hls l' hl'
      exact (hv.carried hw ha').1
    obtain ⟨hcovers, hgives⟩ := hv.carried hw hl
    obtain ⟨-, b, hb, hgive⟩ := load_carries (ht.withWorks fun _ => true) hplan (fun _ => rfl) l hcovers
    exact ⟨b, hb, hgives _ b hgive⟩

theorem provisioned_keystore : (Sym.provisioned.store.load Sym.alice .keystore).1 =
    .ok (Sym.Keystore.first Sym.alice (SymTerm.Term.nat 7)) := rfl

/-- The keystore is loaded twice after the upgrade, and is one of the new identity. -/
theorem upgrade_carries_keystore : ∃ new, Sym.upgraded.1 = .ok new ∧
    ((Sym.upgraded.2.loads new [⟨_, .keystore⟩]).load new .keystore).1 =
      .ok (Sym.Keystore.first new (SymTerm.Term.nat 7)) := by
  obtain ⟨new, hok⟩ := exists_ok_of_isOk upgraded_isOk
  have hparted : Sym.provisioned.store.Parted Sym.upgraded.2 := migrateToHybrid_parted _ _ _ _
  have hgrown : ¬ Sym.upgraded.2.Overgrown := by
    rintro ⟨hb, -⟩
    rw [hparted.backend] at hb
    cases hb
  have hls : ∀ l ∈ [(⟨_, .keystore⟩ : Σ α, Load Sym.store α)],
      ∃ a, (Sym.provisioned.store.load Sym.alice l.2).1 = .ok a := by
    intro l hl
    obtain rfl := List.mem_singleton.1 hl
    exact ⟨_, provisioned_keystore⟩
  obtain ⟨ks, hks, draws, hcont⟩ := upgrade_carries sym_reseals Sym.alice (SymTerm.Term.nat 7) Sym.upgradeIo
    (fun _ => rfl) rfl provisioned_fresh provisioned_convertible hok hgrown [⟨_, .keystore⟩] hls .keystore
    provisioned_keystore
  have hfirst : Sym.continueIdentity (Sym.Keystore.first Sym.alice (SymTerm.Term.nat 7)) (SymTerm.Term.nat 7) Sym.alice
      new = .ok ks := hcont
  rw [Sym.continueIdentity, if_pos ⟨rfl, rfl⟩] at hfirst
  exact ⟨new, hok, hks.trans (congrArg Except.ok (Except.ok.inj hfirst).symm)⟩

end FileSec
