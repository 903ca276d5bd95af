import FileSec.Retention

/-!
# Manifests and the durability of their blobs

A commit syncs the blobs directory before it writes the manifest, but goes on when this sync fails.  In runs in which
each commit that puts a file gets its blobs synced, or does not get to write a manifest, every file of a manifest that a
crash leaves visible has its blob (`blobs_present`); one commit without that is enough to lose a file and its
replacement (`blobs_present_fails`).
-/

namespace FileSec

open CrashDir Prog

variable {P : Prims} {identity : Identity} {hb : P.Raw} {w : World P}

/-- The files of every manifest that a crash can leave visible have their blobs. -/
def World.BlobsPresent (w : World P) (identity : Identity) : Prop :=
  ∀ (top : VaultFile → Nat) (blobs : Str → Nat) (r : VaultReaderV2 P),
    openVault P (w.host.crash top blobs).top.shown identity = .ok r →
      ∀ e ∈ r.manifest.entries, e.kind = .file →
        ∃ id, e.fileId = some id ∧ (w.host.crash top blobs).blobs.shown id ≠ none

/-- A commit that puts a file syncs its blobs, or does not get to write the manifest. -/
def Event.SyncsBlobs : Event → Prop
  | .commit c => c.io.blobsSync = true ∨ c.io.writeFault ≠ none ∨ c.edits.Only fun op => op.isPut = false
  | _ => True

/-- The blobs that a manifest in sight refers to are durable. -/
structure World.Lasting (w : World P) (identity : Identity) (hb : P.Raw) : Prop where
  kept : w.Kept identity hb
  disk : some hb ∈ w.host.top.versions .header → ∀ v ∈ w.host.top.versions .manifest, ∀ id ∈ refs identity hb v,
    validateBlobId id = .ok () → w.host.blobs.Durable id
  reader : ∀ r, w.reader = some r → ∀ id ∈ r.manifest.blobIds, validateBlobId id = .ok () → w.host.blobs.Durable id

/-! ### Commits -/

/-- The blobs of the manifest that is about to be sealed are durable once they are synced. -/
private theorem durable_of_account {r : VaultReaderV2 P} (hw : w.Lasting identity hb) (hr : w.reader = some r) {k : Nat}
    {b : VaultBatch P} (he : Session.Edited ⟨r, w.host⟩ k b) {id : Str} (hid : id ∈ b.manifest.blobIds)
    (hv : validateBlobId id = .ok ()) : b.host.blobs.shown id ≠ none := by
  have ha := hw.kept.account hr he
  have hmem : id ∈ b.ids := List.mem_append_left _ hid
  rcases he.present id hmem with hold | hp | hu
  · have hnot : id ∉ w.host.rng.drawn k := fun hd =>
      hw.kept.fresh.not_drawn hd (Or.inr (Or.inr (Or.inr ⟨r, hr, Or.inl hold⟩)))
    rw [he.drew.blobs.shown hnot]
    exact (hw.reader r hr id hold hv).shown
  · exact hp
  · exact absurd hu (ha.kept id hmem hv)

theorem commitWith_lasting {r : VaultReaderV2 P} (hw : w.Lasting identity hb) (hr : w.reader = some r)
    {limit : Option Nat} {edits : Edits} {io : CommitIo} (hsync : (Event.commit ⟨limit, edits, io⟩).SyncsBlobs) :
    wp (commitWith limit edits io) (fun _ s => World.Lasting ⟨s.host, some s.reader⟩ identity hb) ⟨r, w.host⟩ := by
  refine wp_mono (wp_and (commitWith_outcome ⟨r, w.host⟩ limit edits io) (commitWith_kept hw.kept hr limit edits io)) ?_
  obtain ⟨k, he⟩ := edited_spec ⟨r, w.host⟩ limit edits
  have hquiet := edited_quiet ⟨r, w.host⟩ limit edits
  generalize Session.edited ⟨r, w.host⟩ limit edits = p at he hquiet
  obtain ⟨edited, b⟩ := p
  rintro res s ⟨hout, hkept⟩
  simp only at he hquiet hout
  have ha := hw.kept.account hr he
  -- the blobs known before are not touched
  have hold : ∀ id, w.Known identity hb id → w.host.blobs.Durable id → b.host.blobs.Durable id := by
    intro id hid hd
    refine hd.of_subset ?_
    rw [he.drew.blobs.others id fun hd => hw.kept.fresh.not_drawn hd hid]
    exact List.Subset.refl _
  have hdisk : some hb ∈ w.host.top.versions .header → ∀ v ∈ w.host.top.versions .manifest,
      ∀ id ∈ refs identity hb v, validateBlobId id = .ok () → b.host.blobs.Durable id := fun hh v hv id hid hvalid =>
    hold id (Or.inr (Or.inr (Or.inl ⟨v, hv, hid⟩))) (hw.disk hh v hv id hid hvalid)
  have hreader : ∀ id ∈ r.manifest.blobIds, validateBlobId id = .ok () → b.host.blobs.Durable id :=
    fun id hid hvalid => hold id (Or.inr (Or.inr (Or.inr ⟨r, hr, Or.inl hid⟩))) (hw.reader r hr id hid hvalid)
  -- a commit that seals nothing leaves all manifests alone
  have hsame : ∀ h : Host P, h.top = w.host.top →
      (∀ id, b.host.blobs.Durable id → w.Known identity hb id → h.blobs.Durable id) →
      World.Kept ⟨h, some r⟩ identity hb → World.Lasting ⟨h, some r⟩ identity hb := by
    intro h htop hd hk
    refine ⟨hk, fun hh v hv id hid hvalid => ?_, ?_⟩
    · simp only [htop] at hh hv
      exact hd id (hdisk hh v hv id hid hvalid) (Or.inr (Or.inr (Or.inl ⟨v, hv, hid⟩)))
    · rintro r' ⟨⟩ id hid hvalid
      exact hd id (hreader id hid hvalid) (Or.inr (Or.inr (Or.inr ⟨r, hr, Or.inl hid⟩)))
  cases hout with
  | unchanged => exact hsame _ he.drew.top (fun id hd _ => hd) hkept
  | @failed e h hhost =>
    have hd : ∀ ok id, b.host.blobs.Durable id → w.Known identity hb id →
        ((b.host.blobs.sync ok).unlinkAll b.staged io.unlinkOk).Durable id := by
      intro ok id hd hid
      have hnot : id ∉ b.staged := fun hs => hw.kept.fresh.not_drawn (he.staged hs) hid
      refine hd.of_subset ?_
      rw [versions_unlinkAll_of_not_mem _ hnot]
      exact versions_sync_subset _ _ _
    rcases hhost with rfl | ⟨j, rfl⟩
    · exact hsame _ he.drew.top (hd false) hkept
    · exact hsame _ he.drew.top (hd io.blobsSync) hkept
  | @sealed state nonce h _ _ hsealed =>
    obtain ⟨hnext, hdrawn, hfault, rfl⟩ := hsealed
    have hnonce := randomVec_length hdrawn
    have hheader := (hw.kept.reader r hr).header
    have hnew : ∀ id ∈ b.manifest.blobIds, validateBlobId id = .ok () →
        (b.host.blobs.sync io.blobsSync).Durable id := by
      intro id hid hvalid
      rcases hsync with hs | hf | honly
      · rw [hs]
        exact durable_sync (durable_of_account hw hr he hid hvalid)
      · exact absurd hfault hf
      · obtain ⟨-, hids⟩ := hquiet honly
        refine (hreader id (hids (List.mem_append_left _ hid)) hvalid).of_subset (versions_sync_subset _ _ _)
    -- reclaiming leaves the blobs of the new manifest alone
    have hdurable : ∀ id, (b.host.blobs.sync io.blobsSync).Durable id →
        (id ∈ b.manifest.blobIds ∨ io.vaultSync = false) →
        (if io.vaultSync then
          ({ top := (b.host.top.write .manifest (r.sealedRaw b.manifest state nonce)).sync io.vaultSync
             blobs := (b.host.blobs.sync io.blobsSync).unlinkAll (r.pendingReclaim ++ b.superseded) io.unlinkOk
             rng := fun i => b.host.rng (i + 1) } : Host P)
        else
          { top := (b.host.top.write .manifest (r.sealedRaw b.manifest state nonce)).sync io.vaultSync
            blobs := b.host.blobs.sync io.blobsSync
            rng := fun i => b.host.rng (i + 1) }).blobs.Durable id := by
      intro id hd hid
      split
      · rename_i hs
        rcases hid with hid | hid
        · have hnot : id ∉ r.pendingReclaim ++ b.superseded := fun hm => ha.not_mem hw.kept hr id hm hid
          refine hd.of_subset ?_
          rw [versions_unlinkAll_of_not_mem _ hnot]
          exact List.Subset.refl _
        · rw [hs] at hid
          simp at hid
      · exact hd
    refine ⟨hkept, fun hh v hv id hid hvalid => ?_, ?_⟩
    · have hv' : v ∈ ((b.host.top.write .manifest (r.sealedRaw b.manifest state nonce)).sync io.vaultSync).versions
          .manifest := by
        split at hv <;> exact hv
      rcases mem_versions_write_sync hv' with rfl | ⟨hs, hv'⟩
      · have hid' : id ∈ b.manifest.blobIds := by
          rw [← hheader] at hid
          rcases refs_sealedRaw (hw.kept.reader r hr).belongs hnext hnonce with h | h
          · exact h ▸ hid
          · rw [h] at hid
            simp at hid
        exact hdurable id (hnew id hid' hvalid) (Or.inl hid')
      · have hh' : some hb ∈ ((b.host.top.write .manifest (r.sealedRaw b.manifest state nonce)).sync
            io.vaultSync).versions .header := by
          split at hh <;> exact hh
        have hh'' := versions_write_sync_of_ne (by decide) _ hh'
        rw [he.drew.top] at hv' hh''
        exact hdurable id ((hdisk hh'' v hv' id hid hvalid).of_subset (versions_sync_subset _ _ _)) (Or.inr hs)
    · rintro r' ⟨⟩ id hid hvalid
      exact hdurable id (hnew id hid hvalid) (Or.inl hid)

/-! ### The other events -/

theorem collectGarbage_lasting {r : VaultReaderV2 P} (hw : w.Lasting identity hb) (hr : w.reader = some r) (io : GcIo) :
    wp (collectGarbage io) (fun _ s => World.Lasting ⟨s.host, some s.reader⟩ identity hb) ⟨r, w.host⟩ := by
  refine wp_mono (wp_and (collectGarbage_spec io ⟨r, w.host⟩) (collectGarbage_kept hw.kept hr io)) ?_
  rintro res ⟨r', h⟩ ⟨⟨⟨pending, rfl, -⟩, -, htop, -, hblobs, -, -⟩, hkept⟩
  have hreader : ∀ id ∈ r.manifest.blobIds, validateBlobId id = .ok () → h.blobs.Durable id :=
    fun id hid hvalid => (hw.reader r hr id hid hvalid).of_subset (hblobs id (isGarbage_of_mem hid hvalid))
  refine ⟨hkept, fun hh v hv id hid hvalid => ?_, by rintro r' ⟨⟩; exact hreader⟩
  rcases htop with ⟨htop, hsame⟩ | htop
  · have htop' : h.top = w.host.top := htop
    have hblobs' : h.blobs = w.host.blobs := hsame
    have hh' : some hb ∈ h.top.versions .header := hh
    rw [htop'] at hv hh'
    show h.blobs.Durable id
    rw [hblobs']
    exact hw.disk hh' v hv id hid hvalid
  · rw [htop, versions_sync_true, List.mem_singleton] at hv
    exact hreader id ((hw.kept.reader r hr).current (hv ▸ hid)) hvalid

theorem World.Lasting.step (hw : w.Lasting identity hb) {e : Event} (he : e.SyncsBlobs) :
    (w.step identity e).Lasting identity hb := by
  have hk := hw.kept.step e
  cases e with
  | commit c =>
    exact World.onReader_induction (World.Lasting · identity hb) hw fun r hr => commitWith_lasting hw hr he
  | collectGarbage io =>
    exact World.onReader_induction (World.Lasting · identity hb) hw fun r hr => collectGarbage_lasting hw hr io
  | reopen =>
    refine ⟨hk, hw.disk, fun r hr id hid hvalid => ?_⟩
    have hopen := openVault_of_toOption hr
    have hrefs := refs_of_openVault hopen
    have hheader := header_of_openVault hopen
    rw [(hk.reader r hr).header] at hrefs hheader
    exact hw.disk (hheader ▸ shown_mem_versions _ _) _ (shown_mem_versions _ _) id (hrefs ▸ hid) hvalid
  | crash top blobs =>
    refine ⟨hk, fun hh v hv id hid hvalid => ?_, by rintro r ⟨⟩⟩
    exact (hw.disk (versions_crash_subset _ _ _ hh) v (versions_crash_subset _ _ _ hv) id hid hvalid).of_subset
      (versions_crash_subset _ _ _)

/-! ### Runs -/

theorem World.Lasting.blobsPresent (hw : w.Lasting identity hb) : w.BlobsPresent identity := by
  intro top blobs r hopen e he hk
  have hcrash := hw.step (e := .crash top blobs) trivial
  obtain ⟨id, hid, hvalid⟩ := fileId_of_valid (valid_of_openVault hopen) he hk
  have hre := (hcrash.step (e := .reopen) trivial).reader r (by
    show (openVault P (w.host.crash top blobs).top.shown identity).toOption = some r
    rw [hopen]
    rfl)
  exact ⟨id, hid, (hre id (List.mem_filterMap.2 ⟨e, he, hid⟩) hvalid).shown⟩

/-- The blobs that the reader refers to, or a manifest that a crash can leave visible, are durable. -/
structure World.AllDurable (w : World P) (identity : Identity) : Prop where
  disk : ∀ (top : VaultFile → Nat) (r : VaultReaderV2 P), openVault P (w.host.top.crash top).shown identity = .ok r →
    ∀ id ∈ r.manifest.blobIds, w.host.blobs.Durable id
  reader : ∀ r, w.reader = some r → ∀ id ∈ r.manifest.blobIds, w.host.blobs.Durable id

theorem World.AllDurable.lasting (hd : w.AllDurable identity) (hk : w.Kept identity hb) : w.Lasting identity hb := by
  refine ⟨hk, fun hh v hv id hid _ => ?_, fun r hr id hid _ => hd.reader r hr id hid⟩
  have hmem : ∀ f, vaultFiles hb v f ∈ w.host.top.versions f := by
    intro f
    cases f with
    | header => exact hh
    | manifest => exact hv
  obtain ⟨back, hback⟩ := exists_crash hmem
  unfold refs at hid
  cases ho : openVault P (vaultFiles hb v) identity with
  | error e => simp [ho] at hid
  | ok r =>
    rw [ho] at hid
    exact hd.disk back r (hback ▸ ho) id hid

/-- In a run of a vault with durable blobs, in which each commit that puts a file gets its blobs synced or does not get
to write a manifest, every file of a manifest that a crash leaves visible has its blob. -/
theorem blobs_present (hw : w.Start identity) (hd : w.AllDurable identity) {events : List Event}
    (hsync : ∀ e ∈ events, e.SyncsBlobs) : (w.run identity events).BlobsPresent identity := by
  obtain ⟨hb, hk⟩ := hw.kept
  have hrun : (w.run identity events).Lasting identity hb :=
    World.run_induction (World.Lasting · identity hb) (hd.lasting hk) fun _ e he hw => hw.step (hsync e he)
  exact hrun.blobsPresent

theorem Sym.world_allDurable : Sym.world.AllDurable Sym.alice := by
  have hrefs : ∀ v ∈ Sym.world.host.top.versions .manifest, ∀ hb, hb ∈ Sym.world.host.top.versions .header →
      ∀ x, hb = some x → refs Sym.alice x v = [] := by
    decide
  refine ⟨fun top r hr id hid => ?_, ?_⟩
  · have h := hrefs _ (shown_crash_mem _ top .manifest) _ (shown_crash_mem _ top .header) _ (header_of_openVault hr)
    rw [refs_of_openVault hr] at h
    rw [h] at hid
    simp at hid
  · have hempty : Sym.session.reader.manifest.blobIds = [] := by decide
    rintro r ⟨⟩ id hid
    rw [hempty] at hid
    simp at hid

/-- Every step of a commit works. -/
theorem blobs_present_put :
    (Sym.world.run Sym.alice [Sym.put "a" [1] .fine, Sym.put "a" [2] .fine]).BlobsPresent Sym.alice := by
  refine blobs_present Sym.world_start Sym.world_allDurable ?_
  rintro e (_ | ⟨_, _ | ⟨_, h⟩⟩)
  · exact Or.inl rfl
  · exact Or.inl rfl
  · cases h

/-- The sync of the blobs directory fails, all else works. -/
def CommitIo.blobsUnsynced : CommitIo := { CommitIo.fine with blobsSync := false }

/-- A file is put and replaced; the second commit fails to sync the blobs. -/
private def unsynced : World Sym := Sym.world.run Sym.alice [Sym.put "a" [1] .fine, Sym.put "a" [2] .blobsUnsynced]

/-- A crash undoes the last change of every blob that is there; deleted ones stay deleted. -/
private def lost : Host Sym :=
  unsynced.host.crash (fun _ => 0) fun id => if (unsynced.host.blobs.shown id).isSome then 1 else 0

set_option maxRecDepth 10000 in
private theorem lost_opens : (openVault Sym lost.top.shown Sym.alice).toOption.isSome = true := by decide

set_option maxRecDepth 10000 in
/-- The crash takes the new blob, while the manifest that refers to it stays and the old blob is already deleted. -/
theorem blobs_present_fails : ¬ unsynced.BlobsPresent Sym.alice := by
  intro h
  have hfile : ∃ e ∈ ((openVault Sym lost.top.shown Sym.alice).toOption.get lost_opens).manifest.entries,
      e.kind = .file ∧ ∃ id ∈ e.fileId, lost.blobs.shown id = none := by
    decide
  obtain ⟨e, he, hk, id, hid, hnone⟩ := hfile
  obtain ⟨id', hid', hsome⟩ := h _ _ _ (eq_ok_get lost_opens) e he hk
  rw [hid] at hid'
  cases hid'
  exact hsome hnone

end FileSec
