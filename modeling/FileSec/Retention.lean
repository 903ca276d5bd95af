import FileSec.Symbolic
import FileSec.Validation
import FileSec.World

/-!
# No needed blob is deleted

A blob that has ever been unlinked is referred to by no manifest that a crash can leave behind, whatever commits,
garbage collections, reopenings and crashes there were and whatever failed in them (`needed_blob_kept`).  The invariant
`World.Kept` relates the manifests a crash can bring back, the manifest in memory, the queue of blobs to reclaim and the
blobs unlinked so far.
-/

namespace FileSec

open CrashDir Prog

variable {P : Prims} {identity : Identity} {hb : P.Raw} {w : World P}

/-- The files of a vault with the header `hb` and the manifest file `v`. -/
def vaultFiles (hb : P.Raw) (v : Option P.Raw) : VaultFile → Option P.Raw
  | .header => some hb
  | .manifest => v

/-- The blobs the manifest file `v` refers to. -/
def refs (identity : Identity) (hb : P.Raw) (v : Option P.Raw) : List Str :=
  match openVault P (vaultFiles hb v) identity with
  | .ok r => r.manifest.blobIds
  | .error _ => []

/-- The ids that the blobs directory, a manifest or the reader knows. -/
def World.Known (w : World P) (identity : Identity) (hb : P.Raw) (id : Str) : Prop :=
  id ∈ w.host.blobs.unlinked ∨ (∃ c, some c ∈ w.host.blobs.versions id) ∨
    (∃ v ∈ w.host.top.versions .manifest, id ∈ refs identity hb v) ∨
    ∃ r, w.reader = some r ∧ (id ∈ r.manifest.blobIds ∨ id ∈ r.pendingReclaim)

/-- What the reader in memory has to do with what is on disk. -/
structure World.ReaderKept (w : World P) (identity : Identity) (hb : P.Raw) (r : VaultReaderV2 P) : Prop where
  belongs : r.Belongs identity
  header : r.headerBytes = hb
  distinct : r.manifest.blobIds.Nodup
  kept : ∀ id ∈ r.manifest.blobIds, validateBlobId id = .ok () → id ∉ w.host.blobs.unlinked
  current : refs identity hb (w.host.top.shown .manifest) ⊆ r.manifest.blobIds
  pending : ∀ id ∈ r.pendingReclaim, id ∉ r.manifest.blobIds

/-- No manifest in sight refers to a blob that has been unlinked. -/
structure World.Kept (w : World P) (identity : Identity) (hb : P.Raw) : Prop where
  header : ∀ v ∈ w.host.top.versions .header, v = none ∨ v = some hb
  distinct : ∀ v ∈ w.host.top.versions .manifest, (refs identity hb v).Nodup
  kept : ∀ v ∈ w.host.top.versions .manifest, ∀ id ∈ refs identity hb v, validateBlobId id = .ok () →
    id ∉ w.host.blobs.unlinked
  reader : ∀ r, w.reader = some r → w.ReaderKept identity hb r
  fresh : w.host.rng.Fresh (w.Known identity hb)

/-! ### References -/

theorem refs_of_openVault {files : VaultFile → Option P.Raw} {r : VaultReaderV2 P}
    (h : openVault P files identity = .ok r) : refs identity r.headerBytes (files .manifest) = r.manifest.blobIds := by
  have hfiles : vaultFiles r.headerBytes (files .manifest) = files := by
    funext f
    cases f with
    | header => exact (header_of_openVault h).symm
    | manifest => rfl
  unfold refs
  rw [hfiles, h]

/-- A sealed manifest refers to its blobs, or to none if it cannot be opened again. -/
theorem refs_sealedRaw {r : VaultReaderV2 P} (hr : r.Belongs identity) {m : ManifestV2} {state : P.State}
    {nonce : Bytes} (hstate : r.nextState m = .ok state) (hnonce : nonce.length = r.suite.aeadAlg.nonceLen) :
    refs identity r.headerBytes (some (r.sealedRaw m state nonce)) = m.blobIds ∨
      refs identity r.headerBytes (some (r.sealedRaw m state nonce)) = [] := by
  unfold refs
  cases h : openVault P (vaultFiles r.headerBytes (some (r.sealedRaw m state nonce))) identity with
  | error e => exact Or.inr rfl
  | ok r' =>
    obtain ⟨-, -, -, rfl⟩ := (openVault_sealed hr hstate hnonce rfl rfl).1 h
    exact Or.inl rfl

/-- Garbage is no blob that is referred to. -/
theorem not_mem_of_isGarbage {referenced : List Str} {id : Str} (hg : isGarbage referenced id = true)
    (hv : validateBlobId id = .ok ()) : id ∉ referenced := by
  intro hmem
  have htemp : isSafeWriterTemp id = true := by
    simpa [isGarbage, hmem] using hg
  unfold isSafeWriterTemp at htemp
  cases hp : ".filesec-".toList.isPrefixOf? id with
  | none =>
    rw [hp] at htemp
    simp at htemp
  | some rest =>
    obtain rfl := (List.isPrefixOf?_eq_some_iff_append_eq.1 hp).symm
    unfold validateBlobId at hv
    split at hv
    · simp at hv
    · split at hv
      · rename_i hall
        rw [List.all_append, Bool.and_eq_true] at hall
        exact absurd hall.1 (by decide)
      · simp at hv

theorem isGarbage_of_mem {referenced : List Str} {id : Str} (hid : id ∈ referenced) (hv : validateBlobId id = .ok ()) :
    isGarbage referenced id = false := by
  rw [Bool.eq_false_iff]
  exact fun hg => not_mem_of_isGarbage hg hv hid

/-! ### Commits -/

/-- A commit after `k` draws has left the batch `b`: what is known of its blobs. -/
structure World.Account (w : World P) (identity : Identity) (hb : P.Raw) (r : VaultReaderV2 P) (k : Nat)
    (b : VaultBatch P) : Prop where
  /-- The manifest and the superseded blobs of the batch have nothing in common. -/
  distinct : b.ids.Nodup
  /-- The batch refers to no unlinked blob. -/
  kept : ∀ id ∈ b.ids, validateBlobId id = .ok () → id ∉ b.host.blobs.unlinked
  known : ∀ id ∈ b.ids, id ∈ r.manifest.blobIds ∨ id ∈ w.host.rng.drawn k
  unlinked : ∀ id ∈ b.host.blobs.unlinked, id ∈ w.host.blobs.unlinked ∨ id ∈ w.host.rng.drawn k
  present : ∀ id c, some c ∈ b.host.blobs.versions id → w.Known identity hb id ∨ id ∈ w.host.rng.drawn k

theorem World.Kept.account {r : VaultReaderV2 P} (hw : w.Kept identity hb) (hr : w.reader = some r) {k : Nat}
    {b : VaultBatch P} (he : Session.Edited ⟨r, w.host⟩ k b) : w.Account identity hb r k b := by
  have hrk := hw.reader r hr
  have hknown : ∀ id ∈ r.manifest.blobIds, w.Known identity hb id :=
    fun id hid => Or.inr (Or.inr (Or.inr ⟨r, hr, Or.inl hid⟩))
  have hf : w.host.rng.Fresh (· ∈ r.manifest.blobIds) := hw.fresh.mono hknown
  have hmem : ∀ id ∈ b.ids, id ∈ r.manifest.blobIds ∨ id ∈ w.host.rng.drawn k :=
    fun id hid => List.mem_append.1 (he.ids.subset hid)
  refine ⟨(hf.ids hrk.distinct he.ids).1, ?_, hmem, fun id hid => he.drew.blobs.mem_unlinked hid, ?_⟩
  · intro id hid hv hun
    -- the id is counted once among the blobs of the reader and those drawn, so once among those of the batch
    have hcount := he.unlinked.count_le id
    have h1 : 1 ≤ b.ids.count id := List.count_pos_iff.2 hid
    have h2 : 1 ≤ b.host.blobs.unlinked.count id := List.count_pos_iff.2 hun
    have h3 := List.nodup_iff_count_le_one.1 hrk.distinct id
    have h4 := List.nodup_iff_count_le_one.1 (hw.fresh.nodup_drawn k) id
    simp only [List.count_append] at hcount
    rcases hmem id hid with hold | hnew
    · have h5 : w.host.blobs.unlinked.count id = 0 := List.count_eq_zero.2 (hrk.kept id hold hv)
      have h6 : (w.host.rng.drawn k).count id = 0 := List.count_eq_zero.2 fun hd => hw.fresh.not_drawn hd (hknown id hold)
      omega
    · have h5 : w.host.blobs.unlinked.count id = 0 :=
        List.count_eq_zero.2 fun hu => hw.fresh.not_drawn hnew (Or.inl hu)
      have h6 : r.manifest.blobIds.count id = 0 := List.count_eq_zero.2 fun hm => hw.fresh.not_drawn hnew (hknown id hm)
      omega
  · intro id c hc
    by_cases hd : id ∈ w.host.rng.drawn k
    · exact Or.inr hd
    · rw [he.drew.blobs.others id hd] at hc
      exact Or.inl (Or.inr (Or.inl ⟨c, hc⟩))

/-- Neither the blobs queued before nor those superseded now are referred to by the manifest of the batch. -/
theorem World.Account.not_mem {r : VaultReaderV2 P} {k : Nat} {b : VaultBatch P} (ha : w.Account identity hb r k b)
    (hw : w.Kept identity hb) (hr : w.reader = some r) :
    ∀ id ∈ r.pendingReclaim ++ b.superseded, id ∉ b.manifest.blobIds := by
  intro id hid hm
  rcases List.mem_append.1 hid with hid | hid
  · rcases ha.known id (List.mem_append_left _ hm) with hold | hd
    · exact (hw.reader r hr).pending id hid hold
    · exact hw.fresh.not_drawn hd (Or.inr (Or.inr (Or.inr ⟨r, hr, Or.inr hid⟩)))
  · have hnd := ha.distinct
    rw [VaultBatch.ids, List.nodup_append] at hnd
    exact hnd.2.2 id hm id hid rfl

/-- A world whose manifests are all known: the reader is still `r`, and only blobs just drawn were unlinked. -/
private theorem kept_of_same {r : VaultReaderV2 P} (hw : w.Kept identity hb) (hr : w.reader = some r) {k j : Nat}
    {h : Host P} (htop : h.top = w.host.top) (hrng : h.rng = fun i => w.host.rng (i + (k + j)))
    (hun : ∀ id ∈ h.blobs.unlinked, id ∈ w.host.blobs.unlinked ∨ id ∈ w.host.rng.drawn k)
    (hpresent : ∀ id c, some c ∈ h.blobs.versions id → w.Known identity hb id ∨ id ∈ w.host.rng.drawn k) :
    World.Kept ⟨h, some r⟩ identity hb := by
  have hkeep : ∀ id, w.Known identity hb id → id ∉ w.host.blobs.unlinked → id ∉ h.blobs.unlinked := by
    intro id hid hnot hmem
    rcases hun id hmem with hmem | hmem
    · exact hnot hmem
    · exact hw.fresh.not_drawn hmem hid
  have hrk := hw.reader r hr
  refine ⟨?_, ?_, ?_, ?_, ?_⟩
  · simpa only [htop] using hw.header
  · simpa only [htop] using hw.distinct
  · simp only [htop]
    exact fun v hv id hid hvalid =>
      hkeep id (Or.inr (Or.inr (Or.inl ⟨v, hv, hid⟩))) (hw.kept v hv id hid hvalid)
  · rintro r' ⟨⟩
    refine ⟨hrk.belongs, hrk.header, hrk.distinct, fun id hid hvalid => ?_, ?_, hrk.pending⟩
    · exact hkeep id (Or.inr (Or.inr (Or.inr ⟨r, hr, Or.inl hid⟩))) (hrk.kept id hid hvalid)
    · simpa only [htop] using hrk.current
  · simp only [hrng]
    refine (hw.fresh.shift (k + j)).mono ?_
    have hsub : ∀ id ∈ w.host.rng.drawn k, id ∈ w.host.rng.drawn (k + j) := by
      intro id hid
      rw [drawn_add]
      exact List.mem_append_left _ hid
    rintro id (hid | ⟨c, hc⟩ | hid | ⟨r', hr', hid⟩)
    · rcases hun id hid with hid | hid
      · exact Or.inl (Or.inl hid)
      · exact Or.inr (hsub id hid)
    · exact (hpresent id c hc).imp_right (hsub id)
    · simp only [htop] at hid
      exact Or.inl (Or.inr (Or.inr (Or.inl hid)))
    · cases hr'
      exact Or.inl (Or.inr (Or.inr (Or.inr ⟨r, hr, hid⟩)))

/-- A world in which `r` has sealed the manifest of the batch `b`. -/
private theorem kept_of_sealed {r : VaultReaderV2 P} (hw : w.Kept identity hb) (hr : w.reader = some r) {k : Nat}
    {b : VaultBatch P} (ha : w.Account identity hb r k b) {state : P.State} {nonce : Bytes}
    (hnext : r.nextState b.manifest = .ok state) (hnonce : nonce.length = r.suite.aeadAlg.nonceLen) {synced : Bool}
    {h : Host P} (htop : h.top = (w.host.top.write .manifest (r.sealedRaw b.manifest state nonce)).sync synced)
    (hrng : h.rng = fun i => w.host.rng (i + (k + 1)))
    (hun : ∀ id ∈ h.blobs.unlinked, id ∈ b.host.blobs.unlinked ∨
      synced = true ∧ id ∈ r.pendingReclaim ++ b.superseded)
    (hpresent : ∀ id c, some c ∈ h.blobs.versions id → some c ∈ b.host.blobs.versions id) :
    World.Kept ⟨h, some (r.committed b state synced)⟩ identity hb := by
  have hrk := hw.reader r hr
  have hdrawn : ∀ id ∈ w.host.rng.drawn k, ¬ w.Known identity hb id := fun id hid => hw.fresh.not_drawn hid
  have hidsKnown : ∀ id ∈ b.ids, w.Known identity hb id ∨ id ∈ w.host.rng.drawn k := fun id hid =>
    (ha.known id hid).imp_left fun hid => Or.inr (Or.inr (Or.inr ⟨r, hr, Or.inl hid⟩))
  have hnew : refs identity hb (some (r.sealedRaw b.manifest state nonce)) = b.manifest.blobIds ∨
      refs identity hb (some (r.sealedRaw b.manifest state nonce)) = [] := by
    rw [← hrk.header]
    exact refs_sealedRaw hrk.belongs hnext hnonce
  have hnewsub : refs identity hb (some (r.sealedRaw b.manifest state nonce)) ⊆ b.manifest.blobIds := by
    rcases hnew with hnew | hnew
    · exact hnew ▸ List.Subset.refl _
    · exact hnew ▸ List.nil_subset _
  have hdis : b.manifest.blobIds.Nodup := ha.distinct.sublist (List.sublist_append_left _ _)
  have hpending := ha.not_mem hw hr
  have hkept : ∀ id ∈ b.manifest.blobIds, validateBlobId id = .ok () → id ∉ h.blobs.unlinked := by
    intro id hm hv hu
    rcases hun id hu with hu | ⟨-, hu⟩
    · exact ha.kept id (List.mem_append_left _ hm) hv hu
    · exact hpending id hu hm
  -- the versions of the manifest: the new one, and unless the directory was synced the old ones
  have hversions : ∀ v ∈ h.top.versions .manifest, v = some (r.sealedRaw b.manifest state nonce) ∨
      synced = false ∧ v ∈ w.host.top.versions .manifest := by
    intro v hv
    rw [htop] at hv
    exact mem_versions_write_sync hv
  refine ⟨?_, ?_, ?_, ?_, ?_⟩
  · intro v hv
    rw [htop] at hv
    exact hw.header v (versions_write_sync_of_ne (by decide) _ hv)
  · intro v hv
    rcases hversions v hv with rfl | ⟨-, hv⟩
    · rcases hnew with hnew | hnew
      · exact hnew ▸ hdis
      · rw [hnew]
        exact List.nodup_nil
    · exact hw.distinct v hv
  · intro v hv id hid hvalid hu
    rcases hversions v hv with rfl | ⟨hs, hv⟩
    · exact hkept id (hnewsub hid) hvalid hu
    · rcases hun id hu with hu | ⟨hs', -⟩
      · rcases ha.unlinked id hu with hu | hu
        · exact hw.kept v hv id hid hvalid hu
        · exact hdrawn id hu (Or.inr (Or.inr (Or.inl ⟨v, hv, hid⟩)))
      · rw [hs] at hs'
        simp at hs'
  · rintro r' ⟨⟩
    refine ⟨⟨hrk.belongs.header, hrk.belongs.owner⟩, hrk.header, hdis, hkept, ?_, ?_⟩
    · have hshown : h.top.shown .manifest = some (r.sealedRaw b.manifest state nonce) := by
        rw [htop, shown_sync, shown_write_self]
      simp only [hshown]
      exact hnewsub
    · intro id hid
      cases synced with
      | true => simp [VaultReaderV2.committed] at hid
      | false => exact hpending id (by simpa [VaultReaderV2.committed] using hid)
  · simp only [hrng]
    refine (hw.fresh.shift (k + 1)).mono ?_
    have hsub : ∀ id, w.Known identity hb id ∨ id ∈ w.host.rng.drawn k →
        w.Known identity hb id ∨ id ∈ w.host.rng.drawn (k + 1) := by
      rintro id (hid | hid)
      · exact Or.inl hid
      · rw [drawn_add]
        exact Or.inr (List.mem_append_left _ hid)
    rintro id (hid | ⟨c, hc⟩ | ⟨v, hv, hid⟩ | ⟨r', hr', hid⟩)
    · rcases hun id hid with hid | ⟨-, hid⟩
      · exact hsub id ((ha.unlinked id hid).imp_left Or.inl)
      · rcases List.mem_append.1 hid with hid | hid
        · exact Or.inl (Or.inr (Or.inr (Or.inr ⟨r, hr, Or.inr hid⟩)))
        · exact hsub id (hidsKnown id (List.mem_append_right _ hid))
    · exact hsub id (ha.present id c (hpresent id c hc))
    · rcases hversions v hv with rfl | ⟨-, hv⟩
      · exact hsub id (hidsKnown id (List.mem_append_left _ (hnewsub hid)))
      · exact Or.inl (Or.inr (Or.inr (Or.inl ⟨v, hv, hid⟩)))
    · cases hr'
      rcases hid with hid | hid
      · exact hsub id (hidsKnown id (List.mem_append_left _ hid))
      · cases synced with
        | true => simp [VaultReaderV2.committed] at hid
        | false =>
          rcases List.mem_append.1 (by simpa [VaultReaderV2.committed] using hid) with hid | hid
          · exact Or.inl (Or.inr (Or.inr (Or.inr ⟨r, hr, Or.inr hid⟩)))
          · exact hsub id (hidsKnown id (List.mem_append_right _ hid))

/-- A commit, whatever becomes of it, deletes no needed blob. -/
theorem commitWith_kept {r : VaultReaderV2 P} (hw : w.Kept identity hb) (hr : w.reader = some r) (limit : Option Nat)
    (edits : Edits) (io : CommitIo) :
    wp (commitWith limit edits io) (fun _ s => World.Kept ⟨s.host, some s.reader⟩ identity hb) ⟨r, w.host⟩ := by
  refine wp_mono (commitWith_outcome ⟨r, w.host⟩ limit edits io) ?_
  obtain ⟨k, he⟩ := edited_spec ⟨r, w.host⟩ limit edits
  generalize Session.edited ⟨r, w.host⟩ limit edits = p at he
  obtain ⟨edited, b⟩ := p
  intro res s hout
  simp only at he hout
  have ha := hw.account hr he
  have hrng : ∀ j, (fun i => b.host.rng (i + j)) = fun i => w.host.rng (i + (k + j)) := by
    intro j
    rw [he.drew.rng]
    funext i
    show w.host.rng (i + j + k) = _
    rw [Nat.add_assoc, Nat.add_comm j k]
  cases hout with
  | unchanged => exact kept_of_same hw hr he.drew.top (hrng 0) ha.unlinked ha.present
  | @failed e h hhost =>
    have hunlink : ∀ d : Dir Str Bytes, d.unlinked = b.host.blobs.unlinked →
        ∀ id ∈ (d.unlinkAll b.staged io.unlinkOk).unlinked,
          id ∈ w.host.blobs.unlinked ∨ id ∈ w.host.rng.drawn k := by
      intro d hd id hid
      rcases mem_unlinked_unlinkAll hid with hid | hid
      · exact Or.inr (he.staged hid)
      · exact ha.unlinked id (hd ▸ hid)
    rcases hhost with rfl | ⟨j, rfl⟩
    · exact kept_of_same hw hr he.drew.top (hrng 0) (hunlink _ rfl) fun id c hc =>
        ha.present id c (some_mem_versions_unlinkAll hc)
    · exact kept_of_same hw hr he.drew.top (hrng j) (hunlink _ (unlinked_sync _ _)) fun id c hc =>
        ha.present id c (versions_sync_subset _ _ _ (some_mem_versions_unlinkAll hc))
  | @sealed state nonce h _ _ hsealed =>
    obtain ⟨hnext, hdrawn, -, rfl⟩ := hsealed
    have hnonce := randomVec_length hdrawn
    have hsync : ∀ id c, some c ∈ (b.host.blobs.sync io.blobsSync).versions id → some c ∈ b.host.blobs.versions id :=
      fun id c hc => versions_sync_subset _ _ _ hc
    refine kept_of_sealed hw hr ha hnext hnonce (h := if io.vaultSync then _ else _) ?_ ?_ ?_ ?_
    · rw [← he.drew.top]
      split <;> rfl
    · rw [← hrng 1]
      split <;> rfl
    · split
      · rename_i hs
        intro id hid
        rcases mem_unlinked_unlinkAll hid with hid | hid
        · exact Or.inr ⟨hs, hid⟩
        · exact Or.inl (by simpa using hid)
      · exact fun id hid => Or.inl (by simpa using hid)
    · split
      · exact fun id c hc => hsync id c (some_mem_versions_unlinkAll hc)
      · exact hsync

/-! ### The other events -/

theorem collectGarbage_kept {r : VaultReaderV2 P} (hw : w.Kept identity hb) (hr : w.reader = some r) (io : GcIo) :
    wp (collectGarbage io) (fun _ s => World.Kept ⟨s.host, some s.reader⟩ identity hb) ⟨r, w.host⟩ := by
  refine wp_mono (collectGarbage_spec io ⟨r, w.host⟩) ?_
  rintro res ⟨r', h⟩ ⟨⟨pending, rfl, hsub⟩, hrng, htop, hun, -, hpresent, -⟩
  have hrk := hw.reader r hr
  have htop' : ∀ f, h.top.versions f ⊆ w.host.top.versions f := by
    intro f
    rcases htop with ⟨htop, -⟩ | htop
    · rw [htop]
      exact List.Subset.refl _
    · rw [htop]
      exact versions_sync_subset _ _ _
  have hshown : h.top.shown = w.host.top.shown := by
    rcases htop with ⟨htop, -⟩ | htop
    · rw [htop]
    · rw [htop, shown_sync]
  have hkept : ∀ id ∈ r.manifest.blobIds, validateBlobId id = .ok () → id ∉ h.blobs.unlinked := by
    intro id hid hvalid hu
    rcases hun id hu with hu | ⟨-, -, hg⟩
    · exact hrk.kept id hid hvalid hu
    · exact not_mem_of_isGarbage hg hvalid hid
  refine ⟨fun v hv => hw.header v (htop' _ hv), fun v hv => hw.distinct v (htop' _ hv), ?_, ?_, ?_⟩
  · intro v hv id hid hvalid hu
    rcases hun id hu with hu | ⟨hsync, -, hg⟩
    · exact hw.kept v (htop' _ hv) id hid hvalid hu
    · -- the directory was synced: the only version left is the one the reader knows
      rw [hsync, versions_sync_true, List.mem_singleton] at hv
      exact not_mem_of_isGarbage hg hvalid (hrk.current (hv ▸ hid))
  · rintro r' ⟨⟩
    refine ⟨⟨hrk.belongs.header, hrk.belongs.owner⟩, hrk.header, hrk.distinct, hkept, ?_,
      fun id hid => hrk.pending id (hsub hid)⟩
    simp only [hshown]
    exact hrk.current
  · have hrng' : h.rng = w.host.rng := hrng
    show h.rng.Fresh _
    rw [hrng']
    refine hw.fresh.mono ?_
    rintro id (hid | ⟨c, hc⟩ | ⟨v, hv, hid⟩ | ⟨r', hr', hid⟩)
    · rcases hun id hid with hid | ⟨-, hs, -⟩
      · exact Or.inl hid
      · obtain ⟨c, hc⟩ := Option.ne_none_iff_exists'.1 hs
        exact Or.inr (Or.inl ⟨c, hc ▸ shown_mem_versions _ _⟩)
    · exact Or.inr (Or.inl ⟨c, hpresent id c hc⟩)
    · exact Or.inr (Or.inr (Or.inl ⟨v, htop' _ hv, hid⟩))
    · cases hr'
      exact Or.inr (Or.inr (Or.inr ⟨r, hr, hid.imp_right fun hid => hsub hid⟩))

theorem World.Kept.reopen (hw : w.Kept identity hb) : (w.step identity .reopen).Kept identity hb := by
  have hfresh : ∀ {r}, openVault P w.host.top.shown identity = .ok r → r.headerBytes = hb ∧
      refs identity hb (w.host.top.shown .manifest) = r.manifest.blobIds := by
    intro r hr
    have hheader : r.headerBytes = hb := by
      rcases hw.header _ (shown_mem_versions _ _) with h | h
      · rw [header_of_openVault hr] at h
        simp at h
      · rw [header_of_openVault hr, Option.some.injEq] at h
        exact h
    exact ⟨hheader, hheader ▸ refs_of_openVault hr⟩
  have hshown : w.host.top.shown .manifest ∈ w.host.top.versions .manifest := shown_mem_versions _ _
  refine ⟨hw.header, hw.distinct, hw.kept, ?_, ?_⟩
  · intro r hr
    have hopen := openVault_of_toOption hr
    obtain ⟨hheader, hrefs⟩ := hfresh hopen
    refine ⟨belongs_of_openVault hopen, hheader, hrefs ▸ hw.distinct _ hshown, ?_, ?_, ?_⟩
    · rw [← hrefs]
      exact hw.kept _ hshown
    · exact hrefs ▸ List.Subset.refl _
    · rw [pendingReclaim_of_openVault hopen]
      simp
  · refine hw.fresh.mono ?_
    rintro id (hid | hid | hid | ⟨r, hr, hid⟩)
    · exact Or.inl hid
    · exact Or.inr (Or.inl hid)
    · exact Or.inr (Or.inr (Or.inl hid))
    · have hopen := openVault_of_toOption hr
      rw [pendingReclaim_of_openVault hopen, ← (hfresh hopen).2] at hid
      rcases hid with hid | hid
      · exact Or.inr (Or.inr (Or.inl ⟨_, hshown, hid⟩))
      · simp at hid

theorem World.Kept.crash (hw : w.Kept identity hb) (top : VaultFile → Nat) (blobs : Str → Nat) :
    (w.step identity (.crash top blobs)).Kept identity hb := by
  have htop : ∀ f, (w.host.top.crash top).versions f ⊆ w.host.top.versions f := fun f => versions_crash_subset _ _ f
  refine ⟨fun v hv => hw.header v (htop _ hv), fun v hv => hw.distinct v (htop _ hv),
    fun v hv => hw.kept v (htop _ hv), by rintro r ⟨⟩, hw.fresh.mono ?_⟩
  rintro id (hid | ⟨c, hc⟩ | ⟨v, hv, hid⟩ | ⟨r, hr, -⟩)
  · exact Or.inl hid
  · exact Or.inr (Or.inl ⟨c, versions_crash_subset _ _ _ hc⟩)
  · exact Or.inr (Or.inr (Or.inl ⟨v, htop _ hv, hid⟩))
  · cases hr

theorem World.Kept.step (hw : w.Kept identity hb) (e : Event) : (w.step identity e).Kept identity hb := by
  cases e with
  | commit c =>
    exact World.onReader_induction (World.Kept · identity hb) hw fun r hr => commitWith_kept hw hr c.limit c.edits c.io
  | collectGarbage io =>
    exact World.onReader_induction (World.Kept · identity hb) hw fun r hr => collectGarbage_kept hw hr io
  | reopen => exact hw.reopen
  | crash top blobs => exact hw.crash top blobs

/-! ### Runs -/

/-- Where runs start: with a vault that a builder has made in an empty directory, or with one found on disk whose
manifests each refer to distinct blobs, none of which has been unlinked.  The blob ids to come are new. -/
inductive World.Start (identity : Identity) : World P → Prop
  | built {builder : Builder P} {h h' : Host P} {r : VaultReaderV2 P} (hdir : h.top = Dir.empty)
      (fresh : h.rng.Fresh fun id => id ∈ h.blobs.unlinked ∨ ∃ c, some c ∈ h.blobs.versions id)
      (hrun : exec (builder.run identity) h = (.ok r, h')) : Start identity ⟨h', some r⟩
  | found {h : Host P} {hb : P.Raw} (header : ∀ v ∈ h.top.versions .header, v = none ∨ v = some hb)
      (distinct : ∀ v ∈ h.top.versions .manifest, (refs identity hb v).Nodup)
      (kept : ∀ v ∈ h.top.versions .manifest, ∀ id ∈ refs identity hb v, id ∉ h.blobs.unlinked)
      (fresh : h.rng.Fresh fun id => id ∈ h.blobs.unlinked ∨ (∃ c, some c ∈ h.blobs.versions id) ∨
        ∃ v ∈ h.top.versions .manifest, id ∈ refs identity hb v) : Start identity ⟨h, none⟩

theorem refs_none : refs identity hb none = [] := by
  unfold refs
  cases h : openVault P (vaultFiles hb none) identity with
  | error e => rfl
  | ok r =>
    obtain ⟨_, _, _, _, -, -, -, hm, -⟩ := openVault_eq_ok.1 h
    simp [vaultFiles] at hm

/-- The empty vault refers to nothing. -/
theorem Session.Created.refs {s : Session P} {h : Host P} (hs : s.Created identity h) (hdir : h.top = Dir.empty) :
    ∀ v ∈ s.host.top.versions .manifest, refs identity s.reader.headerBytes v = [] := by
  obtain ⟨state, nonce, -, hnext, hnonce, -, hversions⟩ := hs.sealed
  have hbel : VaultReaderV2.Belongs { s.reader with state := none } identity := ⟨hs.belongs.header, hs.belongs.owner⟩
  have hempty : s.reader.manifest.blobIds = [] := by simp [ManifestV2.blobIds, hs.empty]
  intro v hv
  rcases List.mem_cons.1 (hversions hv) with rfl | hv
  · rcases refs_sealedRaw hbel hnext hnonce with h | h
    · exact h.trans hempty
    · exact h
  · rw [hdir] at hv
    have : v = none := by simpa [Dir.versions, Dir.empty] using hv
    rw [this, refs_none]

theorem Session.Created.kept {s : Session P} {h : Host P} (hs : s.Created identity h) (hdir : h.top = Dir.empty)
    (fresh : h.rng.Fresh fun id => id ∈ h.blobs.unlinked ∨ ∃ c, some c ∈ h.blobs.versions id) :
    World.Kept ⟨s.host, some s.reader⟩ identity s.reader.headerBytes := by
  have hrefs := hs.refs hdir
  have hempty : s.reader.manifest.blobIds = [] := by simp [ManifestV2.blobIds, hs.empty]
  refine ⟨?_, ?_, ?_, ?_, ?_⟩
  · intro v hv
    rcases List.mem_cons.1 (hs.header.2 hv) with rfl | hv
    · exact Or.inr rfl
    · rw [hdir] at hv
      exact Or.inl (by simpa [Dir.versions, Dir.empty] using hv)
  · intro v hv
    rw [hrefs v hv]
    exact List.nodup_nil
  · intro v hv id hid
    rw [hrefs v hv] at hid
    simp at hid
  · rintro r ⟨⟩
    refine ⟨hs.belongs, rfl, by simp [hempty], by simp [hempty], ?_, by simp [hs.pending]⟩
    rw [hrefs _ (shown_mem_versions _ _)]
    exact List.nil_subset _
  · obtain ⟨k, hk⟩ := hs.rng
    obtain ⟨ok, hblobs⟩ := hs.blobs
    rw [hk]
    refine (fresh.skip k).mono ?_
    rintro id (hid | ⟨c, hc⟩ | ⟨v, hv, hid⟩ | ⟨r, hr, hid⟩)
    · rw [hblobs, unlinked_sync] at hid
      exact Or.inl hid
    · rw [hblobs] at hc
      exact Or.inr ⟨c, versions_sync_subset _ _ _ hc⟩
    · rw [hrefs v hv] at hid
      simp at hid
    · cases hr
      simp [hempty, hs.pending] at hid

theorem World.Start.kept (hw : w.Start identity) : ∃ hb, w.Kept identity hb := by
  cases hw with
  | built hdir fresh hrun =>
    obtain ⟨s, hs, edits, io, hcommit⟩ := Builder.run_ok hrun
    exact ⟨_, of_wp (commitWith_kept (hs.kept hdir fresh) rfl none edits io) hcommit⟩
  | @found h hb header distinct kept fresh =>
    refine ⟨hb, header, distinct, fun v hv id hid _ => kept v hv id hid, by rintro r ⟨⟩, fresh.mono ?_⟩
    rintro id (hid | hid | hid | ⟨r, hr, -⟩)
    · exact Or.inl hid
    · exact Or.inr (Or.inl hid)
    · exact Or.inr (Or.inr hid)
    · cases hr

theorem World.Start.run (hw : w.Start identity) (events : List Event) :
    ∃ hb, (w.run identity events).Kept identity hb := by
  obtain ⟨hb, hk⟩ := hw.kept
  exact ⟨hb, World.run_induction (World.Kept · identity hb) hk fun _ e _ hw => hw.step e⟩

/-- The blobs of a file entry that a crash can leave visible. -/
private theorem needed_of_crash (hw : w.Kept identity hb) {top : VaultFile → Nat} {r : VaultReaderV2 P}
    (h : openVault P (w.host.top.crash top).shown identity = .ok r) :
    ∃ v ∈ w.host.top.versions .manifest, refs identity hb v = r.manifest.blobIds := by
  have hheader : r.headerBytes = hb := by
    rcases hw.header _ (shown_crash_mem w.host.top top .header) with h' | h'
    · rw [header_of_openVault h] at h'
      simp at h'
    · rw [header_of_openVault h, Option.some.injEq] at h'
      exact h'
  exact ⟨_, shown_crash_mem w.host.top top .manifest, hheader ▸ refs_of_openVault h⟩

/-- After any run, no blob that was ever deleted belongs to a file of a manifest that a crash leaves visible. -/
theorem needed_blob_kept (hw : w.Start identity) (events : List Event) {id : Str}
    (hid : id ∈ (w.run identity events).host.blobs.unlinked) (top : VaultFile → Nat) {r : VaultReaderV2 P}
    (hopen : openVault P ((w.run identity events).host.top.crash top).shown identity = .ok r) :
    ∀ e ∈ r.manifest.entries, e.kind = .file → e.fileId ≠ some id := by
  intro e he hk hfile
  obtain ⟨hb, hkept⟩ := hw.run events
  obtain ⟨v, hv, hrefs⟩ := needed_of_crash hkept hopen
  obtain ⟨id', hid', hvalid⟩ := fileId_of_valid (valid_of_openVault hopen) he hk
  rw [hfile, Option.some.injEq] at hid'
  subst hid'
  exact hkept.kept v hv id (hrefs ▸ List.mem_filterMap.2 ⟨e, he, hfile⟩) hvalid hid

/-! A file is put twice; the second commit makes the first blob superfluous and deletes it. -/

namespace Sym

/-- The new vault with its reader. -/
def world : World Sym := ⟨session.host, some session.reader⟩

theorem world_start : world.Start alice := by
  have hrun : exec ((Builder.create .classic "v".toList 0 none .fine).run alice) (host 16) =
      (.ok session.reader, session.host) := Prod.ext (eq_ok_get created_ok) rfl
  refine .built rfl (Rng.fresh_of_finite 16 (fun i hi => if_neg (by omega)) (by decide) ?_) hrun
  rintro id - (hid | ⟨c, hc⟩)
  · cases hid
  · simp [host, Dir.empty, Dir.versions] at hc

/-- The commit of a batch that puts one file. -/
def put (path : String) (bytes : Bytes) (io : CommitIo) : Event :=
  .commit ⟨none, .ofList [.putBytes path.toList bytes .fine none none], io⟩

/-- The vault with a file in a directory. -/
def withFile : World Sym := world.run alice [put "d/x" [1] .fine]

end Sym

private def replaced : World Sym := Sym.world.run Sym.alice [Sym.put "a" [1] .fine, Sym.put "a" [2] .fine]

set_option maxRecDepth 10000 in
private theorem replaced_opens : (openVault Sym (replaced.host.top.crash fun _ => 0).shown Sym.alice).toOption.isSome = true := by
  decide

set_option maxRecDepth 10000 in
theorem needed_blob_kept_replaced : ∃ id ∈ replaced.host.blobs.unlinked,
    ∀ e ∈ ((openVault Sym (replaced.host.top.crash fun _ => 0).shown Sym.alice).toOption.get replaced_opens).manifest.entries,
      e.kind = .file → e.fileId ≠ some id := by
  have hne : replaced.host.blobs.unlinked ≠ [] := by decide
  obtain ⟨id, hid⟩ := List.exists_mem_of_ne_nil _ hne
  exact ⟨id, hid, needed_blob_kept Sym.world_start _ hid (fun _ => 0) (eq_ok_get replaced_opens)⟩

end FileSec
