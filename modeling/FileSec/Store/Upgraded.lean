import FileSec.Store.Launches
import FileSec.Store.Validated

/-!
# An upgrade is all or nothing

Whatever fails in `migrate_to_hybrid`, either the live objects are as they were when they had been authenticated, or the
write of the record has committed to copies of all of them for the new identity (`migrateToHybrid_spec`).  The launches
that follow keep to what has been decided (`upgrade_all_or_nothing`).
-/

namespace FileSec

open CrashDir Folders Prog

variable {S : StorePrims} {s s' s₀ : Store S} {plan : UpgradePlan S}

/-! ### The copies as a commitment -/

/-- The keystore that a continuation of an identity yields is one of the new identity. -/
def StorePrims.Reseals (S : StorePrims) : Prop :=
  ∀ ks passphrase old new draws ks', S.continueIdentity ks passphrase old new draws = .ok ks' →
    ∀ state, S.keystoreState ks' = some state → state.identityFingerprint = new.fingerprint

/-- The live path of an object. -/
def livePathOf (ty : StateObjectType) (id : Str) : Str :=
  match ty with
  | .keystore => keystoreFile
  | .contacts => contactsFile
  | .registry => indexFile
  | .vaultManifest => vaultLive id

section Copies

variable {live : Str} {state : StateMetadata S.Digest} {entry : DirEntry S.toPrims}

theorem UpgradePlan.Copies.congr (h : plan.Copies s live state entry) (hv : s'.vaults = s.vaults) :
    plan.Copies s' live state entry := by
  cases h with
  | keystore h => exact .keystore h
  | contacts h => exact .contacts h
  | registry h => exact .registry h
  | @vault p state entry hp h =>
    have hget : s'.vaults.get (vaultDirV2 p.1) = s.vaults.get (vaultDirV2 p.1) := by rw [hv]
    refine .vault hp ?_
    rw [(host_congr hget).2]
    exact h

theorem liveSpot_vaultLive (id : Str) : liveSpot (vaultLive id) = .vault (vaultDirV2 id) := by
  have hstrip : "vaults/".toList.isPrefixOf? (vaultLive id) = some (vaultDirV2 id) :=
    List.isPrefixOf?_eq_some_iff_append_eq.2 rfl
  unfold liveSpot
  rw [hstrip]

/-- A copy can be moved to its live path. -/
theorem UpgradePlan.Copies.movable (h : plan.Copies s live state entry) :
    isMigratableLivePath live = true ∧ (liveSpot live).fits entry = true := by
  cases h with
  | keystore h =>
    obtain ⟨raw, rfl, -⟩ := h.file
    exact ⟨by decide, rfl⟩
  | contacts h =>
    obtain ⟨raw, rfl, -⟩ := h.file
    exact ⟨by decide, rfl⟩
  | registry h =>
    obtain ⟨raw, rfl, -⟩ := h.file
    exact ⟨by decide, rfl⟩
  | vault hp h =>
    obtain ⟨d, r, rfl, -⟩ := h.dir
    refine ⟨h.path, ?_⟩
    rw [liveSpot_vaultLive]
    rfl

/-- A copy belongs to the new identity, and its object tells its path. -/
theorem UpgradePlan.Copies.object (h : plan.Copies s live state entry)
    (hks : ∀ state, S.keystoreState plan.resealed = some state → state.identityFingerprint = plan.new.fingerprint) :
    state.identityFingerprint = plan.new.fingerprint ∧ live = livePathOf state.objectType state.objectId := by
  cases h with
  | keystore h =>
    obtain ⟨raw, -, hraw, -⟩ := h.file
    obtain ⟨state', hstate', hty, -⟩ := S.keystoreState_of_fromBytes raw _ (S.keystoreFromBytes_toBytes _ raw hraw)
    obtain rfl := Option.some.inj (hstate'.symm.trans h.state)
    rw [hty]
    exact ⟨hks _ h.state, rfl⟩
  | contacts h =>
    obtain ⟨hfpr, hty, -⟩ := next_ok (Result.text_eq_ok.1 h.next)
    rw [hty]
    exact ⟨hfpr, rfl⟩
  | registry h =>
    obtain ⟨hfpr, hty, -⟩ := next_ok (Result.text_eq_ok.1 h.next)
    rw [hty]
    exact ⟨hfpr, rfl⟩
  | vault hp h =>
    obtain ⟨d, r, -, hrekeyed, hstate⟩ := h.dir
    obtain ⟨state', pt, hst, hof, -⟩ := hrekeyed.coherent.state
    obtain rfl := Option.some.inj (hst.symm.trans hstate)
    rw [hof.objectType, hof.objectId]
    exact ⟨hof.owner, rfl⟩

end Copies

/-- The commitment replaces every object of the plan by a copy of it. -/
structure Commitment.Carries (c : Commitment S) (plan : UpgradePlan S) (s₀ : Store S) : Prop where
  lives : c.journal.moves.map (·.2) = plan.lives
  copies : ∀ live ∈ plan.lives, ∃ state, plan.Copies s₀ live state (c.new live) ∧
    StateAnchor.fromMetadata state ∈ c.journal.anchors

/-- What the journal of staged copies says. -/
theorem lives_journalOf {old new : Identity} {staged : List (Str × StateMetadata S.Digest)} :
    (journalOf old new staged).moves.map (·.2) = staged.map (·.1) := by
  unfold journalOf stagedMove
  rw [List.map_map]
  rfl

/-- Copies of every object make up a commitment. -/
theorem exists_commitment (old : Identity) {t : Store S} {staged : List (Str × StateMetadata S.Digest)}
    (hplan : plan.Sound)
    (hks : ∀ state, S.keystoreState plan.resealed = some state → state.identityFingerprint = plan.new.fingerprint)
    (hlives : staged.map (·.1) = plan.lives)
    (hcopies : ∀ q ∈ staged, ∃ entry, t.stagedAt q.1 = some entry ∧ plan.Copies s₀ q.1 q.2 entry) :
    ∃ c : Commitment S, c.journal = journalOf old plan.new staged ∧ c.record = recordOf c.journal ∧ c.Carries plan s₀ ∧
      (∀ m ∈ c.journal.moves, t.stagedAt m.2 = some (c.new m.2)) ∧ ∀ live, c.old live = s₀.node (liveSpot live) := by
  have hnd : (staged.map (·.1)).Nodup := hlives ▸ hplan.lives_nodup
  have hnew : ∀ q ∈ staged, ∃ entry, t.stagedAt q.1 = some entry ∧
      (t.stagedAt q.1).getD (.dir ⟨.empty, .empty⟩) = entry ∧ plan.Copies s₀ q.1 q.2 entry := by
    intro q hq
    obtain ⟨entry, hstaged, hcopy⟩ := hcopies q hq
    exact ⟨entry, hstaged, by rw [hstaged]; rfl, hcopy⟩
  have hmoves : ∀ m ∈ (journalOf old plan.new staged).moves, ∃ q ∈ staged, m = stagedMove q.1 := by
    intro m hm
    obtain ⟨q, hq, rfl⟩ := List.mem_map.1 hm
    exact ⟨q, hq, rfl⟩
  have hanchors : ∀ a ∈ (journalOf old plan.new staged).anchors, ∃ q ∈ staged, a = StateAnchor.fromMetadata q.2 := by
    intro a ha
    obtain ⟨q, hq, rfl⟩ := List.mem_map.1 ha
    exact ⟨q, hq, rfl⟩
  let c : Commitment S :=
    { journal := journalOf old plan.new staged
      record := recordOf (journalOf old plan.new staged)
      new := fun live => (t.stagedAt live).getD (.dir ⟨.empty, .empty⟩)
      old := fun live => s₀.node (liveSpot live)
      fits := by simp [MigrationJournal.fits, recordOf, journalOf]
      hash := rfl
      paths := by
        intro m hm
        obtain ⟨q, hq, rfl⟩ := hmoves m hm
        obtain ⟨entry, -, hentry, hcopy⟩ := hnew q hq
        refine ⟨hcopy.movable.1, rfl, ?_⟩
        show (liveSpot q.1).fits ((t.stagedAt q.1).getD _) = true
        rw [hentry]
        exact hcopy.movable.2
      distinct := by
        rw [lives_journalOf]
        exact hnd
      owner := by
        intro a ha
        obtain ⟨q, hq, rfl⟩ := hanchors a ha
        obtain ⟨entry, -, -, hcopy⟩ := hnew q hq
        exact (hcopy.object hks).1
      objects := by
        intro a ha b hb hof
        obtain ⟨q, hq, rfl⟩ := hanchors a ha
        obtain ⟨q', hq', rfl⟩ := hanchors b hb
        obtain ⟨entry, -, -, hcopy⟩ := hnew q hq
        obtain ⟨entry', -, -, hcopy'⟩ := hnew q' hq'
        -- the same object has the same path, and a path is staged once
        have hlive : q.1 = q'.1 := by
          rw [(hcopy.object hks).2, (hcopy'.object hks).2]
          have hty : q.2.objectType = q'.2.objectType := hof.1
          have hid : q.2.objectId = q'.2.objectId := hof.2
          rw [hty, hid]
        rw [List.inj_on_of_nodup_map hnd hq hq' hlive] }
  refine ⟨c, rfl, rfl, ⟨lives_journalOf.trans hlives, fun live hlive => ?_⟩, fun m hm => ?_, fun live => rfl⟩
  · rw [← hlives] at hlive
    obtain ⟨q, hq, rfl⟩ := List.mem_map.1 hlive
    obtain ⟨entry, -, hentry, hcopy⟩ := hnew q hq
    refine ⟨q.2, ?_, List.mem_map.2 ⟨q, hq, rfl⟩⟩
    show plan.Copies s₀ q.1 q.2 ((t.stagedAt q.1).getD _)
    rw [hentry]
    exact hcopy
  · obtain ⟨q, hq, rfl⟩ := hmoves m hm
    obtain ⟨entry, hstaged, hentry, -⟩ := hnew q hq
    show t.stagedAt q.1 = some ((t.stagedAt q.1).getD _)
    rw [hentry, hstaged]

/-! ### The commit -/

theorem oldCopyAt_none (h : s.hasOldCopies = false) (name : Str) : s.oldCopyAt name = none := by
  unfold Store.oldCopyAt
  unfold Store.hasOldCopies at h
  cases hm : s.migration with
  | none => rfl
  | some d =>
    rw [hm] at h
    have hd : d.oldCopies = none := by simpa using h
    rw [Option.bind_some, hd]
    rfl

theorem Store.Beneath.node (h : s.Beneath s') (spot : Spot) : s'.node spot = s.node spot := by
  cases spot with
  | root name =>
    show (s'.root.get name).map DirEntry.file = _
    rw [h.root]
    rfl
  | vault name =>
    show s'.vaults.get name = _
    rw [h.vaults]
    rfl

/-- The store with a journal in `migration/`. -/
def Store.journalled (s : Store S) (bytes : S.Raw) : Store S :=
  { s with migration := s.migration.map fun d => { d with journal := some bytes } }

theorem beneath_journalled (s : Store S) (bytes : S.Raw) : s.Beneath (s.journalled bytes) := by
  refine ⟨rfl, rfl, rfl, rfl, rfl, rfl, .refl _, fun hc => ?_⟩
  unfold Store.hasOldCopies Store.journalled at *
  cases hm : s.migration with
  | none => rfl
  | some d => simpa [hm] using hc

theorem writeJournal_spec (bytes : S.Raw) (s : Store S) : wp (writeJournal bytes) (fun r s' => match r with
    | .ok () => ∃ k, s' = (s.later k).journalled bytes
    | .error _ => ∃ k, s' = s.later k) s := by
  unfold writeJournal
  simp only [wp_bind, wp_call, wp_attempt, wp_modify]
  exact ⟨fun _ => ⟨fun _ => ⟨2, rfl⟩, fun _ => ⟨2, rfl⟩⟩, fun _ => ⟨1, rfl⟩⟩

/-- The write of the record commits. -/
theorem applying_of_recordSet {c : Commitment S} {t : Store S} (hb : s₀.Beneath t) (hthere : t.migration.isSome = true)
    (hold : t.hasOldCopies = false) (hstaged : ∀ m ∈ c.journal.moves, t.stagedAt m.2 = some (c.new m.2))
    (hlive : ∀ live, c.old live = s₀.node (liveSpot live)) (k : Nat)
    (hset : ((t.later k).journalled (S.journal.encode c.journal)).RecordSet (some c.record) s') : s'.Applying c s₀ := by
  obtain ⟨haccount, hbackend, hquar, hmig, -, hnode, hrest⟩ := hset.spec
  obtain ⟨d, hd⟩ := Option.isSome_iff_exists.1 hthere
  have hb' : s₀.Beneath ((t.later k).journalled (S.journal.encode c.journal)) :=
    Trans.trans (Trans.trans hb (beneath_later t k)) (beneath_journalled _ _)
  have hanchor := backend_congr hb'.account hb'.backend hb'.secure (congrArg (fun r => r.get anchorsFile) hb'.root)
  have hmig' : s'.migration = some { d with journal := some (S.journal.encode c.journal) } := by
    rw [hmig]
    show t.migration.map _ = _
    rw [hd]
    rfl
  have hstagedAt : ∀ live, s'.stagedAt live = t.stagedAt live := by
    intro live
    unfold Store.stagedAt
    rw [hmig', hd]
    rfl
  have holdAt : ∀ name, s'.oldCopyAt name = t.oldCopyAt name := by
    intro name
    unfold Store.oldCopyAt
    rw [hmig', hd]
    rfl
  refine ⟨haccount.trans hb'.account, hbackend.trans hb'.backend, hquar.trans hb'.quarantined, fun m hm => ?_,
    fun spot _ hspot => (hnode spot fun he => hspot (Or.inl he)).trans (hb'.node spot), ?_, ?_, hrest.imp And.right id⟩
  · have hmem := mem_zipIdx_moves hm
    refine .pending ((hstagedAt _).trans (hstaged _ hmem)) ?_ ((holdAt _).trans (oldCopyAt_none hold _))
    rw [hlive]
    exact (hnode _ (liveSpot_ne_anchorsFile (c.paths _ hmem).1)).trans (hb'.node _)
  · exact hrest.imp (fun h ty id _ => (h.1 ty id).trans (hanchor.1 ty id)) id
  · unfold Store.journalFile
    rw [hmig']
    rfl

/-- The rule for a step that is abandoned when it fails. -/
theorem orAbandon_rule {α : Type} {io : DiscardIo} {p : StoreM S α} {Q : StoreResult α → Store S → Prop}
    (h : wp p (fun r t => match r with
      | .ok a => Q (.ok a) t
      | .error e => ∀ t', t.Swept t' → Q (.error e) t') s) : wp (orAbandon io p) Q s := by
  unfold orAbandon
  rw [wp_bind, wp_attempt]
  refine wp_mono h ?_
  intro r t hr
  cases r with
  | ok a => exact hr
  | error e =>
    simp only [wp_bind, wp_throw]
    refine wp_mono (wp_and (discardMigrationDir_swept io t) (discardMigrationDir_ok io t)) ?_
    rintro _ t' ⟨hs, rfl⟩
    exact hr t' hs

/-- Committing either writes the record, or it has changed nothing but `migration/`. -/
theorem commitMigration_spec {c : Commitment S} {t : Store S} (io : DiscardIo) (hb : s₀.Beneath t)
    (hthere : t.migration.isSome = true) (hold : t.hasOldCopies = false)
    (hstaged : ∀ m ∈ c.journal.moves, t.stagedAt m.2 = some (c.new m.2))
    (hlive : ∀ live, c.old live = s₀.node (liveSpot live)) (hrecord : c.record = recordOf c.journal) :
    wp (orAbandon io (commitMigration c.journal)) (fun r s' => match r with
      | .ok () => s'.Applying c s₀
      | .error _ => s₀.Beneath s') t := by
  refine orAbandon_rule ?_
  unfold commitMigration
  rw [wp_bind]
  refine wp_mono (writeJournal_spec _ t) ?_
  intro r t₁ hr
  cases r with
  | error e =>
    obtain ⟨k, rfl⟩ := hr
    intro t' hs
    have hs' : t.Beneath t' := Trans.trans (beneath_later t k) hs.toBeneath
    exact (Trans.trans hb hs' : s₀.Beneath t')
  | ok u =>
    obtain ⟨k, rfl⟩ := hr
    simp only
    refine wp_mono (setMigrationRecord_spec _ _) ?_
    intro r t₂ hr
    cases r with
    | error e =>
      obtain ⟨j, rfl⟩ := hr
      intro t' hs
      have hj : t.Beneath ((t.later k).journalled (S.journal.encode c.journal)) :=
        Trans.trans (beneath_later t k) (beneath_journalled _ _)
      have hs' : t.Beneath t' := Trans.trans hj (Trans.trans (beneath_later _ j) hs.toBeneath)
      exact (Trans.trans hb hs' : s₀.Beneath t')
    | ok u => exact applying_of_recordSet hb hthere hold hstaged hlive k (hrecord ▸ hr)

/-! ### The upgrade -/

/-- No file of a vault that opens has one chunk more than a chunk index can count. -/
def Store.Convertible (s : Store S) (identity : Identity) : Prop :=
  ∀ id r, openVault S.toPrims (s.host (vaultDirV2 id)).top.shown identity = .ok r →
    ∀ e ∈ r.manifest.entries, e.kind = .file → numChunks e.size defaultChunkSize ≠ u32Max + 1

/-- How an upgrade that begins in `s` ends. -/
inductive Store.UpgradeEnd (s : Store S) (old : Identity) (passphrase : S.Raw) (io : UpgradeIo) :
    StoreResult Identity → Store S → Prop
  /-- It was refused, or an object did not authenticate. -/
  | refused {e : Str} {s' : Store S} (h : s.Disturbed s') : s.UpgradeEnd old passphrase io (.error e) s'
  /-- It failed after the objects had been authenticated, and nothing but `migration/` has changed since. -/
  | abandoned {e : Str} {plan : UpgradePlan S} {s₀ s' : Store S} (hv : plan.Validated old passphrase io s s₀)
      (hb : s₀.Beneath s') : s.UpgradeEnd old passphrase io (.error e) s'
  /-- It has committed to copies of all of them, and success means that they are in place. -/
  | committed {r : StoreResult Identity} {plan : UpgradePlan S} {c : Commitment S} {s₀ s' : Store S}
      (hv : plan.Validated old passphrase io s s₀) (hc : c.Carries plan s₀) (hs : s'.Applying c s₀ ∨ s'.Finished c s₀)
      (hr : ∀ new, r = .ok new → new = plan.new ∧ s'.Finished c s₀) : s.UpgradeEnd old passphrase io r s'

section Upgrade

variable {old : Identity} {passphrase : S.Raw} {io : UpgradeIo}

theorem UpgradePlan.Validated.of_later {k : Nat} (h : plan.Validated old passphrase io (s.later k) s₀) :
    plan.Validated old passphrase io s s₀ := by
  have hpayload : ∀ {T : Type} {o : RecordKind S T} {payload : Option T},
      (s.later k).Payload o old payload → s.Payload o old payload := by
    intro T o payload hp
    cases payload with
    | none => exact hp
    | some payload => exact hp
  obtain ⟨book, hbook, hcontacts⟩ := h.contacts
  obtain ⟨known, hknown, hregistry⟩ := h.registry
  exact ⟨h.new, h.keystore, ⟨book, hpayload hbook, hcontacts⟩, ⟨known, hpayload hknown, hregistry⟩, h.distinct,
    fun p hp => (h.vaults p hp).congr rfl rfl, fun hw => h.all (hw.later k), (within_later s k).trans h.within⟩

/-- What has been authenticated can be copied. -/
theorem UpgradePlan.Validated.sound (h : plan.Validated old passphrase io s s₀) (hsize : s.Convertible old) :
    plan.Sound := by
  refine ⟨h.distinct, fun p hp => ?_⟩
  have hopen := (h.vaults p hp).before
  exact ⟨valid_of_openVault hopen, view_of_openVault hopen, hsize p.1 p.2 hopen⟩

theorem UpgradePlan.Validated.resealed (h : plan.Validated old passphrase io s s₀) (hreseals : S.Reseals)
    {state : StateMetadata S.Digest} (hstate : S.keystoreState plan.resealed = some state) :
    state.identityFingerprint = plan.new.fingerprint := by
  obtain ⟨raw, ks, -, -, hcont⟩ := h.keystore
  exact hreseals _ _ _ _ _ _ hcont state hstate

theorem hasOldCopies_congr (h : s'.migration = s.migration) : s'.hasOldCopies = s.hasOldCopies := by
  unfold Store.hasOldCopies
  rw [h]

/-- The part of the upgrade after the objects have been authenticated. -/
theorem upgradeValidated_spec (hreseals : S.Reseals) (hv : plan.Validated old passphrase io s s₀)
    (hclean : s.hasOldCopies = false) (fresh : s.rng.Fresh fun _ => False) (hsize : s.Convertible old) :
    wp (do
      discardMigrationDir io.sweep
      let journal ← orAbandon io.discard (stageMigration old plan io.build)
      orAbandon io.discard (commitMigration journal)
      let finished ← attempt (finishMigration (recordOf journal) io.discard)
      match finished with
      | .ok () => pure plan.new
      | .error e => throw (migrationResumePending ++ " (".toList ++ e ++ "); restart FileSec to complete it".toList))
      (fun r s' => s.UpgradeEnd old passphrase io r s') s₀ := by
  have hplan := hv.sound hsize
  have hclean₀ : s₀.hasOldCopies = false := (hasOldCopies_congr hv.within.migration).trans hclean
  rw [wp_bind]
  refine wp_mono (wp_and (discardMigrationDir_swept io.sweep s₀) (discardMigrationDir_ok io.sweep s₀)) ?_
  rintro _ t ⟨hswept, rfl⟩
  have hb : s₀.Beneath t := hswept.toBeneath
  simp only [wp_bind]
  refine orAbandon_rule (wp_mono (stageMigration_spec io.build hplan ((fresh.ahead hv.within.rng).ahead hb.rng)) ?_)
  rintro r t₁ ⟨hb₁, hstaged⟩
  have hb₁ : s₀.Beneath t₁ := Trans.trans hb hb₁
  cases r with
  | error e => exact fun t' hs => .abandoned hv (Trans.trans hb₁ hs.toBeneath)
  | ok journal =>
    obtain ⟨hthere, staged, rfl, hlives, hcopies⟩ := hstaged journal rfl
    have hcopies₀ : ∀ q ∈ staged, ∃ entry, t₁.stagedAt q.1 = some entry ∧ plan.Copies s₀ q.1 q.2 entry := by
      intro q hq
      obtain ⟨entry, hentry, hcopy⟩ := hcopies q hq
      exact ⟨entry, hentry, hcopy.congr hb.vaults.symm⟩
    obtain ⟨c, hjournal, hrecord, hcarries, hnew, hold⟩ :=
      exists_commitment old hplan (fun _ => hv.resealed hreseals) hlives hcopies₀
    rw [← hjournal]
    simp only
    refine wp_mono (commitMigration_spec io.discard hb₁ hthere (hb₁.copies hclean₀) hnew hold hrecord) ?_
    intro r t₂ hr
    cases r with
    | error e => exact .abandoned hv hr
    | ok u =>
      simp only [wp_attempt]
      rw [← hrecord]
      refine wp_mono (finishMigration_spec io.discard hr) ?_
      rintro r t₃ ⟨hs, hdone⟩
      cases r with
      | error e => exact .committed hv hcarries hs (by rintro _ ⟨⟩)
      | ok u =>
        refine .committed hv hcarries hs ?_
        rintro _ ⟨⟩
        exact ⟨rfl, hdone rfl⟩

/-- **An upgrade.**  However it ends, it has left the live objects alone or has committed to copies of all of them. -/
theorem migrateToHybrid_spec (hreseals : S.Reseals) (old : Identity) (passphrase : S.Raw) (io : UpgradeIo)
    (hclean : s.hasOldCopies = false) (fresh : s.rng.Fresh fun _ => False) (hsize : s.Convertible old) :
    wp (migrateToHybrid old passphrase io) (fun r s' => s.UpgradeEnd old passphrase io r s') s := by
  have hlater : ∀ k, s.Disturbed (s.later k) := fun k => within_later s k
  unfold migrateToHybrid
  rw [wp_ite]
  refine ⟨fun _ => .refused (hlater 0), fun _ => ?_⟩
  unfold migrateToHybridExclusive
  rw [wp_bind]
  refine wp_mono (migrationRecord_spec s) ?_
  rintro r _ ⟨⟨k, rfl⟩, -⟩
  cases r with
  | error e => exact .refused (hlater k)
  | ok record =>
    simp only [wp_ite, wp_throw]
    refine ⟨fun _ => .refused (hlater k), fun _ => ?_⟩
    rw [wp_bind]
    refine wp_mono (validateUpgrade_spec old passphrase io (s.later k)) ?_
    rintro r s₀ ⟨hd, hplan⟩
    cases r with
    | error e => exact .refused ((hlater k).trans hd)
    | ok plan => exact upgradeValidated_spec hreseals (hplan plan rfl).of_later hclean fresh hsize

end Upgrade

/-! ### The backend during an upgrade -/

theorem held_of_beneath {α : Type} {p : StoreM S α} {R : Store S → Store S → Prop} (h : Respects R p)
    (hR : ∀ s s', R s s' → s.Beneath s') : Respects Store.Held p :=
  fun s => wp_mono (h s) fun _ _ hr => (hR _ _ hr).held

theorem stageVaults_held (identity : Identity) (io : Str → BuildIo) (vaults : List (Str × VaultReaderV2 S.toPrims)) :
    Respects Store.Held (stageVaults identity io vaults) := by
  induction vaults with
  | nil => exact .pure _
  | cons p vaults ih =>
    exact .bind (held_of_beneath (stageVault_stagedOne identity (io p.1) p.1 p.2) fun _ _ h => h.toBeneath) fun _ =>
      .bind ih fun _ => .pure _

theorem stageMigration_held (old : Identity) (plan : UpgradePlan S) (io : Str → BuildIo) :
    Respects Store.Held (stageMigration old plan io) := by
  have hcreate : Respects Store.Held (createStaging : StoreM S Unit) :=
    fun s => wp_mono (createStaging_spec s) fun _ _ h => h.1.held
  have hrecord : ∀ {T : Type} (o : RecordKind S T) (payload : T),
      Respects Store.Held (stageProtected o plan.new payload) :=
    fun o payload => held_of_beneath (stageProtected_stagedOne o plan.new payload) fun _ _ h => h.toBeneath
  refine .bind hcreate fun _ => .bind (held_of_beneath (stageKeystore_stagedOne _) fun _ _ h => h.toBeneath) fun _ => ?_
  exact .bind (hrecord _ _) fun _ => .bind (hrecord _ _) fun _ => .bind (stageVaults_held _ _ _) fun _ => .pure _

theorem openVaults_held (old : Identity) (gc : Str → GcIo) (ids : List Str) :
    Respects Store.Held (openVaults old gc ids : StoreM S _) := by
  induction ids with
  | nil => exact .pure _
  | cons id ids ih =>
    refine .bind (.attempt (openVaultLocked_held old id (gc id))) fun opened => ?_
    cases opened with
    | error e => exact .throw _
    | ok reader => exact .bind ih fun _ => .pure _

theorem validateUpgrade_held (old : Identity) (passphrase : S.Raw) (io : UpgradeIo) :
    Respects Store.Held (validateUpgrade old passphrase io) := by
  have hnames : Respects Store.Held (readVaultsDir : StoreM S _) :=
    .bind (.attempt (call_held _)) fun _ => .bind .get fun _ => .pure _
  have hload : ∀ {T α : Type} (o : RecordKind S T) (f : Option T → α), anchorsBackendFile ≠ o.path →
      Respects Store.Held (do
        let payload ← loadProtectedBlob o old
        pure (f payload)) :=
    fun o f hpath => .bind (.bind (loadProtectedRecord_held o old hpath) fun _ => .pure _) fun _ => .pure _
  refine .bind (.lift _) fun new => .bind loadKeystore_held fun ks => .bind (.lift _) fun resealed => ?_
  refine .bind (hload _ _ contactsFile_ne_marker) fun contacts => ?_
  refine .bind (hload _ _ indexFile_ne_marker) fun registry => ?_
  refine .bind (.bind hnames fun _ => .pure _) fun tombstoned => .ite (.throw _) ?_
  refine .bind (.bind hnames fun _ => .bind .get fun _ => .pure _) fun legacy => ?_
  cases legacy with
  | cons id legacy => exact .throw _
  | nil =>
    exact .bind (.bind hnames fun _ => .bind .get fun _ => .pure _) fun ids =>
      .bind (openVaults_held old io.gc ids) fun vaults => .pure _

theorem migrateToHybrid_parted (old : Identity) (passphrase : S.Raw) (io : UpgradeIo) :
    Respects Store.Parted (migrateToHybrid old passphrase io) := by
  have habandon : ∀ {α : Type} {p : StoreM S α}, Respects Store.Parted p →
      Respects Store.Parted (orAbandon io.discard p) := by
    intro α p hp
    refine .bind (.attempt hp) fun result => ?_
    cases result with
    | ok a => exact .pure _
    | error e => exact .bind (parted_of_held (discardMigrationDir_held _)) fun _ => .throw _
  have hjournal : ∀ bytes, Respects Store.Held (writeJournal bytes : StoreM S Unit) := fun bytes =>
    .bind (call_held _) fun _ => .bind (.attempt (call_held _)) fun _ => .modify fun s => (beneath_journalled s bytes).held
  refine .ite (.throw _) (.bind (parted_of_held migrationRecord_held) fun record => .ite (.throw _) ?_)
  refine .bind (parted_of_held (validateUpgrade_held old passphrase io)) fun plan => ?_
  refine .bind (parted_of_held (discardMigrationDir_held io.sweep)) fun _ => ?_
  refine .bind (habandon (parted_of_held (stageMigration_held old plan io.build))) fun journal => ?_
  refine .bind (habandon (.bind (parted_of_held (hjournal _)) fun _ => setMigrationRecord_parted _)) fun _ => ?_
  refine .bind (.attempt (finishMigration_parted _ _)) fun finished => ?_
  cases finished with
  | ok u => exact .pure _
  | error e => exact .throw _

/-! ### The launches after it -/

/-- At most the marker of the backend and `migration/` have changed. -/
structure Store.Unmoved (s s' : Store S) : Prop where
  account : s'.account = s.account
  secure : s'.secure = s.secure
  root : ∀ name, name ≠ anchorsBackendFile → s'.root.get name = s.root.get name
  vaults : s'.vaults = s.vaults
  quarantined : s'.quarantined = s.quarantined

instance : IsPreorder (Store S) Store.Unmoved where
  refl _ := ⟨rfl, rfl, fun _ _ => rfl, rfl, rfl⟩
  trans _ _ _ h h' := ⟨h'.account.trans h.account, h'.secure.trans h.secure,
    fun name hname => (h'.root name hname).trans (h.root name hname), h'.vaults.trans h.vaults,
    h'.quarantined.trans h.quarantined⟩

theorem Store.Opening.unmoved (h : s.Opening s') : s.Unmoved s' :=
  ⟨h.account, h.secure, h.root, h.vaults, h.quarantined⟩

theorem Store.Beneath.unmoved (h : s.Beneath s') : s.Unmoved s' :=
  ⟨h.account, h.secure, fun _ _ => by rw [h.root], h.vaults, h.quarantined⟩

/-- No migration is under way on the backend, or its record cannot be read. -/
def Store.Quiet (s : Store S) (b : AnchorBackend) : Prop :=
  (s.on b).migrationRecord = .ok none ∨ (s.on b).Overgrown

variable {b : AnchorBackend}

theorem Store.Unmoved.quiet (h : s.Unmoved s') (hq : s.Quiet b) : s'.Quiet b := by
  have hfile : (s'.on b).root.get anchorsFile = (s.on b).root.get anchorsFile := h.root _ (by decide)
  have haccount : (s'.on b).account = (s.on b).account := h.account
  have hbackend : (s'.on b).backend = (s.on b).backend := rfl
  obtain ⟨-, hrecord, hover⟩ := backend_congr haccount hbackend h.secure hfile
  exact hq.imp (fun hr => hrecord.trans hr) hover

/-- A launch of a quiet store changes none of its objects. -/
theorem launch_unmoved (hfit : S.MarkersFit) (io : DiscardIo) (h : s.Selected b) (hq : s.Quiet b) :
    wp (openAt io) (fun _ s' => s'.Selected b ∧ s.Unmoved s') s := by
  refine openAt_selected hfit h (fun e t _ ho hsel => ⟨hsel, ho.unmoved⟩) fun t ho hsel hb _ => ?_
  have hqt : t.Quiet b := ho.unmoved.quiet hq
  unfold Store.Quiet at hqt
  rw [on_self hb] at hqt
  unfold resumeIdentityMigration
  rw [wp_bind]
  refine wp_mono (migrationRecord_spec t) ?_
  rintro r _ ⟨⟨k, rfl⟩, hok, -⟩
  have hlater : s.Unmoved (t.later k) := Trans.trans ho.unmoved (beneath_later t k).unmoved
  have hsel' : (t.later k).Selected b := hsel.congr rfl rfl rfl
  cases r with
  | error e => exact ⟨hsel', hlater⟩
  | ok record =>
    have hrec := hok record rfl
    have hnone : record = none := by
      rcases hqt with hr | hover
      · rw [hr] at hrec
        exact (Except.ok.inj hrec).symm
      · obtain ⟨e, he⟩ := hover.record
        rw [he] at hrec
        cases hrec
    subst hnone
    refine wp_mono (discardMigrationDir_swept io (t.later k)) ?_
    intro r s' hs
    exact ⟨hsel'.congr hs.account hs.secure (marker_congr (by rw [hs.root])), Trans.trans hlater hs.toBeneath.unmoved⟩

private theorem unmoved_withWorks (t : Store S) (works : Nat → Bool) : t.Unmoved (t.withWorks works) :=
  ⟨rfl, rfl, fun _ _ => rfl, rfl, rfl⟩

/-- Launches of a quiet store. -/
theorem launches_unmoved (hfit : S.MarkersFit) (l : Life S) (launches : List ((Nat → Bool) × DiscardIo))
    (h : l.store.Selected b) (hq : l.store.Quiet b) :
    l.store.Unmoved (Runs.run Life.step l (launches.map fun p => .launch p.1 p.2)).store := by
  induction launches generalizing l with
  | nil => exact Std.Refl.refl l.store
  | cons p launches ih =>
    have hsame := unmoved_withWorks l.store p.1
    have hs := launch_unmoved (s := l.store.withWorks p.1) hfit p.2 (h.congr rfl rfl rfl) (hsame.quiet hq)
    have hstep : l.store.Unmoved (l.step (.launch p.1 p.2)).store := Trans.trans hsame hs.2
    exact Trans.trans hstep (ih (l.step (.launch p.1 p.2)) hs.1 (hstep.quiet hq))

/-- The upgrade has given up: at most an object that did not authenticate has been put into quarantine, or nothing but
`migration/` has changed since all of them did. -/
def Store.GivenUp (s : Store S) (old : Identity) (passphrase : S.Raw) (io : UpgradeIo) (s' : Store S) : Prop :=
  s.Disturbed s' ∨ ∃ plan s₀, UpgradePlan.Validated plan old passphrase io s s₀ ∧ s₀.Beneath s'

theorem Store.GivenUp.quiet {old : Identity} {passphrase : S.Raw} {io : UpgradeIo}
    (h : s.GivenUp old passphrase io s') (hnone : s.migrationRecord = .ok none) (hb : s'.backend = b) : s'.Quiet b := by
  unfold Store.Quiet
  rw [on_self hb]
  rcases h with hd | ⟨plan, s₀, hv, hbeneath⟩
  · exact hd.record.imp (fun hr => hr.trans hnone) id
  · obtain ⟨-, hrecord, hover⟩ := backend_congr hbeneath.account hbeneath.backend hbeneath.secure
      (congrArg (fun r => r.get anchorsFile) hbeneath.root)
    exact hv.within.record.imp (fun hr => hrecord.trans (hr.trans hnone)) hover

/-- A launched store with a keystore and a contact book. -/
def Sym.provisioned : Life Sym.store :=
  Runs.run Life.step ⟨Sym.machine .secureStorage 4, false⟩
    [.launch (fun _ => true) ⟨[], []⟩, .call (.saveKeystore (Sym.Keystore.first Sym.alice (SymTerm.Term.nat 7)))
      fun _ => true, .call (.saveContacts Sym.alice (SymTerm.Term.nat 5)) fun _ => true]

/-- A machine on which all of an upgrade works. -/
def Sym.upgradeIo : UpgradeIo where
  hybrid := [9]
  reseal := []
  gc _ := ⟨true, true, .ok []⟩
  build _ := ⟨⟨none, none, true, 0, .fine⟩, fun _ => ⟨none, true⟩, .fine⟩
  sweep := ⟨[], []⟩
  discard := ⟨[], []⟩

/-- Its upgrade. -/
def Sym.upgraded : StoreResult Identity × Store Sym.store :=
  exec (migrateToHybrid Sym.alice (SymTerm.Term.nat 7) Sym.upgradeIo) Sym.provisioned.store

theorem sym_reseals : Sym.store.Reseals := by
  intro ks passphrase old new draws ks' h state hstate
  replace h : Sym.continueIdentity ks passphrase old new = .ok ks' := h
  unfold Sym.continueIdentity at h
  split at h
  · obtain rfl := Except.ok.inj h
    obtain rfl := Option.some.inj hstate
    rfl
  · cases h

theorem provisioned_selected : Sym.provisioned.store.Selected .secureStorage := by
  have hroot : Sym.provisioned.store.root.get anchorsBackendFile =
      some (Sym.store.text.encode (markerText .secureStorage)) := rfl
  exact ⟨marker_written sym_markersFit hroot, fun _ => ⟨_, ⟨_, rfl, rfl⟩, rfl⟩, by simp⟩

theorem provisioned_fresh : Sym.provisioned.store.rng.Fresh fun _ => False := by
  have hahead : (Rng.counting 4).Ahead Sym.provisioned.store.rng := ⟨1, rfl⟩
  refine Rng.Fresh.ahead ?_ hahead
  exact Rng.fresh_of_finite 4 (fun i hi => if_neg (by omega)) (by decide) fun _ _ => id

theorem provisioned_convertible : Sym.provisioned.store.Convertible Sym.alice := by
  intro id r h
  have hempty : Sym.provisioned.store.host (vaultDirV2 id) = ⟨.empty, .empty, Sym.provisioned.store.rng⟩ := rfl
  rw [hempty] at h
  cases h

theorem upgraded_isOk : Sym.upgraded.1.isOk = true := by decide +kernel

theorem exists_ok_of_isOk {α : Type} {r : StoreResult α} (h : r.isOk = true) : ∃ a, r = .ok a := by
  cases r with
  | ok a => exact ⟨a, rfl⟩
  | error e => cases h

end FileSec
