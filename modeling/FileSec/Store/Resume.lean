import FileSec.Store.Moves

/-!
# An interrupted migration can always be resumed

`Store.Applying` describes the store between the commit of a migration and its end: each move of the journal has not
begun, has set its live object aside or is done, and the anchors of the journal may have been put or not.  Whatever fails
and wherever the process stops, finishing the migration keeps it (`resumeIdentityMigration_spec`), and a resume that
reports success has replaced every object, put every anchor and cleared the record (`Store.Finished`).
-/

namespace FileSec

open CrashDir Folders Prog

variable {S : StorePrims} {s s' : Store S}

/-! ### The store under way -/

/-- A migration at its commit: the journal and the record that commits to it, and under each live path what was staged
for it and what was live. -/
structure Commitment (S : StorePrims) where
  journal : MigrationJournal S.Digest
  record : MigrationRecord S.Digest
  new : Str → DirEntry S.toPrims
  old : Str → Option (DirEntry S.toPrims)
  fits : journal.fits record = true
  hash : S.hashRaw (S.journal.encode journal) = record.journalHash
  paths : ∀ m ∈ journal.moves, isMigratableLivePath m.2 = true ∧ m.1 = stagedPath m.2 ∧
    (liveSpot m.2).fits (new m.2) = true
  distinct : (journal.moves.map (·.2)).Nodup
  owner : ∀ a ∈ journal.anchors, a.identityFingerprint = journal.newFingerprint
  objects : ∀ a ∈ journal.anchors, ∀ b ∈ journal.anchors, a.Of b.objectType b.objectId → a = b

/-- The spot holds the file of the anchors or the marker of the backend. -/
def Spot.OfBackend (spot : Spot) : Prop := spot = .root anchorsFile ∨ spot = .root anchorsBackendFile

/-- The store between the commit of a migration and its end; at the commit it was `s₀`. -/
structure Store.Applying (s : Store S) (c : Commitment S) (s₀ : Store S) : Prop where
  account : s.account = s₀.account
  backend : s.backend = s₀.backend
  quarantined : s.quarantined = s₀.quarantined
  moves : ∀ m ∈ c.journal.moves.zipIdx, s.MoveState m.1.2 (oldCopyName m.2 m.1.2) (c.new m.1.2) (c.old m.1.2)
  nodes : ∀ spot, (∀ m ∈ c.journal.moves, spot ≠ liveSpot m.2) → ¬ spot.OfBackend → s.node spot = s₀.node spot
  anchors : (∀ ty id, (∀ a ∈ c.journal.anchors, ¬ a.Of ty id) → s.anchor ty id = s₀.anchor ty id) ∨ s.Overgrown
  journal : s.journalFile = some (S.journal.encode c.journal)
  record : s.migrationRecord = .ok (some c.record) ∨ s.Overgrown

/-- The store after the migration: every object is the staged one, every anchor of the journal has been put, and nothing
else has changed. -/
structure Store.Finished (s : Store S) (c : Commitment S) (s₀ : Store S) : Prop where
  account : s.account = s₀.account
  backend : s.backend = s₀.backend
  quarantined : s.quarantined = s₀.quarantined
  live : ∀ m ∈ c.journal.moves, s.node (liveSpot m.2) = some (c.new m.2)
  nodes : ∀ spot, (∀ m ∈ c.journal.moves, spot ≠ liveSpot m.2) → ¬ spot.OfBackend → s.node spot = s₀.node spot
  anchors : ((∀ a ∈ c.journal.anchors, s.anchor a.objectType a.objectId = .ok (some a)) ∧
    ∀ ty id, (∀ a ∈ c.journal.anchors, ¬ a.Of ty id) → s.anchor ty id = s₀.anchor ty id) ∨ s.Overgrown
  record : s.migrationRecord = .ok none ∨ s.Overgrown

section Applying

variable {c : Commitment S} {s₀ : Store S}

theorem mem_zipIdx_moves {m : (Str × Str) × Nat} (hm : m ∈ c.journal.moves.zipIdx) : m.1 ∈ c.journal.moves := by
  obtain ⟨move, index⟩ := m
  exact List.fst_mem_of_mem_zipIdx hm

/-- A change of the store that no part of the migration shows. -/
theorem Store.Applying.congr (h : s.Applying c s₀) (haccount : s'.account = s.account)
    (hbackend : s'.backend = s.backend) (hsecure : s'.secure = s.secure) (hquar : s'.quarantined = s.quarantined)
    (hnode : ∀ spot, spot ≠ .root anchorsBackendFile → s'.node spot = s.node spot)
    (hstaged : ∀ l, s'.stagedAt l = s.stagedAt l)
    (hold : ∀ n, s'.oldCopyAt n = s.oldCopyAt n) (hjournal : s'.journalFile = s.journalFile) : s'.Applying c s₀ := by
  obtain ⟨hanchor, hrecord, hover⟩ := backend_congr haccount hbackend hsecure (get_of_node (hnode _ (by decide)))
  refine ⟨haccount.trans h.account, hbackend.trans h.backend, hquar.trans h.quarantined, fun m hm => ?_,
    fun spot hs hne => (hnode spot fun he => hne (Or.inr he)).trans (h.nodes spot hs hne), ?_,
    hjournal.trans h.journal, ?_⟩
  · have hl₁ := hnode _ (liveSpot_ne_marker (c.paths _ (mem_zipIdx_moves hm)).1)
    cases h.moves m hm with
    | pending hs hl ho => exact .pending ((hstaged _).trans hs) (hl₁.trans hl) ((hold _).trans ho)
    | aside hs hl ho => exact .aside ((hstaged _).trans hs) (hl₁.trans hl) ((hold _).trans ho)
    | done hs hl ho => exact .done ((hstaged _).trans hs) (hl₁.trans hl) ((hold _).trans ho)
  · rcases h.anchors with ha | ho
    · exact Or.inl fun ty id hn => (hanchor ty id).trans (ha ty id hn)
    · exact Or.inr (hover ho)
  · rcases h.record with hr | ho
    · exact Or.inl (hrecord.trans hr)
    · exact Or.inr (hover ho)

theorem Store.Applying.later (h : s.Applying c s₀) (k : Nat) : (s.later k).Applying c s₀ :=
  h.congr rfl rfl rfl rfl (fun spot _ => node_later s k spot) (fun _ => rfl) (fun _ => rfl) rfl

/-- Moves of different places are moves of different paths. -/
theorem Commitment.index_eq (c : Commitment S) {m m' : (Str × Str) × Nat} (hm : m ∈ c.journal.moves.zipIdx)
    (hm' : m' ∈ c.journal.moves.zipIdx) (h : m.1.2 = m'.1.2) : m = m' := by
  obtain ⟨move, i⟩ := m
  obtain ⟨move', j⟩ := m'
  rw [List.mem_zipIdx_iff_getElem?] at hm hm'
  simp only at hm hm' h
  have hi : (c.journal.moves.map (·.2))[i]? = some move.2 := by rw [List.getElem?_map, hm]; rfl
  have hj : (c.journal.moves.map (·.2))[j]? = some move.2 := by rw [List.getElem?_map, hm', h]; rfl
  have hij : i = j := by
    refine (List.getElem?_inj ?_ c.distinct).1 (hi.trans hj.symm)
    by_contra hlt
    rw [List.getElem?_eq_none (by omega)] at hi
    cases hi
  subst hij
  rw [hm] at hm'
  rw [Option.some.inj hm']

/-- A round of the loop over the moves. -/
theorem Store.Applying.movedOne {m : (Str × Str) × Nat} (h : s.Applying c s₀) (hm : m ∈ c.journal.moves.zipIdx)
    (hmoved : Store.MovedOne m.1.2 (oldCopyName m.2 m.1.2) s s')
    (hstate : s'.MoveState m.1.2 (oldCopyName m.2 m.1.2) (c.new m.1.2) (c.old m.1.2)) : s'.Applying c s₀ := by
  have hmem := mem_zipIdx_moves hm
  have hne := liveSpot_ne_anchorsFile (c.paths _ hmem).1
  obtain ⟨hanchor, hrecord, hover⟩ := backend_congr hmoved.account hmoved.backend hmoved.secure
    (get_of_node (hmoved.node _ hne.symm))
  refine ⟨hmoved.account.trans h.account, hmoved.backend.trans h.backend, hmoved.quarantined.trans h.quarantined,
    fun m' hm' => ?_, fun spot hs hspot => ?_, ?_, hmoved.journal.trans h.journal, ?_⟩
  · by_cases heq : m'.1.2 = m.1.2
    · exact c.index_eq hm' hm heq ▸ hstate
    · refine (h.moves m' hm').movedOne hmoved heq fun hname => heq ?_
      have hi : m'.2 = m.2 := oldCopyName_inj hname
      obtain ⟨move', i⟩ := m'
      obtain ⟨move, j⟩ := m
      simp only at hi
      subst hi
      rw [List.mem_zipIdx_iff_getElem?] at hm hm'
      simp only at hm hm'
      rw [hm] at hm'
      rw [Option.some.inj hm']
  · exact (hmoved.node spot (hs _ hmem)).trans (h.nodes spot hs hspot)
  · rcases h.anchors with ha | ho
    · exact Or.inl fun ty id hn => (hanchor ty id).trans (ha ty id hn)
    · exact Or.inr (hover ho)
  · rcases h.record with hr | ho
    · exact Or.inl (hrecord.trans hr)
    · exact Or.inr (hover ho)

/-- The loop over the moves: each round does its own move and leaves the others alone. -/
theorem applyMoves_resumable (c : Commitment S) (s₀ : Store S) :
    Resumable applyMove (fun s => s.Applying c s₀ ∧ s.hasOldCopies = true)
      (fun m s => s.stagedAt m.1.2 = none ∧ s.node (liveSpot m.1.2) = some (c.new m.1.2)) c.journal.moves.zipIdx := by
  refine ⟨fun m hm s hs => ?_⟩
  obtain ⟨happ, hcopies⟩ := hs
  obtain ⟨hlive, hstaged, hfits⟩ := c.paths _ (mem_zipIdx_moves hm)
  refine wp_mono (applyMove_spec hlive hstaged hfits hcopies (happ.moves m hm)) ?_
  rintro r s' ⟨hmoved, hstate, hdone⟩
  refine ⟨⟨happ.movedOne hm hmoved hstate, hmoved.hasOldCopies.trans hcopies⟩, fun b hb hd => ?_,
    fun hr => hdone (Or.inl hr)⟩
  by_cases heq : b.1.2 = m.1.2
  · obtain rfl := c.index_eq hb hm heq
    exact hdone (Or.inr hd.1)
  · exact ⟨(hmoved.staged _ heq).trans hd.1, (hmoved.node _ fun he => heq (liveSpot_injective he)).trans hd.2⟩

/-- A change of the file of the anchors and of the secure storage, for the objects of the journal. -/
theorem Store.Applying.within {A : StateObjectType → Str → Prop} (h : s.Applying c s₀)
    (hw : s.Within (fun _ => False) (fun _ => False) A s') (hquar : s'.quarantined = s.quarantined)
    (hA : ∀ ty id, A ty id → ∃ a ∈ c.journal.anchors, a.Of ty id) : s'.Applying c s₀ := by
  have hnode : ∀ spot, spot ≠ .root anchorsFile → s'.node spot = s.node spot := by
    intro spot hspot
    cases spot with
    | root name =>
      have hne : name ≠ anchorsFile := fun he => hspot (he ▸ rfl)
      have hget := hw.root.get name (by simpa using hne)
      exact congrArg (Option.map DirEntry.file) hget
    | vault name => exact hw.vaults.get name not_false
  have hstaged : ∀ l, s'.stagedAt l = s.stagedAt l := fun l => by unfold Store.stagedAt; rw [hw.migration]
  have hold : ∀ n, s'.oldCopyAt n = s.oldCopyAt n := fun n => by unfold Store.oldCopyAt; rw [hw.migration]
  refine ⟨hw.account.trans h.account, hw.backend.trans h.backend, hquar.trans h.quarantined, fun m hm => ?_,
    fun spot hs hne => (hnode spot fun he => hne (Or.inl he)).trans (h.nodes spot hs hne), ?_, ?_, ?_⟩
  · have hl₁ := hnode _ (liveSpot_ne_anchorsFile (c.paths _ (mem_zipIdx_moves hm)).1)
    cases h.moves m hm with
    | pending hs hl ho => exact .pending ((hstaged _).trans hs) (hl₁.trans hl) ((hold _).trans ho)
    | aside hs hl ho => exact .aside ((hstaged _).trans hs) (hl₁.trans hl) ((hold _).trans ho)
    | done hs hl ho => exact .done ((hstaged _).trans hs) (hl₁.trans hl) ((hold _).trans ho)
  · rcases hw.anchors with ha' | ho
    · rcases h.anchors with ha | ho
      · refine Or.inl fun ty id hn => (ha' ty id fun hof => ?_).trans (ha ty id hn)
        obtain ⟨a, hmem, ha⟩ := hA ty id hof
        exact hn a hmem ha
      · exact Or.inr (hw.overgrown ho)
    · exact Or.inr ho
  · unfold Store.journalFile
    rw [hw.migration]
    exact h.journal
  · rcases hw.record with hr' | ho
    · rcases h.record with hr | ho
      · exact Or.inl (hr'.trans hr)
      · exact Or.inr (hw.overgrown ho)
    · exact Or.inr ho

theorem Store.Put.quarantined {a : StateAnchor S.Digest} (h : s.Put a s') : s'.quarantined = s.quarantined := by
  cases h <;> rfl

/-- Every move of the journal is done. -/
def Store.Placed (s : Store S) (c : Commitment S) : Prop :=
  ∀ m ∈ c.journal.moves, s.node (liveSpot m.2) = some (c.new m.2)

/-- An anchor of the journal has been put, unless the file of the anchors can no longer be read. -/
def Store.HasAnchor (s : Store S) (a : StateAnchor S.Digest) : Prop :=
  s.anchor a.objectType a.objectId = .ok (some a) ∨ s.Overgrown

theorem Store.Placed.put {a : StateAnchor S.Digest} (h : s.Placed c) (hput : s.Put a s') : s'.Placed c := by
  intro m hm
  refine Eq.trans ?_ (h m hm)
  have hne := liveSpot_ne_anchorsFile (c.paths m hm).1
  have hw := hput.within (R := fun _ => False) (V := fun _ => False) (A := fun ty id => a.Of ty id) ⟨rfl, rfl⟩
  cases hspot : liveSpot m.2 with
  | root name =>
    have hname : name ≠ anchorsFile := fun he => hne (hspot.trans (he ▸ rfl))
    exact congrArg (Option.map DirEntry.file) (hw.root.get name (by simpa using hname))
  | vault name => exact hw.vaults.get name not_false

/-- Once the file of the anchors cannot be read, putting an anchor fails. -/
theorem Store.Put.not_overgrown {a : StateAnchor S.Digest} (h : s.Put a s') : ¬ s.Overgrown := by
  rintro ⟨hb, e, he⟩
  cases h with
  | secure records k hb' hr =>
    rw [hb] at hb'
    cases hb'
  | degraded set k ok hb' hset =>
    rw [he] at hset
    cases hset

/-- The loop over the anchors. -/
theorem putAnchors_resumable (c : Commitment S) (s₀ : Store S) :
    Resumable (putJournalAnchor c.journal.newFingerprint) (fun s => s.Applying c s₀ ∧ s.Placed c)
      (fun a s => s.HasAnchor a) c.journal.anchors := by
  refine ⟨fun a ha s hs => ?_⟩
  obtain ⟨happ, hplaced⟩ := hs
  unfold putJournalAnchor
  rw [if_neg (not_not.2 (c.owner a ha))]
  refine wp_mono (putAnchorLocked_spec a s) ?_
  intro r s' hr
  cases r with
  | error e =>
    obtain ⟨k, rfl⟩ := hr
    exact ⟨⟨happ.later k, fun m hm => (node_later s k _).trans (hplaced m hm)⟩, fun b _ hb => hb, by simp⟩
  | ok u =>
    have hw := hr.within (R := fun _ => False) (V := fun _ => False) (A := fun ty id => a.Of ty id) ⟨rfl, rfl⟩
    have hself : s'.HasAnchor a := by
      rcases hr.anchor with ⟨h, -⟩ | ⟨hb, e, he⟩
      · exact Or.inl h
      · rcases hw.record with hrec | ho
        · refine Or.inr ⟨hw.backend.trans hb, e, ?_⟩
          have hany := he a.objectType a.objectId
          unfold Store.anchor at hany
          rw [hw.backend, hb] at hany
          simp only at hany
          cases hset : s'.fileAnchorSet with
          | ok set => rw [hset] at hany; cases hany
          | error e' =>
            rw [hset] at hany
            exact congrArg _ (Except.error.inj hany)
        · exact Or.inr ho
    refine ⟨⟨happ.within hw hr.quarantined fun ty id hof => ⟨a, ha, hof⟩, hplaced.put hr⟩, fun b hb hd => ?_,
      fun _ => hself⟩
    by_cases hof : a.Of b.objectType b.objectId
    · obtain rfl := c.objects a ha b hb hof
      exact hself
    · rcases hd with hd | ho
      · rcases hw.anchors with hothers | ho
        · exact Or.inl ((hothers _ _ hof).trans hd)
        · exact Or.inr ho
      · exact absurd ho hr.not_overgrown

end Applying

/-! ### Finishing -/

section Finish

variable {c : Commitment S} {s₀ : Store S}

theorem Store.Swept.node (h : s.Swept s') (spot : Spot) : s'.node spot = s.node spot := by
  cases spot with
  | root name =>
    show (s'.root.get name).map DirEntry.file = _
    rw [h.root]
    rfl
  | vault name =>
    show s'.vaults.get name = _
    rw [h.vaults]
    rfl

/-- A change of the store that no part of what a migration has done shows. -/
theorem Store.Finished.congr (h : s.Finished c s₀) (haccount : s'.account = s.account)
    (hbackend : s'.backend = s.backend) (hsecure : s'.secure = s.secure) (hquar : s'.quarantined = s.quarantined)
    (hnode : ∀ spot, spot ≠ .root anchorsBackendFile → s'.node spot = s.node spot) : s'.Finished c s₀ := by
  obtain ⟨hanchor, hrecord, hover⟩ := backend_congr haccount hbackend hsecure (get_of_node (hnode _ (by decide)))
  refine ⟨haccount.trans h.account, hbackend.trans h.backend, hquar.trans h.quarantined,
    fun m hm => (hnode _ (liveSpot_ne_marker (c.paths m hm).1)).trans (h.live m hm),
    fun spot hspot hne => (hnode spot fun he => hne (Or.inr he)).trans (h.nodes spot hspot hne), ?_, ?_⟩
  · rcases h.anchors with ⟨hput, hothers⟩ | ho
    · exact Or.inl ⟨fun a ha => (hanchor _ _).trans (hput a ha), fun ty id hn => (hanchor ty id).trans (hothers ty id hn)⟩
    · exact Or.inr (hover ho)
  · rcases h.record with hr | ho
    · exact Or.inl (hrecord.trans hr)
    · exact Or.inr (hover ho)

/-- Wiping the staging area afterwards changes nothing that counts. -/
theorem Store.Finished.swept (h : s.Finished c s₀) (hs : s.Swept s') : s'.Finished c s₀ :=
  h.congr hs.account hs.backend hs.secure hs.quarantined fun spot _ => hs.node spot

theorem Store.Finished.later (h : s.Finished c s₀) (k : Nat) : (s.later k).Finished c s₀ :=
  h.swept ⟨beneath_later s k, id⟩

/-- Clearing the record ends the migration. -/
theorem Store.Applying.finished (h : s.Applying c s₀) (hplaced : s.Placed c)
    (hanchors : ∀ a ∈ c.journal.anchors, s.HasAnchor a) (hset : s.RecordSet none s') : s'.Finished c s₀ := by
  obtain ⟨haccount, hbackend, hquar, -, hover, hnode, hrest⟩ := hset.spec
  have hput : ∀ a ∈ c.journal.anchors, s.anchor a.objectType a.objectId = .ok (some a) :=
    fun a ha => (hanchors a ha).resolve_right hover
  refine ⟨haccount.trans h.account, hbackend.trans h.backend, hquar.trans h.quarantined, fun m hm => ?_,
    fun spot hs hne => (hnode spot fun he => hne (Or.inl he)).trans (h.nodes spot hs hne), ?_, hrest.imp And.right id⟩
  · exact (hnode _ (liveSpot_ne_anchorsFile (c.paths m hm).1)).trans (hplaced m hm)
  · rcases hrest with ⟨hanchor, -⟩ | ho
    · exact Or.inl ⟨fun a ha => (hanchor _ _).trans (hput a ha),
        fun ty id hn => (hanchor ty id).trans (h.anchors.resolve_right hover ty id hn)⟩
    · exact Or.inr ho

/-- Creating the directory of the old copies. -/
theorem createOldCopies_spec (h : s.Applying c s₀) :
    wp createOldCopies (fun r s' => s'.Applying c s₀ ∧ (r = .ok () → s'.hasOldCopies = true)) s := by
  unfold createOldCopies
  simp only [wp_bind, wp_call, wp_modify]
  refine ⟨fun _ => ?_, fun _ => ⟨h.later 1, by simp⟩⟩
  have hmig : ∃ d, s.migration = some d := by
    have hj := h.journal
    unfold Store.journalFile at hj
    cases hm : s.migration with
    | none => rw [hm] at hj; cases hj
    | some d => exact ⟨d, rfl⟩
  obtain ⟨d, hd⟩ := hmig
  have hd₁ : s.tick.migration = some d := hd
  refine ⟨?_, fun _ => ?_⟩
  · refine h.congr rfl rfl rfl rfl (fun spot _ => by cases spot <;> rfl) (fun l => ?_) (fun n => ?_) ?_
    · unfold Store.stagedAt
      simp only [hd₁, hd]
      rfl
    · unfold Store.oldCopyAt
      simp only [hd₁, hd, Option.map_some, Option.bind_some]
      cases d.oldCopies <;> rfl
    · unfold Store.journalFile
      simp only [hd₁, hd]
      rfl
  · refine hasOldCopies_iff.2 ⟨{ d with oldCopies := some (d.oldCopies.getD ∅) }, d.oldCopies.getD ∅, ?_, rfl⟩
    show s.tick.migration.map _ = _
    rw [hd₁]
    rfl

/-- Syncing the directories of the live objects changes nothing that is shown. -/
private theorem node_sync (k : Nat) (ok ok' : Bool) (spot : Spot) :
    ({ s.later k with root := s.root.sync ok, vaults := s.vaults.sync ok' } : Store S).node spot = s.node spot := by
  cases spot with
  | root name => exact congrArg (Option.map DirEntry.file) (get_sync s.root ok name)
  | vault name => exact get_sync s.vaults ok' name

theorem sync_applying (h : s.Applying c s₀) :
    wp (do syncRoot; syncVaults) (fun r s' => r = .ok () ∧ s'.Applying c s₀) s := by
  have hall : ∀ (k : Nat) (ok ok' : Bool),
      ({ s.later k with root := s.root.sync ok, vaults := s.vaults.sync ok' } : Store S).Applying c s₀ :=
    fun k ok ok' => h.congr rfl rfl rfl rfl (fun spot _ => node_sync k ok ok' spot) (fun _ => rfl) (fun _ => rfl) rfl
  unfold syncRoot syncVaults
  simp only [wp_bind, wp_attempt, wp_call, wp_modify]
  refine ⟨fun _ => ⟨fun _ => ?_, fun _ => ?_⟩, fun _ => ⟨fun _ => ?_, fun _ => ?_⟩⟩
  · exact ⟨trivial, hall 2 true true⟩
  · exact ⟨trivial, hall 2 true false⟩
  · exact ⟨trivial, hall 2 false true⟩
  · exact ⟨trivial, hall 2 false false⟩

theorem sync_placed (hplaced : s.Placed c) : wp (do syncRoot; syncVaults) (fun _ s' => s'.Placed c) s := by
  have hall : ∀ (k : Nat) (ok ok' : Bool),
      ({ s.later k with root := s.root.sync ok, vaults := s.vaults.sync ok' } : Store S).Placed c :=
    fun k ok ok' m hm => (node_sync k ok ok' _).trans (hplaced m hm)
  unfold syncRoot syncVaults
  simp only [wp_bind, wp_attempt, wp_call, wp_modify]
  refine ⟨fun _ => ⟨fun _ => ?_, fun _ => ?_⟩, fun _ => ⟨fun _ => ?_, fun _ => ?_⟩⟩
  · exact hall 2 true true
  · exact hall 2 true false
  · exact hall 2 false true
  · exact hall 2 false false

/-- The part of `finish_migration` that changes the store. -/
theorem applyJournal_spec (io : DiscardIo) (h : s.Applying c s₀) :
    wp (applyJournal c.journal io) (fun r s' => (s'.Applying c s₀ ∨ s'.Finished c s₀) ∧
      (r = .ok () → s'.Finished c s₀)) s := by
  unfold applyJournal
  rw [wp_bind]
  refine wp_mono (createOldCopies_spec h) ?_
  rintro r s₁ ⟨h₁, hcopies⟩
  cases r with
  | error e => exact ⟨Or.inl h₁, by simp⟩
  | ok u =>
    simp only [wp_bind]
    refine wp_mono ((applyMoves_resumable c s₀).run ⟨h₁, hcopies rfl⟩) ?_
    rintro r s₂ ⟨⟨h₂, -⟩, -, hdone⟩
    cases r with
    | error e => exact ⟨Or.inl h₂, by simp⟩
    | ok u =>
      have hplaced : s₂.Placed c := by
        intro m hm
        obtain ⟨i, hi, rfl⟩ := List.mem_iff_getElem.1 hm
        have hmem : (c.journal.moves[i], i) ∈ c.journal.moves.zipIdx := by
          rw [List.mem_zipIdx_iff_getElem?]
          exact List.getElem?_eq_getElem hi
        exact (hdone rfl _ hmem).2
      have hsync := wp_and (sync_applying h₂) (sync_placed hplaced)
      rw [wp_bind] at hsync
      refine wp_mono hsync ?_
      intro r s₃ hr
      cases r with
      | error e => exact absurd hr.1.1 (by simp)
      | ok u =>
        refine wp_mono hr ?_
        rintro r s₄ ⟨⟨rfl, h₄⟩, hplaced₄⟩
        simp only
        refine wp_mono ((putAnchors_resumable c s₀).run ⟨h₄, hplaced₄⟩) ?_
        rintro r s₅ ⟨⟨h₅, hplaced₅⟩, -, hput⟩
        cases r with
        | error e => exact ⟨Or.inl h₅, by simp⟩
        | ok u =>
          simp only
          refine wp_mono (setMigrationRecord_spec none s₅) ?_
          intro r s₆ hr
          cases r with
          | error e =>
            obtain ⟨k, rfl⟩ := hr
            exact ⟨Or.inl (h₅.later k), by simp⟩
          | ok u =>
            have hfin := h₅.finished hplaced₅ (hput rfl) hr
            refine wp_mono (discardMigrationDir_swept io s₆) ?_
            intro r s₇ hs
            exact ⟨Or.inr (hfin.swept hs), fun _ => hfin.swept hs⟩

/-- Before the first move, the journal is read and compared with the record. -/
theorem committedJournal_spec (h : s.Applying c s₀) : wp (committedJournal c.record) (fun r s' =>
    (∃ k, s' = s.later k) ∧ ∀ journal, r = .ok journal → journal = c.journal) s := by
  unfold committedJournal readJournal
  simp only [wp_bind, wp_call, wp_get, wp_liftM]
  refine ⟨fun _ => ?_, fun _ => ⟨⟨1, rfl⟩, by simp⟩⟩
  have hjournal : s.tick.journalFile = some (S.journal.encode c.journal) := h.journal
  rw [hjournal]
  cases hr : Result.labelled "migration journal".toList
      (readBounded S.toPrims (some (S.journal.encode c.journal)) maxJournalLen) with
  | error e => exact ⟨⟨1, rfl⟩, by simp⟩
  | ok bytes =>
    have hbytes : bytes = S.journal.encode c.journal := by
      have hread := Result.labelled_eq_ok.1 hr
      unfold readBounded at hread
      split at hread
      · cases hread
      · rename_i raw hraw
        split at hread
        · cases hread
        · rw [← Except.ok.inj hread, ← Option.some.inj hraw]
    subst hbytes
    simp only [wp_ite, wp_throw]
    refine ⟨fun _ => ⟨⟨1, rfl⟩, by simp⟩, fun _ => ?_⟩
    rw [RawCodec.decode_encode]
    simp only [wp_ite, wp_throw, wp_pure]
    exact ⟨fun _ => ⟨⟨1, rfl⟩, fun journal hj => (Except.ok.inj hj).symm⟩, fun _ => ⟨⟨1, rfl⟩, by simp⟩⟩

/-- However `finish_migration` ends, the store is under way or the migration is finished; if it reports success, it is
finished. -/
theorem finishMigration_spec (io : DiscardIo) (h : s.Applying c s₀) :
    wp (finishMigration c.record io) (fun r s' => (s'.Applying c s₀ ∨ s'.Finished c s₀) ∧
      (r = .ok () → s'.Finished c s₀)) s := by
  unfold finishMigration
  rw [wp_bind]
  refine wp_mono (committedJournal_spec h) ?_
  rintro r _ ⟨⟨k, rfl⟩, hjournal⟩
  cases r with
  | error e => exact ⟨Or.inl (h.later k), by simp⟩
  | ok journal =>
    obtain rfl := hjournal journal rfl
    exact applyJournal_spec io (h.later k)

/-- **Resuming.**  However a resume of a committed migration ends, the store is under way or the migration is finished;
if it reports success, it is finished. -/
theorem resumeIdentityMigration_spec (io : DiscardIo) (h : s.Applying c s₀ ∨ s.Finished c s₀) :
    wp (resumeIdentityMigration io) (fun r s' => (s'.Applying c s₀ ∨ s'.Finished c s₀) ∧
      (r = .ok () → s'.Finished c s₀)) s := by
  have hlater : ∀ k, (s.later k).Applying c s₀ ∨ (s.later k).Finished c s₀ :=
    fun k => h.imp (fun h => h.later k) fun h => h.later k
  unfold resumeIdentityMigration
  rw [wp_bind]
  refine wp_mono (migrationRecord_spec s) ?_
  rintro r _ ⟨⟨k, rfl⟩, hok, -⟩
  cases r with
  | error e => exact ⟨hlater k, by simp⟩
  | ok record =>
    have hrec := hok record rfl
    rcases h with happ | hfin
    · -- the record is the one of the commitment
      have hsome : record = some c.record := by
        rcases happ.record with hr | ho
        · rw [hr] at hrec
          exact (Except.ok.inj hrec).symm
        · obtain ⟨e, he⟩ := ho.record
          rw [he] at hrec
          cases hrec
      subst hsome
      simp only [wp_bind, wp_attempt]
      refine wp_mono (finishMigration_spec io (happ.later k)) ?_
      rintro r s' ⟨hstate, hdone⟩
      cases r with
      | error e => exact ⟨hstate, by simp⟩
      | ok u => exact ⟨hstate, fun _ => hdone rfl⟩
    · have hnone : record = none := by
        rcases hfin.record with hr | ho
        · rw [hr] at hrec
          exact (Except.ok.inj hrec).symm
        · obtain ⟨e, he⟩ := ho.record
          rw [he] at hrec
          cases hrec
      subst hnone
      refine wp_mono (discardMigrationDir_swept io (s.later k)) ?_
      intro r s' hs
      exact ⟨Or.inr ((hfin.later k).swept hs), fun _ => (hfin.later k).swept hs⟩

end Finish

end FileSec
