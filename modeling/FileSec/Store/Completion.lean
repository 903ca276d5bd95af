import FileSec.Store.Resume

/-!
# A resume on a working machine completes the migration

When no call fails and no record is refused for its size (`Store.Room`), one resume finishes a committed migration from
wherever it has come to, and leaves no staging area behind (`resume_completes`).
-/

namespace FileSec

open CrashDir Folders Prog

variable {S : StorePrims} {s s' s₀ : Store S} {c : Commitment S}

/-! ### The stream of outcomes -/

/-- The outcomes that are left are some of those that were left before. -/
def Store.Ticked (s s' : Store S) : Prop := ∃ k, ∀ i, s'.works i = s.works (i + k)

instance : IsPreorder (Store S) Store.Ticked where
  refl _ := ⟨0, fun _ => rfl⟩
  trans := by
    rintro s s' s'' ⟨j, hj⟩ ⟨k, hk⟩
    exact ⟨k + j, fun i => by rw [hk, hj, Nat.add_assoc]⟩

theorem Store.Working.ticked (h : s.Working) (ht : s.Ticked s') : s'.Working := by
  obtain ⟨k, hk⟩ := ht
  exact fun i => (hk i).trans (h (i + k))

theorem call_ticked (text : Str) : Respects Store.Ticked (call text : StoreM S Unit) := by
  intro s
  rw [wp_call]
  exact ⟨fun _ => ⟨1, fun _ => rfl⟩, fun _ => ⟨1, fun _ => rfl⟩⟩

private theorem still_ticked {s' : Store S} (h : s'.works = s.works) : s.Ticked s' := ⟨0, fun i => congrFun h i⟩

theorem wipeMigrationFile_ticked (file : MigrationFile) :
    Respects Store.Ticked (wipeMigrationFile file : StoreM S Unit) := by
  have hdraw : Respects Store.Ticked (drawBytes S 32) :=
    .bind .get fun _ => .bind (.modify fun _ => still_ticked rfl) fun _ => .lift _
  exact .bind hdraw fun _ => .bind (call_ticked _) fun _ => .bind (.modify fun _ => still_ticked rfl) fun _ =>
    .bind (call_ticked _) fun _ => .modify fun _ => still_ticked rfl

theorem wipeMigrationFiles_ticked (files : List MigrationFile) :
    Respects Store.Ticked (wipeMigrationFiles files : StoreM S Unit) := by
  induction files with
  | nil => exact .pure _
  | cons file files ih => exact .bind (.attempt (wipeMigrationFile_ticked file)) fun _ => ih

/-- The staging area is gone. -/
theorem discardMigrationDir_done (io : DiscardIo) (hw : s.Working) :
    wp (discardMigrationDir io) (fun r s' => r = .ok () ∧ s'.migration = none) s := by
  refine wp_mono (wp_and (discardMigrationDir_ok io s) ?_) fun r s' h => h
  unfold discardMigrationDir
  simp only [wp_bind, wp_get]
  cases hm : s.migration with
  | none => exact hm
  | some d =>
    simp only [wp_bind]
    refine wp_mono (wp_and (wipeMigrationFiles_ok io.walked s) (wipeMigrationFiles_ticked io.walked s)) ?_
    rintro r s₁ ⟨rfl, ht⟩
    have hw₁ := hw.ticked ht
    simp only [wp_attempt, wp_call, wp_modify]
    refine ⟨fun _ => rfl, fun hf => ?_⟩
    rw [hw₁ 0] at hf
    cases hf

/-! ### Room for the anchors -/

/-- The anchors of the set are from a pool, at most one for each object. -/
def AnchorSet.DrawnFrom {Digest : Type} (set : AnchorSet Digest) (pool : List (StateAnchor Digest)) : Prop :=
  (∀ b ∈ set.anchors, b ∈ pool) ∧ set.anchors.Pairwise fun a b => ¬ a.Of b.objectType b.objectId

private theorem mem_upsertBy {α : Type} {p : α → Bool} {a b : α} {l : List α} (h : b ∈ upsertBy p a l) :
    b = a ∨ b ∈ l := by
  induction l with
  | nil => simpa [upsertBy] using h
  | cons d l ih =>
    unfold upsertBy at h
    split at h
    · exact (List.mem_cons.1 h).imp id fun h => List.mem_cons_of_mem _ h
    · rcases List.mem_cons.1 h with rfl | h
      · exact Or.inr List.mem_cons_self
      · exact (ih h).imp id fun h => List.mem_cons_of_mem _ h

theorem AnchorSet.DrawnFrom.put {Digest : Type} {set : AnchorSet Digest} {pool : List (StateAnchor Digest)}
    {a : StateAnchor Digest} (h : set.DrawnFrom pool) (ha : a ∈ pool) : (set.put a).DrawnFrom pool := by
  obtain ⟨hpool, hpair⟩ := h
  refine ⟨fun b hb => ?_, ?_⟩
  · rcases mem_upsertBy hb with rfl | hb
    · exact ha
    · exact hpool b hb
  · show (upsertBy _ a set.anchors).Pairwise _
    clear hpool
    generalize set.anchors = l at hpair ⊢
    induction l with
    | nil => simp [upsertBy]
    | cons d l ih =>
      rw [List.pairwise_cons] at hpair
      unfold upsertBy
      split
      · -- the anchor takes the place of one of its object
        rename_i hd
        have hd' : d.Of a.objectType a.objectId := by simpa using hd
        refine List.pairwise_cons.2 ⟨fun b hb hof => hpair.1 b hb ?_, hpair.2⟩
        exact ⟨hd'.1.trans hof.1, hd'.2.trans hof.2⟩
      · rename_i hd
        refine List.pairwise_cons.2 ⟨fun b hb hof => ?_, ih hpair.2⟩
        rcases mem_upsertBy hb with rfl | hb
        · exact hd (by simpa using hof)
        · exact hpair.1 b hb hof

/-- Nothing of the migration is too large to be read: not the journal and not its anchors, nor, in the degraded file,
any set of them together with those that are there. -/
structure Store.Room (s : Store S) (c : Commitment S) : Prop where
  length : S.rawLen (S.journal.encode c.journal) ≤ maxJournalLen
  ids : ∀ a ∈ c.journal.anchors, byteLen a.objectId ≤ maxAnchorObjectId
  secure : s.backend = .secureStorage → ∀ a ∈ c.journal.anchors,
    S.rawLen (S.objectAnchor.encode ⟨objectAnchorVersion, a⟩) ≤ maxSecureAnchorRecord
  degraded : s.backend = .degradedFile → ∃ pool, (∀ a ∈ c.journal.anchors, a ∈ pool) ∧
    (∃ set, s.fileAnchorSet = .ok set ∧ set.DrawnFrom pool ∧ set.migration = some c.record) ∧
    ∀ set : AnchorSet S.Digest, set.version = anchorsVersion → set.DrawnFrom pool →
      set.migration = none ∨ set.migration = some c.record → S.rawLen (S.anchorSet.encode set) ≤ maxAnchorsFileLen

/-- With room for it, a set of anchors is read back as it was written. -/
private theorem fileAnchorSet_of_room {pool : List (StateAnchor S.Digest)}
    (hroom : ∀ set : AnchorSet S.Digest, set.version = anchorsVersion → set.DrawnFrom pool →
      set.migration = none ∨ set.migration = some c.record → S.rawLen (S.anchorSet.encode set) ≤ maxAnchorsFileLen)
    (set : AnchorSet S.Digest) (hversion : set.version = anchorsVersion) (hset : set.DrawnFrom pool)
    (hmig : set.migration = none ∨ set.migration = some c.record) {root : Folder Str S.Raw}
    (hroot : root.get anchorsFile = some (S.anchorSet.encode set)) (k : Nat) :
    ((s.later k).withRoot root).fileAnchorSet = .ok set := by
  have hle := hroom set hversion hset hmig
  have hpos := S.rawLen_anchorSet set
  have hget : ((s.later k).withRoot root).root.get anchorsFile = some (S.anchorSet.encode set) := hroot
  unfold Store.fileAnchorSet
  rw [hget]
  simp only [RawCodec.decode_encode]
  rw [if_neg (by omega), if_neg (by omega), if_neg (by simp [hversion])]

private theorem version_of_fileAnchorSet {set : AnchorSet S.Digest} (h : s.fileAnchorSet = .ok set) :
    set.version = anchorsVersion := by
  unfold Store.fileAnchorSet at h
  split at h
  · exact congrArg AnchorSet.version (Except.ok.inj h).symm
  · split at h
    · cases h
    · split at h
      · exact congrArg AnchorSet.version (Except.ok.inj h).symm
      · split at h
        · cases h
        · rename_i set' hdec
          split at h
          · cases h
          · rename_i hv
            rw [← Except.ok.inj h]
            simpa using hv

theorem Store.Room.put {a : StateAnchor S.Digest} (h : s.Room c) (ha : a ∈ c.journal.anchors) (hput : s.Put a s') :
    s'.Room c := by
  cases hput with
  | secure records k hb hr =>
    refine ⟨h.length, h.ids, fun _ => h.secure hb, fun hb' => ?_⟩
    have hback : s.backend = .degradedFile := hb'
    rw [hb] at hback
    cases hback
  | degraded set k ok hb hset =>
    refine ⟨h.length, h.ids, fun hb' => ?_, fun _ => ?_⟩
    · have hback : s.backend = .secureStorage := hb'
      rw [hb] at hback
      cases hback
    · obtain ⟨pool, hpool, ⟨set', hset', hdrawn, hmig⟩, hroom⟩ := h.degraded hb
      obtain rfl : set = set' := Except.ok.inj (hset.symm.trans hset')
      refine ⟨pool, hpool, ⟨set.put a, ?_, hdrawn.put (hpool a ha), hmig⟩, hroom⟩
      have hversion : (set.put a).version = anchorsVersion := (version_of_fileAnchorSet hset : set.version = anchorsVersion)
      exact fileAnchorSet_of_room hroom (set.put a) hversion (hdrawn.put (hpool a ha)) (Or.inr hmig) (by simp) k

/-- The room depends on the backend and its file alone. -/
theorem Store.Room.congr (h : s.Room c) (hbackend : s'.backend = s.backend)
    (hfile : s'.root.get anchorsFile = s.root.get anchorsFile) : s'.Room c := by
  have hset : s'.fileAnchorSet = s.fileAnchorSet := by
    unfold Store.fileAnchorSet
    rw [hfile]
  refine ⟨h.length, h.ids, fun hb => h.secure (hbackend ▸ hb), fun hb => ?_⟩
  rw [hset]
  exact h.degraded (hbackend ▸ hb)

/-- A record that can be read lies in a backend that is there. -/
private theorem secure_of_applying (h : s.Applying c s₀) (hb : s.backend = .secureStorage) :
    ∃ records, s.secure = some records := by
  rcases h.record with hr | ⟨hb', -⟩
  · unfold Store.migrationRecord at hr
    rw [hb] at hr
    cases hs : s.secure with
    | none => simp [hs] at hr
    | some records => exact ⟨records, rfl⟩
  · rw [hb] at hb'
    cases hb'

/-- Reading the degraded file on a working machine. -/
private theorem loadFileAnchorSetLocked_ok {set : AnchorSet S.Digest} (hw : s.Working)
    (hset : s.fileAnchorSet = .ok set) :
    wp loadFileAnchorSetLocked (fun r s' => r = .ok set ∧ ∃ k, s' = s.later k) s := by
  refine wp_mono (loadFileAnchorSetLocked_spec s) ?_
  rintro r s' ⟨hlater, -, hworking⟩
  exact ⟨(hworking hw).trans hset, hlater⟩

/-- The anchor is small enough for a record of the secure storage. -/
def StateAnchor.FitsSecure (S : StorePrims) (a : StateAnchor S.Digest) : Prop :=
  byteLen a.objectId ≤ maxAnchorObjectId ∧
    S.rawLen (S.objectAnchor.encode ⟨objectAnchorVersion, a⟩) ≤ maxSecureAnchorRecord

theorem putAnchorLocked_fits {a : StateAnchor S.Digest} {records : Str → Option S.Raw} (ha : a.FitsSecure S)
    (hb : s.backend = .secureStorage) (hr : s.secure = some records) (hw : s.Working) :
    wp (putAnchorLocked a) (fun r s' => r = .ok () ∧ s'.Working) s := by
  obtain ⟨hid, hlen⟩ := ha
  unfold putAnchorLocked
  rw [if_neg (by omega)]
  simp only [wp_bind, wp_get, hb, wp_ite]
  refine ⟨fun hlt => absurd hlt (by omega), fun _ => ?_⟩
  unfold saveSecure secureStorage
  simp only [wp_bind, wp_get, hr, wp_pure, wp_call, wp_modify, hw 0, Bool.true_eq_false, false_implies, and_true,
    true_implies, true_and]
  exact fun i => hw (i + 1)

private theorem putAnchorLocked_ok {a : StateAnchor S.Digest} (h : s.Applying c s₀) (hroom : s.Room c) (hw : s.Working)
    (ha : a ∈ c.journal.anchors) : wp (putAnchorLocked a) (fun r s' => r = .ok () ∧ s'.Working) s := by
  have hid := hroom.ids a ha
  cases hb : s.backend with
  | secureStorage =>
    obtain ⟨records, hr⟩ := secure_of_applying h hb
    exact putAnchorLocked_fits ⟨hid, hroom.secure hb a ha⟩ hb hr hw
  | degradedFile =>
    obtain ⟨pool, -, ⟨set, hset, -⟩, -⟩ := hroom.degraded hb
    unfold putAnchorLocked
    rw [if_neg (by omega)]
    simp only [wp_bind, wp_get, hb]
    refine wp_mono (loadFileAnchorSetLocked_ok hw hset) ?_
    rintro r _ ⟨rfl, k, rfl⟩
    have hwk := hw.later k
    unfold saveFileAnchorSetLocked writePrivateAtomic
    simp only [wp_bind, wp_call, wp_attempt, wp_modify, later_tick, (hw.later k) 0, (hw.later (k + 1)) 0,
      Bool.true_eq_false, false_implies, and_true, true_implies, true_and]
    exact fun i => hw.later (k + 2) i

private theorem setMigrationRecord_ok {record : Option (MigrationRecord S.Digest)} (h : s.Applying c s₀)
    (hroom : s.Room c) (hw : s.Working) : wp (setMigrationRecord record) (fun r s' => r = .ok () ∧ s'.Working) s := by
  unfold setMigrationRecord
  simp only [wp_bind, wp_get]
  cases hb : s.backend with
  | secureStorage =>
    obtain ⟨records, hr⟩ := secure_of_applying h hb
    unfold saveSecure secureStorage
    simp only [wp_bind, wp_get, hr, wp_pure, wp_call, wp_modify, hw 0, Bool.true_eq_false, false_implies, and_true,
      true_implies, true_and]
    exact fun i => hw (i + 1)
  | degradedFile =>
    obtain ⟨pool, -, ⟨set, hset, -⟩, -⟩ := hroom.degraded hb
    simp only [wp_bind]
    refine wp_mono (loadFileAnchorSetLocked_ok hw hset) ?_
    rintro r _ ⟨rfl, k, rfl⟩
    unfold saveFileAnchorSetLocked writePrivateAtomic
    simp only [wp_bind, wp_call, wp_attempt, wp_modify, later_tick, (hw.later k) 0, (hw.later (k + 1)) 0,
      Bool.true_eq_false, false_implies, and_true, true_implies, true_and]
    exact fun i => hw.later (k + 2) i

/-- With room for the sets of anchors, clearing the record leaves a file that can be read. -/
private theorem Store.Room.recordSet (hroom : s.Room c) (h : s.RecordSet none s') : ¬ s'.Overgrown := by
  rintro ⟨hb', e, he⟩
  cases h with
  | secure records k hb hr =>
    have hback : s.backend = .degradedFile := hb'
    rw [hb] at hback
    cases hback
  | degraded set k ok hb hset =>
    obtain ⟨pool, -, ⟨set', hset', hdrawn, -⟩, hlen⟩ := hroom.degraded hb
    obtain rfl : set = set' := Except.ok.inj (hset.symm.trans hset')
    have hversion : ({ set with migration := none } : AnchorSet S.Digest).version = anchorsVersion :=
      (version_of_fileAnchorSet hset : set.version = anchorsVersion)
    have hget : ((s.root.put anchorsFile (S.anchorSet.encode { set with migration := none })).sync ok).get anchorsFile =
        some (S.anchorSet.encode { set with migration := none }) := by
      simp
    have hread := fileAnchorSet_of_room (s := s) hlen { set with migration := none } hversion hdrawn (Or.inl rfl) hget k
    rw [hread] at he
    cases he

/-! ### Completing -/

/-- The loop over the moves gets through. -/
private theorem applyMoves_ok (h : s.Applying c s₀) (hcopies : s.hasOldCopies = true) (hroom : s.Room c)
    (hw : s.Working) : wp (runAll applyMove c.journal.moves.zipIdx) (fun r s' => r = .ok () ∧
      s'.Applying c s₀ ∧ s'.Room c ∧ s'.Working) s := by
  refine wp_mono (runAll_ok (fun s : Store S => (s.Applying c s₀ ∧ s.hasOldCopies = true) ∧ s.Room c ∧ s.Working) ?_
    ⟨⟨h, hcopies⟩, hroom, hw⟩) fun r s' h => ⟨h.1, h.2.1.1, h.2.2⟩
  rintro m hm s ⟨⟨happ, hcopies⟩, hroom, hw⟩
  obtain ⟨hlive, hstaged, hfits⟩ := c.paths _ (mem_zipIdx_moves hm)
  refine wp_mono (wp_and (applyMove_spec hlive hstaged hfits hcopies (happ.moves m hm))
    (applyMove_ok hlive hstaged hfits hcopies (happ.moves m hm) hw)) ?_
  rintro r s' ⟨⟨hmoved, hstate, -⟩, hr, hw'⟩
  refine ⟨hr, ⟨happ.movedOne hm hmoved hstate, hmoved.hasOldCopies.trans hcopies⟩, ?_, hw'⟩
  exact hroom.congr hmoved.backend (get_of_node (hmoved.node _ (liveSpot_ne_anchorsFile hlive).symm))

/-- The loop over the anchors gets through. -/
private theorem putAnchors_ok (h : s.Applying c s₀) (hroom : s.Room c) (hw : s.Working) :
    wp (runAll (putJournalAnchor c.journal.newFingerprint) c.journal.anchors) (fun r s' => r = .ok () ∧
      s'.Applying c s₀ ∧ s'.Room c ∧ s'.Working) s := by
  refine runAll_ok (fun s : Store S => s.Applying c s₀ ∧ s.Room c ∧ s.Working) ?_ ⟨h, hroom, hw⟩
  rintro a ha s ⟨happ, hroom, hw⟩
  unfold putJournalAnchor
  rw [if_neg (not_not.2 (c.owner a ha))]
  refine wp_mono (wp_and (putAnchorLocked_spec a s) (putAnchorLocked_ok happ hroom hw ha)) ?_
  rintro r s' ⟨hput, rfl, hw'⟩
  have hin := hput.within (R := fun _ => False) (V := fun _ => False) (A := fun ty id => a.Of ty id) ⟨rfl, rfl⟩
  exact ⟨rfl, happ.within hin hput.quarantined fun ty id hof => ⟨a, ha, hof⟩, hroom.put ha hput, hw'⟩

/-- What `finish_migration` does after the check of the journal succeeds on a working machine. -/
private theorem applyJournal_ok (io : DiscardIo) (h : s.Applying c s₀) (hroom : s.Room c) (hw : s.Working) :
    wp (applyJournal c.journal io) (fun r s' => r = .ok () ∧ s'.migration = none ∧ ¬ s'.Overgrown) s := by
  unfold applyJournal
  rw [wp_bind]
  have hcreate : wp createOldCopies (fun r s' => r = .ok () ∧ s'.Room c ∧ s'.Working) s := by
    unfold createOldCopies
    simp only [wp_bind, wp_call, wp_modify, hw 0, Bool.true_eq_false, false_implies, and_true, true_implies, true_and]
    exact ⟨hroom.congr rfl rfl, fun i => hw (i + 1)⟩
  refine wp_mono (wp_and (createOldCopies_spec h) hcreate) ?_
  rintro r s₁ ⟨⟨h₁, hcopies⟩, rfl, hroom₁, hw₁⟩
  simp only [wp_bind]
  refine wp_mono (applyMoves_ok h₁ (hcopies rfl) hroom₁ hw₁) ?_
  rintro r s₂ ⟨rfl, h₂, hroom₂, hw₂⟩
  have hsync : wp (do syncRoot; syncVaults) (fun r s' => r = .ok () ∧ s'.Applying c s₀ ∧ s'.Room c ∧ s'.Working) s₂ := by
    refine wp_mono (wp_and (sync_applying h₂) ?_) fun r s' h => ⟨h.1.1, h.1.2, h.2⟩
    unfold syncRoot syncVaults
    simp only [wp_bind, wp_attempt, wp_call, wp_modify, hw₂ 0, Bool.true_eq_false, false_implies, and_true,
      true_implies]
    refine ⟨fun _ => ⟨hroom₂.congr rfl (get_sync _ _ _), fun i => hw₂ (i + 2)⟩, fun hf => ?_⟩
    have : s₂.works (0 + 1) = false := hf
    rw [hw₂] at this
    cases this
  rw [wp_bind] at hsync
  refine wp_mono hsync ?_
  intro r s₃ hr
  cases r with
  | error e => exact absurd hr.1 (by simp)
  | ok u =>
    refine wp_mono hr ?_
    rintro r s₄ ⟨rfl, h₄, hroom₄, hw₄⟩
    simp only
    refine wp_mono (putAnchors_ok h₄ hroom₄ hw₄) ?_
    rintro r s₅ ⟨rfl, h₅, hroom₅, hw₅⟩
    simp only
    refine wp_mono (wp_and (setMigrationRecord_spec none s₅) (setMigrationRecord_ok h₅ hroom₅ hw₅)) ?_
    rintro r s₆ ⟨hset, rfl, hw₆⟩
    refine wp_mono (wp_and (discardMigrationDir_done io hw₆) (discardMigrationDir_swept io s₆)) ?_
    rintro r s₇ ⟨⟨rfl, hnone⟩, hs⟩
    refine ⟨rfl, hnone, fun ho => hroom₅.recordSet hset ?_⟩
    exact (backend_congr hs.account.symm hs.backend.symm hs.secure.symm (by rw [hs.root])).2.2 ho

theorem Store.Room.not_overgrown (h : s.Room c) : ¬ s.Overgrown := by
  rintro ⟨hb, e, he⟩
  obtain ⟨pool, -, ⟨set, hset, -⟩, -⟩ := h.degraded hb
  rw [hset] at he
  cases he

/-- The journal passes its checks. -/
private theorem committedJournal_ok (h : s.Applying c s₀) (hroom : s.Room c) (hw : s.Working) :
    wp (committedJournal c.record) (fun r s' => r = .ok c.journal ∧ s' = s.later 1) s := by
  unfold committedJournal readJournal
  have hjournal : s.tick.journalFile = some (S.journal.encode c.journal) := h.journal
  have hlen := hroom.length
  have hread : readBounded S.toPrims (some (S.journal.encode c.journal)) maxJournalLen =
      .ok (S.journal.encode c.journal) := if_neg (by omega)
  simp only [wp_bind, wp_call, wp_get, wp_liftM, hw 0, Bool.true_eq_false, false_implies, and_true, true_implies,
    hjournal, hread]
  have hlabel : Result.labelled "migration journal".toList (.ok (S.journal.encode c.journal) : Result S.Raw) =
      .ok (S.journal.encode c.journal) := rfl
  rw [hlabel]
  simp only [wp_ite, c.hash, ne_eq, not_true_eq_false, false_implies, not_false_eq_true, true_implies, true_and,
    RawCodec.decode_encode, c.fits, wp_pure, and_true]
  rfl

/-- **Completion.**  On a machine that does all it is asked to, a resume finishes a committed migration from wherever it
has come to, and leaves neither a record nor a staging area. -/
theorem resume_completes (io : DiscardIo) (h : s.Applying c s₀) (hroom : s.Room c) (hw : s.Working) :
    wp (resumeIdentityMigration io) (fun r s' => r = .ok () ∧ s'.Finished c s₀ ∧ s'.migration = none ∧
      ¬ s'.Overgrown) s := by
  have hdone : wp (resumeIdentityMigration io) (fun r s' => r = .ok () ∧ s'.migration = none ∧ ¬ s'.Overgrown) s := by
    unfold resumeIdentityMigration
    rw [wp_bind]
    refine wp_mono (migrationRecord_spec s) ?_
    rintro r _ ⟨⟨k, rfl⟩, -, hworking⟩
    obtain rfl := hworking hw
    rw [h.record.resolve_right hroom.not_overgrown]
    simp only [wp_bind, wp_attempt]
    unfold finishMigration
    rw [wp_bind]
    refine wp_mono (committedJournal_ok (h.later k) (hroom.congr rfl rfl) (hw.later k)) ?_
    rintro r _ ⟨rfl, rfl⟩
    refine wp_mono (applyJournal_ok io ((h.later k).later 1) ?_ ((hw.later k).later 1)) ?_
    · exact hroom.congr rfl rfl
    · rintro r s' ⟨rfl, hrest⟩
      exact ⟨rfl, hrest⟩
  refine wp_mono (wp_and (resumeIdentityMigration_spec io (Or.inl h)) hdone) ?_
  rintro r s' ⟨⟨-, hfin⟩, rfl, hrest⟩
  exact ⟨rfl, hfin rfl, hrest⟩

/-- With nothing committed, a resume on a working machine wipes what is left of the staging area. -/
theorem resume_finished (io : DiscardIo) (h : s.migrationRecord = .ok none) (hw : s.Working) :
    wp (resumeIdentityMigration io) (fun r s' => r = .ok () ∧ s'.migration = none) s := by
  unfold resumeIdentityMigration
  rw [wp_bind]
  refine wp_mono (migrationRecord_spec s) ?_
  rintro r _ ⟨⟨k, rfl⟩, -, hworking⟩
  rw [hworking hw, h]
  exact discardMigrationDir_done io (hw.later k)

end FileSec
