import FileSec.Store.Beside

/-!
# Anchors only move forward

Loads and saves move the anchor of an object to states of higher epochs only, and what a load accepts is the anchored
state or its direct successor.  Over a run that makes the accepted states of one object a chain (`accepted_chain`),
whatever files the run puts in the place of the object in between.
-/

namespace FileSec

open CrashDir Folders Prog

variable {S : StorePrims} {identity : Identity} {id : Str} {s s' s'' : Store S}

/-- The second reading of an anchor is at least as far as the first: what can still be read could be read before, and
an anchor that was there is the same or has moved on. -/
def Forward {Digest : Type} (x y : StoreResult (Option (StateAnchor Digest))) : Prop :=
  ∀ b, y = .ok b → ∃ a, x = .ok a ∧ ∀ a', a = some a' → ∃ b', b = some b' ∧ (a' = b' ∨ a'.epoch < b'.epoch)

theorem forward_refl {Digest : Type} (x : StoreResult (Option (StateAnchor Digest))) : Forward x x :=
  fun b hb => ⟨b, hb, fun a' ha => ⟨a', ha, Or.inl rfl⟩⟩

theorem Forward.trans {Digest : Type} {x y z : StoreResult (Option (StateAnchor Digest))} (h : Forward x y)
    (h' : Forward y z) : Forward x z := by
  intro c hc
  obtain ⟨b, hb, hbc⟩ := h' c hc
  obtain ⟨a, ha, hab⟩ := h b hb
  refine ⟨a, ha, fun a' ha' => ?_⟩
  obtain ⟨b', hb', hab'⟩ := hab a' ha'
  obtain ⟨c', hc', hbc'⟩ := hbc b' hb'
  refine ⟨c', hc', ?_⟩
  rcases hab' with rfl | hlt
  · exact hbc'
  · rcases hbc' with rfl | hlt'
    · exact Or.inr hlt
    · exact Or.inr (hlt.trans hlt')

/-- No anchor has moved back. -/
def Store.Onward (s s' : Store S) : Prop := ∀ ty id, Forward (s.anchor ty id) (s'.anchor ty id)

instance : IsPreorder (Store S) Store.Onward where
  refl _ _ _ := forward_refl _
  trans _ _ _ h h' ty id := (h ty id).trans (h' ty id)

/-- The stores have the same anchors, unless the degraded file has become unreadable. -/
def Store.Apart (s s' : Store S) : Prop := s.Within (· ≠ anchorsFile) (fun _ => True) (fun _ _ => False) s'

instance : IsPreorder (Store S) Store.Apart where
  refl := within_refl
  trans _ _ _ := .trans

theorem Store.Apart.anchor (h : s.Apart s') : (∀ ty id, s'.anchor ty id = s.anchor ty id) ∨ s'.Overgrown := by
  rcases h.anchors with ha | ho
  · exact Or.inl fun ty id => ha ty id (by simp)
  · exact Or.inr ho

theorem Store.Apart.onward (h : s.Apart s') : s.Onward s' := by
  intro ty id
  rcases h.anchor with ha | ho
  · rw [ha]
    exact forward_refl _
  · obtain ⟨e, he⟩ := ho.anchor
    rw [he]
    rintro b ⟨⟩

/-- An anchor that accepts a state as its own is the anchor of that state. -/
theorem eq_fromMetadata {Digest : Type} [DecidableEq Digest] {a : StateAnchor Digest} {state : StateMetadata Digest}
    (h : a.checkCandidate state = .ok false) : a = StateAnchor.fromMetadata state := by
  obtain ⟨⟨hfp, hty, hid⟩, hepoch, hhash, hsuite⟩ := checkCandidate_ok_false_iff.1 h
  obtain ⟨fp, ty, id, suite, epoch, hash⟩ := a
  simp only at hfp hty hid hepoch hhash hsuite
  simp only [StateAnchor.fromMetadata, hfp, hty, hid, hepoch, hhash, hsuite]

/-- What the object's anchor reads as once `state` has been put: its anchor, or nothing any more. -/
theorem Store.Put.self {a : StateAnchor S.Digest} (h : s.Put a s') :
    s'.anchor a.objectType a.objectId = .ok (some a) ∨ ∃ e, ∀ ty id, s'.anchor ty id = .error e := by
  rcases h.anchor with ⟨ha, -⟩ | ⟨-, he⟩
  · exact Or.inl ha
  · exact Or.inr he

theorem Store.Put.onward {a : StateAnchor S.Digest} (h : s.Put a s')
    (hfrom : ∀ b, s.anchor a.objectType a.objectId = .ok (some b) → b = a ∨ b.epoch < a.epoch)
    (hread : ∃ b, s.anchor a.objectType a.objectId = .ok b) : s.Onward s' := by
  intro ty id
  rcases h.anchor with ⟨ha, hothers⟩ | ⟨-, e, he⟩
  · by_cases hof : a.Of ty id
    · obtain ⟨rfl, rfl⟩ := hof
      rw [ha]
      rintro b ⟨⟩
      obtain ⟨b, hb⟩ := hread
      refine ⟨b, hb, fun a' ha' => ⟨a, rfl, hfrom a' (ha' ▸ hb)⟩⟩
    · rw [hothers ty id hof]
      exact forward_refl _
  · rw [he]
    rintro b ⟨⟩

/-! ### Acceptance -/

/-- The state is the anchored one or its direct successor. -/
def StateAnchor.Admits {Digest : Type} [DecidableEq Digest] (a : StateAnchor Digest) (state : StateMetadata Digest) :
    Prop := a.checkCandidate state = .ok false ∨ a.checkCandidate state = .ok true

/-- A load from `s` to `s'` has accepted the state: an anchor of the object admits it, and is then that of the state. -/
structure Store.Accepted (s : Store S) (state : StateMetadata S.Digest) (s' : Store S) : Prop where
  read : ∃ anchor, s.anchor state.objectType state.objectId = .ok anchor
  admits : ∀ a, s.anchor state.objectType state.objectId = .ok (some a) → a.Admits state ∧
    (s'.anchor state.objectType state.objectId = .ok (some (StateAnchor.fromMetadata state)) ∨
      ∃ e, ∀ ty id, s'.anchor ty id = .error e)

theorem Store.Passed.accepted {first : Bool} {state : StateMetadata S.Digest} (h : s.Passed first state s') :
    s.Accepted state s' := by
  cases h with
  | anchored a k ha hc =>
    refine ⟨⟨_, ha⟩, fun b hb => ?_⟩
    rw [ha, Except.ok.injEq, Option.some.injEq] at hb
    subst hb
    refine ⟨Or.inl hc, Or.inl ?_⟩
    rw [anchor_later, ha, ← eq_fromMetadata hc]
  | successor a k ha hc hput =>
    refine ⟨⟨_, ha⟩, fun b hb => ?_⟩
    rw [ha, Except.ok.injEq, Option.some.injEq] at hb
    subst hb
    exact ⟨Or.inr hc, hput.self⟩
  | first k ha hf hput => exact ⟨⟨_, ha⟩, fun b hb => by simp [ha] at hb⟩
  | unanchored k ha hf => exact ⟨⟨_, ha⟩, fun b hb => by simp [ha] at hb⟩

theorem Store.Passed.onward {first : Bool} {state : StateMetadata S.Digest} (h : s.Passed first state s') :
    s.Onward s' := by
  cases h with
  | anchored a k ha hc => exact Store.Apart.onward (within_later s k)
  | successor a k ha hc hput =>
    refine IsTrans.trans _ _ _ (Store.Apart.onward (within_later s k)) (hput.onward ?_ ⟨_, ha⟩)
    intro b hb
    rw [anchor_later] at hb
    have hba : b = a := Option.some.inj (Except.ok.inj (hb.symm.trans ha))
    exact Or.inr (hba ▸ (checkCandidate_ok_true_iff.1 hc).2.1)
  | first k ha hf hput =>
    refine IsTrans.trans _ _ _ (Store.Apart.onward (within_later s k)) (hput.onward ?_ ⟨_, ha⟩)
    intro b hb
    rw [anchor_later] at hb
    have := hb.symm.trans ha
    simp at this
  | unanchored k ha hf => exact Store.Apart.onward (within_later s k)

/-- Acceptance between steps that leave the anchors alone. -/
theorem Store.Accepted.between {s₁ s₂ : Store S} {state : StateMetadata S.Digest} (hpre : s.Apart s₁)
    (h : s₁.Accepted state s₂) (hpost : s₂.Apart s') : s.Accepted state s' := by
  have hread : ∀ x, s₁.anchor state.objectType state.objectId = .ok x →
      s.anchor state.objectType state.objectId = .ok x := by
    intro x hx
    rcases hpre.anchor with ha | ho
    · rw [← ha]
      exact hx
    · obtain ⟨e, he⟩ := ho.anchor
      rw [he] at hx
      simp at hx
  obtain ⟨x, hx⟩ := h.read
  refine ⟨⟨x, hread x hx⟩, fun a ha => ?_⟩
  have hxa : x = some a := Except.ok.inj ((hread x hx).symm.trans ha)
  obtain ⟨hadms, hafter⟩ := h.admits a (hxa ▸ hx)
  refine ⟨hadms, ?_⟩
  rcases hpost.anchor with hp | ho
  · rcases hafter with hs | ⟨e, he⟩
    · exact Or.inl ((hp _ _).trans hs)
    · exact Or.inr ⟨e, fun ty id => (hp ty id).trans (he ty id)⟩
  · exact Or.inr ho.anchor

/-! ### Loads and saves -/

theorem onward_of_apart {α : Type} {p : StoreM S α} (h : Respects Store.Apart p) : Respects Store.Onward p :=
  fun s => wp_mono (h s) fun _ _ hr => hr.onward

theorem judge_onward (first : Bool) (state : StateMetadata S.Digest) (suspect : Option Spot)
    (hspot : ∀ spot, suspect = some spot → spot ≠ .root anchorsFile) :
    Respects Store.Onward (judge first state suspect) := by
  intro s
  refine wp_mono (judge_spec first state suspect s) ?_
  intro r s' hr
  cases r with
  | ok u => exact hr.onward
  | error e =>
    rcases hr with ⟨k, rfl⟩ | ⟨k, spot, hs, hq⟩
    · exact Store.Apart.onward (within_later s k)
    · refine Store.Apart.onward ((within_later s k).trans (hq.within ?_))
      have := hspot spot hs
      cases spot with
      | root name =>
        have hne : name ≠ anchorsFile := by simpa using this
        exact ⟨hne, hne⟩
      | vault name => trivial

theorem commitState_onward (state : StateMetadata S.Digest) : Respects Store.Onward (commitState state) :=
  judge_onward true state none (by simp)

section Saves

variable {T : Type} (o : RecordKind S T)

theorem saveProtectedBlob_onward (identity : Identity) (payload : T) (hne : o.path ≠ anchorsFile) :
    Respects Store.Onward (saveProtectedBlob o identity payload) := by
  refine .bind (onward_of_apart (currentAnchor_within _ _ _)) fun previous => .bind (.lift _) fun state => ?_
  exact .bind (onward_of_apart (saveBlob_within _ _ _ hne hne)) fun _ => commitState_onward state

end Saves

theorem saveKeystore_onward (ks : S.KeystoreFile) : Respects Store.Onward (saveKeystore ks) := by
  refine .bind (.lift _) fun state => .bind (onward_of_apart (checkStateTransition_within _)) fun _ => ?_
  refine .bind (.lift _) fun bytes => ?_
  have hne : keystoreFile ≠ anchorsFile := by decide
  exact .bind (onward_of_apart (writePrivateAtomic_within _ hne hne)) fun _ => commitState_onward state

theorem commitVaultReader_onward (reader : VaultReaderV2 S.toPrims) :
    Respects Store.Onward (commitVaultReader reader) :=
  .bind (.lift _) fun state => commitState_onward state

theorem mutateVault_onward (reader : VaultReaderV2 S.toPrims) (c : CommitCall) :
    Respects Store.Onward (mutateVault reader c) := by
  refine .bind (.lift _) fun state => .bind (onward_of_apart (ensureCurrentVault_within _)) fun _ => ?_
  exact .bind (onward_of_apart (commitIn_within trivial _ _)) fun w => commitVaultReader_onward w

theorem commitChunks_onward (name : Str) (writer : VaultReaderV2 S.toPrims) (chunks : List (List Op × CommitIo)) :
    Respects Store.Onward (commitChunks name writer chunks) := by
  induction chunks generalizing writer with
  | nil => exact .pure _
  | cons chunk chunks ih =>
    refine .bind (onward_of_apart (commitIn_within trivial _ _)) fun w => ?_
    exact .bind (commitVaultReader_onward w) fun _ => ih w

theorem mutateVaultInBatches_onward (reader : VaultReaderV2 S.toPrims) (items : List Op) (io : Nat → CommitIo) :
    Respects Store.Onward (mutateVaultInBatches reader items io) := by
  refine .bind (.lift _) fun state => .bind (onward_of_apart (ensureCurrentVault_within _)) fun _ => ?_
  exact commitChunks_onward _ _ _

theorem createVaultDir_onward (identity : Identity) (id : Str) (source : VaultSource) (io : CreateDirIo) :
    Respects Store.Onward (createVaultDir identity id source io : StoreM S Unit) := by
  have hwipe : ∀ name wipe, Respects Store.Onward (wipeVaultDir name wipe : StoreM S Unit) :=
    fun name wipe => onward_of_apart (wipeVaultDir_within trivial wipe)
  refine .bind .get fun s => .ite (.throw _) (.bind (hwipe _ _) fun _ => ?_)
  refine .bind (.attempt (onward_of_apart (buildIn_within trivial _ _ _ _))) fun built => ?_
  cases built with
  | error e => exact .bind (hwipe _ _) fun _ => .throw _
  | ok reader =>
    simp only
    cases reader.state with
    | none => exact .bind (hwipe _ _) fun _ => .throw _
    | some state =>
      refine .bind (.attempt (onward_of_apart (renameVault_within trivial trivial))) fun renamed => ?_
      cases renamed with
      | error e => exact .bind (hwipe _ _) fun _ => .throw _
      | ok u =>
        refine .bind (onward_of_apart syncVaults_within) fun _ => ?_
        refine .bind (.attempt (commitState_onward state)) fun committed => ?_
        cases committed with
        | ok u => exact .pure _
        | error e => exact .bind (hwipe _ _) fun _ => .throw _

/-- A load moves no anchor back, and what it returns has been accepted. -/
def Accepting (p : StoreM S (Option (StateMetadata S.Digest))) : Prop :=
  ∀ s, wp p (fun r s' => s.Onward s' ∧ ∀ state, r = .ok (some state) → s.Accepted state s') s

theorem accepting_of_onward {p : StoreM S (Option (StateMetadata S.Digest))} (h : Respects Store.Onward p)
    (hnone : Returns (· = none) p) : Accepting p := by
  intro s
  refine wp_mono (wp_and (h s) (hnone s)) ?_
  rintro r s' ⟨hr, hn⟩
  refine ⟨hr, ?_⟩
  rintro state rfl
  have := hn _ rfl
  simp at this

/-- A save: its result is not a state that was loaded. -/
theorem accepting_save {p : StoreM S Unit} (h : Respects Store.Onward p) :
    Accepting (do
      p
      pure none : StoreM S (Option (StateMetadata S.Digest))) :=
  accepting_of_onward (.bind h fun _ => .pure _) (.bind fun _ => .pure rfl)

/-- A load goes on after steps that leave the anchors alone. -/
theorem Accepting.after {α : Type} {p : StoreM S α} {f : α → StoreM S (Option (StateMetadata S.Digest))}
    (hp : Respects Store.Apart p) (hf : ∀ a, Accepting (f a)) : Accepting (p >>= f) := by
  intro s
  rw [wp_bind]
  refine wp_mono (hp s) ?_
  intro r s' hr
  cases r with
  | error e => exact ⟨hr.onward, by simp⟩
  | ok a =>
    refine wp_mono (hf a s') ?_
    rintro r' s'' ⟨honward, hacc⟩
    exact ⟨IsTrans.trans _ _ _ hr.onward honward, fun state h => (hacc state h).between hr (within_refl _)⟩

/-- The step that accepts a state, and what follows it. -/
theorem accepting_judge {first : Bool} {state : StateMetadata S.Digest} {spot : Spot} (hspot : spot ≠ .root anchorsFile)
    {rest : StoreM S (Option (StateMetadata S.Digest))} (hrest : Respects Store.Apart rest)
    (hret : Returns (fun st => ∀ st', st = some st' → st' = state) rest) :
    Accepting (do
      judge first state (some spot)
      rest) := by
  intro s
  rw [wp_bind]
  have honward := judge_onward first state (some spot) (by rintro _ ⟨⟩; exact hspot) s
  refine wp_mono (wp_and (judge_spec first state (some spot) s) honward) ?_
  rintro r s' ⟨hr, ho⟩
  cases r with
  | error e => exact ⟨ho, by simp⟩
  | ok u =>
    refine wp_mono (wp_and (hrest s') (hret s')) ?_
    rintro r' s'' ⟨hr', hst⟩
    refine ⟨IsTrans.trans _ _ _ ho hr'.onward, ?_⟩
    rintro st rfl
    obtain rfl := hst _ rfl st rfl
    exact hr.accepted.between (within_refl s) hr'

theorem loadKeystore_accepting : Accepting (do
    let ks ← loadKeystore
    pure (S.keystoreState ks)) := by
  unfold loadKeystore
  simp only [bind_assoc, pure_bind]
  refine .after (readBoundedFile_within _ _ _) fun bytes => .after (.lift _) fun ks => ?_
  unfold keystoreStateOr
  cases S.keystoreState ks with
  | none => exact accepting_of_onward (.throw _) (.throw _)
  | some state =>
    refine accepting_judge (by decide) (.pure _) (.pure ?_)
    rintro _ ⟨⟩
    rfl

theorem confirmUnlockedKeystore_accepting (ks : S.KeystoreFile) (identity : Identity) : Accepting (do
    confirmUnlockedKeystore ks identity
    pure (S.keystoreState ks)) := by
  unfold confirmUnlockedKeystore keystoreStateOr
  cases S.keystoreState ks with
  | none => exact accepting_of_onward (.bind (.throw _) fun _ => .pure _) (.bind_of (.throw (Q := fun _ => False) _)
      fun _ h => h.elim)
  | some state =>
    rw [lift_ok_bind]
    split
    · exact accepting_of_onward (.bind (.throw _) fun _ => .pure _) (.bind_of (.throw (Q := fun _ => False) _)
        fun _ h => h.elim)
    · refine accepting_judge (by decide) (.pure _) (.pure ?_)
      rintro _ ⟨⟩
      rfl

theorem loadProtectedRecord_accepting {T : Type} (o : RecordKind S T) (identity : Identity)
    (hne : o.path ≠ anchorsFile) : Accepting (do
      let record ← loadProtectedRecord o identity
      pure (record.map (·.state))) := by
  unfold loadProtectedRecord
  rw [bind_assoc]
  refine .after (.attempt (readProtectedRecord_within o identity)) fun result => ?_
  cases result with
  | error e =>
    have hspot : Spot.In (· ≠ anchorsFile) (fun _ => True) (.root o.path) := ⟨hne, hne⟩
    refine accepting_of_onward (.bind (.ite (.bind (.attempt (onward_of_apart (quarantine_within hspot))) fun _ =>
      .throw _) (.throw _)) fun _ => .pure _) (.bind_of (A := fun _ => False) (.ite (.bind fun _ => .throw _) (.throw _))
      fun _ h => h.elim)
  | ok record =>
    cases record with
    | none => exact accepting_of_onward (.pure _) (.pure rfl)
    | some record =>
      rw [bind_assoc]
      refine accepting_judge (by simpa using hne) (.bind (.pure _) fun _ => .pure _) (.bind_of (.pure rfl) ?_)
      rintro _ rfl
      refine .pure ?_
      rintro _ ⟨⟩
      rfl

theorem openVaultLocked_accepting (identity : Identity) (id : Str) (io : GcIo) : Accepting (do
    let reader ← openVaultLocked identity id io
    pure reader.state : StoreM S (Option (StateMetadata S.Digest))) := by
  have hthrow : ∀ e, Accepting (do
      let reader ← (throw e : StoreM S (VaultReaderV2 S.toPrims))
      pure reader.state) := fun e =>
    accepting_of_onward (.bind (.throw _) fun _ => .pure _) (.bind_of (.throw (Q := fun _ => False) _)
      fun _ h => h.elim)
  unfold openVaultLocked
  rw [bind_assoc]
  refine .after .get fun s => ?_
  split
  · unfold openVaultDir
    simp only [bind_assoc]
    refine .after (readVault_within _ _) fun reader => ?_
    cases hs : reader.state with
    | none =>
      have hst : reader.stateOr = .error noVaultState := by rw [VaultReaderV2.stateOr, hs]
      rw [hst]
      exact accepting_of_onward (.throw _) (.throw _)
    | some state =>
      have hst : reader.stateOr = .ok state := by rw [VaultReaderV2.stateOr, hs]
      rw [hst, lift_ok_bind]
      split
      · rw [bind_assoc]
        exact .after (.attempt (quarantine_within trivial)) fun _ => hthrow _
      · simp only [bind_assoc]
        refine accepting_judge (by simp) ?_ ?_
        · refine .bind (.attempt (wipeFile_within trivial)) fun _ => ?_
          exact .bind (inVault_within trivial _ (collectGarbage_ahead io)) fun _ => .bind (.pure _) fun _ => .pure _
        · -- collecting garbage leaves the state of the reader alone
          refine .bind fun _ => .bind_of (A := fun p => p.2.state = some state) ?_ fun p hp => ?_
          · intro s
            rw [wp_inVault]
            refine wp_mono (collectGarbage_spec io _) ?_
            rintro r t ht p ⟨⟩
            obtain ⟨pending, hr, -⟩ := ht.reader
            rw [hr]
            exact hs
          · refine .bind_of (.pure rfl) ?_
            rintro _ rfl
            refine .pure ?_
            rintro st hst
            exact Option.some.inj (hst.symm.trans hp)
  · split
    · exact hthrow _
    · exact hthrow _

end FileSec
