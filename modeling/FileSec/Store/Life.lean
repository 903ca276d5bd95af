import FileSec.Lib.Runs
import FileSec.Store.Ideal
import FileSec.Store.Sealed

/-!
# The life of a store over its launches

A store is launched, its objects are loaded and saved, and it is launched again; any call of the operating system may
fail, and between any two steps the whole data directory may be replaced by another one.  The identity migration is not
among these steps.  As long as the secure storage holds the root record of the store, none of them moves one of its
anchors back (`life_onward`), and what the loads on the secure storage accept of an object is a chain over all of them
(`life_accepted_chain`).
-/

namespace FileSec

open CrashDir Folders Prog

variable {S : StorePrims} {s s' : Store S}

/-- The secure storage holds the root record of the store, and no migration is committed in it. -/
def Store.Rooted (s : Store S) : Prop := ∃ raw root, s.RootRecord raw ∧ S.probeVersion raw = some anchorRootVersion ∧
  S.anchorRoot.decode raw = some root ∧ root.migration = none

/-- The anchor that the secure storage holds for an object. -/
def Store.secureAnchor (s : Store S) (ty : StateObjectType) (id : Str) : StoreResult (Option (StateAnchor S.Digest)) :=
  (s.on .secureStorage).anchor ty id

/-- The account and the records of the secure storage are the same. -/
def Store.Fixed (s s' : Store S) : Prop := s'.account = s.account ∧ s'.secure = s.secure

instance : IsPreorder (Store S) Store.Fixed where
  refl _ := ⟨rfl, rfl⟩
  trans _ _ _ h h' := ⟨h'.1.trans h.1, h'.2.trans h.2⟩

theorem Store.Fixed.secureAnchor (h : s.Fixed s') (ty : StateObjectType) (id : Str) :
    s'.secureAnchor ty id = s.secureAnchor ty id := by
  unfold Store.secureAnchor Store.anchor Store.on
  simp only [h.1, h.2]

theorem Store.Rooted.fixed (h : s.Rooted) (hf : s.Fixed s') : s'.Rooted := by
  obtain ⟨raw, root, ⟨records, hs, hr⟩, hrest⟩ := h
  refine ⟨raw, root, ⟨records, hf.2.trans hs, ?_⟩, hrest⟩
  rw [hf.1]
  exact hr

/-! ### A launch -/

/-- Choosing a backend does not touch the anchors of a store that has its root record. -/
theorem Store.Chose.fixed {raw : S.Raw} (hc : s.Chose s') (h : s.RootRecord raw) : s.Fixed s' := by
  refine ⟨hc.account, hc.secure.resolve_right ?_⟩
  rintro ⟨records, marker, found, hs, hnone, -⟩
  obtain ⟨records', hs', hr⟩ := h
  obtain rfl := Option.some.inj (hs.symm.trans hs')
  rw [hnone] at hr
  cases hr

/-- The layout of a store that has its root record is the present one. -/
private theorem upgradeSecureAnchorLayout_rooted (h : s.Rooted) :
    wp upgradeSecureAnchorLayout (fun r s' => (∃ k, s' = s.later k) ∧ (s.Working → r = .ok ())) s := by
  obtain ⟨raw, root, ⟨records, hs, hr⟩, hversion, -⟩ := h
  unfold upgradeSecureAnchorLayout loadSecure secureStorage
  simp only [wp_bind, wp_get, wp_ite, wp_pure, wp_call, hs, hr, hversion]
  refine ⟨fun _ => ⟨⟨0, rfl⟩, fun _ => trivial⟩, fun _ => ⟨fun _ => ?_, fun hf => ?_⟩⟩
  · exact ⟨fun _ => ⟨⟨1, rfl⟩, fun _ => trivial⟩, fun hne => absurd trivial hne⟩
  · refine ⟨⟨1, rfl⟩, fun hw => ?_⟩
    rw [hw 0] at hf
    cases hf

/-- There is no migration to resume. -/
theorem resume_rooted (io : DiscardIo) (h : s.Rooted) (hb : s.backend = .secureStorage) :
    wp (resumeIdentityMigration io) (fun r s' => s.Fixed s' ∧ s'.backend = .secureStorage ∧
      (s.Working → r = .ok ())) s := by
  obtain ⟨raw, root, ⟨records, hs, hr⟩, -, hdecode, hnone⟩ := h
  have hrecord : s.migrationRecord = .ok none := by
    unfold Store.migrationRecord
    rw [hb]
    simp only [hs, hr, hdecode, hnone]
  unfold resumeIdentityMigration
  rw [wp_bind]
  refine wp_mono (migrationRecord_spec s) ?_
  rintro r _ ⟨⟨k, rfl⟩, hok, hworking⟩
  cases r with
  | error e =>
    refine ⟨⟨rfl, rfl⟩, hb, fun hw => ?_⟩
    have := hworking hw
    rw [hrecord] at this
    cases this
  | ok record =>
    have hsome := hok record rfl
    rw [hrecord] at hsome
    obtain rfl := Except.ok.inj hsome
    refine wp_mono (wp_and (discardMigrationDir_swept io (s.later k)) (discardMigrationDir_ok io (s.later k))) ?_
    rintro r s' ⟨hsw, hr⟩
    exact ⟨⟨hsw.account, hsw.secure⟩, hsw.backend.trans hb, fun _ => hr⟩

/-- The root record decides, whatever the marker says. -/
theorem chooseBackend_established (marker : Option BackendMarker) (found fileAnchors : Bool) :
    chooseBackend .established marker found fileAnchors = .ok .secureStorage := by
  unfold chooseBackend
  rfl

/-- Selecting a backend for a store that has its root record. -/
theorem selectAnchorBackend_rooted {raw : S.Raw} (h : s.RootRecord raw) : wp selectAnchorBackend (fun r s' =>
    s.Fixed s' ∧ (s.Working → r = .ok .secureStorage ∧ s'.Working)) s := by
  refine wp_mono (wp_and (selectAnchorBackend_spec s) (selectAnchorBackend_ticked s)) ?_
  rintro r s' ⟨⟨hc, herr, hok⟩, ht⟩
  have hprobed : ∀ {probe}, s.Working → s.Probed probe → probe = .established :=
    fun hw hp => (hp.of_record h).resolve_right fun hf => hf.2 hw
  refine ⟨hc.fixed h, fun hw => ⟨?_, hw.ticked ht⟩⟩
  cases r with
  | error e =>
    obtain ⟨marker, found, probe, e', -, hp, hchoice⟩ := (herr e rfl).2 hw
    rw [hprobed hw hp, chooseBackend_established] at hchoice
    cases hchoice
  | ok backend =>
    obtain ⟨marker, found, probe, chosen, -, -, hp, hchoice, hwhy⟩ := (hok backend rfl).reason
    rw [hprobed hw hp] at hchoice hwhy
    rw [chooseBackend_established] at hchoice
    rcases hwhy with ⟨rfl, -⟩ | ⟨-, -, hemp, -⟩
    · rw [← Except.ok.inj hchoice]
    · cases hemp

/-- **A launch.**  Whatever the data directory holds and whatever fails, the anchors of a store that has its root record
stay as they are; on a working machine the launch succeeds and works on the secure storage. -/
theorem openAt_rooted (io : DiscardIo) (h : s.Rooted) : wp (openAt io) (fun r s' => s.Fixed s' ∧
    (s.Working → r = .ok () ∧ s'.backend = .secureStorage)) s := by
  refine openAt_rule (fun e k hf => ⟨⟨rfl, rfl⟩, fun hw => absurd hw hf⟩) ?_
  have hworks : s.Working → ((s.later 4).on .degradedFile).Working := fun hw => hw.later 4
  obtain ⟨raw, root, hroot, hrest⟩ := h
  have h : s.Rooted := ⟨raw, root, hroot, hrest⟩
  have h₁ : ((s.later 4).on .degradedFile).RootRecord raw := hroot
  refine wp_mono (selectAnchorBackend_rooted h₁) ?_
  rintro r s₂ ⟨hfix, hok₂⟩
  have hfix₂ : s.Fixed s₂ := ⟨hfix.1, hfix.2⟩
  cases r with
  | error e => exact ⟨hfix₂, fun hw => by cases (hok₂ (hworks hw)).1⟩
  | ok backend =>
    simp only [wp_bind]
    have h₂ : (s₂.on backend).Rooted := h.fixed ⟨hfix₂.1, hfix₂.2⟩
    refine wp_mono (upgradeSecureAnchorLayout_rooted h₂) ?_
    rintro r _ ⟨⟨j, rfl⟩, hok₃⟩
    have hworks₂ : s.Working → (s₂.on backend).Working := fun hw => (hok₂ (hworks hw)).2
    cases r with
    | error e => exact ⟨hfix₂, fun hw => by cases hok₃ (hworks₂ hw)⟩
    | ok u =>
      cases backend with
      | secureStorage =>
        have h₃ : ((s₂.on .secureStorage).later j).Rooted := h₂
        refine wp_mono (resume_rooted io h₃ rfl) ?_
        rintro r s' ⟨hfix₃, hb, hok₄⟩
        exact ⟨⟨hfix₃.1.trans hfix₂.1, hfix₃.2.trans hfix₂.2⟩, fun hw => ⟨hok₄ ((hworks₂ hw).later j), hb⟩⟩
      | degradedFile =>
        refine wp_mono (resumeIdentityMigration_parted io _) ?_
        intro r s' hp
        exact ⟨⟨hp.account.trans hfix₂.1, (hp.secure rfl).trans hfix₂.2⟩,
          fun hw => by cases (hok₂ (hworks hw)).1⟩

/-! ### Lives -/

/-- Everything under the data directory: files in itself, and the directories of the vaults. -/
structure Disk (S : StorePrims) where
  root : Folder Str S.Raw
  vaults : Folder Str (DirEntry S.toPrims)
  migration : Option (MigrationDir S.toPrims)
  quarantined : Listing Str (DirEntry S.toPrims)

/-- The store with another data directory. -/
def Store.withDisk (s : Store S) (disk : Disk S) : Store S :=
  { s with root := disk.root, vaults := disk.vaults, migration := disk.migration, quarantined := disk.quarantined }

/-- Everything under the data directory of the store. -/
def Store.disk (s : Store S) : Disk S := ⟨s.root, s.vaults, s.migration, s.quarantined⟩

/-- A store over time, and whether it is open. -/
structure Life (S : StorePrims) where
  store : Store S
  running : Bool

/-- What happens to a store: a launch, a load or a save, or an exchange of the data directory; `works` says which calls of
the operating system succeed. -/
inductive LifeEvent (S : StorePrims) where
  | launch (works : Nat → Bool) (io : DiscardIo)
  | call (op : StoreOp S) (works : Nat → Bool)
  /-- Put another data directory in the place of this one. -/
  | restore (disk : Disk S)

/-- The life after an event.  Only an open store is worked with. -/
def Life.step (l : Life S) : LifeEvent S → Life S
  | .launch works io =>
    let (r, s) := exec (openAt io) (l.store.withWorks works)
    ⟨s, r.isOk⟩
  | .call op works => if l.running then { l with store := (exec op.run (l.store.withWorks works)).2 } else l
  | .restore disk => { l with store := l.store.withDisk disk }

theorem step_call {l : Life S} (h : l.running = true) (op : StoreOp S) (works : Nat → Bool) :
    l.step (.call op works) = { l with store := (exec op.run (l.store.withWorks works)).2 } := if_pos h

theorem step_call_closed {l : Life S} (h : l.running = false) (op : StoreOp S) (works : Nat → Bool) :
    l.step (.call op works) = l := if_neg (by simp [h])

/-- What an event accepts where the store is open on the secure storage. -/
def Life.accepts (l : Life S) (e : LifeEvent S) : Option (Acceptance S) :=
  match e with
  | .call op works =>
    if l.running ∧ l.store.backend = .secureStorage then l.store.accepts (.call op works) else none
  | _ => none

/-- What the loads on the secure storage accept, in order. -/
def Life.accepted : Life S → List (LifeEvent S) → List (Acceptance S)
  | _, [] => []
  | l, e :: events => (l.accepts e).toList ++ Life.accepted (l.step e) events

/-- No anchor of the secure storage has moved back. -/
def Store.SecureOnward (s s' : Store S) : Prop := ∀ ty id, Forward (s.secureAnchor ty id) (s'.secureAnchor ty id)

instance : IsPreorder (Store S) Store.SecureOnward where
  refl _ _ _ := forward_refl _
  trans _ _ _ h h' ty id := (h ty id).trans (h' ty id)

theorem Store.Fixed.secureOnward (h : s.Fixed s') : s.SecureOnward s' := by
  intro ty id
  rw [h.secureAnchor]
  exact forward_refl _

theorem secureAnchor_of_backend (h : s.backend = .secureStorage) (ty : StateObjectType) (id : Str) :
    s.secureAnchor ty id = s.anchor ty id := by
  unfold Store.secureAnchor Store.anchor Store.on
  simp only [h]

/-- **A step.**  Nothing that happens to a store moves an anchor of the secure storage back or removes the root
record. -/
theorem life_step {l : Life S} (h : l.store.Rooted) (e : LifeEvent S) :
    (l.step e).store.Rooted ∧ l.store.SecureOnward (l.step e).store := by
  cases e with
  | launch works io =>
    have hf : l.store.Fixed (l.step (.launch works io)).store :=
      (openAt_rooted (s := l.store.withWorks works) io h).1
    exact ⟨h.fixed hf, hf.secureOnward⟩
  | restore disk =>
    have hf : l.store.Fixed (l.step (.restore disk)).store := ⟨rfl, rfl⟩
    exact ⟨h.fixed hf, hf.secureOnward⟩
  | call op works =>
    cases hrun : l.running with
    | false =>
      rw [step_call_closed hrun]
      exact ⟨h, Std.Refl.refl l.store⟩
    | true =>
      rw [step_call hrun]
      have hheld : (l.store.withWorks works).Held (exec op.run (l.store.withWorks works)).2 :=
        op.held (l.store.withWorks works)
      refine ⟨?_, fun ty id => ?_⟩
      · obtain ⟨raw, root, hr, hrest⟩ := h
        exact ⟨raw, root, hheld.record raw hr, hrest⟩
      · cases hb : l.store.backend with
        | secureStorage =>
          have hon := (op.accepting (l.store.withWorks works)).1 ty id
          rw [secureAnchor_of_backend hb]
          have hb' : (exec op.run (l.store.withWorks works)).2.backend = .secureStorage := hheld.backend.trans hb
          simp only [secureAnchor_of_backend hb']
          exact hon
        | degradedFile =>
          have hf : l.store.Fixed (exec op.run (l.store.withWorks works)).2 := ⟨hheld.account, hheld.secure hb⟩
          exact hf.secureOnward ty id

/-- **Over a whole life.**  No launch, no load or save and no exchange of the data directory moves an anchor of the secure
storage back; and in every state reached, a launch on a working machine succeeds and works on the secure storage. -/
theorem life_onward (l : Life S) (events : List (LifeEvent S)) (h : l.store.Rooted) :
    l.store.SecureOnward (Runs.run Life.step l events).store ∧
      ∀ works io, (∀ i, works i = true) →
        ((Runs.run Life.step l events).step (.launch works io)).running = true ∧
          ((Runs.run Life.step l events).step (.launch works io)).store.backend = .secureStorage := by
  have hrun : (Runs.run Life.step l events).store.Rooted ∧
      l.store.SecureOnward (Runs.run Life.step l events).store := by
    induction events generalizing l with
    | nil => exact ⟨h, Std.Refl.refl l.store⟩
    | cons e events ih =>
      obtain ⟨hroot, hon⟩ := life_step h e
      obtain ⟨hroot', hon'⟩ := ih (l.step e) hroot
      exact ⟨hroot', Trans.trans hon hon'⟩
  refine ⟨hrun.2, fun works io hw => ?_⟩
  generalize Runs.run Life.step l events = t at hrun ⊢
  have hopen := (openAt_rooted (s := t.store.withWorks works) io hrun.1).2 hw
  refine ⟨?_, hopen.2⟩
  show (exec (openAt io) (t.store.withWorks works)).1.isOk = true
  rw [hopen.1]
  rfl

/-- A store that has been launched for the first time and holds a contact book. -/
def Sym.lived : Life Sym.store :=
  Runs.run Life.step ⟨Sym.machine .secureStorage 100, false⟩
    [.launch (fun _ => true) ⟨[], []⟩, .call (.saveContacts Sym.alice (SymTerm.Term.nat 5)) fun _ => true]

/-- A save that is cut off before the anchor and accepted after a launch; then the data directory of before, with the
marker of the degraded file, is put back, and the store is launched without and with the secure storage. -/
def Sym.relaunches : List (LifeEvent Sym.store) :=
  [.call (.saveContacts Sym.alice (SymTerm.Term.nat 6)) fun i => i < 4, .launch (fun _ => true) ⟨[], []⟩,
    .call (.loadContacts Sym.alice) fun _ => true,
    .restore { Sym.lived.store.disk with
      root := Sym.lived.store.root.put anchorsBackendFile (Sym.store.text.encode (markerText .degradedFile)) },
    .launch (fun i => i ≠ 5) ⟨[], []⟩, .call (.loadContacts Sym.alice) fun _ => true,
    .launch (fun _ => true) ⟨[], []⟩, .call (.loadContacts Sym.alice) fun _ => true]

theorem lived_rooted : Sym.lived.store.Rooted :=
  ⟨encodeRootRecord Sym.store, ⟨anchorRootVersion, none⟩, ⟨_, rfl, rfl⟩, rfl, rfl, rfl⟩

/-- The launch without the secure storage works on the degraded file, and the anchor is still there after it. -/
theorem life_onward_relaunches :
    Sym.lived.store.SecureOnward (Runs.run Life.step Sym.lived (Sym.relaunches.take 6)).store ∧
      (Runs.run Life.step Sym.lived (Sym.relaunches.take 6)).running = true ∧
      (Runs.run Life.step Sym.lived (Sym.relaunches.take 6)).store.backend = .degradedFile :=
  ⟨(life_onward Sym.lived (Sym.relaunches.take 6) lived_rooted).1, by decide, by decide⟩

/-! ### What is accepted -/

/-- Acceptances of one object that follow a reading of its anchor: each finds the anchor where the one before has left it,
or further on. -/
inductive Chained : StoreResult (Option (StateAnchor S.Digest)) → List (Acceptance S) → Prop
  | nil (reading : StoreResult (Option (StateAnchor S.Digest))) : Chained reading []
  | cons {reading next : StoreResult (Option (StateAnchor S.Digest))} {x : Acceptance S} {l : List (Acceptance S)}
      (hforward : Forward reading x.anchor) (hread : ∃ anchor, x.anchor = .ok anchor)
      (hadmits : ∀ a, x.anchor = .ok (some a) → a.Admits x.state ∧
        (next = .ok (some (StateAnchor.fromMetadata x.state)) ∨ ∃ e, next = .error e))
      (hrest : Chained next l) : Chained reading (x :: l)

theorem Chained.forward {x y : StoreResult (Option (StateAnchor S.Digest))} {l : List (Acceptance S)}
    (hxy : Forward x y) (h : Chained y l) : Chained x l := by
  cases h with
  | nil => exact .nil x
  | cons hforward hread hadmits hrest => exact .cons (hxy.trans hforward) hread hadmits hrest

/-- What an anchor admits is not before it. -/
theorem StateAnchor.Admits.le {Digest : Type} [DecidableEq Digest] {a : StateAnchor Digest}
    {state : StateMetadata Digest} (h : a.Admits state) : a = StateAnchor.fromMetadata state ∨ a.epoch < state.epoch := by
  rcases h with h | h
  · exact Or.inl (eq_fromMetadata h)
  · exact Or.inr (checkCandidate_ok_true_iff.1 h).2.1

/-- From an anchor on, each acceptance finds an anchor that is the same or further on and admits its state. -/
theorem Chained.anchored {a : StateAnchor S.Digest} {l : List (Acceptance S)} (h : Chained (.ok (some a)) l)
    {x : Acceptance S} (hx : x ∈ l) : ∃ b, x.anchor = .ok (some b) ∧ (a = b ∨ a.epoch < b.epoch) ∧ b.Admits x.state := by
  induction l generalizing a with
  | nil => cases hx
  | cons y l ih =>
    cases h with
    | cons hforward hread hadmits hrest =>
      rename_i next
      obtain ⟨anchor, hanchor⟩ := hread
      obtain ⟨_, ⟨⟩, hmoved⟩ := hforward anchor hanchor
      obtain ⟨b, rfl, hab⟩ := hmoved a rfl
      obtain ⟨hadm, hnext⟩ := hadmits b hanchor
      rcases List.mem_cons.1 hx with rfl | hx
      · exact ⟨b, hanchor, hab, hadm⟩
      · rcases hnext with rfl | ⟨e, rfl⟩
        · obtain ⟨c, hc, hbc, hadm'⟩ := ih hrest hx
          refine ⟨c, hc, ?_, hadm'⟩
          have hepoch : (StateAnchor.fromMetadata y.state).epoch = y.state.epoch := rfl
          rcases hadm.le with rfl | hlt
          · rcases hab with rfl | hab
            · exact hbc
            · rcases hbc with rfl | hbc
              · exact Or.inr hab
              · exact Or.inr (hab.trans hbc)
          · refine Or.inr ?_
            have hle : b.epoch < c.epoch := by
              rcases hbc with rfl | hbc
              · omega
              · omega
            rcases hab with rfl | hab
            · exact hle
            · omega
        · -- nothing is read after an error
          cases hrest with
          | nil => cases hx
          | cons hforward' hread' _ _ =>
            obtain ⟨anchor', hanchor'⟩ := hread'
            obtain ⟨_, ⟨⟩, -⟩ := hforward' anchor' hanchor'

theorem Chained.pairwise {a : StateAnchor S.Digest} {l : List (Acceptance S)} (h : Chained (.ok (some a)) l) :
    l.Pairwise Acceptance.Before := by
  induction l generalizing a with
  | nil => exact .nil
  | cons y l ih =>
    cases h with
    | cons hforward hread hadmits hrest =>
      rename_i next
      obtain ⟨anchor, hanchor⟩ := hread
      obtain ⟨_, ⟨⟩, hmoved⟩ := hforward anchor hanchor
      obtain ⟨b, rfl, hab⟩ := hmoved a rfl
      obtain ⟨-, hnext⟩ := hadmits b hanchor
      rcases hnext with rfl | ⟨e, rfl⟩
      · refine List.pairwise_cons.2 ⟨fun x hx => ?_, ih hrest⟩
        obtain ⟨c, -, hc, hadm⟩ := hrest.anchored hx
        have hepoch : (StateAnchor.fromMetadata y.state).epoch = y.state.epoch := rfl
        rcases hadm.le with rfl | hlt
        · have hepoch' : (StateAnchor.fromMetadata x.state).epoch = x.state.epoch := rfl
          rcases hc with hc | hc
          · refine ⟨?_, fun _ => congrArg StateAnchor.currentStateHash hc⟩
            have := congrArg StateAnchor.epoch hc
            omega
          · exact ⟨by omega, fun heq => by omega⟩
        · have hle : y.state.epoch ≤ c.epoch := by
            rcases hc with rfl | hc
            · omega
            · omega
          exact ⟨by omega, fun heq => by omega⟩
      · cases hrest with
        | nil => exact List.pairwise_singleton _ y
        | cons hforward' hread' _ _ =>
          obtain ⟨anchor', hanchor'⟩ := hread'
          obtain ⟨_, ⟨⟩, -⟩ := hforward' anchor' hanchor'

/-- An acceptance reads the anchor of the secure storage and leaves it at the accepted state. -/
theorem accepts_secure {l : Life S} {e : LifeEvent S} {x : Acceptance S} (h : l.accepts e = some x) :
    x.anchor = l.store.secureAnchor x.state.objectType x.state.objectId ∧ (∃ anchor, x.anchor = .ok anchor) ∧
      ∀ a, x.anchor = .ok (some a) → a.Admits x.state ∧
        ((l.step e).store.secureAnchor x.state.objectType x.state.objectId =
            .ok (some (StateAnchor.fromMetadata x.state)) ∨
          ∃ err, (l.step e).store.secureAnchor x.state.objectType x.state.objectId = .error err) := by
  cases e with
  | launch works io => cases h
  | restore disk => cases h
  | call op works =>
    unfold Life.accepts at h
    simp only at h
    split at h
    · rename_i hrun
      obtain ⟨hx, hacc⟩ := accepts_accepted h
      have hstep : (l.step (.call op works)).store = l.store.step (.call op works) := by
        rw [step_call hrun.1]
        rfl
      have hback : (l.store.step (.call op works)).backend = .secureStorage :=
        (op.held (l.store.withWorks works)).backend.trans hrun.2
      rw [hstep, secureAnchor_of_backend hrun.2, secureAnchor_of_backend hback]
      refine ⟨hx, ?_, fun a ha => ?_⟩
      · obtain ⟨anchor, hanchor⟩ := hacc.read
        exact ⟨anchor, hx.trans hanchor⟩
      · obtain ⟨hadm, hafter⟩ := hacc.admits a (hx ▸ ha)
        exact ⟨hadm, hafter.imp id fun ⟨err, herr⟩ => ⟨err, herr _ _⟩⟩
    · cases h

theorem life_chained (l : Life S) (events : List (LifeEvent S)) (h : l.store.Rooted) (ty : StateObjectType) (id : Str) :
    Chained (l.store.secureAnchor ty id) ((l.accepted events).filter (·.Of ty id)) := by
  induction events generalizing l with
  | nil => exact .nil _
  | cons e events ih =>
    obtain ⟨hroot, hon⟩ := life_step h e
    have hrest := ih (l.step e) hroot
    unfold Life.accepted
    rw [List.filter_append]
    cases hx : l.accepts e with
    | none => exact hrest.forward (hon ty id)
    | some x =>
      by_cases hof : x.Of ty id
      · have hfilter : ((some x).toList.filter fun x => decide (x.Of ty id)) = [x] := by simp [hof]
        rw [hfilter]
        obtain ⟨hanchor, hread, hadmits⟩ := accepts_secure hx
        rw [hof.1, hof.2] at hanchor hadmits
        exact .cons (hanchor ▸ forward_refl _) hread hadmits hrest
      · have hfilter : ((some x).toList.filter fun x => decide (x.Of ty id)) = [] := by simp [hof]
        rw [hfilter]
        exact hrest.forward (hon ty id)

/-- **Acceptance over a whole life.**  Over any launches, loads and saves and exchanges of the data directory, the states
of an object with an anchor that the loads on the secure storage accept have epochs that do not decrease and hashes that
agree when the epochs do, and each is the one anchored at that moment or its direct successor. -/
theorem life_accepted_chain (l : Life S) (events : List (LifeEvent S)) (objectType : StateObjectType) (objectId : Str)
    (a : StateAnchor S.Digest) (hroot : l.store.Rooted) (h : l.store.secureAnchor objectType objectId = .ok (some a)) :
    ((l.accepted events).filter (·.Of objectType objectId)).Pairwise Acceptance.Before ∧
      ∀ x ∈ l.accepted events, x.Of objectType objectId → ∃ b, x.anchor = .ok (some b) ∧
        (b = StateAnchor.fromMetadata x.state ∨
          b.SameObject x.state ∧ b.epoch < x.state.epoch ∧ x.state.epoch = min (b.epoch + 1) u64Max ∧
            x.state.previousStateHash = b.currentStateHash) := by
  have hchain := life_chained l events hroot objectType objectId
  rw [h] at hchain
  refine ⟨hchain.pairwise, fun x hx hof => ?_⟩
  obtain ⟨b, hb, -, hadm⟩ := hchain.anchored (List.mem_filter.2 ⟨hx, by simpa using hof⟩)
  refine ⟨b, hb, ?_⟩
  rcases hadm with hp | hp
  · exact Or.inl (eq_fromMetadata hp)
  · exact Or.inr (checkCandidate_ok_true_iff.1 hp)

theorem lived_anchored : (Sym.lived.store.secureAnchor .contacts "contacts".toList).toOption.join.isSome = true := by
  decide

/-- The interrupted successor is accepted once, and the restored copy of its predecessor is not. -/
theorem life_accepted_chain_relaunches :
    ((Sym.lived.accepted Sym.relaunches).filter (·.Of .contacts "contacts".toList)).Pairwise Acceptance.Before ∧
      (Sym.lived.accepted Sym.relaunches).map (·.state.epoch) = [2] :=
  ⟨(life_accepted_chain Sym.lived Sym.relaunches .contacts "contacts".toList _ lived_rooted
    (eq_ok_some lived_anchored)).1, by decide⟩

end FileSec
