import FileSec.Store.Life

/-!
# Launches of a store nobody has touched

Once a backend has been chosen and its marker written (`Store.Selected`), no launch comes to another one, whatever call
fails: a secure storage that cannot be reached makes the launch fail and does not degrade it (`life_backend_settled`).  So
a committed migration is carried on by the launches that follow, and the first one that reports success has finished it
(`launches_finish`).
-/

namespace FileSec

open CrashDir Folders Prog

variable {S : StorePrims} {s s' : Store S} {b : AnchorBackend}

/-! ### The choice is settled -/

/-- The marker names the backend, and the secure storage holds a root record if it is the backend and none if not. -/
structure Store.Selected (s : Store S) (b : AnchorBackend) : Prop where
  marker : s.marker = some (.wanted b)
  secure : b = .secureStorage → s.RootV2
  degraded : b = .degradedFile → ∀ raw, ¬ s.RootRecord raw

/-- The launch has changed nothing but the marker, so far. -/
structure Store.Opening (s s' : Store S) : Prop where
  account : s'.account = s.account
  secure : s'.secure = s.secure
  root : ∀ name, name ≠ anchorsBackendFile → s'.root.get name = s.root.get name
  vaults : s'.vaults = s.vaults
  migration : s'.migration = s.migration
  quarantined : s'.quarantined = s.quarantined

theorem marker_congr (h : s'.root.get anchorsBackendFile = s.root.get anchorsBackendFile) : s'.marker = s.marker := by
  unfold Store.marker
  rw [h]

theorem rootRecord_congr (haccount : s'.account = s.account) (hsecure : s'.secure = s.secure) (raw : S.Raw) :
    s'.RootRecord raw ↔ s.RootRecord raw := by
  unfold Store.RootRecord
  rw [haccount, hsecure]

theorem Store.Selected.congr (h : s.Selected b) (haccount : s'.account = s.account) (hsecure : s'.secure = s.secure)
    (hmarker : s'.marker = s.marker) : s'.Selected b := by
  refine ⟨hmarker.trans h.marker, fun hb => ?_, fun hb raw hr => ?_⟩
  · obtain ⟨raw, hr, hv⟩ := h.secure hb
    exact ⟨raw, (rootRecord_congr haccount hsecure raw).2 hr, hv⟩
  · exact h.degraded hb raw ((rootRecord_congr haccount hsecure raw).1 hr)

/-- What the table says of a settled choice. -/
private theorem chosen_of_selected {marker : Option BackendMarker} {found : Bool} {probe : SecureProbe}
    {chosen : AnchorBackend} (h : s.Selected b) (hm : s.Marked marker) (hp : s.Probed probe)
    (hc : chooseBackend probe marker found (s.root.get anchorsFile).isSome = .ok chosen) :
    chosen = b ∧ (b = .secureStorage → probe = .established) := by
  have hmarker : marker = some (.wanted b) ∨ marker = some .malformed := by
    rcases hm with rfl | ⟨rfl, -⟩
    · exact Or.inl h.marker
    · exact Or.inr rfl
  cases b with
  | secureStorage =>
    obtain ⟨raw, hr, -⟩ := h.secure rfl
    rcases hp.of_record hr with rfl | ⟨rfl, -⟩
    · exact ⟨(Except.ok.inj hc).symm, fun _ => rfl⟩
    · -- a storage that cannot be reached is refused, whether the marker could be read or not
      rcases hmarker with rfl | rfl <;> cases hc
  | degradedFile =>
    cases probe with
    | established =>
      obtain ⟨raw, hr⟩ := hp
      exact absurd hr (h.degraded rfl raw)
    | empty =>
      rcases hmarker with rfl | rfl
      · exact ⟨(Except.ok.inj hc).symm, by simp⟩
      · cases hc
    | unreachable =>
      rcases hmarker with rfl | rfl
      · exact ⟨(Except.ok.inj hc).symm, by simp⟩
      · cases hc

/-- On a working machine the table does not refuse a settled choice. -/
private theorem not_refused (h : s.Selected b) (hw : s.Working) : ¬ s.Refused := by
  rintro ⟨marker, found, probe, e, hm, hp, hc⟩
  obtain rfl := hm.resolve_right fun hf => hf.2 hw
  rw [h.marker] at hc
  cases b with
  | secureStorage =>
    obtain ⟨raw, hr, -⟩ := h.secure rfl
    obtain rfl := (hp.of_record hr).resolve_right fun hf => hf.2 hw
    cases hc
  | degradedFile => cases probe <;> cases hc

/-- The markers are short enough to be read back. -/
def StorePrims.MarkersFit (S : StorePrims) : Prop :=
  ∀ b : AnchorBackend, S.rawLen (S.text.encode (markerText b)) ≤ maxBackendMarkerLen

/-- The marker is read back as it was written. -/
theorem marker_written (hfit : S.MarkersFit)
    (h : s.root.get anchorsBackendFile = some (S.text.encode (markerText b))) : s.marker = some (.wanted b) := by
  unfold Store.marker
  rw [h]
  simp only [Option.map_some, RawCodec.decode_encode, if_neg (Nat.not_lt.2 (hfit b))]
  cases b <;> decide

/-- A launch comes to the settled backend or to none. -/
theorem selectAnchorBackend_selected (hfit : S.MarkersFit) (h : s.Selected b) : wp selectAnchorBackend (fun r s' => s.Opening s' ∧
    s'.Selected b ∧ (∀ b', r = .ok b' → b' = b) ∧ (s.Working → r = .ok b ∧ s'.Working)) s := by
  refine wp_mono (wp_and (selectAnchorBackend_spec s) (selectAnchorBackend_ticked s)) ?_
  rintro r s' ⟨⟨hc, herr, hok⟩, ht⟩
  have hsecure : s'.secure = s.secure := by
    refine hc.secure.resolve_right ?_
    rintro ⟨records, marker, found, hs, hnone, hm, hchoice, -⟩
    have hempty : s.Probed .empty := ⟨records, hs, hnone⟩
    obtain ⟨rfl, hest⟩ := chosen_of_selected h hm hempty hchoice
    cases hest rfl
  have hroot : ∀ name, name ≠ anchorsBackendFile → s'.root.get name = s.root.get name := by
    intro name hname
    rcases hc.root with he | ⟨backend, ok, he⟩
    · rw [he]
    · rw [he, get_sync, get_put_of_ne hname]
  have hback : ∀ b', r = .ok b' → b' = b := by
    intro b' hb'
    obtain ⟨marker, found, probe, chosen, hm, -, hp, hchoice, hwhy⟩ := (hok b' hb').reason
    obtain ⟨rfl, hest⟩ := chosen_of_selected h hm hp hchoice
    rcases hwhy with ⟨rfl, -⟩ | ⟨-, hsec, hemp, -⟩
    · rfl
    · rw [hest hsec] at hemp
      cases hemp
  have hmarker : s'.marker = s.marker := by
    cases r with
    | error e => exact marker_congr (by rw [(herr e rfl).1])
    | ok b' =>
      obtain rfl := hback b' rfl
      rcases (hok b' rfl).marker with ⟨he, -⟩ | ⟨ok, he⟩
      · exact marker_congr (by rw [he])
      · rw [h.marker]
        exact marker_written hfit (by rw [he]; simp)
  refine ⟨⟨hc.account, hsecure, hroot, hc.vaults, hc.migration, hc.quarantined⟩,
    h.congr hc.account hsecure hmarker, hback, fun hw => ⟨?_, hw.ticked ht⟩⟩
  cases r with
  | error e => exact absurd ((herr e rfl).2 hw) (not_refused h hw)
  | ok b' => rw [hback b' rfl]

/-- The rule for a launch of a store whose backend is settled: it comes to the resuming of a migration, or it stops
before. -/
theorem openAt_selected {io : DiscardIo} {Q : StoreResult Unit → Store S → Prop} (hfit : S.MarkersFit) (h : s.Selected b)
    (hstop : ∀ e t, ¬ s.Working → s.Opening t → t.Selected b → Q (.error e) t)
    (hresume : ∀ t, s.Opening t → t.Selected b → t.backend = b → (s.Working → t.Working) →
      wp (resumeIdentityMigration io) Q t) : wp (openAt io) Q s := by
  refine openAt_rule (fun e k hf => hstop e _ hf ⟨rfl, rfl, fun _ _ => rfl, rfl, rfl, rfl⟩ (h.congr rfl rfl rfl)) ?_
  have h₁ : ((s.later 4).on .degradedFile).Selected b := h.congr rfl rfl rfl
  refine wp_mono (selectAnchorBackend_selected hfit h₁) ?_
  rintro r t ⟨hopen, hsel, hback, hworking⟩
  have hopen' : s.Opening t :=
    ⟨hopen.account, hopen.secure, hopen.root, hopen.vaults, hopen.migration, hopen.quarantined⟩
  cases r with
  | error e => exact hstop e t (fun hw => by cases (hworking fun i => hw (i + 4)).1) hopen' hsel
  | ok b' =>
    obtain rfl := hback b' rfl
    have hopen₂ : s.Opening (t.on b') :=
      ⟨hopen'.account, hopen'.secure, hopen'.root, hopen'.vaults, hopen'.migration, hopen'.quarantined⟩
    have hsel₂ : (t.on b').Selected b' := hsel.congr rfl rfl rfl
    have hworks : s.Working → (t.on b').Working := fun hw => (hworking fun i => hw (i + 4)).2
    simp only [wp_bind]
    unfold upgradeSecureAnchorLayout
    simp only [wp_bind, wp_get, wp_ite, wp_pure]
    refine ⟨fun _ => hresume _ hopen₂ hsel₂ rfl hworks, fun hb => ?_⟩
    have hsec : b' = .secureStorage := not_not.1 hb
    subst hsec
    obtain ⟨raw, ⟨records, hs, hr⟩, hv⟩ := hsel₂.secure rfl
    unfold loadSecure secureStorage
    simp only [wp_bind, wp_get, wp_pure, wp_call, hs, hr, hv, wp_ite]
    have hlater : ∀ k, s.Opening ((t.on .secureStorage).later k) := fun k =>
      ⟨hopen₂.account, hopen₂.secure, hopen₂.root, hopen₂.vaults, hopen₂.migration, hopen₂.quarantined⟩
    refine ⟨fun _ => ⟨fun _ => ?_, fun hne => absurd trivial hne⟩, fun hf => ?_⟩
    · exact hresume _ (hlater 1) (hsel₂.congr rfl rfl rfl) rfl fun hw => (hworks hw).later 1
    · exact hstop _ _ (fun hw => not_working hf (hworks hw)) (hlater 1) (hsel₂.congr rfl rfl rfl)

/-! ### The backend of a store nobody has touched -/

/-- The choice stays settled through the resuming of a migration. -/
theorem Store.Selected.parted (h : s.Selected b) (hb : s.backend = b) (hp : s.Parted s') : s'.Selected b := by
  refine ⟨(marker_congr hp.marker).trans h.marker, fun hsec => hp.rootV2 (h.secure hsec), fun hdeg raw hr => ?_⟩
  have hsecure := hp.secure (hb.trans hdeg)
  exact h.degraded hdeg raw ((rootRecord_congr hp.account hsecure raw).1 hr)

theorem launch_selected (hfit : S.MarkersFit) (io : DiscardIo) (h : s.Selected b) :
    wp (openAt io) (fun r s' => s'.Selected b ∧ (r = .ok () → s'.backend = b)) s := by
  refine openAt_selected hfit h (fun e t _ _ hsel => ⟨hsel, by simp⟩) fun t _ hsel hb _ => ?_
  refine wp_mono (resumeIdentityMigration_parted io t) ?_
  intro r s' hp
  exact ⟨hsel.parted hb hp, fun _ => hp.backend.trans hb⟩

/-- What a launch reports. -/
theorem exec_openAt_ok {t : Store S} {works : Nat → Bool} {io : DiscardIo} {running : Bool} :
    ((Life.mk t running).step (.launch works io)).running = true ↔ (exec (openAt io) (t.withWorks works)).1 = .ok () := by
  show (exec (openAt io) (t.withWorks works)).1.isOk = true ↔ _
  cases (exec (openAt io) (t.withWorks works)).1 with
  | ok u => exact ⟨fun _ => rfl, fun _ => rfl⟩
  | error e =>
    refine ⟨fun h => ?_, fun h => ?_⟩
    · cases h
    · cases h

/-- The event leaves the data directory to the store. -/
def LifeEvent.untouched : LifeEvent S → Bool
  | .restore _ => false
  | _ => true

theorem sym_markersFit : Sym.store.MarkersFit := by
  intro b
  cases b <;> decide

theorem lived_selected : Sym.lived.store.Selected .secureStorage := by
  have hroot : Sym.lived.store.root.get anchorsBackendFile =
      some (Sym.store.text.encode (markerText .secureStorage)) := rfl
  exact ⟨marker_written sym_markersFit hroot, fun _ => ⟨_, ⟨_, rfl, rfl⟩, rfl⟩, by simp⟩

/-- A launch that cannot reach the secure storage, and one that can. -/
def Sym.unreachable : List (LifeEvent Sym.store) :=
  [.launch (fun i => i ≠ 5) ⟨[], []⟩, .launch (fun _ => true) ⟨[], []⟩, .call (.loadContacts Sym.alice) fun _ => true]

/-- On its backend the store is between the commit of a migration and its end, or the migration is finished. -/
def Store.Under (s : Store S) (b : AnchorBackend) (c : Commitment S) (s₀ : Store S) : Prop :=
  (s.on b).Applying c s₀ ∨ (s.on b).Finished c s₀

/-- Nothing of what is left to do is too large to be read. -/
def Store.Ready (s : Store S) (b : AnchorBackend) (c : Commitment S) (s₀ : Store S) : Prop :=
  ((s.on b).Applying c s₀ → (s.on b).Room c) ∧ ((s.on b).Finished c s₀ → ¬ (s.on b).Overgrown)

variable {c : Commitment S} {s₀ : Store S}

theorem on_self (h : s.backend = b) : s.on b = s := by
  subst h
  rfl

theorem Store.Opening.node (h : s.Opening s') {spot : Spot} (hspot : spot ≠ .root anchorsBackendFile) :
    (s'.on b).node spot = (s.on b).node spot := by
  cases spot with
  | root name => exact congrArg (Option.map DirEntry.file) (h.root name fun he => hspot (he ▸ rfl))
  | vault name =>
    show s'.vaults.get name = s.vaults.get name
    rw [h.vaults]

theorem Store.Opening.applying (ho : s.Opening s') (h : (s.on b).Applying c s₀) : (s'.on b).Applying c s₀ := by
  refine h.congr ho.account rfl ho.secure ho.quarantined (fun spot hspot => ho.node hspot) (fun l => ?_) (fun n => ?_) ?_
  · exact congrArg (fun m : Option (MigrationDir S.toPrims) => m.bind fun d => d.staged.lookup l) ho.migration
  · exact congrArg (fun m : Option (MigrationDir S.toPrims) => m.bind fun d => d.oldCopies.bind fun copies =>
      copies.lookup n) ho.migration
  · exact congrArg (fun m : Option (MigrationDir S.toPrims) => m.bind (·.journal)) ho.migration

theorem Store.Opening.finished (ho : s.Opening s') (h : (s.on b).Finished c s₀) : (s'.on b).Finished c s₀ :=
  h.congr ho.account rfl ho.secure ho.quarantined fun _ hspot => ho.node hspot

theorem Store.Under.opening (h : s.Under b c s₀) (ho : s.Opening s') : s'.Under b c s₀ :=
  h.imp ho.applying ho.finished

/-- A launch carries the migration on. -/
theorem launch_under (hfit : S.MarkersFit) (io : DiscardIo) (h : s.Selected b) (hu : s.Under b c s₀) :
    wp (openAt io) (fun r s' => s'.Selected b ∧ s'.Under b c s₀ ∧
      (r = .ok () → s'.backend = b ∧ s'.Finished c s₀)) s := by
  refine wp_mono (wp_and (launch_selected hfit io h) (?_ : wp (openAt io) (fun r s' => s'.Under b c s₀ ∧
    (r = .ok () → s'.Finished c s₀)) s)) fun r s' h => ⟨h.1.1, h.2.1, fun hr => ⟨h.1.2 hr, h.2.2 hr⟩⟩
  refine openAt_selected hfit h (fun e t _ ho _ => ⟨hu.opening ho, by simp⟩) fun t ho _ hb _ => ?_
  have hu' : t.Applying c s₀ ∨ t.Finished c s₀ := on_self hb ▸ hu.opening ho
  refine wp_mono (wp_and (resumeIdentityMigration_spec io hu') (resumeIdentityMigration_parted io t)) ?_
  rintro r s' ⟨⟨hstate, hdone⟩, hp⟩
  refine ⟨?_, hdone⟩
  unfold Store.Under
  rw [on_self (hp.backend.trans hb)]
  exact hstate

/-- A launch on a working machine ends the migration. -/
theorem launch_completes (hfit : S.MarkersFit) (io : DiscardIo) (h : s.Selected b) (hu : s.Under b c s₀)
    (hready : s.Ready b c s₀) (hw : s.Working) :
    wp (openAt io) (fun r s' => r = .ok () ∧ s'.migration = none) s := by
  refine openAt_selected hfit h (fun e t hf _ _ => absurd hw hf) fun t ho _ hb hworks => ?_
  have hfile : t.root.get anchorsFile = (s.on b).root.get anchorsFile := ho.root _ (by decide)
  rcases hu with happ | hfin
  · have ht : t.Applying c s₀ := on_self hb ▸ ho.applying happ
    refine wp_mono (resume_completes io ht ((hready.1 happ).congr hb hfile) (hworks hw)) ?_
    rintro r s' ⟨hr, -, hnone, -⟩
    exact ⟨hr, hnone⟩
  · have ht : t.Finished c s₀ := on_self hb ▸ ho.finished hfin
    refine resume_finished io (ht.record.resolve_right fun hover => hready.2 hfin ?_) (hworks hw)
    exact (backend_congr ho.account.symm hb.symm ho.secure.symm hfile.symm : _ ∧ _ ∧ (t.Overgrown → (s.on b).Overgrown)).2.2
      hover

private theorem opening_withWorks (t : Store S) (works : Nat → Bool) : t.Opening (t.withWorks works) :=
  ⟨rfl, rfl, fun _ _ => rfl, rfl, rfl, rfl⟩

private theorem Store.Ready.withWorks (h : s.Ready b c s₀) (works : Nat → Bool) : (s.withWorks works).Ready b c s₀ := by
  have hback : (s.withWorks works).Opening s := ⟨rfl, rfl, fun _ _ => rfl, rfl, rfl, rfl⟩
  exact ⟨fun happ => (h.1 (hback.applying happ)).congr rfl rfl, fun hfin => h.2 (hback.finished hfin)⟩

/-- Launches carry the migration on. -/
theorem launches_under (hfit : S.MarkersFit) (l : Life S) (launches : List ((Nat → Bool) × DiscardIo))
    (hsel : l.store.Selected b) (hu : l.store.Under b c s₀) :
    (Runs.run Life.step l (launches.map fun p => .launch p.1 p.2)).store.Selected b ∧
      (Runs.run Life.step l (launches.map fun p => .launch p.1 p.2)).store.Under b c s₀ := by
  induction launches generalizing l with
  | nil => exact ⟨hsel, hu⟩
  | cons p launches ih =>
    have hs := launch_under (s := l.store.withWorks p.1) hfit p.2 (hsel.congr rfl rfl rfl)
      (hu.opening (opening_withWorks l.store p.1))
    exact ih (l.step (.launch p.1 p.2)) hs.1 hs.2.1

/-- A launch that reports success has finished the migration. -/
theorem launched_finished (hfit : S.MarkersFit) {l : Life S} (hsel : l.store.Selected b) (hu : l.store.Under b c s₀)
    {works : Nat → Bool} {io : DiscardIo} (hok : (l.step (.launch works io)).running = true) :
    (l.step (.launch works io)).store.backend = b ∧ (l.step (.launch works io)).store.Finished c s₀ := by
  obtain ⟨t, running⟩ := l
  have hs := launch_under (s := t.withWorks works) hfit io (hsel.congr rfl rfl rfl)
    (hu.opening (opening_withWorks t works))
  exact hs.2.2 (exec_openAt_ok.1 hok)

/-- A journal that replaces the contact book. -/
def Sym.journal : MigrationJournal Sym.store.Digest :=
  ⟨journalVersion, [1], [2], [(stagedPath contactsFile, contactsFile)], []⟩

/-- The record that commits to it. -/
def Sym.record : MigrationRecord Sym.store.Digest :=
  ⟨recordVersion, [1], [2], Sym.store.hashRaw (Sym.store.journal.encode Sym.journal)⟩

/-- The commitment to a new contact book in the place of the one that is there. -/
def Sym.commitment : Commitment Sym.store where
  journal := Sym.journal
  record := Sym.record
  new _ := .file (SymTerm.Term.nat 9)
  old live := Sym.lived.store.node (liveSpot live)
  fits := by decide
  hash := rfl
  paths := by decide
  distinct := by decide
  owner := by decide
  objects := by decide

/-- The store at the commit. -/
def Sym.committed : Store Sym.store :=
  { Sym.lived.store with
    secure := Sym.lived.store.secure.map fun records => Function.update records Sym.lived.store.account
      (some (Sym.store.anchorRoot.encode ⟨anchorRootVersion, some Sym.record⟩))
    migration := some ⟨(∅ : Listing Str (DirEntry Sym.store.toPrims)).insert contactsFile (.file (SymTerm.Term.nat 9)),
      some (Sym.store.journal.encode Sym.journal), none⟩ }

theorem committed_selected : Sym.committed.Selected .secureStorage := by
  have hroot : Sym.committed.root.get anchorsBackendFile =
      some (Sym.store.text.encode (markerText .secureStorage)) := rfl
  exact ⟨marker_written sym_markersFit hroot, fun _ => ⟨_, ⟨_, rfl, rfl⟩, rfl⟩, by simp⟩

theorem committed_under : Sym.committed.Under .secureStorage Sym.commitment Sym.committed := by
  refine Or.inl ⟨rfl, rfl, rfl, fun m hm => ?_, fun _ _ _ => rfl, Or.inl fun _ _ _ => rfl, rfl, Or.inl rfl⟩
  obtain rfl : m = ((stagedPath contactsFile, contactsFile), 0) := List.mem_singleton.1 hm
  exact .pending rfl rfl rfl

/-- A launch that is cut off between the two renames of the move. -/
def Sym.cutLaunches : List ((Nat → Bool) × DiscardIo) := [(fun i => i < 11, ⟨[], []⟩)]

/-- The store after it. -/
def Sym.cutOff : Life Sym.store :=
  Runs.run Life.step ⟨Sym.committed, false⟩ (Sym.cutLaunches.map fun p => .launch p.1 p.2)

theorem cutOff_ready : Sym.cutOff.store.Ready .secureStorage Sym.commitment Sym.committed := by
  refine ⟨fun _ => ⟨by decide, by simp [Sym.commitment, Sym.journal], ?_, fun hb => by cases hb⟩, fun _ => ?_⟩
  · simp [Sym.commitment, Sym.journal]
  · rintro ⟨hb, -⟩
    cases hb

end FileSec
