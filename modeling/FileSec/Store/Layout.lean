import FileSec.Store.Life

/-!
# The layout of the secure storage

Early versions kept all anchors in one record of the secure storage; `upgrade_secure_anchor_layout` gives each object a
record of its own.  The upgrade may be interrupted by any launch and is then run again.  Over any launches, loads, saves
and exchanges of the data directory the anchors of the old record count until they have all been written, and from then
on they only move forward (`life_layout`).
-/

namespace FileSec

open CrashDir Folders Prog

variable {S : StorePrims} {s s' : Store S} {set : AnchorSet S.Digest}

/-- The records of the secure storage. -/
def Store.records (s : Store S) (account : Str) : Option S.Raw := s.secure.bind fun records => records account

/-- The root record is of the old layout and holds all the anchors. -/
def Store.Legacy (s : Store S) (set : AnchorSet S.Digest) : Prop :=
  ∃ raw, s.RootRecord raw ∧ S.probeVersion raw = some anchorsVersion ∧ S.anchorSet.decode raw = some set

/-- The anchor of an object in the old layout: the last one of the old record, or what lies in the record of the object. -/
def Store.legacyAnchor (s : Store S) (set : AnchorSet S.Digest) (ty : StateObjectType) (id : Str) :
    StoreResult (Option (StateAnchor S.Digest)) :=
  match set.anchors.reverse.find? fun a => a.Of ty id with
  | some a => .ok (some a)
  | none => storedAnchor S ty id (s.records (objectAnchorAccount s.account ty id))

/-- The account of an anchor, and the record that is written there. -/
def anchorAccount {Digest : Type} (root : Str) (a : StateAnchor Digest) : Str :=
  objectAnchorAccount root a.objectType a.objectId

/-- What is written there. -/
def anchorBytes (S : StorePrims) (a : StateAnchor S.Digest) : Option S.Raw :=
  some (S.objectAnchor.encode ⟨objectAnchorVersion, a⟩)

theorem secureAnchor_eq {raw : S.Raw} (h : s.RootRecord raw) (ty : StateObjectType) (id : Str) :
    s.secureAnchor ty id = storedAnchor S ty id (s.records (objectAnchorAccount s.account ty id)) := by
  obtain ⟨records, hs, -⟩ := h
  unfold Store.secureAnchor Store.anchor Store.on Store.records
  simp only [hs, Option.bind_some]

/-- The anchors of the old layout are what the upgrade makes of the records. -/
theorem legacyAnchor_eq (s : Store S) (set : AnchorSet S.Digest) (ty : StateObjectType) (id : Str) :
    s.legacyAnchor set ty id = storedAnchor S ty id
      (written (anchorAccount s.account) (anchorBytes S) set.anchors s.records (objectAnchorAccount s.account ty id)) := by
  have hkey : ∀ a : StateAnchor S.Digest,
      decide (anchorAccount s.account a = objectAnchorAccount s.account ty id) = decide (a.Of ty id) := by
    intro a
    refine decide_eq_decide.2 ⟨objectAnchorAccount_inj, ?_⟩
    rintro ⟨rfl, rfl⟩
    rfl
  unfold Store.legacyAnchor
  rw [written_eq_find]
  simp only [hkey]
  cases hfind : set.anchors.reverse.find? fun a => decide (a.Of ty id) with
  | none => rfl
  | some a =>
    have hof : a.Of ty id := by simpa using List.find?_some hfind
    obtain ⟨rfl, rfl⟩ := hof
    exact (storedAnchor_encode a).symm

/-! ### The writes of the upgrade -/

/-- The store works on a secure storage with this root record. -/
structure Store.OnSecure (s : Store S) (account : Str) (raw : S.Raw) : Prop where
  account : s.account = account
  backend : s.backend = .secureStorage
  record : s.RootRecord raw

theorem putAnchorLocked_writes (account : Str) (raw : S.Raw) (anchors : List (StateAnchor S.Digest)) :
    Writes putAnchorLocked (fun s : Store S => s.OnSecure account raw) Store.records (anchorAccount account)
      (anchorBytes S) anchors := by
  refine ⟨fun a _ s hs => ?_⟩
  refine wp_mono (putAnchorLocked_spec a s) ?_
  intro r s' hr
  cases r with
  | error e =>
    obtain ⟨k, rfl⟩ := hr
    exact ⟨⟨hs.account, hs.backend, hs.record⟩, fun _ _ => rfl, rfl⟩
  | ok u =>
    have hheld := hr.held
    cases hr with
    | degraded set k ok hb hset =>
      rw [hs.backend] at hb
      cases hb
    | secure records k hb hrec =>
      obtain rfl := hs.account
      refine ⟨⟨rfl, hs.backend, hheld.record raw hs.record⟩, fun account' hne => ?_, ?_⟩
      · unfold Store.records Store.withSecure Store.later
        rw [hrec]
        exact Function.update_of_ne hne _ _
      · exact Function.update_self _ _ _

/-- The upgrade of the layout: it has been done, or the anchors still are those of the old record. -/
theorem upgradeSecureAnchorLayout_legacy (h : s.Legacy set) (hb : s.backend = .secureStorage) :
    wp upgradeSecureAnchorLayout (fun r s' => s'.backend = .secureStorage ∧
      (match r with
        | .ok () => s'.Rooted ∧ ∀ ty id, s'.secureAnchor ty id = s.legacyAnchor set ty id
        | .error _ => s'.Legacy set ∧ ∀ ty id, s'.legacyAnchor set ty id = s.legacyAnchor set ty id) ∧
      (s.Working → (∀ a ∈ set.anchors, a.FitsSecure S) → r = .ok () ∧ s'.Working)) s := by
  obtain ⟨raw, hraw, hversion, hdecode⟩ := h
  have hlegacy : ∀ {t : Store S}, t.RootRecord raw → t.Legacy set := fun hr => ⟨raw, hr, hversion, hdecode⟩
  obtain ⟨records, hs, hr⟩ := hraw
  unfold upgradeSecureAnchorLayout loadSecure secureStorage
  simp only [wp_bind, wp_get, wp_ite, wp_pure, wp_call, hs, hr, hversion, hdecode]
  refine ⟨fun hne => absurd hb hne, fun _ => ⟨fun _ => ⟨fun he => ?_, fun _ => ⟨fun _ => ?_, fun hne => ?_⟩⟩,
    fun hf => ?_⟩⟩
  · exact absurd he (by decide)
  · have hon : s.tick.OnSecure s.account raw := ⟨rfl, hb, records, hs, hr⟩
    have hworks : wp (runAll putAnchorLocked set.anchors) (fun r s' => s.Working →
        (∀ a ∈ set.anchors, a.FitsSecure S) → r = .ok () ∧ s'.Working) s.tick := by
      by_cases hw : s.Working ∧ ∀ a ∈ set.anchors, a.FitsSecure S
      · refine wp_mono (runAll_ok (fun t : Store S => t.OnSecure s.account raw ∧ t.Working) ?_
          ⟨hon, hw.1.later 1⟩) fun r s' h _ _ => ⟨h.1, h.2.2⟩
        rintro a ha t ⟨ht, hwt⟩
        obtain ⟨records', hs', -⟩ := ht.record
        refine wp_mono (wp_and (putAnchorLocked_fits (hw.2 a ha) ht.backend hs' hwt)
          ((putAnchorLocked_writes s.account raw set.anchors).step a ha t ht)) ?_
        rintro r s' ⟨⟨hok, hw'⟩, hon', -⟩
        exact ⟨hok, hon', hw'⟩
      · exact wp_mono ((putAnchorLocked_writes s.account raw set.anchors).run hon) fun r s' _ hw' hfit =>
          absurd ⟨hw', hfit⟩ hw
    refine wp_mono (wp_and ((putAnchorLocked_writes s.account raw set.anchors).run hon) hworks) ?_
    rintro r t ⟨⟨hont, hothers, hwritten⟩, hworks⟩
    -- the records differ at most where the old record has an anchor
    have hsame : ∀ {t' : Store S}, t'.account = t.account → t'.records = t.records →
        ∀ ty id, t'.legacyAnchor set ty id = s.legacyAnchor set ty id := by
      intro t' haccount hrecords ty id
      rw [legacyAnchor_eq, legacyAnchor_eq, haccount, hont.account, hrecords]
      congr 1
      refine written_congr ?_
      by_cases hk : ∃ a ∈ set.anchors, anchorAccount s.account a = objectAnchorAccount s.account ty id
      · exact Or.inl hk
      · exact Or.inr (hothers _ fun a ha he => hk ⟨a, ha, he⟩)
    cases r with
    | error e => exact ⟨hont.backend, ⟨hlegacy hont.record, hsame rfl rfl⟩, fun hw hfit => by cases (hworks hw hfit).1⟩
    | ok u =>
      obtain ⟨records', hs', hr'⟩ := hont.record
      unfold saveSecure secureStorage
      simp only [wp_bind, wp_get, wp_pure, wp_call, wp_modify, hs']
      refine ⟨fun _ => ⟨hont.backend, ⟨?_, fun ty id => ?_⟩, fun hw hfit => ⟨trivial, ?_⟩⟩, fun hf => ?_⟩
      · refine ⟨encodeRootRecord S, ⟨anchorRootVersion, none⟩, ⟨_, rfl, ?_⟩, S.probeVersion_anchorRoot _,
          RawCodec.decode_encode _ _, rfl⟩
        rw [← hont.account]
        exact Function.update_self _ _ _
      · have hroot : Store.RootRecord { t.tick with secure := some (Function.update records' s.account
            (some (encodeRootRecord S))) } (encodeRootRecord S) := by
          refine ⟨_, rfl, ?_⟩
          rw [← hont.account]
          exact Function.update_self _ _ _
        rw [secureAnchor_eq hroot, legacyAnchor_eq]
        congr 1
        have haccount : t.account = s.account := hont.account
        show Function.update records' s.account (some (encodeRootRecord S)) (objectAnchorAccount t.account ty id) = _
        rw [haccount, Function.update_of_ne (account_ne_objectAnchorAccount s ty id).symm]
        refine Eq.trans ?_ (hwritten rfl _)
        unfold Store.records
        rw [hs']
        rfl
      · exact (hworks hw hfit).2.later 1
      · refine ⟨hont.backend, ⟨hlegacy ⟨records', hs', hr'⟩, hsame rfl rfl⟩, fun hw hfit => ?_⟩
        exact absurd (hworks hw hfit).2 (not_working hf)
  · exact absurd trivial hne
  · exact ⟨hb, ⟨hlegacy ⟨records, hs, hr⟩, fun _ _ => rfl⟩, fun hw => absurd hw (not_working hf)⟩

/-! ### Launches in the old layout -/

theorem Store.Legacy.fixed (h : s.Legacy set) (hf : s.Fixed s') :
    s'.Legacy set ∧ ∀ ty id, s'.legacyAnchor set ty id = s.legacyAnchor set ty id := by
  obtain ⟨raw, ⟨records, hs, hr⟩, hrest⟩ := h
  refine ⟨⟨raw, ⟨records, hf.2.trans hs, hf.1 ▸ hr⟩, hrest⟩, fun ty id => ?_⟩
  unfold Store.legacyAnchor Store.records
  rw [hf.1, hf.2]

/-- A store in the old layout, whose anchors are these, or one that has left it with them. -/
def Store.Carries (s : Store S) (set : AnchorSet S.Digest)
    (anchors : StateObjectType → Str → StoreResult (Option (StateAnchor S.Digest))) : Prop :=
  s.Legacy set ∧ (∀ ty id, s.legacyAnchor set ty id = anchors ty id) ∨
    s.Rooted ∧ ∀ ty id, Forward (anchors ty id) (s.secureAnchor ty id)

/-- **A launch in the old layout.**  However it ends, no anchor is lost; a launch that reports success on the secure
storage has given every object its record, and one on a working machine does if the anchors fit. -/
theorem openAt_legacy (io : DiscardIo) (h : s.Legacy set) : wp (openAt io) (fun r s' =>
    s'.Carries set (s.legacyAnchor set) ∧ (r = .ok () → s'.backend = .secureStorage → s'.Rooted) ∧
    (s.Working → (∀ a ∈ set.anchors, a.FitsSecure S) → r = .ok () ∧ s'.backend = .secureStorage)) s := by
  have hkept : ∀ {t : Store S}, s.Fixed t → t.Carries set (s.legacyAnchor set) := fun hf => Or.inl (h.fixed hf)
  refine openAt_rule (fun e k hf => ⟨hkept ⟨rfl, rfl⟩, by simp, fun hw => absurd hw hf⟩) ?_
  obtain ⟨raw, hraw, hrest⟩ := h
  have h : s.Legacy set := ⟨raw, hraw, hrest⟩
  have h₁ : ((s.later 4).on .degradedFile).RootRecord raw := hraw
  have hworks : s.Working → ((s.later 4).on .degradedFile).Working := fun hw => hw.later 4
  refine wp_mono (selectAnchorBackend_rooted h₁) ?_
  rintro r s₂ ⟨hfix, hok₂⟩
  have hfix₂ : s.Fixed s₂ := ⟨hfix.1, hfix.2⟩
  cases r with
  | error e => exact ⟨hkept hfix₂, by simp, fun hw => by cases (hok₂ (hworks hw)).1⟩
  | ok backend =>
    have hfix₃ : s.Fixed (s₂.on backend) := hfix₂
    simp only [wp_bind]
    cases backend with
    | degradedFile =>
      unfold upgradeSecureAnchorLayout
      simp only [wp_bind, wp_get, wp_ite, wp_pure]
      refine ⟨fun _ => ?_, fun hb => absurd (not_not.1 hb) (by simp [Store.on])⟩
      refine wp_mono (resumeIdentityMigration_parted io _) ?_
      intro r s' hp
      have hf : s.Fixed s' := ⟨hp.account.trans hfix₂.1, (hp.secure rfl).trans hfix₂.2⟩
      refine ⟨hkept hf, fun _ hb => ?_, fun hw => by cases (hok₂ (hworks hw)).1⟩
      rw [hp.backend] at hb
      cases hb
    | secureStorage =>
      obtain ⟨hleg, hsame⟩ := h.fixed hfix₃
      refine wp_mono (upgradeSecureAnchorLayout_legacy hleg rfl) ?_
      rintro r s₃ ⟨hb₃, hstate, hworking⟩
      have hw₂ : s.Working → (s₂.on .secureStorage).Working := fun hw => (hok₂ (hworks hw)).2
      cases r with
      | error e =>
        exact ⟨Or.inl ⟨hstate.1, fun ty id => (hstate.2 ty id).trans (hsame ty id)⟩, by simp,
          fun hw hfit => by cases (hworking (hw₂ hw) hfit).1⟩
      | ok u =>
        obtain ⟨hroot, hanchors⟩ := hstate
        refine wp_mono (resume_rooted io hroot hb₃) ?_
        rintro r s' ⟨hf, hb, hok⟩
        refine ⟨Or.inr ⟨hroot.fixed hf, fun ty id => ?_⟩, fun _ _ => hroot.fixed hf, fun hw hfit => ?_⟩
        · rw [hf.secureAnchor, hanchors, hsame]
          exact forward_refl _
        · exact ⟨hok (hworking (hw₂ hw) hfit).2, hb⟩

/-! ### A life from the old layout on -/

/-- While the layout is the old one, no open store works on the secure storage. -/
def Life.Waiting (l : Life S) : Prop := l.running = true → ¬ l.store.Rooted → l.store.backend = .degradedFile

/-- The layouts exclude each other. -/
theorem Store.Legacy.not_rooted (h : s.Legacy set) : ¬ s.Rooted := by
  obtain ⟨raw, ⟨records, hs, hr⟩, hv, -⟩ := h
  rintro ⟨raw', root, ⟨records', hs', hr'⟩, hv', -⟩
  obtain rfl := Option.some.inj (hs.symm.trans hs')
  obtain rfl := Option.some.inj (hr.symm.trans hr')
  rw [hv] at hv'
  exact absurd (Option.some.inj hv') (by decide)

theorem carries_step {l : Life S} {anchors : StateObjectType → Str → StoreResult (Option (StateAnchor S.Digest))}
    (h : l.store.Carries set anchors) (hwait : l.Waiting) (e : LifeEvent S) :
    (l.step e).store.Carries set anchors ∧ (l.step e).Waiting := by
  rcases h with ⟨hleg, hsame⟩ | ⟨hroot, hfwd⟩
  · have hstay : ∀ {t : Store S}, l.store.Fixed t → t.Carries set anchors := by
      intro t hf
      obtain ⟨hleg', hsame'⟩ := hleg.fixed hf
      exact Or.inl ⟨hleg', fun ty id => (hsame' ty id).trans (hsame ty id)⟩
    cases e with
    | restore disk => exact ⟨hstay ⟨rfl, rfl⟩, fun hrun _ => hwait hrun hleg.not_rooted⟩
    | launch works io =>
      have hleg' : (l.store.withWorks works).Legacy set := hleg
      obtain ⟨hcar, hsec, -⟩ := openAt_legacy io hleg'
      have hanchors : (l.store.withWorks works).legacyAnchor set = anchors := by
        funext ty id
        exact hsame ty id
      refine ⟨hanchors ▸ hcar, fun hrun hnot => ?_⟩
      cases hb : (l.step (.launch works io)).store.backend with
      | degradedFile => rfl
      | secureStorage =>
        refine absurd (hsec ?_ hb) hnot
        have hok : (exec (openAt io) (l.store.withWorks works)).1.isOk = true := hrun
        cases hr : (exec (openAt io) (l.store.withWorks works)).1 with
        | ok u => rfl
        | error e =>
          rw [hr] at hok
          cases hok
    | call op works =>
      cases hrun : l.running with
      | false =>
        rw [step_call_closed hrun]
        exact ⟨Or.inl ⟨hleg, hsame⟩, hwait⟩
      | true =>
        have hb := hwait hrun hleg.not_rooted
        rw [step_call hrun]
        have hheld : (l.store.withWorks works).Held (exec op.run (l.store.withWorks works)).2 :=
          op.held (l.store.withWorks works)
        exact ⟨hstay ⟨hheld.account, hheld.secure hb⟩, fun _ _ => hheld.backend.trans hb⟩
  · obtain ⟨hroot', hon⟩ := life_step hroot e
    exact ⟨Or.inr ⟨hroot', fun ty id => (hfwd ty id).trans (hon ty id)⟩, fun _ hnot => absurd hroot' hnot⟩

/-- **The layout over a whole life.**  From the old layout on, over any launches that may each fail or be cut off anywhere,
any loads and saves and any exchanges of the data directory, the store either still has the anchors of the old record, all of
them, or has been brought to the present layout with no anchor lost or moved back; a launch on a working machine does so
if the anchors fit. -/
theorem life_layout (l : Life S) (events : List (LifeEvent S)) (h : l.store.Legacy set)
    (hidle : l.running = true → l.store.backend = .degradedFile) :
    (Runs.run Life.step l events).store.Carries set (l.store.legacyAnchor set) ∧
      ∀ works io, (∀ i, works i = true) → (∀ a ∈ set.anchors, a.FitsSecure S) →
        ((Runs.run Life.step l events).step (.launch works io)).running = true ∧
          ((Runs.run Life.step l events).step (.launch works io)).store.Rooted := by
  have hrun : (Runs.run Life.step l events).store.Carries set (l.store.legacyAnchor set) ∧
      (Runs.run Life.step l events).Waiting :=
    Runs.run_inv (fun l' : Life S => l'.store.Carries set (l.store.legacyAnchor set) ∧ l'.Waiting)
      (fun l' e h => carries_step h.1 h.2 e) ⟨Or.inl ⟨h, fun _ _ => rfl⟩, fun hr _ => hidle hr⟩
  refine ⟨hrun.1, fun works io hw hfit => ?_⟩
  generalize Runs.run Life.step l events = l' at hrun ⊢
  have hdone : (exec (openAt io) (l'.store.withWorks works)).1 = .ok () ∧
      (exec (openAt io) (l'.store.withWorks works)).2.Rooted := by
    rcases hrun.1 with ⟨hleg, -⟩ | ⟨hroot, -⟩
    · have hleg' : (l'.store.withWorks works).Legacy set := hleg
      obtain ⟨-, hsec, hworking⟩ := openAt_legacy io hleg'
      obtain ⟨hok, hb⟩ := hworking hw hfit
      exact ⟨hok, hsec hok hb⟩
    · have hopen := openAt_rooted (s := l'.store.withWorks works) io hroot
      exact ⟨(hopen.2 hw).1, hroot.fixed hopen.1⟩
  refine ⟨?_, hdone.2⟩
  show (exec (openAt io) (l'.store.withWorks works)).1.isOk = true
  rw [hdone.1]
  rfl

/-- Two anchors, and a store that keeps them in the old layout. -/
def Sym.oldAnchors : AnchorSet Sym.store.Digest :=
  ⟨anchorsVersion, [⟨[1], .contacts, "contacts".toList, 1, 4, SymTerm.Term.nat 7⟩,
    ⟨[1], .registry, "registry".toList, 1, 9, SymTerm.Term.nat 8⟩], none⟩

def Sym.oldLayout : Life Sym.store :=
  ⟨(Sym.machine .secureStorage 100).withSecure (Function.update (fun _ => none) (Sym.machine .secureStorage 100).account
    (some (Sym.store.anchorSet.encode Sym.oldAnchors))), false⟩

theorem oldLayout_legacy : Sym.oldLayout.store.Legacy Sym.oldAnchors :=
  ⟨_, ⟨_, rfl, Function.update_self _ _ _⟩, rfl, RawCodec.decode_encode _ _⟩

theorem oldAnchors_fit : ∀ a ∈ Sym.oldAnchors.anchors, a.FitsSecure Sym.store := by
  intro a ha
  rcases List.mem_cons.1 ha with rfl | ha
  · exact ⟨by decide, by decide⟩
  · obtain rfl := List.mem_singleton.1 ha
    exact ⟨by decide, by decide⟩

/-- A launch that is cut off between the two anchors, and one that is not: both anchors are there. -/
theorem life_layout_cut :
    Sym.oldLayout.running = false ∧
      ((Runs.run Life.step Sym.oldLayout [.launch (fun i => i < 9) ⟨[], []⟩]).step
        (.launch (fun _ => true) ⟨[], []⟩)).store.Rooted ∧
      (((Runs.run Life.step Sym.oldLayout [.launch (fun i => i < 9) ⟨[], []⟩]).step
        (.launch (fun _ => true) ⟨[], []⟩)).store.secureAnchor .registry "registry".toList).map (·.map (·.epoch)) =
        .ok (some 9) :=
  ⟨rfl, ((life_layout Sym.oldLayout [.launch (fun i => i < 9) ⟨[], []⟩] oldLayout_legacy (by decide)).2 (fun _ => true)
    ⟨[], []⟩ (fun _ => rfl) oldAnchors_fit).2, by rfl⟩

end FileSec
