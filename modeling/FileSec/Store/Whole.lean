import FileSec.Retention
import FileSec.Store.Readers

/-!
# A vault and its reader

A machine holds a vault *whole* when the reader shows what is on disk and every blob the manifest refers to is there.
Commits keep it so, whatever fails in them, as long as they are made with that reader (`commitWith_whole`).
-/

namespace FileSec

open CrashDir Prog

variable {P : Prims} {identity : Identity} {id : Str} {r q : VaultReaderV2 P} {h : Host P}

/-! ### Readers -/

/-- The reader is one that opening a vault, or committing to it, gives. -/
structure VaultReaderV2.Genuine (r : VaultReaderV2 P) (identity : Identity) (id : Str) : Prop where
  coherent : r.Coherent identity id
  belongs : r.Belongs identity
  view : r.view = viewOf r.manifest

theorem genuine_of_openVault {files : VaultFile → Option P.Raw} (h : openVault P files identity = .ok r) :
    ∃ id, r.Genuine identity id := by
  obtain ⟨id, hcoh⟩ := coherent_of_openVault h
  exact ⟨id, hcoh, belongs_of_openVault h, view_of_openVault h⟩

theorem VaultReaderV2.Genuine.reopened (h : r.Genuine identity id) : r.reopened.Genuine identity id :=
  ⟨h.coherent.pending [], ⟨h.belongs.header, h.belongs.owner⟩, h.view⟩

/-- When the hash of a state has no collisions, two readers of one vault whose states have the same hash are the same, up
to what they have still to reclaim. -/
theorem VaultReaderV2.Genuine.eq_of_hash (hinj : Function.Injective P.hashState) (hq : q.Genuine identity id)
    (hr : r.Genuine identity id) (hheader : q.headerBytes = r.headerBytes) {state state' : P.State}
    (hqs : q.state = some state) (hrs : r.state = some state')
    (hhash : state.currentStateHash = state'.currentStateHash) : q.reopened = r.reopened := by
  obtain ⟨s₁, pt₁, hs₁, hof₁, hsuite₁, hdec₁⟩ := hq.coherent.state
  obtain ⟨s₂, pt₂, hs₂, hof₂, hsuite₂, hdec₂⟩ := hr.coherent.state
  rw [hqs, Option.some.injEq] at hs₁
  rw [hrs, Option.some.injEq] at hs₂
  subst hs₁ hs₂
  -- both hashes are those of what the states commit to
  have hcommit : ∀ {s : P.State} {pt : P.Raw}, s.verifyPayload P.hashState pt = .ok () →
      s.currentStateHash = P.hashState (s.preimage pt) := by
    intro s pt hv
    unfold StateMetadata.verifyPayload at hv
    split at hv
    · cases hv
    · rename_i hn
      rw [not_or, not_ne_iff] at hn
      exact hn.2
  have hpre := hinj ((hcommit hof₁.payload).symm.trans (hhash.trans (hcommit hof₂.payload)))
  simp only [StateMetadata.preimage, StatePreimage.mk.injEq] at hpre
  obtain ⟨h1, h2, h3, h4, h5, h6, rfl⟩ := hpre
  have hstate : state = state' := by
    rcases state with ⟨⟩
    rcases state' with ⟨⟩
    simp only at h1 h2 h3 h4 h5 h6 hhash
    subst h1 h2 h3 h4 h5 h6 hhash
    rfl
  have hmanifest : q.manifest = r.manifest := Option.some.inj (hdec₁.symm.trans hdec₂)
  obtain ⟨header, hoh⟩ := hq.belongs.header
  obtain ⟨header', hoh'⟩ := hr.belongs.header
  rw [hheader, hoh'] at hoh
  simp only [Except.ok.injEq, Prod.mk.injEq] at hoh
  obtain ⟨-, hsuite, hkey⟩ := hoh
  have howner : q.ownerFingerprint = r.ownerFingerprint := hq.belongs.owner.trans hr.belongs.owner.symm
  have hview : q.view = r.view := by rw [hq.view, hr.view, hmanifest]
  unfold VaultReaderV2.reopened
  rcases q with ⟨⟩
  rcases r with ⟨⟩
  simp only at hheader hsuite hkey howner hview hmanifest hqs hrs
  subst hheader hsuite hkey howner hview hmanifest hstate
  rw [hqs, hrs]

/-! ### Vaults -/

/-- The state that the manifest file names. -/
def stateOnDisk (P : Prims) (files : VaultFile → Option P.Raw) : Option P.State :=
  ((files .manifest).bind P.decodeEnvelope).map (·.state)

/-- The machine holds the vault `id` as the reader has it. -/
structure Host.Whole (h : Host P) (identity : Identity) (id : Str) (r : VaultReaderV2 P) : Prop where
  genuine : r.Genuine identity id
  kept : World.Kept ⟨h, some r⟩ identity r.headerBytes
  header : h.top.shown .header = some r.headerBytes
  state : stateOnDisk P h.top.shown = r.state
  opens : ∀ r', openVault P h.top.shown identity = .ok r' → r' = r.reopened
  present : ∀ b ∈ r.manifest.blobIds, validateBlobId b = .ok () → h.blobs.shown b ≠ none

theorem stateOnDisk_of_openVault {files : VaultFile → Option P.Raw} (h : openVault P files identity = .ok r) :
    stateOnDisk P files = r.state := by
  obtain ⟨header, raw, state, m, -, -, -, hraw, -, hom, -, hr⟩ := openVault_eq_ok.1 h
  have hstate : r.state = some state := by
    rw [hr]
    rfl
  unfold openManifest at hom
  split at hom
  · cases hom
  · rename_i env henv
    have henv' : env.state = state := by
      split at hom
      · split at hom
        · cases hom
        · rename_i pt _
          cases hv : env.state.verifyPayload P.hashState pt with
          | error e => simp [hv, bind, Except.bind] at hom
          | ok u =>
            simp only [hv, bind, Except.bind] at hom
            split at hom
            · cases hom
            · rename_i m' _
              cases hval : validateManifestV2 m' r.suite.aeadAlg with
              | error e => simp [hval] at hom
              | ok u' =>
                simp only [hval, Except.ok.injEq, Prod.mk.injEq] at hom
                exact hom.1
      · cases hom
    unfold stateOnDisk
    rw [hraw, Option.bind_some, henv, Option.map_some, henv', hstate]

/-- A vault found on disk is whole for the reader that opens it. -/
theorem whole_of_openVault (hopen : openVault P h.top.shown identity = .ok r) {hb : P.Raw}
    (hkept : World.Kept ⟨h, none⟩ identity hb) (hid : r.Coherent identity id)
    (hpresent : ∀ b ∈ r.manifest.blobIds, validateBlobId b = .ok () → h.blobs.shown b ≠ none) :
    h.Whole identity id r := by
  have hreopen := hkept.reopen
  have hstep : World.step identity ⟨h, none⟩ .reopen = ⟨h, some r⟩ := by
    unfold World.step
    rw [hopen]
    rfl
  rw [hstep] at hreopen
  have hheader := (hreopen.reader r rfl).header
  refine ⟨⟨hid, belongs_of_openVault hopen, view_of_openVault hopen⟩, hheader ▸ hreopen, header_of_openVault hopen,
    stateOnDisk_of_openVault hopen, fun r' hr' => ?_, hpresent⟩
  rw [reopened_of_openVault hopen]
  exact Except.ok.inj (hr'.symm.trans hopen)

/-- The reader may drop what it has still to reclaim. -/
theorem Host.Whole.reopened (hw : h.Whole identity id r) : h.Whole identity id r.reopened := by
  have hrk := hw.kept.reader r rfl
  refine ⟨hw.genuine.reopened, ?_, hw.header, hw.state, hw.opens, hw.present⟩
  refine ⟨hw.kept.header, hw.kept.distinct, hw.kept.kept, ?_, hw.kept.fresh.mono ?_⟩
  · rintro r' ⟨⟩
    exact ⟨⟨hrk.belongs.header, hrk.belongs.owner⟩, rfl, hrk.distinct, hrk.kept, hrk.current, nofun⟩
  · rintro b (hb | hb | hb | ⟨r', hr', hb⟩)
    · exact Or.inl hb
    · exact Or.inr (Or.inl hb)
    · exact Or.inr (Or.inr (Or.inl hb))
    · cases hr'
      exact Or.inr (Or.inr (Or.inr ⟨r, rfl, hb.imp_right fun hb => by simp at hb⟩))

/-- Draws elsewhere change nothing. -/
theorem Host.Whole.ahead {h' : Host P} (hw : h.Whole identity id r) (htop : h'.top = h.top) (hblobs : h'.blobs = h.blobs)
    (hrng : h.rng.Ahead h'.rng) : h'.Whole identity id r := by
  obtain ⟨top, blobs, rng⟩ := h
  obtain ⟨top', blobs', rng'⟩ := h'
  simp only at htop hblobs hrng
  subst htop hblobs
  refine ⟨hw.genuine, ?_, hw.header, hw.state, hw.opens, hw.present⟩
  have hknown : ∀ b, World.Known ⟨⟨top', blobs', rng'⟩, some r⟩ identity r.headerBytes b →
      World.Known ⟨⟨top', blobs', rng⟩, some r⟩ identity r.headerBytes b := fun b hb => hb
  have hreader : ∀ r', some r = some r' → World.ReaderKept ⟨⟨top', blobs', rng'⟩, some r⟩ identity r.headerBytes r' := by
    rintro r' ⟨⟩
    have hrk := hw.kept.reader r rfl
    exact ⟨hrk.belongs, hrk.header, hrk.distinct, hrk.kept, hrk.current, hrk.pending⟩
  exact ⟨hw.kept.header, hw.kept.distinct, hw.kept.kept, hreader, (hw.kept.fresh.ahead hrng).mono hknown⟩

/-! ### Sessions -/

/-- The sessions show the same vault: the same reader, manifest file and blobs. -/
structure Session.Like (s s' : Session P) : Prop where
  reader : s'.reader.reopened = s.reader.reopened
  top : s'.host.top.shown = s.host.top.shown
  blobs : ∀ b ∈ s.reader.manifest.blobIds, validateBlobId b = .ok () →
    s'.host.blobs.shown b = s.host.blobs.shown b

/-- A commit has put the manifest that its closure made in the place of the session's. -/
structure Session.Committed (s : Session P) (c : CommitCall) (s' : Session P) : Prop where
  edited : (s.edited c.limit c.edits).1 = .ok ()
  changed : (s.edited c.limit c.edits).2.changed = true
  manifest : s'.reader.manifest = (s.edited c.limit c.edits).2.manifest
  blobs : ∀ b ∈ s'.reader.manifest.blobIds, validateBlobId b = .ok () →
    s'.host.blobs.shown b = (s.edited c.limit c.edits).2.host.blobs.shown b
  next : ∃ state, s.reader.nextState s'.reader.manifest = .ok state ∧ s'.reader.state = some state

/-- The edits of a successful commit have been applied. -/
inductive Session.Applied (s : Session P) (c : CommitCall) (s' : Session P) : Prop
  | committed (h : s.Committed c s')
  /-- There were none. -/
  | unchanged (hedited : (s.edited c.limit c.edits).1 = .ok ()) (hsame : (s.edited c.limit c.edits).2.changed = false)
      (hlike : s.Like s')

/-- Successful commits, each from the state that the one before it has produced. -/
inductive Session.Chain : Session P → List CommitCall → Session P → Prop
  | nil {s s' : Session P} (h : s.Like s') : Session.Chain s [] s'
  | cons {s t u s' : Session P} {c : CommitCall} {cs : List CommitCall} (h : s.Like t) (hc : t.Applied c u)
      (hcs : Session.Chain u cs s') : Session.Chain s (c :: cs) s'

section Chain

variable {s t u : Session P} {cs cs' : List CommitCall}

theorem Session.Like.refl (s : Session P) : s.Like s := ⟨rfl, rfl, fun _ _ _ => rfl⟩

/-- Readers that are the same after a reopening have the same manifest. -/
theorem manifest_of_reopened {P : Prims} {q r : VaultReaderV2 P} (h : q.reopened = r.reopened) :
    q.manifest = r.manifest := by
  have hm : q.reopened.manifest = r.reopened.manifest := by rw [h]
  exact hm

theorem Session.Like.trans (h : s.Like t) (h' : t.Like u) : s.Like u := by
  refine ⟨h'.reader.trans h.reader, h'.top.trans h.top, fun b hb hv => ?_⟩
  have hb' : b ∈ t.reader.manifest.blobIds := manifest_of_reopened h.reader ▸ hb
  exact (h'.blobs b hb' hv).trans (h.blobs b hb hv)

theorem Session.Chain.after (hlike : s.Like t) (h : t.Chain cs u) : s.Chain cs u := by
  cases h with
  | nil h => exact .nil (hlike.trans h)
  | cons h hc hcs => exact .cons (hlike.trans h) hc hcs

theorem Session.Chain.trans (h : s.Chain cs t) (h' : t.Chain cs' u) : s.Chain (cs ++ cs') u := by
  induction h with
  | nil hlike => exact h'.after hlike
  | cons hlike hc _ ih => exact .cons hlike hc (ih h')

theorem Session.Chain.single {c : CommitCall} (h : s.Applied c t) : s.Chain [c] t := .cons (.refl s) h (.nil (.refl t))

end Chain

/-! ### Commits -/

/-- Whole vaults with readers that are alike. -/
theorem Host.Whole.like {s t : Session P} (hw : s.host.Whole identity id s.reader) (hreader : t.reader = s.reader)
    (hkept : World.Kept ⟨t.host, some t.reader⟩ identity s.reader.headerBytes) (hlike : s.Like t) :
    t.host.Whole identity id t.reader := by
  obtain ⟨r, h⟩ := t
  subst hreader
  refine ⟨hw.genuine, hkept, by rw [hlike.top]; exact hw.header, by rw [hlike.top]; exact hw.state, ?_, fun b hb hv => ?_⟩
  · rw [hlike.top]
    exact hw.opens
  · rw [hlike.blobs b hb hv]
    exact hw.present b hb hv

theorem commitWith_whole (hw : h.Whole identity id r) (c : CommitCall) :
    wp (commitWith c.limit c.edits c.io) (fun res s => s.host.Whole identity id s.reader ∧
      s.reader.headerBytes = r.headerBytes ∧ match res with
        | .ok () => Session.Applied ⟨r, h⟩ c s
        | .error _ => s.reader = r ∧ Session.Like ⟨r, h⟩ s) ⟨r, h⟩ := by
  obtain ⟨limit, edits, io⟩ := c
  refine wp_mono (wp_and (wp_and (commitWith_outcome ⟨r, h⟩ limit edits io)
    (commitWith_kept (w := ⟨h, some r⟩) hw.kept rfl limit edits io))
    (VaultReaderV2.Coherent.commitWith (s := ⟨r, h⟩) hw.genuine.coherent limit edits io)) ?_
  rintro res s ⟨⟨hout, hkept⟩, hcoh⟩
  obtain ⟨k, he⟩ := edited_spec ⟨r, h⟩ limit edits
  have hrk := hw.kept.reader r rfl
  have ha : World.Account ⟨h, some r⟩ identity r.headerBytes r k (Session.edited ⟨r, h⟩ limit edits).2 :=
    World.Kept.account (w := ⟨h, some r⟩) hw.kept rfl he
  -- the blobs of the reader are still shown
  have hold : ∀ b ∈ r.manifest.blobIds, (Session.edited ⟨r, h⟩ limit edits).2.host.blobs.shown b = h.blobs.shown b :=
    fun b hb => he.drew.blobs.shown fun hd =>
      hw.kept.fresh.not_drawn hd (Or.inr (Or.inr (Or.inr ⟨r, rfl, Or.inl hb⟩)))
  have hsame : ∀ {H : Host P}, H.top = h.top → (∀ b ∈ r.manifest.blobIds, H.blobs.shown b = h.blobs.shown b) →
      World.Kept ⟨H, some r⟩ identity r.headerBytes →
        H.Whole identity id r ∧ Session.Like ⟨r, h⟩ ⟨r, H⟩ := by
    intro H htop hblobs hkept
    have hlike : Session.Like ⟨r, h⟩ ⟨r, H⟩ := ⟨rfl, congrArg Dir.shown htop, fun b hb _ => hblobs b hb⟩
    exact ⟨Host.Whole.like (s := ⟨r, h⟩) (t := ⟨r, H⟩) hw rfl hkept hlike, hlike⟩
  cases hout with
  | unchanged hok hch =>
    have htop : (Session.edited ⟨r, h⟩ limit edits).2.host.top = h.top := he.drew.top
    obtain ⟨hwhole, hlike⟩ := hsame htop hold hkept
    exact ⟨hwhole, rfl, .unchanged hok hch hlike⟩
  | @failed e h' hhost =>
    have htop : h'.top = h.top := by
      rcases hhost with rfl | ⟨j, rfl⟩
      · exact he.drew.top
      · exact he.drew.top
    have hblobs : ∀ b ∈ r.manifest.blobIds,
        (h'.blobs.unlinkAll (Session.edited ⟨r, h⟩ limit edits).2.staged io.unlinkOk).shown b = h.blobs.shown b := by
      intro b hb
      have hnot : b ∉ (Session.edited ⟨r, h⟩ limit edits).2.staged := fun hs =>
        hw.kept.fresh.not_drawn (he.staged hs) (Or.inr (Or.inr (Or.inr ⟨r, rfl, Or.inl hb⟩)))
      rw [shown_unlinkAll_of_not_mem _ hnot, ← hold b hb]
      rcases hhost with rfl | ⟨j, rfl⟩
      · rfl
      · exact congrFun (shown_sync _ _) b
    obtain ⟨hwhole, hlike⟩ := hsame (H := { h' with blobs := h'.blobs.unlinkAll _ io.unlinkOk }) htop hblobs hkept
    exact ⟨hwhole, rfl, rfl, hlike⟩
  | @sealed state nonce h' hok hch hsealed =>
    generalize hb : (Session.edited ⟨r, h⟩ limit edits).2 = b at *
    obtain ⟨hnext, hdrawn, -, rfl⟩ := hsealed
    have hnonce := randomVec_length hdrawn
    have htop : b.host.top = h.top := he.drew.top
    have hnot := ha.not_mem (w := ⟨h, some r⟩) hw.kept rfl
    have hsync : ∀ c, (b.host.blobs.sync io.blobsSync).shown c = b.host.blobs.shown c := congrFun (shown_sync _ _)
    -- reclaiming leaves the blobs of the new manifest alone
    have hfinal : ∀ H : Host P, H.top = (b.host.top.write .manifest (r.sealedRaw b.manifest state nonce)).sync
        io.vaultSync → (∀ c ∈ b.manifest.blobIds, H.blobs.shown c = b.host.blobs.shown c) →
        World.Kept ⟨H, some (r.committed b state io.vaultSync)⟩ identity r.headerBytes →
        VaultReaderV2.Coherent (r.committed b state io.vaultSync) identity id →
        H.Whole identity id (r.committed b state io.vaultSync) ∧
          Session.Applied ⟨r, h⟩ ⟨limit, edits, io⟩ ⟨r.committed b state io.vaultSync, H⟩ := by
      intro H hHtop hHblobs hHkept hHcoh
      have hheader : H.top.shown .header = some r.headerBytes := by
        rw [hHtop, shown_sync, shown_write_of_ne (by decide), htop, hw.header]
      have hmanifest : H.top.shown .manifest = some (r.sealedRaw b.manifest state nonce) := by
        rw [hHtop, shown_sync, shown_write_self]
      refine ⟨⟨⟨hHcoh, ⟨hrk.belongs.header, hrk.belongs.owner⟩, rfl⟩, hHkept, hheader, ?_, ?_, ?_⟩, ?_⟩
      · unfold stateOnDisk
        rw [hmanifest]
        simp only [Option.bind_some, VaultReaderV2.sealedRaw, P.decodeEnvelope_encodeEnvelope, Option.map_some]
        rfl
      · intro r' hr'
        exact ((openVault_sealed hrk.belongs hnext hnonce hheader hmanifest).1 hr').2.2.2
      · intro c hc hv
        rw [hHblobs c hc]
        have hmem : c ∈ b.ids := List.mem_append_left _ hc
        rcases he.present c hmem with hc' | hp | hu
        · rw [hold c hc']
          exact hw.present c hc' hv
        · exact hp
        · exact absurd hu (ha.kept c hmem hv)
      · refine .committed ⟨hok, hb ▸ hch, ?_, ?_, state, hnext, rfl⟩
        · rw [hb]
          rfl
        · rw [hb]
          exact fun c hc _ => hHblobs c hc
    obtain ⟨hwhole, happlied⟩ := hfinal _ (by split <;> rfl) (fun c hc => by
      split
      · have hc' : c ∉ r.pendingReclaim ++ b.superseded := fun hm => hnot c hm hc
        exact (shown_unlinkAll_of_not_mem _ hc').trans (hsync c)
      · exact hsync c) hkept hcoh
    exact ⟨hwhole, rfl, happlied⟩

/-- Collecting garbage takes nothing of the vault. -/
theorem collectGarbage_whole (hw : h.Whole identity id r) (hpending : r.pendingReclaim = []) (io : GcIo) :
    wp (collectGarbage io) (fun _ s => s.host.Whole identity id s.reader ∧ s.reader = r ∧ Session.Like ⟨r, h⟩ s)
      ⟨r, h⟩ := by
  refine wp_mono (wp_and (collectGarbage_spec io ⟨r, h⟩) (collectGarbage_kept (w := ⟨h, some r⟩) hw.kept rfl io)) ?_
  rintro res s ⟨⟨⟨pending, hreader, hsub⟩, -, htop, -, -, -, hblobs⟩, hkept⟩
  have hnil : pending = [] := List.eq_nil_of_subset_nil (hpending ▸ hsub)
  have hsame : s.reader = r := by
    rw [hreader, hnil, ← hpending]
  have hlike : Session.Like ⟨r, h⟩ s := by
    refine ⟨by rw [hsame], ?_, fun b hb hv => hblobs b (isGarbage_of_mem hb hv)⟩
    rcases htop with ⟨htop, -⟩ | htop
    · rw [htop]
    · rw [htop, shown_sync]
  exact ⟨Host.Whole.like (s := ⟨r, h⟩) hw hsame hkept hlike, hsame, hlike⟩

end FileSec
