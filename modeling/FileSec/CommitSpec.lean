import FileSec.Commit
import FileSec.Frame

/-!
# The outcomes of a commit

A commit ends in one of three ways: the manifest was sealed and adopted, nothing had changed, or it failed and the
reader is as before (`commitWith_outcome`).
-/

namespace FileSec

open CrashDir Prog

variable {P : Prims}

/-- The manifest file that seals `m` under `state` with `nonce`. -/
def VaultReaderV2.sealedRaw (r : VaultReaderV2 P) (m : ManifestV2) (state : P.State) (nonce : Bytes) : P.Raw :=
  P.encodeEnvelope ⟨manifestEnvelopeVersion, state, nonce,
    P.sealWith r.suite.aeadAlg r.manifestKey nonce (r.headerBytes, state) (P.encodeManifest m)⟩

/-- The state that follows the reader's for the manifest `m`. -/
def VaultReaderV2.nextState (r : VaultReaderV2 P) (m : ManifestV2) : Result P.State := do
  let objectId ← vaultObjectId P r.headerBytes
  StateMetadata.next P.hashState P.genesisHash r.ownerFingerprint .vaultManifest objectId r.suite.toU16
    (r.state.map StateAnchor.fromMetadata) (P.encodeManifest m)

/-- What sealing `m` has done to the machine when it succeeds. -/
structure VaultReaderV2.Sealed (r : VaultReaderV2 P) (m : ManifestV2) (io : SealIo) (h : Host P) (state : P.State)
    (nonce : Bytes) (h' : Host P) : Prop where
  next : r.nextState m = .ok state
  drawn : randomVec r.suite.aeadAlg.nonceLen (h.rng 0) = .ok nonce
  fault : io.writeFault = none
  host : h' =
    { top := (h.top.write .manifest (r.sealedRaw m state nonce)).sync io.vaultSync
      blobs := h.blobs.sync io.blobsSync
      rng := fun i => h.rng (i + 1) }

theorem sealAndWrite_spec (r : VaultReaderV2 P) (m : ManifestV2) (io : SealIo) (h : Host P) :
    wp (r.sealAndWrite m io) (fun res h' => match res with
      | .ok (state, durable) => durable = io.vaultSync ∧ ∃ nonce, r.Sealed m io h state nonce h'
      | .error _ => ∃ k, h' = { h with blobs := h.blobs.sync io.blobsSync, rng := fun i => h.rng (i + k) }) h := by
  unfold VaultReaderV2.sealAndWrite writeAtomic
  simp only [wp_bind, wp_modify, wp_liftM]
  cases hid : vaultObjectId P r.headerBytes with
  | error e => exact ⟨0, rfl⟩
  | ok objectId =>
    simp only
    cases hnext : StateMetadata.next P.hashState P.genesisHash r.ownerFingerprint .vaultManifest objectId
        r.suite.toU16 (r.state.map StateAnchor.fromMetadata) (P.encodeManifest m) with
    | error e => exact ⟨0, rfl⟩
    | ok state =>
      simp only [wp_draw]
      cases hnonce : randomVec r.suite.aeadAlg.nonceLen (h.rng 0) with
      | error e => exact ⟨1, rfl⟩
      | ok nonce =>
        cases hf : io.writeFault with
        | some e => exact ⟨1, rfl⟩
        | none =>
          simp only [wp_bind, wp_modify, wp_pure]
          refine ⟨trivial, nonce, ?_, hnonce, hf, rfl⟩
          simp only [VaultReaderV2.nextState, hid, bind, Except.bind, hnext]

/-! ### The three outcomes -/

/-- The batch a closure leaves, with its result. -/
def Session.edited (s : Session P) (limit : Option Nat) (edits : Edits) : Result Unit × VaultBatch P :=
  exec (edits.run P) (VaultBatch.new s.reader limit s.host)

/-- The reader after a sealed commit. -/
def VaultReaderV2.committed (r : VaultReaderV2 P) (b : VaultBatch P) (state : P.State) (durable : Bool) :
    VaultReaderV2 P :=
  { r.adopt b.manifest state with
    pendingReclaim := if durable then [] else r.pendingReclaim ++ b.superseded }

/-- How a commit can end, given the batch `b` its closure leaves with the result `edited`. -/
inductive Session.Outcome (s : Session P) (io : CommitIo) (edited : Result Unit) (b : VaultBatch P) :
    Result Unit → Session P → Prop
  | sealed {state : P.State} {nonce : Bytes} {h : Host P} (hok : edited = .ok ()) (hchanged : b.changed = true)
      (hsealed : s.reader.Sealed b.manifest io.toSealIo b.host state nonce h) :
      s.Outcome io edited b (.ok ()) ⟨s.reader.committed b state io.vaultSync,
        if io.vaultSync then { h with blobs := h.blobs.unlinkAll (s.reader.pendingReclaim ++ b.superseded) io.unlinkOk }
        else h⟩
  | unchanged (hok : edited = .ok ()) (hchanged : b.changed = false) :
      s.Outcome io edited b (.ok ()) ⟨s.reader, b.host⟩
  | failed {e : Error} {h : Host P} (hhost : h = b.host ∨
      ∃ k, h = { b.host with blobs := b.host.blobs.sync io.blobsSync, rng := fun i => b.host.rng (i + k) }) :
      s.Outcome io edited b (.error e) ⟨s.reader, { h with blobs := h.blobs.unlinkAll b.staged io.unlinkOk }⟩

theorem commitWith_outcome (s : Session P) (limit : Option Nat) (edits : Edits) (io : CommitIo) :
    wp (commitWith limit edits io) (s.Outcome io (s.edited limit edits).1 (s.edited limit edits).2) s := by
  unfold commitWith concludeCommit
  simp only [wp_bind, wp_get, wp_modify, wp_attempt, wp_liftM]
  rw [← Session.edited]
  obtain ⟨edited, b⟩ := s.edited limit edits
  cases edited with
  | error e =>
    simp only [onHost, wp_zoom, wp_modify, wp_throw]
    exact .failed (Or.inl rfl)
  | ok u =>
    cases hc : b.changed with
    | false =>
      simp only [Bool.false_eq_true, ↓reduceIte, wp_pure]
      exact .unchanged rfl hc
    | true =>
      simp only [↓reduceIte, wp_bind, onHost, wp_zoom]
      refine wp_mono (sealAndWrite_spec s.reader b.manifest io.toSealIo b.host) ?_
      intro res h hres
      cases res with
      | error e =>
        simp only [wp_modify, wp_throw]
        exact .failed (Or.inr hres)
      | ok sealed =>
        obtain ⟨state, durable⟩ := sealed
        obtain ⟨rfl, nonce, hsealed⟩ := hres
        simp only [wp_pure, wp_bind, wp_modify, reclaim, wp_ite]
        have hout : s.Outcome io (.ok ()) b (.ok ()) _ := .sealed rfl hc hsealed
        constructor
        · intro hs
          simp only [hs, VaultReaderV2.committed, ↓reduceIte] at hout
          exact hout
        · intro hs
          rw [Bool.not_eq_true] at hs
          simp only [hs, VaultReaderV2.committed, Bool.false_eq_true, ↓reduceIte] at hout
          exact hout

/-! ### What the closure leaves alone -/

/-- The machine made `k` draws, and wrote or unlinked blobs only under ids these draws named. -/
structure Host.Drew (k : Nat) (h h' : Host P) : Prop where
  top : h'.top = h.top
  rng : h'.rng = fun i => h.rng (i + k)
  blobs : h.blobs.Within (h.rng.drawn k) h'.blobs

/-- What a program that does not read the blobs leaves of a batch after `k` draws. -/
theorem BatchBlind.drew {α : Type} {p : BatchM P α} (h : BatchBlind p) (b : VaultBatch P) :
    wp p (fun _ b' => b'.reader = b.reader ∧ ∃ k, b.host.Drew k b'.host ∧
      b'.ids.Subperm (b.ids ++ b.host.rng.drawn k)) b := by
  obtain ⟨r, b', g, ⟨hreader, k, hdraws, -, hids, -⟩, hrun⟩ := h b
  have hb : exec p b = (r, b'.setBlobs (g b.host.blobs)) := hrun b.host.blobs
  unfold wp
  rw [hb]
  exact ⟨hreader, k, ⟨hdraws.top, hdraws.rng, hdraws.blobs b.host.blobs⟩, hids⟩

/-- What a closure leaves after `k` draws: it has staged blobs it drew, and touched no others.  The blobs it refers to
and those it has superseded are, each once, blobs of the reader and blobs it has drawn; none of these is unlinked. -/
structure Session.Edited (s : Session P) (k : Nat) (b : VaultBatch P) : Prop where
  drew : s.host.Drew k b.host
  staged : b.staged ⊆ s.host.rng.drawn k
  ids : b.ids.Subperm (s.reader.manifest.blobIds ++ s.host.rng.drawn k)
  unlinked : (b.ids ++ b.host.blobs.unlinked).Subperm
    (s.reader.manifest.blobIds ++ s.host.blobs.unlinked ++ s.host.rng.drawn k)
  present : ∀ id ∈ b.ids, id ∈ s.reader.manifest.blobIds ∨ b.host.blobs.shown id ≠ none ∨ id ∈ b.host.blobs.unlinked

theorem edited_spec (s : Session P) (limit : Option Nat) (edits : Edits) : ∃ k, s.Edited k (s.edited limit edits).2 := by
  obtain ⟨r, b, g, ⟨-, k, hdraws, hstaged, hids, hu⟩, hrun⟩ := edits.run_blind (VaultBatch.new s.reader limit s.host)
  have h := hrun s.host.blobs
  have hnew : VaultBatch.setBlobs s.host.blobs (VaultBatch.new s.reader limit s.host) =
      VaultBatch.new s.reader limit s.host := rfl
  have hnew' : (VaultBatch.new s.reader limit s.host).ids = s.reader.manifest.blobIds := List.append_nil _
  rw [hnew] at h
  rw [hnew'] at hids hu
  unfold Session.edited
  rw [h]
  refine ⟨k, ⟨hdraws.top, hdraws.rng, hdraws.blobs s.host.blobs⟩, fun id hid => ?_, hids, (hu s.host.blobs).1,
    (hu s.host.blobs).2⟩
  rcases hstaged id hid with hid | hid
  · simp [VaultBatch.new] at hid
  · exact hid

/-- A closure that puts no file leaves the machine alone. -/
theorem edited_quiet (s : Session P) (limit : Option Nat) (edits : Edits) (h : edits.Only fun op => op.isPut = false) :
    (s.edited limit edits).2.host = s.host ∧ (s.edited limit edits).2.ids ⊆ s.reader.manifest.blobIds := by
  obtain ⟨r, b, g, ⟨rfl, hhost, -, -, hids⟩, hrun⟩ := Edits.run_quiet (P := P) h (VaultBatch.new s.reader limit s.host)
  have hb : (s.edited limit edits).2 = b.setBlobs s.host.blobs := congrArg Prod.snd (hrun s.host.blobs)
  have hnew : (VaultBatch.new s.reader limit s.host).ids = s.reader.manifest.blobIds := List.append_nil _
  rw [hnew] at hids
  rw [hb]
  refine ⟨?_, hids.subset⟩
  show b.host.setBlobs s.host.blobs = s.host
  rw [hhost]
  rfl

/-! ### Collecting garbage -/

/-- From `h` to `h'` only garbage was unlinked. -/
structure Host.Swept (referenced : List Str) (h h' : Host P) : Prop where
  top : h'.top = h.top
  rng : h'.rng = h.rng
  unlinked : ∀ id ∈ h'.blobs.unlinked, id ∈ h.blobs.unlinked ∨
    h.blobs.shown id ≠ none ∧ isGarbage referenced id = true
  kept : ∀ id, isGarbage referenced id = false → h'.blobs.versions id = h.blobs.versions id
  present : ∀ id c, some c ∈ h'.blobs.versions id → some c ∈ h.blobs.versions id

private theorem Host.Swept.refl (referenced : List Str) (h : Host P) : h.Swept referenced h :=
  ⟨rfl, rfl, fun _ hid => Or.inl hid, fun _ _ => rfl, fun _ _ hc => hc⟩

private theorem Host.Swept.of_unlink {referenced : List Str} {h h' : Host P} {name : Str}
    (hg : isGarbage referenced name = true) (hs : Host.Swept referenced { h with blobs := h.blobs.unlink name } h') :
    h.Swept referenced h' := by
  obtain ⟨htop, hrng, hun, hver, hsome⟩ := hs
  refine ⟨htop, hrng, fun id hid => ?_, fun id hid => ?_, fun id c hc => ?_⟩
  · rcases hun id hid with hid | ⟨hs, hid⟩
    · rcases mem_unlinked_unlink hid with ⟨rfl, hs⟩ | hid
      · exact Or.inr ⟨hs, hg⟩
      · exact Or.inl hid
    · exact Or.inr ⟨fun hnone => hs (shown_unlink_of_none hnone), hid⟩
  · have hne : id ≠ name := by
      rintro rfl
      rw [hg] at hid
      simp at hid
    rw [hver id hid]
    exact versions_unlink_of_ne hne
  · exact some_mem_versions_unlink (hsome id c hc)

private theorem sweep_spec (referenced : List Str) (items : List (Result ScanItem)) (h : Host P) :
    wp (sweep referenced items) (fun _ h' => h.Swept referenced h') h := by
  induction items generalizing h with
  | nil => exact .refl _ _
  | cons item items ih =>
    simp only [sweep, wp_bind, wp_liftM]
    cases item with
    | error e => exact .refl _ _
    | ok item =>
      simp only [wp_ite, wp_bind, wp_liftM]
      refine ⟨fun hg => ?_, fun _ => ih h⟩
      cases item.isFile with
      | error e => exact .refl _ _
      | ok file =>
        simp only [wp_get, wp_modify, wp_pure]
        refine ⟨fun _ => ?_, fun _ => ih h⟩
        refine wp_mono (ih { h with blobs := h.blobs.unlink item.name }) ?_
        intro r h' hs
        cases r
        · exact .of_unlink hg hs
        · exact .of_unlink hg hs

/-- What collecting garbage leaves: the blobs it unlinks are garbage, and then the vault directory has been synced. -/
structure Session.Collected (s s' : Session P) : Prop where
  reader : ∃ pending, s'.reader = { s.reader with pendingReclaim := pending } ∧ pending ⊆ s.reader.pendingReclaim
  rng : s'.host.rng = s.host.rng
  top : s'.host.top = s.host.top ∧ s'.host.blobs = s.host.blobs ∨ s'.host.top = s.host.top.sync true
  unlinked : ∀ id ∈ s'.host.blobs.unlinked, id ∈ s.host.blobs.unlinked ∨
    s'.host.top = s.host.top.sync true ∧ s.host.blobs.shown id ≠ none ∧
      isGarbage s.reader.manifest.blobIds id = true
  blobs : ∀ id, isGarbage s.reader.manifest.blobIds id = false →
    s'.host.blobs.versions id ⊆ s.host.blobs.versions id
  present : ∀ id c, some c ∈ s'.host.blobs.versions id → some c ∈ s.host.blobs.versions id
  shown : ∀ id, isGarbage s.reader.manifest.blobIds id = false →
    s'.host.blobs.shown id = s.host.blobs.shown id

theorem collectGarbage_spec (io : GcIo) (s : Session P) : wp (collectGarbage io) (fun _ s' => s.Collected s') s := by
  have hpend : ∀ r : VaultReaderV2 P, ∃ pending, r = { r with pendingReclaim := pending } ∧
      pending ⊆ r.pendingReclaim := fun r => ⟨r.pendingReclaim, rfl, List.Subset.refl _⟩
  unfold collectGarbage
  simp only [wp_ite, wp_pure, wp_bind, onHost, wp_zoom, wp_modify, wp_get, wp_liftM]
  refine ⟨fun _ => ⟨hpend _, rfl, Or.inl ⟨rfl, rfl⟩, fun _ hid => Or.inl hid, fun _ _ => List.Subset.refl _,
    fun _ _ hc => hc, fun _ _ => rfl⟩, fun _ => ⟨fun _ => ⟨hpend _, rfl, Or.inr rfl, fun _ hid => Or.inl hid,
    fun _ _ => List.Subset.refl _, fun _ _ hc => hc, fun _ _ => rfl⟩, fun _ => ?_⟩⟩
  have hsync : ∀ id, (s.host.blobs.sync true).versions id ⊆ s.host.blobs.versions id :=
    fun id => versions_sync_subset _ _ id
  cases io.scan with
  | error e =>
    exact ⟨hpend _, rfl, Or.inr rfl, fun _ hid => Or.inl hid, fun id _ => hsync id, fun id _ hc => hsync id hc,
      fun _ _ => rfl⟩
  | ok items =>
    refine wp_mono (sweep_spec _ items _) ?_
    rintro r h' ⟨htop, hrng, hun, hver, hsome⟩
    have hun' : ∀ id ∈ h'.blobs.unlinked, id ∈ s.host.blobs.unlinked ∨
        h'.top = s.host.top.sync true ∧ s.host.blobs.shown id ≠ none ∧
          isGarbage s.reader.manifest.blobIds id = true := by
      intro id hid
      rcases hun id hid with hid | hid
      · exact Or.inl hid
      · exact Or.inr ⟨htop, hid⟩
    have hver' : ∀ id, isGarbage s.reader.manifest.blobIds id = false →
        h'.blobs.versions id ⊆ s.host.blobs.versions id := by
      intro id hid
      rw [hver id hid]
      exact hsync id
    have hshown : ∀ id, isGarbage s.reader.manifest.blobIds id = false →
        h'.blobs.shown id = s.host.blobs.shown id := fun id hid => (List.cons.inj (hver id hid)).1
    have hpresent := fun id c hc => hsync id (hsome id c hc)
    cases r with
    | error e => exact ⟨hpend _, hrng, Or.inr htop, hun', hver', hpresent, hshown⟩
    | ok n => exact ⟨⟨[], rfl, List.nil_subset _⟩, hrng, Or.inr htop, hun', hver', hpresent, hshown⟩

/-! ### Commits do not read the blobs -/

/-- Another blobs directory under a session. -/
def Session.setBlobs (d : Dir Str Bytes) (s : Session P) : Session P := { s with host := s.host.setBlobs d }

private theorem modify_blind {σ τ : Type} {put : τ → σ → σ} {f : σ → σ} (f' : σ → σ) (g : σ → τ → τ)
    (hf : ∀ s t, f (put t s) = put (g s t) (f' s)) : Blind put AnyRun (modify f : Prog σ Error PUnit) :=
  .modify f' g (fun _ => trivial) hf

private theorem keep_blind {σ τ : Type} {put : τ → σ → σ} {f : σ → σ} (hf : ∀ s t, f (put t s) = put t (f s)) :
    Blind put AnyRun (modify f : Prog σ Error PUnit) :=
  modify_blind f (fun _ t => t) hf

private theorem sealAndWrite_blind (r : VaultReaderV2 P) (m : ManifestV2) (io : SealIo) :
    Blind Host.setBlobs AnyRun (r.sealAndWrite m io) := by
  unfold VaultReaderV2.sealAndWrite writeAtomic
  refine .bind (modify_blind id (fun _ d => d.sync io.blobsSync) fun _ _ => rfl) fun _ => .bind (.lift _) fun _ =>
    .bind (.lift _) fun _ => .bind ((draw_blind _).mono fun _ _ _ _ => trivial) fun _ => ?_
  split
  · exact .throw _
  · exact .bind (.bind (keep_blind fun _ _ => rfl) fun _ => .pure _) fun _ => .pure _

private theorem onHost_blind {α : Type} {p : HostM P α} (h : Blind Host.setBlobs AnyRun p) :
    Blind Session.setBlobs AnyRun (onHost p) :=
  h.zoom (fun _ _ => rfl) (fun _ _ _ _ => rfl) fun _ _ _ _ => trivial

private theorem unlinkAll_blind (names : Session P → List Str) (ok : Str → Bool) (reader : Session P → VaultReaderV2 P)
    (hn : ∀ d s, names (Session.setBlobs d s) = names s) (hr : ∀ d s, reader (Session.setBlobs d s) = reader s) :
    Blind Session.setBlobs AnyRun (modify fun s => ⟨reader s, { s.host with
      blobs := s.host.blobs.unlinkAll (names s) ok }⟩ : SessionM P PUnit) :=
  modify_blind (fun s => ⟨reader s, s.host⟩) (fun s d => d.unlinkAll (names s) ok) fun s d => by
    rw [hn, hr]
    rfl

private theorem concludeCommit_blind (edited : Result Unit) (b : VaultBatch P) (io : CommitIo) :
    Blind Session.setBlobs AnyRun (concludeCommit edited b io) := by
  unfold concludeCommit reclaim
  refine .get_bind (fun s => ?_) fun _ _ => rfl
  refine .bind (.attempt (.bind (.lift _) fun _ => ?_)) fun committed => ?_
  · split
    · exact .bind (onHost_blind (sealAndWrite_blind _ _ _)) fun _ => .pure _
    · exact .pure _
  · split
    · refine .bind (keep_blind fun _ _ => rfl) fun _ =>
        .bind (keep_blind fun _ _ => rfl) fun _ => ?_
      split
      · exact unlinkAll_blind (fun s => s.reader.pendingReclaim) _ (fun s => { s.reader with pendingReclaim := [] })
          (fun _ _ => rfl) fun _ _ => rfl
      · exact .pure _
    · exact .pure _
    · refine .bind (onHost_blind ?_) fun _ => .throw _
      exact modify_blind id (fun _ d => d.unlinkAll b.staged io.unlinkOk) fun _ _ => rfl

/-- A commit does not read the blobs: what it returns, writes and adopts is the same whatever blobs there are. -/
theorem commitWith_blind (limit : Option Nat) (edits : Edits) (io : CommitIo) :
    Blind Session.setBlobs AnyRun (commitWith (P := P) limit edits io) := by
  intro s
  obtain ⟨r, b, g, -, hrun⟩ := edits.run_blind (VaultBatch.new s.reader limit s.host)
  obtain ⟨r', s', g', -, hrun'⟩ := concludeCommit_blind r b io { s with host := b.host }
  refine ⟨r', s', g' ∘ g, trivial, fun d => ?_⟩
  unfold commitWith
  simp only [exec_bind, exec_get, exec_modify]
  have hnew : exec (edits.run P) (VaultBatch.new (s.setBlobs d).reader limit (s.setBlobs d).host) =
      (r, VaultBatch.setBlobs (g d) b) := hrun d
  rw [hnew]
  exact hrun' (g d)

end FileSec
