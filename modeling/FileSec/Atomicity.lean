import FileSec.CommitSpec
import FileSec.Symbolic

/-!
# A failed commit has no effect

When a commit fails, the reader and the manifest on disk are what they were, the blobs they refer to are intact, what
the batch has staged is gone or unreferenced, and from then on the vault behaves as if the batch had never been, but for
the random draws it made (`commitWith_error`).
-/

namespace FileSec

open CrashDir Prog

variable {P : Prims}

/-- The blobs that the reader refers to, or the manifest on disk as `identity` opens it. -/
def Session.live (s : Session P) (identity : Identity) : List Str :=
  s.reader.manifest.blobIds ++
    match openVault P s.host.top.shown identity with
    | .ok r => r.manifest.blobIds
    | .error _ => []

/-- The session after `k` draws. -/
def Session.skipDraws (k : Nat) (s : Session P) : Session P :=
  { s with host := { s.host with rng := fun i => s.host.rng (i + k) } }

/-- Commits one after the other, whatever becomes of each; the result lists what they returned. -/
def commitAll : List CommitCall → SessionM P (List (Result Unit))
  | [] => pure []
  | c :: cs => do
    let r ← attempt (commitWith c.limit c.edits c.io)
    let rs ← commitAll cs
    pure (r :: rs)

theorem commitAll_blind (cs : List CommitCall) : Blind Session.setBlobs AnyRun (commitAll (P := P) cs) := by
  induction cs with
  | nil => exact .pure _
  | cons c cs ih =>
    exact .bind (.attempt (commitWith_blind c.limit c.edits c.io)) fun r => .bind ih fun rs => .pure _

/-- The session of a failed commit, up to the blobs. -/
private theorem failed_session {s s' : Session P} {limit : Option Nat} {edits : Edits} {io : CommitIo} {e : Error}
    (h : exec (commitWith limit edits io) s = (.error e, s')) :
    ∃ k, s' = Session.setBlobs s'.host.blobs (s.skipDraws k) ∧
      (s.edited limit edits).2.staged ⊆ s.host.rng.drawn k ∧
      (∀ id ∈ (s.edited limit edits).2.staged, io.unlinkOk id = true → s'.host.blobs.shown id = none) ∧
      ∀ id ∉ s.host.rng.drawn k, s'.host.blobs.shown id = s.host.blobs.shown id := by
  have hout := of_wp (commitWith_outcome s limit edits io) h
  obtain ⟨k, hdrew, hstaged, -⟩ := edited_spec s limit edits
  generalize s.edited limit edits = p at hout hdrew hstaged
  obtain ⟨edited, b⟩ := p
  simp only at hout hdrew hstaged
  cases hout with
  | failed hhost =>
    rename_i h'
    have hh : ∃ j, h'.top = s.host.top ∧ h'.rng = (fun i => s.host.rng (i + (k + j))) ∧
        h'.blobs.shown = b.host.blobs.shown := by
      rcases hhost with rfl | ⟨j, rfl⟩
      · exact ⟨0, hdrew.top, by rw [hdrew.rng]; rfl, rfl⟩
      · refine ⟨j, hdrew.top, ?_, shown_sync _ _⟩
        rw [hdrew.rng]
        funext i
        show s.host.rng (i + j + k) = _
        rw [Nat.add_assoc, Nat.add_comm j]
    obtain ⟨j, htop, hrng, hshown⟩ := hh
    refine ⟨k + j, ?_, ?_, ?_, ?_⟩
    · simp only [Session.setBlobs, Host.setBlobs, Session.skipDraws, htop, hrng]
    · rw [drawn_add]
      exact List.subset_append_of_subset_left _ hstaged
    · intro id hid hok
      exact shown_unlinkAll_of_mem hid hok
    · intro id hid
      rw [drawn_add, List.mem_append, not_or] at hid
      have hnot : id ∉ b.staged := fun hmem => hid.1 (hstaged hmem)
      simp only [shown_unlinkAll_of_not_mem _ hnot, hshown]
      exact hdrew.blobs.shown hid.1

/-- A commit that fails leaves the reader and both files of the vault as they were, and every blob that the reader or
the manifest on disk refers to.  A blob it has staged is unlinked, if the machine can, and like any blob whose contents
have changed nothing refers to it.  Later commits go as they would have gone without the failed one. -/
theorem commitWith_error {s s' : Session P} {limit : Option Nat} {edits : Edits} {io : CommitIo} {e : Error}
    {identity : Identity} (fresh : s.host.rng.Fresh (· ∈ s.live identity))
    (h : exec (commitWith limit edits io) s = (.error e, s')) :
    s'.reader = s.reader ∧ s'.host.top = s.host.top ∧ s'.live identity = s.live identity ∧
      (∀ id ∈ s.live identity, s'.host.blobs.shown id = s.host.blobs.shown id) ∧
      (∀ id ∈ (s.edited limit edits).2.staged,
        (io.unlinkOk id = true → s'.host.blobs.shown id = none) ∧ id ∉ s'.live identity) ∧
      (∀ id, s'.host.blobs.shown id ≠ s.host.blobs.shown id → id ∉ s'.live identity) ∧
      ∃ k, ∀ later : List CommitCall,
        (exec (commitAll later) s').1 = (exec (commitAll later) (s.skipDraws k)).1 ∧
        (exec (commitAll later) s').2.reader = (exec (commitAll later) (s.skipDraws k)).2.reader ∧
        (exec (commitAll later) s').2.host.top = (exec (commitAll later) (s.skipDraws k)).2.host.top := by
  obtain ⟨k, hs', hdrawn, hgone, hsame⟩ := failed_session h
  have hreader : s'.reader = s.reader := by rw [hs']; rfl
  have htop : s'.host.top = s.host.top := by rw [hs']; rfl
  have hlive : s'.live identity = s.live identity := by simp only [Session.live, hreader, htop]
  have hkeep : ∀ id ∈ s.live identity, s'.host.blobs.shown id = s.host.blobs.shown id :=
    fun id hid => hsame id fun hd => fresh.not_drawn hd hid
  refine ⟨hreader, htop, hlive, hkeep, fun id hid => ⟨hgone id hid, ?_⟩, fun id hne hid => ?_, k, fun later => ?_⟩
  · rw [hlive]
    exact fresh.not_drawn (hdrawn hid)
  · exact hne (hkeep id (hlive ▸ hid))
  · obtain ⟨r, t, g, -, hrun⟩ := commitAll_blind later (s.skipDraws k)
    have h1 := hrun s'.host.blobs
    have h2 := hrun (s.skipDraws k).host.blobs
    have hself : Session.setBlobs (s.skipDraws k).host.blobs (s.skipDraws k) = s.skipDraws k := rfl
    rw [← hs'] at h1
    rw [hself] at h2
    rw [h1, h2]
    exact ⟨rfl, rfl, rfl⟩

/-- A batch that puts a file and then renames one that does not exist. -/
private def failing : Edits :=
  .ofList [.putBytes "a".toList [1, 2, 3] .fine none none, .rename "b".toList "c".toList]

set_option maxRecDepth 10000 in
theorem commitWith_error_rename :
    (exec (commitWith none failing .fine) Sym.session).1 = .error (.vault "not found: b".toList) ∧
      (exec (commitWith none failing .fine) Sym.session).2.reader = Sym.session.reader ∧
      ∀ id ∈ (Sym.session.edited none failing).2.staged,
        id ∉ Session.live (exec (commitWith none failing .fine) Sym.session).2 Sym.alice := by
  have herr : (exec (commitWith none failing .fine) Sym.session).1 = .error (.vault "not found: b".toList) := by
    decide
  have fresh : Sym.session.host.rng.Fresh (· ∈ Sym.session.live Sym.alice) :=
    Rng.fresh_of_finite 13 (fun i hi => if_neg (by omega)) (by decide) (by decide)
  have hrun : exec (commitWith none failing .fine) Sym.session =
      (.error (.vault "not found: b".toList), (exec (commitWith none failing .fine) Sym.session).2) := Prod.ext herr rfl
  have h := commitWith_error fresh hrun
  exact ⟨herr, h.1, fun id hid => (h.2.2.2.2.1 id hid).2⟩

end FileSec
