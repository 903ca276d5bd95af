import FileSec.Batch

/-!
# What operations leave alone

An operation of a batch never reads the blobs directory, draws from the generator, and writes or unlinks blobs only
under the ids it draws: `Edits.run_blind`.  So the outcome of a closure does not depend on the blobs that are there,
and every other blob stays as it is.  Nor does a batch lose or invent a reference: the blobs it refers to and those it
has superseded are blobs it referred to before, each once, and blobs it has drawn.
-/

namespace FileSec

open CrashDir Prog

variable {P : Prims}

/-- Another blobs directory. -/
def Host.setBlobs (d : Dir Str Bytes) (h : Host P) : Host P := { h with blobs := d }

/-- Another blobs directory under a batch. -/
def VaultBatch.setBlobs (d : Dir Str Bytes) (b : VaultBatch P) : VaultBatch P := { b with host := b.host.setBlobs d }

/-- A run on the machine made `k` draws and changed, by `g`, only blobs under ids these draws named. -/
structure Host.Draws (k : Nat) (h : Host P) (g : Dir Str Bytes → Dir Str Bytes) (h' : Host P) : Prop where
  top : h'.top = h.top
  rng : h'.rng = fun i => h.rng (i + k)
  blobs : ∀ d : Dir Str Bytes, d.Within (h.rng.drawn k) (g d)

/-- `Draws` for some number of draws. -/
def Host.Touches (h : Host P) (g : Dir Str Bytes → Dir Str Bytes) (h' : Host P) : Prop := ∃ k, h.Draws k g h'

theorem Host.Draws.trans {k k' : Nat} {h h' h'' : Host P} {g g' : Dir Str Bytes → Dir Str Bytes}
    (h₁ : h.Draws k g h') (h₂ : h'.Draws k' g' h'') : h.Draws (k' + k) (g' ∘ g) h'' := by
  refine ⟨h₂.top.trans h₁.top, ?_, fun d => ?_⟩
  · rw [h₂.rng, h₁.rng]
    funext i
    show h.rng (i + k' + k) = h.rng (i + (k' + k))
    rw [Nat.add_assoc]
  · rw [Nat.add_comm k', drawn_add, ← h₁.rng]
    exact (h₁.blobs d).trans (h₂.blobs (g d))

theorem Host.Draws.refl (h : Host P) : h.Draws 0 id h := ⟨rfl, rfl, fun d => .refl d⟩

instance : Composes (Host.Touches (P := P)) where
  refl h := ⟨0, .refl h⟩
  trans := by
    rintro h h' h'' g g' ⟨k, hk⟩ ⟨k', hk'⟩
    exact ⟨k' + k, hk.trans hk'⟩

/-- The blobs a batch knows of: those its entries refer to and those it has superseded. -/
def VaultBatch.ids (b : VaultBatch P) : List Str := b.manifest.blobIds ++ b.superseded

/-- The run had nothing to do with the machine, the reader or the staged blobs. -/
structure VaultBatch.Quiet (b : VaultBatch P) (g : Dir Str Bytes → Dir Str Bytes) (b' : VaultBatch P) : Prop where
  blobs : g = id
  host : b'.host = b.host
  reader : b'.reader = b.reader
  staged : b'.staged = b.staged
  ids : b'.ids.Subperm b.ids

instance : Composes (VaultBatch.Quiet (P := P)) where
  refl b := ⟨rfl, rfl, rfl, rfl, List.Subperm.refl _⟩
  trans h h' := ⟨by rw [h'.blobs, h.blobs]; rfl, h'.host.trans h.host, h'.reader.trans h.reader,
    h'.staged.trans h.staged, h'.ids.trans h.ids⟩

/-- The run touched only the machine, as in `Draws`, and staged and referred to only blobs whose ids it drew; it refers
to no blob that it has unlinked, and those new to it are there. -/
structure VaultBatch.Traces (b : VaultBatch P) (g : Dir Str Bytes → Dir Str Bytes) (b' : VaultBatch P) : Prop where
  reader : b'.reader = b.reader
  host : ∃ k, b.host.Draws k g b'.host ∧
    (∀ id ∈ b'.staged, id ∈ b.staged ∨ id ∈ b.host.rng.drawn k) ∧
    b'.ids.Subperm (b.ids ++ b.host.rng.drawn k) ∧
    ∀ d : Dir Str Bytes, (b'.ids ++ (g d).unlinked).Subperm (b.ids ++ d.unlinked ++ b.host.rng.drawn k) ∧
      ∀ id ∈ b'.ids, id ∈ b.ids ∨ (g d).shown id ≠ none ∨ id ∈ (g d).unlinked

private theorem subperm_append_right {l l' : List Str} (t : List Str) (h : l.Subperm l') : (l ++ t).Subperm (l' ++ t) :=
  h.append (List.Subperm.refl t)

instance : Composes (VaultBatch.Traces (P := P)) where
  refl b := ⟨rfl, 0, .refl _, fun _ hid => Or.inl hid, (List.sublist_append_left _ _).subperm,
    fun d => ⟨(List.sublist_append_left _ _).subperm, fun _ hid => Or.inl hid⟩⟩
  trans := by
    rintro b b' b'' g g' ⟨hr, k, hd, hs, hi, hu⟩ ⟨hr', k', hd', hs', hi', hu'⟩
    have hdrawn : b.host.rng.drawn (k' + k) = b.host.rng.drawn k ++ b'.host.rng.drawn k' := by
      rw [Nat.add_comm, drawn_add, hd.rng]
    refine ⟨hr'.trans hr, k' + k, hd.trans hd', ?_, ?_, fun d => ⟨?_, ?_⟩⟩
    · intro id hid
      rw [hdrawn, List.mem_append]
      rcases hs' id hid with hid | hid
      · rcases hs id hid with hid | hid
        · exact Or.inl hid
        · exact Or.inr (Or.inl hid)
      · exact Or.inr (Or.inr hid)
    · rw [hdrawn, ← List.append_assoc]
      exact hi'.trans (subperm_append_right _ hi)
    · rw [hdrawn, ← List.append_assoc]
      exact (hu' (g d)).1.trans (subperm_append_right _ (hu d).1)
    · intro id hid
      rcases (hu' (g d)).2 id hid with hid | hid
      · rcases (hu d).2 id hid with hid | hid | hid
        · exact Or.inl hid
        · exact Or.inr ((hd'.blobs (g d)).gone id hid)
        · exact Or.inr (Or.inr ((hd'.blobs (g d)).mono hid))
      · exact Or.inr hid

theorem VaultBatch.Quiet.traces {b b' : VaultBatch P} {g : Dir Str Bytes → Dir Str Bytes} (h : b.Quiet g b') :
    b.Traces g b' := by
  obtain ⟨rfl, hhost, hreader, hstaged, hids⟩ := h
  refine ⟨hreader, 0, ?_, fun id hid => Or.inl (hstaged ▸ hid), ?_, fun d => ⟨?_, fun id hid => ?_⟩⟩
  · rw [hhost]
    exact .refl _
  · exact hids.trans (List.sublist_append_left _ _).subperm
  · exact (subperm_append_right _ hids).trans (List.sublist_append_left _ _).subperm
  · exact Or.inl (hids.subset hid)

/-- Programs on the machine that do not read the blobs. -/
abbrev HostBlind {α : Type} (p : HostM P α) : Prop := Blind Host.setBlobs Host.Touches p

/-- Programs on a batch that leave the machine alone. -/
abbrev QuietBlind {α : Type} (p : BatchM P α) : Prop := Blind VaultBatch.setBlobs VaultBatch.Quiet p

/-- Programs on a batch that do not read the blobs. -/
abbrev BatchBlind {α : Type} (p : BatchM P α) : Prop := Blind VaultBatch.setBlobs VaultBatch.Traces p

theorem QuietBlind.batchBlind {α : Type} {p : BatchM P α} (h : QuietBlind p) : BatchBlind p :=
  h.mono fun _ _ _ hq => hq.traces

/-! ### The machine -/

theorem draw_blind (n : Nat) : HostBlind (draw P n) := by
  intro h
  refine ⟨randomVec n (h.rng 0), { h with rng := fun i => h.rng (i + 1) }, id, ⟨1, rfl, rfl, fun d => (Dir.Within.refl d).weaken (List.nil_sublist _)⟩, ?_⟩
  intro d
  rw [exec_draw]
  rfl

private theorem draws_id (k : Nat) (h : Host P) : h.Draws k id { h with rng := fun i => h.rng (i + k) } :=
  ⟨rfl, rfl, fun d => (Dir.Within.refl d).weaken (List.nil_sublist _)⟩

private theorem draws_blob {h : Host P} {id : Str} (hid : h.rng.blobId 0 = some id) {g : Dir Str Bytes → Dir Str Bytes}
    (hg : ∀ d : Dir Str Bytes, d.Within [id] (g d)) : h.Draws 3 g { h with rng := fun i => h.rng (i + 3) } :=
  ⟨rfl, rfl, fun d => (hg d).weaken (List.singleton_sublist.2 (mem_drawn.2 ⟨0, by omega, hid⟩))⟩

/-- `write_blob` writes, and perhaps unlinks again, one blob under the id it draws first. -/
private theorem writeBlob_blind (r : VaultReaderV2 P) (blake3 : Bytes) (size : Nat) (source : Result Bytes)
    (io : BlobIo) (h : Host P) : ∃ res h' g, (∃ k, h.Draws k g h' ∧
        ∀ blob, res = .ok blob → blob.fileId ∈ h.rng.drawn k ∧
          ∀ d, (g d).unlinked = d.unlinked ∧ (g d).shown blob.fileId ≠ none) ∧
      ∀ d, exec (r.writeBlob blake3 size source io) (h.setBlobs d) = (res, Host.setBlobs (g d) h') := by
  unfold VaultReaderV2.writeBlob encryptBlob
  simp only [exec_bind, exec_draw, Host.setBlobs]
  cases hid : randomVec 16 (h.rng 0) with
  | error e => exact ⟨.error e, _, id, ⟨1, draws_id 1 h, by simp⟩, fun d => rfl⟩
  | ok id =>
    have hblob := blobId_of_randomVec hid
    cases hkey : randomVec 32 (h.rng (0 + 1)) with
    | error e =>
      simp only [hkey]
      exact ⟨.error e, _, _, ⟨2, draws_id 2 h, by simp⟩, fun d => rfl⟩
    | ok key =>
      simp only [hkey]
      cases hnonce : randomVec r.suite.aeadAlg.streamNonceLen (h.rng (0 + 1 + 1)) with
      | error e => exact ⟨.error e, _, _, ⟨3, draws_id 3 h, by simp⟩, fun d => rfl⟩
      | ok nonce =>
        cases hf : io.fault with
        | some e => exact ⟨.error e, _, _, ⟨3, draws_id 3 h, by simp⟩, fun d => rfl⟩
        | none =>
          simp only [exec_bind, exec_liftM]
          cases source with
          | error e => exact ⟨.error e, _, _, ⟨3, draws_id 3 h, by simp⟩, fun d => rfl⟩
          | ok bytes =>
            cases hc : encryptStreamWith P r.suite.aeadAlg key nonce r.headerBytes bytes defaultChunkSize with
            | error e =>
              simp only [hc]
              exact ⟨.error e, _, _, ⟨3, draws_id 3 h, by simp⟩, fun d => rfl⟩
            | ok ciphertext =>
              simp only [hc, exec_modify, exec_pure]
              by_cases hok : bytes.length ≠ size ∨ P.hashContent bytes ≠ blake3
              · simp only [if_pos hok]
                cases hu : io.unlinkOk with
                | true => exact ⟨.error .auth, _, _, ⟨3, draws_blob hblob (within_write_unlink · _ _), by simp⟩, fun d => rfl⟩
                | false => exact ⟨.error .auth, _, _, ⟨3, draws_blob hblob (within_write · _ _), by simp⟩, fun d => rfl⟩
              · simp only [if_neg hok]
                refine ⟨.ok ⟨hex id, key, nonce⟩, _, _, ⟨3, draws_blob hblob (within_write · _ _), ?_⟩, fun d => rfl⟩
                rintro blob ⟨⟩
                exact ⟨mem_drawn.2 ⟨0, by omega, hblob⟩, fun d => ⟨rfl, by simp⟩⟩

/-! ### The parts of the operations -/

section Quiet

variable {b : VaultBatch P}

/-- Changing only fields of the batch that have nothing to do with the machine. -/
private theorem quiet_modify_at {f : VaultBatch P → VaultBatch P} (h : ∀ d, f (b.setBlobs d) = (f b).setBlobs d)
    (hhost : (f b).host = b.host) (hreader : (f b).reader = b.reader) (hstaged : (f b).staged = b.staged)
    (hids : (f b).ids.Subperm b.ids) :
    BlindAt VaultBatch.setBlobs VaultBatch.Quiet (modify f : BatchM P PUnit) b :=
  .modify (f b) id ⟨rfl, hhost, hreader, hstaged, hids⟩ h

private theorem quiet_modify {f : VaultBatch P → VaultBatch P} (h : ∀ b d, f (b.setBlobs d) = (f b).setBlobs d)
    (hhost : ∀ b, (f b).host = b.host) (hreader : ∀ b, (f b).reader = b.reader)
    (hstaged : ∀ b, (f b).staged = b.staged) (hids : ∀ b, (f b).ids.Subperm b.ids) :
    QuietBlind (modify f : BatchM P PUnit) :=
  fun b => quiet_modify_at (h b) (hhost b) (hreader b) (hstaged b) (hids b)

/-- Adding a directory adds no reference. -/
private theorem ids_push_dir (b : VaultBatch P) (p : Str) : (b.push (dirEntry p)).ids = b.ids := by
  simp [VaultBatch.ids, VaultBatch.push, ManifestV2.blobIds, dirEntry, dirAttrs]

private theorem countOp_blind : QuietBlind (countOp (P := P)) := by
  unfold countOp
  refine .bind (quiet_modify (fun _ _ => rfl) (fun _ => rfl) (fun _ => rfl) (fun _ => rfl) fun _ => .refl _) fun _ => ?_
  refine .get_bind (fun b => ?_) fun _ _ => rfl
  split
  · split
    · exact .throw _
    · exact .pure _
  · exact .pure _

private theorem push_dir_blind (p : Str) : QuietBlind (modify fun b => b.push (dirEntry p) : BatchM P PUnit) :=
  quiet_modify (fun _ _ => rfl) (fun _ => rfl) (fun _ => rfl) (fun _ => rfl) fun b => (ids_push_dir b p) ▸ .refl _

private theorem ensureDirsFrom_blind (acc : Str) (comps : List Str) : QuietBlind (ensureDirsFrom (P := P) acc comps) := by
  induction comps generalizing acc with
  | nil => exact .pure _
  | cons c comps ih =>
    unfold ensureDirsFrom
    refine .get_bind (fun b => ?_) fun _ _ => rfl
    split
    · exact ih _
    · exact .throw _
    · exact .bind (push_dir_blind _) fun _ => ih _

private theorem ensureDirs_blind (p : Str) : QuietBlind (ensureDirs (P := P) p) := ensureDirsFrom_blind _ _

private theorem rejectDir_blind (p : Str) : QuietBlind (rejectDir (P := P) p) := by
  unfold rejectDir
  refine .get_bind (fun b => ?_) fun _ _ => rfl
  split
  · exact .throw _
  · exact .pure _

private theorem insertDir_blind (p : Str) : QuietBlind (insertDir (P := P) p) := by
  unfold insertDir
  exact .bind (ensureDirs_blind p) fun _ => quiet_modify (fun _ _ => rfl) (fun _ => rfl) (fun _ => rfl) (fun _ => rfl)
    fun b => List.Perm.subperm (.of_eq (ids_push_dir b p))

/-- Removing entries moves their blobs to the superseded ones. -/
private theorem ids_remove (b : VaultBatch P) (gone : EntryV2 → Prop) [DecidablePred gone] :
    ((b.manifest.entries.filter fun e => ¬ gone e).filterMap (·.fileId) ++
      (b.superseded ++ (b.manifest.entries.filter fun e => gone e).filterMap (·.fileId))).Subperm b.ids := by
  have h := (List.filter_append_perm (fun e => decide (gone e)) b.manifest.entries).symm.filterMap (·.fileId)
  rw [List.filterMap_append] at h
  refine (List.perm_iff_count.2 fun id => ?_).subperm
  have hc := h.count_eq id
  simp only [VaultBatch.ids, ManifestV2.blobIds, List.count_append, decide_not] at hc ⊢
  omega

/-- Renaming entries keeps their blobs. -/
private theorem ids_rename (b : VaultBatch P) (f : Str → Str) :
    (b.manifest.entries.map fun e => { e with path := f e.path }).filterMap (·.fileId) = b.manifest.blobIds := by
  rw [List.filterMap_map]
  rfl

/-- Setting attributes keeps the blobs. -/
private theorem ids_setAttr (b : VaultBatch P) (i : Nat) (mtime : Option Int) (mode : Option Nat) :
    (b.manifest.entries.modify i fun e => { e with mtime := mtime, mode := mode }).filterMap (·.fileId) =
      b.manifest.blobIds := by
  have hmap : ∀ l : List EntryV2, l.filterMap (·.fileId) = (l.map (·.fileId)).filterMap id := fun l => by
    rw [List.filterMap_map]
    rfl
  have hmod : (b.manifest.entries.modify i fun e => { e with mtime := mtime, mode := mode }).map (·.fileId) =
      b.manifest.entries.map (·.fileId) := Keyed.map_key_modify _ i fun _ => rfl
  rw [ManifestV2.blobIds, hmap, hmap, hmod]

end Quiet

/-- Replacing an entry trades its blob for the new one. -/
private theorem ids_set (es : List EntryV2) (i : Nat) (e : EntryV2) (sup : List Str) :
    ((es.set i e).filterMap (·.fileId) ++ (sup ++ (es[i]?.bind (·.fileId)).toList)).Subperm
      (es.filterMap (·.fileId) ++ sup ++ e.fileId.toList) := by
  rcases Nat.lt_or_ge i es.length with hi | hi
  · have hold : (es.filterMap (·.fileId)).Perm (es[i].fileId.toList ++ (es.eraseIdx i).filterMap (·.fileId)) := by
      have := (List.getElem_cons_eraseIdx_perm hi).symm.filterMap (·.fileId)
      cases hf : es[i].fileId <;> simpa [hf] using this
    have hnew : ((es.set i e).filterMap (·.fileId)).Perm (e.fileId.toList ++ (es.eraseIdx i).filterMap (·.fileId)) := by
      have := (List.set_perm_cons_eraseIdx hi e).filterMap (·.fileId)
      cases hf : e.fileId <;> simpa [hf] using this
    rw [List.getElem?_eq_getElem hi, Option.bind_some]
    refine ((hnew.append_right _).trans (List.Perm.trans ?_ ((hold.append_right _).append_right _).symm)).subperm
    exact List.perm_iff_count.2 fun id => by simp only [List.count_append]; omega
  · rw [List.getElem?_eq_none hi, List.set_eq_of_length_le hi]
    simp only [Option.bind_none, Option.toList_none, List.append_nil]
    exact (List.sublist_append_left _ _).subperm

/-- `place` looks at the entries of the batch and not at its blobs. -/
private theorem place_run (p : Str) (blob : StagedBlob) (blake3 : Bytes) (size : Nat) (mtime : Option Int)
    (mode : Option Nat) (b : VaultBatch P) (d : Dir Str Bytes) :
    exec (place p blob blake3 size mtime mode) (b.setBlobs d) =
      exec (do
        match b.index p with
        | some i =>
          modify fun b => { b with
            manifest := { b.manifest with
              entries := b.manifest.entries.set i { fileAttrs blob blake3 size mtime mode with path := p } }
            superseded := b.superseded ++ (b.manifest.entries[i]?.bind (·.fileId)).toList }
        | none => do
          ensureDirs p
          modify fun b => b.push { fileAttrs blob blake3 size mtime mode with path := p }
        modify fun b => { b with changed := true })
      (VaultBatch.setBlobs d { b with staged := b.staged ++ [blob.fileId] }) := rfl

/-- `place` stages the blob it is given, refers to it, and does nothing else to the machine. -/
private theorem place_blind (p : Str) (blob : StagedBlob) (blake3 : Bytes) (size : Nat) (mtime : Option Int)
    (mode : Option Nat) (b : VaultBatch P) : ∃ r b', (b'.host = b.host ∧ b'.reader = b.reader ∧
        b'.staged = b.staged ++ [blob.fileId] ∧ b'.ids.Subperm (b.ids ++ [blob.fileId])) ∧
      ∀ d, exec (place p blob blake3 size mtime mode) (b.setBlobs d) = (r, VaultBatch.setBlobs d b') := by
  have hrun := place_run p blob blake3 size mtime mode b
  cases hi : b.index p with
  | some i =>
    refine ⟨.ok (), { b with
        staged := b.staged ++ [blob.fileId]
        manifest := { b.manifest with
          entries := b.manifest.entries.set i { fileAttrs blob blake3 size mtime mode with path := p } }
        superseded := b.superseded ++ (b.manifest.entries[i]?.bind (·.fileId)).toList
        changed := true }, ⟨rfl, rfl, rfl, ?_⟩, fun d => ?_⟩
    · exact ids_set b.manifest.entries i _ b.superseded
    · rw [hrun, hi]
      rfl
  | none =>
    obtain ⟨r, b', g, ⟨rfl, hhost, hreader, hstaged, hids⟩, he⟩ :=
      ensureDirs_blind p { b with staged := b.staged ++ [blob.fileId] }
    cases r with
    | error e =>
      refine ⟨.error e, b', ⟨hhost, hreader, hstaged, hids.trans (List.sublist_append_left _ _).subperm⟩, fun d => ?_⟩
      rw [hrun, hi]
      simp only [exec_bind, he]
      rfl
    | ok u =>
      refine ⟨.ok (), { b'.push { fileAttrs blob blake3 size mtime mode with path := p } with changed := true },
        ⟨hhost, hreader, hstaged, ?_⟩, fun d => ?_⟩
      · have hpush : (b'.manifest.blobIds ++ [blob.fileId] ++ b'.superseded).Subperm (b.ids ++ [blob.fileId]) := by
          refine List.Subperm.trans ?_ (hids.append (List.Subperm.refl [blob.fileId]))
          exact (List.perm_iff_count.2 fun id => by
            simp only [VaultBatch.ids, List.count_append]; omega).subperm
        simpa [VaultBatch.ids, VaultBatch.push, ManifestV2.blobIds, fileAttrs] using hpush
      · rw [hrun, hi]
        simp only [exec_bind, he]
        rfl

/-- Writing a blob and placing it. -/
private theorem writeAndPlace_blind (p : Str) (blake3 : Bytes) (size : Nat) (source : Result Bytes) (io : BlobIo)
    (mtime : Option Int) (mode : Option Nat) : BatchBlind (P := P) (do
      let blob ← VaultBatch.writeBlob blake3 size source io
      place p blob blake3 size mtime mode) := by
  intro b
  obtain ⟨res, h', g, ⟨k, hdraws, hres⟩, hrun⟩ := writeBlob_blind b.reader blake3 size source io b.host
  have hzoom : ∀ d, exec (VaultBatch.writeBlob blake3 size source io) (b.setBlobs d) =
      (res, VaultBatch.setBlobs (g d) { b with host := h' }) := by
    intro d
    unfold VaultBatch.writeBlob
    rw [exec_bind, exec_get]
    show exec (zoom _ _ _) _ = _
    rw [exec_zoom]
    show ((exec (b.reader.writeBlob blake3 size source io) (b.host.setBlobs d)).1, _) = _
    rw [hrun d]
    show (res, { b.setBlobs d with host := (exec (b.reader.writeBlob blake3 size source io) (b.host.setBlobs d)).2 }) = _
    rw [hrun d]
    rfl
  cases res with
  | error e =>
    refine ⟨.error e, { b with host := h' }, g, ⟨rfl, k, hdraws, fun _ hid => Or.inl hid,
      (List.sublist_append_left _ _).subperm, fun d => ⟨?_, fun _ hid => Or.inl hid⟩⟩, fun d => ?_⟩
    · rw [List.append_assoc]
      exact (List.Subperm.refl _).append (hdraws.blobs d).unlinked
    · rw [exec_bind, hzoom]
  | ok blob =>
    obtain ⟨hid, hblob⟩ := hres blob rfl
    have hsub : [blob.fileId].Subperm (b.host.rng.drawn k) := (List.singleton_sublist.2 hid).subperm
    obtain ⟨r, b', ⟨hhost, hreader, hstaged, hids⟩, hrun'⟩ :=
      place_blind p blob blake3 size mtime mode { b with host := h' }
    have hids' : b'.ids.Subperm (b.ids ++ [blob.fileId]) := hids
    refine ⟨r, b', g, ⟨hreader, k, hhost ▸ hdraws, fun id hmem => ?_, ?_, fun d => ⟨?_, fun id hmem => ?_⟩⟩, fun d => ?_⟩
    · rw [hstaged] at hmem
      rcases List.mem_append.1 hmem with hmem | hmem
      · exact Or.inl hmem
      · rw [List.mem_singleton] at hmem
        exact Or.inr (hmem ▸ hid)
    · exact hids'.trans ((List.Subperm.refl _).append hsub)
    · rw [(hblob d).1]
      refine (subperm_append_right _ (hids'.trans ((List.Subperm.refl _).append hsub))).trans ?_
      exact (List.perm_iff_count.2 fun x => by simp only [List.count_append]; omega).subperm
    · rcases List.mem_append.1 (hids'.subset hmem) with hmem | hmem
      · exact Or.inl hmem
      · rw [List.mem_singleton] at hmem
        exact Or.inr (Or.inl (hmem ▸ (hblob d).2))
    · rw [exec_bind, hzoom]
      exact hrun' (g d)

/-! ### The operations -/

/-- Counting the operation and normalising its path come first. -/
private theorem counted_blind {T : VaultBatch P → (Dir Str Bytes → Dir Str Bytes) → VaultBatch P → Prop} [Composes T]
    (hT : ∀ b g b', VaultBatch.Quiet b g b' → T b g b') {α : Type} {x : Result α} {rest : α → BatchM P Unit}
    (h : ∀ a, Blind VaultBatch.setBlobs T (rest a)) : Blind VaultBatch.setBlobs T (do
      countOp
      let a ← x
      rest a) :=
  .bind (countOp_blind.mono hT) fun _ => .bind (.lift x) h

/-- The operations that put a file. -/
def Op.isPut : Op → Bool
  | .putFile .. | .putBytes .. | .putStreamTrusted .. => true
  | _ => false

/-- An operation that puts no file has nothing to do with the machine. -/
theorem Op.run_quiet {op : Op} (h : op.isPut = false) : QuietBlind (op.run P) := by
  have hq : ∀ b g b', VaultBatch.Quiet (P := P) b g b' → VaultBatch.Quiet b g b' := fun _ _ _ h => h
  cases op with
  | putFile | putBytes | putStreamTrusted => simp [Op.isPut] at h
  | mkdir vaultPath =>
    refine counted_blind hq fun p => .get_bind (fun b => ?_) fun _ _ => rfl
    split
    · exact .pure _
    · exact .throw _
    · exact insertDir_blind _
  | addDirTrusted path =>
    refine .bind (.lift _) fun p => .get_bind (fun b => ?_) fun _ _ => rfl
    split
    · exact .pure _
    · exact .throw _
    · exact insertDir_blind _
  | remove vaultPath =>
    refine counted_blind hq fun p => .get_bind_at (fun b => ?_) fun _ _ => rfl
    dsimp only
    split
    · exact quiet_modify_at (fun _ => rfl) rfl rfl rfl (ids_remove b fun e => e.path = p ∨ p ++ ['/'] <+: e.path)
    · exact Blind.pure () b
  | rename vaultFrom vaultTo =>
    refine counted_blind hq fun p => .bind (.lift _) fun q => ?_
    split
    · exact .pure _
    · split
      · exact .throw _
      · refine .get_bind (fun b => ?_) fun _ _ => rfl
        split
        · exact .throw _
        · split
          · exact .throw _
          · refine .bind (ensureDirs_blind q) fun _ =>
              quiet_modify (fun _ _ => rfl) (fun _ => rfl) (fun _ => rfl) (fun _ => rfl) fun b => ?_
            exact List.Perm.subperm (.of_eq (congrArg (· ++ b.superseded) (ids_rename b _)))
  | setAttr vaultPath mtime mode =>
    refine counted_blind hq fun p => .get_bind (fun b => ?_) fun _ _ => rfl
    split
    · exact .throw _
    · refine quiet_modify (fun _ _ => rfl) (fun _ => rfl) (fun _ => rfl) (fun _ => rfl) fun b => ?_
      exact List.Perm.subperm (.of_eq (congrArg (· ++ b.superseded) (ids_setAttr b _ _ _)))

/-- No operation reads the blobs, and each touches only blobs whose ids it draws. -/
theorem Op.run_blind (op : Op) : BatchBlind (op.run P) := by
  by_cases h : op.isPut = false
  · exact (Op.run_quiet h).batchBlind
  · have hq : ∀ b g b', VaultBatch.Quiet (P := P) b g b' → b.Traces g b' := fun _ _ _ h => h.traces
    cases op with
    | putFile vaultPath hashed source io mtime mode =>
      refine counted_blind hq fun p => .bind (rejectDir_blind p).batchBlind fun _ => ?_
      exact .bind (.lift _) fun first => .bind (.lift _) fun stream => writeAndPlace_blind _ _ _ _ _ _ _
    | putBytes vaultPath bytes io mtime mode =>
      refine counted_blind hq fun p => .bind (rejectDir_blind p).batchBlind fun _ => ?_
      exact writeAndPlace_blind _ _ _ _ _ _ _
    | putStreamTrusted path blake3 size source io mtime mode =>
      refine .bind (.lift _) fun p => .bind (rejectDir_blind p).batchBlind fun _ => ?_
      exact writeAndPlace_blind _ _ _ _ _ _ _
    | mkdir | addDirTrusted | remove | rename | setAttr => simp [Op.isPut] at h

/-! ### Closures -/

/-- A closure that, whatever happens, calls only operations that satisfy `ok`. -/
inductive Edits.Only (ok : Op → Prop) : Edits → Prop
  | done (r : Result Unit) : Edits.Only ok (.done r)
  | call {op : Op} {next : Result Unit → Edits} (h : ok op) (hnext : ∀ r, Edits.Only ok (next r)) :
      Edits.Only ok (.call op next)

theorem Edits.run_blind (edits : Edits) : BatchBlind (edits.run P) := by
  induction edits with
  | done r => exact .lift r
  | call op next ih => exact .bind (.attempt op.run_blind) ih

theorem Edits.run_quiet {edits : Edits} (h : edits.Only fun op => op.isPut = false) : QuietBlind (edits.run P) := by
  induction h with
  | done r => exact .lift r
  | call hop _ ih => exact .bind (.attempt (Op.run_quiet hop)) ih

end FileSec
