import FileSec.Growth
import FileSec.Store.Opened

/-!
# Adding to a vault of a store

What `commitWith_grown` says of one commit, carried through the transactions of the store: the loop of
`mutate_vault_in_batches` and `mutate_vault`, and opening the vault again.
-/

namespace FileSec

open CrashDir Folders Prog

variable {S : StorePrims} {base writer : VaultReaderV2 S.toPrims} {blobs : Str → Option Bytes} {identity : Identity}
  {id name : Str} {done : List (Str × Bytes)} {s s' : Store S}

/-- The vault in the directory `name` and its reader have grown from the reader `base` with the blobs `blobs`. -/
structure Store.Grown (s : Store S) (name id : Str) (base : VaultReaderV2 S.toPrims) (blobs : Str → Option Bytes)
    (identity : Identity) (done : List (Str × Bytes)) (writer : VaultReaderV2 S.toPrims) : Prop where
  isDir : s.isDir name = true
  coherent : writer.Coherent identity id
  grown : base.Grown blobs identity done writer (s.host name)

/-- Nothing happens to the vault while its directory stays as it is. -/
theorem Store.Grown.ahead (h : s.Grown name id base blobs identity done writer)
    (hget : s'.vaults.get name = s.vaults.get name) (hrng : s.rng.Ahead s'.rng) :
    s'.Grown name id base blobs identity done writer := by
  obtain ⟨d, hd⟩ := Store.isDir_iff.1 h.isDir
  have hd' := hget.trans hd
  have hhost : s.host name = ⟨d.top, d.blobs, s.rng⟩ := by
    unfold Store.host
    rw [hd]
  have hhost' : s'.host name = ⟨d.top, d.blobs, s'.rng⟩ := by
    unfold Store.host
    rw [hd']
  have hg := h.grown
  rw [hhost] at hg
  refine ⟨Store.isDir_iff.2 ⟨d, hd'⟩, h.coherent, ?_⟩
  rw [hhost']
  exact { hg with fresh := hg.fresh.ahead hrng }

/-- Nothing happens to the vault in transactions on other files. -/
theorem Store.Grown.within {R V : Str → Prop} {A : StateObjectType → Str → Prop}
    (h : s.Grown name id base blobs identity done writer) (hw : s.Within R V A s') (hV : ¬ V name) :
    s'.Grown name id base blobs identity done writer := h.ahead (hw.vaults.get name hV) hw.rng

/-! ### Mutating -/

section Mutate

variable {ops : List Op}

private theorem flatten_toChunksGo {α : Type} (n : Nat) (l : List α) (acc : Array α) (done : Array (List α)) :
    (List.toChunks.go n l acc done).flatten = done.toList.flatten ++ acc.toList ++ l := by
  induction l generalizing acc done with
  | nil => simp [List.toChunks.go]
  | cons a l ih =>
    unfold List.toChunks.go
    split <;> simp [ih]

private theorem flatten_toChunks {α : Type} (n : Nat) (l : List α) : (l.toChunks n).flatten = l := by
  unfold List.toChunks
  split
  · rfl
  · simp
  · simp [flatten_toChunksGo]

/-- A successful commit of operations that add under distinct free paths lets the vault grow. -/
theorem commitIn_grown (hs : s.Grown name id base blobs identity done writer) (hops : ∀ op ∈ ops, op.Additive)
    (hnd : ((ops.filterMap Op.adds).map Prod.fst).Nodup)
    (hnew : ∀ d ∈ ops.filterMap Op.adds, d.1 ∉ pathsOf base.manifest.entries ∧ d.1 ∉ done.map Prod.fst)
    (limit : Option Nat) (io : CommitIo) :
    wp (commitIn name writer ⟨limit, .ofList ops, io⟩) (fun res s' => ∀ w, res = .ok w →
      (∀ op ∈ ops, op.dest = op.adds.map Prod.fst) ∧
        s'.Grown name id base blobs identity (done ++ ops.filterMap Op.adds) w) s := by
  unfold commitIn
  simp only [wp_bind, wp_get, if_pos hs.isDir, wp_inVault]
  refine wp_mono (wp_and (commitWith_grown hs.grown hops hnd hnew limit io)
    (VaultReaderV2.Coherent.commitWith (s := ⟨writer, s.host name⟩) hs.coherent _ _ _)) ?_
  rintro res t ⟨hgrown, hcoh⟩
  simp only [wp_liftM]
  cases res with
  | error e => rintro _ ⟨⟩
  | ok u =>
    rintro w ⟨⟩
    obtain ⟨hreads, hg⟩ := hgrown rfl
    refine ⟨hreads, isDir_setHost hs.isDir _, hcoh, ?_⟩
    show base.Grown blobs identity _ t.reader ((s.setHost name t.host).host name)
    rw [host_setHost hs.isDir]
    exact hg

/-- Recording the state of the reader touches no vault. -/
theorem commitVaultReader_grown (hs : s.Grown name id base blobs identity done writer) :
    wp (commitVaultReader writer) (fun _ s' => s'.Grown name id base blobs identity done writer) s :=
  wp_mono (commitVaultReader_within (R := fun _ => False) (V := fun _ => False) (A := fun _ _ => True) hs.coherent trivial s)
    fun _ _ hw => hs.within hw not_false

/-- The same for the loop over chunks. -/
theorem commitChunks_grown (hs : s.Grown name id base blobs identity done writer) {chunks : List (List Op × CommitIo)}
    (hops : ∀ op ∈ chunks.flatMap Prod.fst, op.Additive)
    (hnd : (((chunks.flatMap Prod.fst).filterMap Op.adds).map Prod.fst).Nodup)
    (hnew : ∀ d ∈ (chunks.flatMap Prod.fst).filterMap Op.adds,
      d.1 ∉ pathsOf base.manifest.entries ∧ d.1 ∉ done.map Prod.fst) :
    wp (commitChunks name writer chunks) (fun res s' => res = .ok () →
      (∀ op ∈ chunks.flatMap Prod.fst, op.dest = op.adds.map Prod.fst) ∧ ∃ w,
        s'.Grown name id base blobs identity (done ++ (chunks.flatMap Prod.fst).filterMap Op.adds) w) s := by
  induction chunks generalizing s writer done with
  | nil =>
    simp only [commitChunks, wp_pure, List.flatMap_nil, List.filterMap_nil, List.append_nil]
    exact fun _ => ⟨List.forall_mem_nil _, writer, hs⟩
  | cons chunk chunks ih =>
    obtain ⟨ops, io⟩ := chunk
    simp only [List.flatMap_cons, List.filterMap_append, List.map_append, List.nodup_append] at hops hnd hnew ⊢
    obtain ⟨hnd, hnd', hapart⟩ := hnd
    simp only [commitChunks, wp_bind]
    refine wp_mono (commitIn_grown hs (fun op hop => hops op (List.mem_append_left _ hop)) hnd
      (fun d hd => hnew d (List.mem_append_left _ hd)) _ io) ?_
    intro res s₁ h₁
    cases res with
    | error e => rintro ⟨⟩
    | ok w =>
      obtain ⟨hreads, hs₁⟩ := h₁ w rfl
      refine wp_mono (commitVaultReader_grown hs₁) ?_
      intro res s₂ hs₂
      cases res with
      | error e => rintro ⟨⟩
      | ok u =>
        refine wp_mono (ih hs₂ (fun op hop => hops op (List.mem_append_right _ hop)) hnd' fun d hd => ?_) ?_
        · obtain ⟨hbase, hdone⟩ := hnew d (List.mem_append_right _ hd)
          refine ⟨hbase, ?_⟩
          rw [List.map_append, List.mem_append, not_or]
          exact ⟨hdone, fun hmem => hapart _ hmem _ (List.mem_map_of_mem hd) rfl⟩
        · intro res s₃ h₃ hok
          obtain ⟨hreads', w', hs₃⟩ := h₃ hok
          rw [List.append_assoc] at hs₃
          exact ⟨List.forall_mem_append.2 ⟨hreads, hreads'⟩, w', hs₃⟩

/-- The same for `mutate_vault_in_batches`. -/
theorem mutateVaultInBatches_grown (hs : s.Grown (vaultDirV2 id) id base blobs identity [] writer)
    (hops : ∀ op ∈ ops, op.Additive) (hnd : ((ops.filterMap Op.adds).map Prod.fst).Nodup)
    (hnew : ∀ d ∈ ops.filterMap Op.adds, d.1 ∉ pathsOf base.manifest.entries) (io : Nat → CommitIo) :
    wp (mutateVaultInBatches writer ops io) (fun res s' => res = .ok () →
      (∀ op ∈ ops, op.dest = op.adds.map Prod.fst) ∧ ∃ w,
        s'.Grown (vaultDirV2 id) id base blobs identity (ops.filterMap Op.adds) w) s := by
  obtain ⟨state, pt, hst, hof, -⟩ := stateOr_of_coherent hs.coherent
  have hflat : ((ops.toChunks maxBatchOps).zipIdx.map fun p => (p.1, io p.2)).flatMap Prod.fst = ops := by
    rw [List.flatMap_map, List.flatMap_def]
    show ((ops.toChunks maxBatchOps).zipIdx.map Prod.fst).flatten = ops
    rw [List.zipIdx_map_fst, flatten_toChunks]
  unfold mutateVaultInBatches
  rw [hst]
  simp only [lift_ok_bind, wp_bind, hof.objectId]
  refine wp_mono (ensureCurrentVault_within (R := fun _ => False) (V := fun _ => False) (A := fun _ _ => False)
    writer s) ?_
  intro res s₁ hw
  cases res with
  | error e => rintro ⟨⟩
  | ok u =>
    have hs₁ := hs.within hw not_false
    refine wp_mono (commitChunks_grown hs₁ (by rwa [hflat]) (by rwa [hflat]) ?_) ?_
    · rw [hflat]
      exact fun d hd => ⟨hnew d hd, List.not_mem_nil⟩
    · intro res s₂ h₂ hok
      have := h₂ hok
      rwa [hflat, List.nil_append] at this

/-- The same for `mutate_vault`. -/
theorem mutateVault_grown (hs : s.Grown (vaultDirV2 id) id base blobs identity [] writer)
    (hops : ∀ op ∈ ops, op.Additive) (hnd : ((ops.filterMap Op.adds).map Prod.fst).Nodup)
    (hnew : ∀ d ∈ ops.filterMap Op.adds, d.1 ∉ pathsOf base.manifest.entries) (limit : Option Nat) (io : CommitIo) :
    wp (mutateVault writer ⟨limit, .ofList ops, io⟩) (fun res s' => res = .ok () →
      (∀ op ∈ ops, op.dest = op.adds.map Prod.fst) ∧ ∃ w,
        s'.Grown (vaultDirV2 id) id base blobs identity (ops.filterMap Op.adds) w) s := by
  obtain ⟨state, pt, hst, hof, -⟩ := stateOr_of_coherent hs.coherent
  unfold mutateVault
  rw [hst]
  simp only [lift_ok_bind, wp_bind, hof.objectId]
  refine wp_mono (ensureCurrentVault_within (R := fun _ => False) (V := fun _ => False) (A := fun _ _ => False)
    writer s) ?_
  intro res s₁ hw
  cases res with
  | error e => rintro ⟨⟩
  | ok u =>
    refine wp_mono (commitIn_grown (hs.within hw not_false) hops hnd (fun d hd => ⟨hnew d hd, List.not_mem_nil⟩) limit io) ?_
    intro res s₂ h₂
    cases res with
    | error e => rintro ⟨⟩
    | ok w =>
      obtain ⟨hreads, hs₂⟩ := h₂ w rfl
      exact wp_mono (commitVaultReader_grown hs₂) fun _ _ hs₃ _ => ⟨hreads, w, hs₃⟩

end Mutate

/-! ### Opening again -/

/-! ### Reading again -/

section Reopen

/-- An old entry is found among the old entries. -/
private theorem fileEntry_append {r : VaultReaderV2 S.toPrims} {new : List EntryV2} {alg : AeadAlg}
    (hentries : r.manifest.entries = base.manifest.entries ++ new) (hvalid : ValidEntries alg r.manifest.entries)
    {e : EntryV2} (he : e ∈ base.manifest.entries) : r.fileEntry e.path = base.fileEntry e.path := by
  rw [hentries] at hvalid
  obtain ⟨n, hn⟩ := hvalid.paths e (List.mem_append_left _ he)
  have hnormal : normalizeStoredPath n = .ok n := (normalPath_of_normalizeStoredPath hn).normalizeStoredPath
  have hfind : r.manifest.entries.find? (·.path = n) = base.manifest.entries.find? (·.path = n) := by
    rw [hentries, List.find?_append]
    cases hb : base.manifest.entries.find? (·.path = n) with
    | some d => rfl
    | none =>
      rw [Option.none_or, List.find?_eq_none]
      intro e' he' hpath
      rw [decide_eq_true_eq] at hpath
      -- a new entry with this path would clash with the old one
      have hapart := hvalid.apart
      rw [List.map_append, List.pairwise_append] at hapart
      exact (hapart.2.2 _ (List.mem_map_of_mem he) _ (List.mem_map_of_mem he') n n hn (hpath ▸ hnormal)).1 rfl
  unfold VaultReaderV2.fileEntry
  rw [hn]
  simp only [bind, Except.bind, hfind]

/-- Once the vault has been opened again, every old entry is there with its bytes, and every file put. -/
theorem Store.Grown.reads {w r : VaultReaderV2 S.toPrims} (hs : s.Grown (vaultDirV2 id) id base blobs identity done w)
    (ho : s.Opened identity id r s') :
    (∀ e ∈ base.manifest.entries, e ∈ r.manifest.entries ∧
      r.readEntryToWriter (s'.host (vaultDirV2 id)).blobs.shown e.path = base.readEntryToWriter blobs e.path) ∧
    ∀ d ∈ done, d.1 ∈ pathsOf r.manifest.entries ∧
      r.readEntryToWriter (s'.host (vaultDirV2 id)).blobs.shown d.1 = .ok d.2 := by
  have hg := hs.grown
  obtain rfl := hg.disk r ho.opens
  have hvalid := validateManifestV2_iff.1 (valid_of_openVault ho.opens)
  obtain ⟨new, hentries, -⟩ := hg.grew.entries
  have hfound : ∀ {path : Str} {e : EntryV2}, base.fileEntry path = .ok e → e ∈ base.manifest.entries := by
    intro path e he
    unfold VaultReaderV2.fileEntry at he
    cases hn : normalizeStoredPath path with
    | error err => simp [hn, bind, Except.bind] at he
    | ok n =>
      simp only [hn, bind, Except.bind] at he
      split at he
      · cases he
      · rename_i d hd
        split at he
        · exact Except.ok.inj he ▸ List.mem_of_find?_eq_some hd
        · cases he
  refine ⟨fun e he => ⟨hentries ▸ List.mem_append_left _ he, ?_⟩, fun d hd => ?_⟩
  · refine readEntryToWriter_congr hg.suite hg.headerBytes (fileEntry_append hentries hvalid he) ?_
    intro f hf b hb
    unfold blobId at hb
    split at hb
    · cases hb
    · rename_i b' hid
      cases hv : validateBlobId b' with
      | error err => simp [hv, bind, Except.bind] at hb
      | ok u =>
        simp only [hv, bind, Except.bind, Except.ok.injEq] at hb
        subst hb
        have hbase : b' ∈ base.manifest.blobIds := List.mem_filterMap.2 ⟨f, hfound hf, hid⟩
        exact (ho.blobs b' (hg.grew.fileIds hbase) hv).trans (hg.kept b' hbase)
  · obtain ⟨e, he, hpath, hnormal, hstores⟩ := hg.grew.files d hd
    have hok := hvalid.files e he hstores.kind
    rw [← hpath]
    refine ⟨List.mem_map_of_mem he, ?_⟩
    refine readEntryToWriter_of_stores hnormal ((Keyed.lookup_eq_some_iff hg.grew.nodup).2 ⟨he, rfl⟩) ?_ ?_
    · rw [hg.suite, hg.headerBytes]
      refine hstores.of_blobs fun b hb => ho.blobs b (List.mem_filterMap.2 ⟨e, he, hb⟩) ?_
      obtain ⟨b', hb', hv⟩ := hok.fileId
      rwa [Option.some.inj (hb.symm.trans hb')]
    · rw [← hstores.size, ← hstores.chunkSize]
      exact hok.chunks

end Reopen

end FileSec
