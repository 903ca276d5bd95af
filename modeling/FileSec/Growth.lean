import FileSec.CommitSpec
import FileSec.Legality
import FileSec.Opening
import FileSec.Reading

/-!
# Adding to a vault

Operations that put files under paths that are free, or make directories, keep all a vault has: the old entries are a
prefix of the new ones and their blobs stay as they are, and every file put is there under its path with its bytes
(`commitWith_grown`).  This holds of every vault the reader accepts, whoever wrote it.
-/

namespace FileSec

open CrashDir Prog

variable {P : Prims}

/-! ### Operations that add -/

/-- The path is in normal form, unless it has none. -/
def Settled (path : Str) : Prop := ∀ p, normalizePath path = .ok p → p = path

/-- What an operation puts where. -/
def Op.adds : Op → Option (Str × Bytes)
  | .putFile vaultPath _ (.ok (.ok bytes)) _ _ _ => some (vaultPath, bytes)
  | .putBytes vaultPath bytes _ _ _ => some (vaultPath, bytes)
  | _ => none

/-- Where an operation is to put a file. -/
def Op.dest : Op → Option Str
  | .putFile vaultPath _ _ _ _ _ => some vaultPath
  | .putBytes vaultPath _ _ _ _ => some vaultPath
  | _ => none

/-- The operation puts a file or makes a directory, under a settled path. -/
inductive Op.Additive : Op → Prop
  | putFile {vaultPath hashed source io mtime mode} (h : Settled vaultPath) :
      Op.Additive (.putFile vaultPath hashed source io mtime mode)
  | putBytes {vaultPath bytes io mtime mode} (h : Settled vaultPath) :
      Op.Additive (.putBytes vaultPath bytes io mtime mode)
  | mkdir {vaultPath} : Op.Additive (.mkdir vaultPath)

/-- The entries are those of `base` and new ones, whose files are among `done`, and every file of `done` is there. -/
structure Grew (P : Prims) (alg : AeadAlg) (headerBytes : P.Raw) (blobs : Str → Option Bytes) (base : List EntryV2)
    (done : List (Str × Bytes)) (es : List EntryV2) : Prop where
  nodup : (pathsOf es).Nodup
  entries : ∃ new, es = base ++ new ∧ ∀ e ∈ new, e.kind = .file → e.path ∈ done.map Prod.fst
  files : ∀ d ∈ done, ∃ e ∈ es, e.path = d.1 ∧ NormalPath e.path ∧ e.toEntryAttrs.Stores P alg headerBytes blobs d.2

section Grew

variable {alg : AeadAlg} {headerBytes : P.Raw} {blobs blobs' : Str → Option Bytes} {base es new : List EntryV2}
  {done : List (Str × Bytes)} {a : EntryAttrs} {bytes : Bytes}

theorem EntryAttrs.Stores.of_blobs (h : a.Stores P alg headerBytes blobs bytes)
    (hb : ∀ id, a.fileId = some id → blobs' id = blobs id) : a.Stores P alg headerBytes blobs' bytes := by
  obtain ⟨h1, h2, h3, h4, id, key, nonce, ct, hid, h6, h7, h8, h9, hct⟩ := h
  exact ⟨h1, h2, h3, h4, id, key, nonce, ct, hid, h6, h7, h8, h9, (hb id hid).trans hct⟩

theorem Grew.of_blobs (h : Grew P alg headerBytes blobs base done es) (hb : ∀ id ∈ fileIds es, blobs' id = blobs id) :
    Grew P alg headerBytes blobs' base done es := by
  refine ⟨h.nodup, h.entries, fun d hd => ?_⟩
  obtain ⟨e, he, hp, hn, hs⟩ := h.files d hd
  exact ⟨e, he, hp, hn, hs.of_blobs fun id hid => hb id (List.mem_filterMap.2 ⟨e, he, hid⟩)⟩

/-- More directories. -/
theorem Grew.dirs (h : Grew P alg headerBytes blobs base done es) (hdirs : ∀ e ∈ new, e.kind = .dir)
    (hnd : (pathsOf (es ++ new)).Nodup) : Grew P alg headerBytes blobs base done (es ++ new) := by
  obtain ⟨old, rfl, hold⟩ := h.entries
  refine ⟨hnd, ⟨old ++ new, List.append_assoc _ _ _, fun e he hk => ?_⟩, fun d hd => ?_⟩
  · rcases List.mem_append.1 he with he | he
    · exact hold e he hk
    · rw [hdirs e he] at hk
      cases hk
  · obtain ⟨e, he, hrest⟩ := h.files d hd
    exact ⟨e, List.mem_append_left _ he, hrest⟩

/-- One more file. -/
theorem Grew.file (h : Grew P alg headerBytes blobs base done es) {p : Str} (hp : NormalPath p)
    (ha : a.Stores P alg headerBytes blobs bytes) (hnd : (pathsOf (es ++ [{ a with path := p }])).Nodup) :
    Grew P alg headerBytes blobs base (done ++ [(p, bytes)]) (es ++ [{ a with path := p }]) := by
  obtain ⟨old, rfl, hold⟩ := h.entries
  refine ⟨hnd, ⟨old ++ [{ a with path := p }], List.append_assoc _ _ _, fun e he hk => ?_⟩, fun d hd => ?_⟩
  · rw [List.map_append, List.mem_append]
    rcases List.mem_append.1 he with he | he
    · exact Or.inl (hold e he hk)
    · rw [List.mem_singleton.1 he]
      exact Or.inr (by simp)
  · rcases List.mem_append.1 hd with hd | hd
    · obtain ⟨e, he, hrest⟩ := h.files d hd
      exact ⟨e, List.mem_append_left _ he, hrest⟩
    · rw [List.mem_singleton.1 hd]
      exact ⟨_, List.mem_append_right _ (List.mem_singleton_self _), rfl, hp, ha⟩

/-- A path that is neither an old one nor that of a file put carries no file. -/
theorem Grew.free (h : Grew P alg headerBytes blobs base done es) {p : Str} (hbase : p ∉ pathsOf base)
    (hdone : p ∉ done.map Prod.fst) {d : EntryV2} (hd : entryAt es p = some d) : d.kind = .dir := by
  obtain ⟨hmem, rfl⟩ := Keyed.lookup_mem hd
  obtain ⟨new, rfl, hnew⟩ := h.entries
  rcases List.mem_append.1 hmem with hmem | hmem
  · exact absurd (List.mem_map_of_mem hmem) hbase
  · cases hk : d.kind with
    | dir => rfl
    | file => exact absurd (hnew d hmem hk) hdone

theorem Grew.fileIds (h : Grew P alg headerBytes blobs base done es) : fileIds base ⊆ fileIds es := by
  obtain ⟨new, rfl, -⟩ := h.entries
  intro id hid
  rw [FileSec.fileIds, List.filterMap_append]
  exact List.mem_append_left _ hid

end Grew

/-! ### Batches -/

/-- The batch has grown from the reader `base` with the blobs `blobs`. -/
structure VaultBatch.Grown (base : VaultReaderV2 P) (blobs : Str → Option Bytes) (done : List (Str × Bytes))
    (b : VaultBatch P) : Prop where
  suite : b.reader.suite = base.suite
  header : b.reader.headerBytes = base.headerBytes
  index : b.index = indexEntries b.manifest
  grew : Grew P base.suite.aeadAlg base.headerBytes b.host.blobs.shown base.manifest.entries done b.manifest.entries
  kept : ∀ id ∈ base.manifest.blobIds, b.host.blobs.shown id = blobs id
  superseded : b.superseded = []
  fresh : b.host.rng.Fresh (· ∈ b.manifest.blobIds)
  changed : b.changed = true ∨ b.manifest = b.reader.manifest

section Batch

variable {base : VaultReaderV2 P} {blobs : Str → Option Bytes} {done : List (Str × Bytes)} {b b' : VaultBatch P}

private theorem grown_indexed (hb : b.Grown base blobs done) : b.Indexed := ⟨hb.index, hb.grew.nodup⟩

/-- A blob just written holds the bytes. -/
theorem Wrote.stores {blob : StagedBlob} {bytes : Bytes} (h : Wrote b b' blob bytes) (mtime : Option Int)
    (mode : Option Nat) : EntryAttrs.Stores P b.reader.suite.aeadAlg b.reader.headerBytes b'.host.blobs.shown
      (fileAttrs blob (P.hashContent bytes) bytes.length mtime mode) bytes := by
  obtain ⟨ct, henc, hhost⟩ := h.host
  have hshown : b'.host.blobs.shown blob.fileId = some ct := by
    rw [hhost]
    exact shown_write_self _ _ _
  exact ⟨rfl, rfl, rfl, rfl, _, _, _, ct, rfl, rfl, rfl, validateBlobId_blobId h.id, henc, hshown⟩

private theorem grew_mkdir {alg : AeadAlg} {headerBytes : P.Raw} {shown : Str → Option Bytes} {es₀ es : List EntryV2}
    (h : Grew P alg headerBytes shown es₀ done es) (p : Str) :
    Grew P alg headerBytes shown es₀ done ((Change.mkdir p).apply es) := by
  by_cases he : entryAt es p = none
  · rw [apply_mkdir_of_none he]
    have hnd := nodup_insert (e := dirEntry p) h.nodup he
    have hsplit : withParents es p ++ [dirEntry p] =
        es ++ ((missingParents es p).map dirEntry ++ [dirEntry p]) := List.append_assoc _ _ _
    have hpath : withParents es (dirEntry p).path = withParents es p := rfl
    rw [hpath, hsplit] at hnd
    rw [hsplit]
    refine h.dirs (fun e he => ?_) hnd
    rcases List.mem_append.1 he with he | he
    · obtain ⟨a, -, rfl⟩ := List.mem_map.1 he
      rfl
    · rw [List.mem_singleton.1 he]
      rfl
  · rw [apply_mkdir_of_some he]
    exact h

private theorem grew_put {alg : AeadAlg} {headerBytes : P.Raw} {shown : Str → Option Bytes} {es₀ es : List EntryV2}
    (h : Grew P alg headerBytes shown es₀ done es) {p : Str} {a : EntryAttrs} {bytes : Bytes} (hp : NormalPath p)
    (hnone : entryAt es p = none) (ha : a.Stores P alg headerBytes shown bytes) :
    Grew P alg headerBytes shown es₀ (done ++ [(p, bytes)]) ((Change.put p a bytes).apply es) := by
  rw [apply_put_of_none hnone]
  have hnd := nodup_insert (e := { a with path := p }) h.nodup hnone
  have hpath : withParents es ({ a with path := p } : EntryV2).path = es ++ (missingParents es p).map dirEntry := rfl
  rw [hpath] at hnd
  refine Grew.file ?_ hp ha hnd
  refine h.dirs (fun e he => ?_) (hnd.sublist ((List.sublist_append_left _ _).map _))
  obtain ⟨x, -, rfl⟩ := List.mem_map.1 he
  rfl

/-- An operation that adds under a free path lets the batch grow. -/
theorem Op.run_grown (hb : b.Grown base blobs done) {op : Op} (hop : op.Additive)
    (hnew : ∀ d, op.adds = some d → d.1 ∉ pathsOf base.manifest.entries ∧ d.1 ∉ done.map Prod.fst) :
    wp (op.run P) (fun r b' => r = .ok () → b'.reader = b.reader ∧ op.dest = op.adds.map Prod.fst ∧
      b'.Grown base blobs (done ++ op.adds.toList)) b := by
  refine wp_mono (wp_and (Op.run_spec (grown_indexed hb) op) (op.run_blind.drew b)) ?_
  rintro r b' ⟨hspec, hreader, k, hdrew, hids⟩ rfl
  obtain ⟨c, hdid⟩ := hspec
  -- the blobs there were are still there
  have hold : ∀ id ∈ b.manifest.blobIds, b'.host.blobs.shown id = b.host.blobs.shown id := fun id hid =>
    hdrew.blobs.shown fun hn => hb.fresh.not_drawn hn hid
  have hgrew := hb.grew.of_blobs hold
  have hsub : b'.manifest.blobIds ⊆ b.manifest.blobIds ++ b.host.rng.drawn k := by
    intro id hid
    have hmem := hids.subset (List.mem_append_left _ hid)
    rwa [VaultBatch.ids, hb.superseded, List.append_nil] at hmem
  have hfresh : b'.host.rng.Fresh (· ∈ b'.manifest.blobIds) := by
    rw [hdrew.rng]
    exact (hb.fresh.shift k).mono fun id hid => List.mem_append.1 (hsub hid)
  have hchanged : b'.changed = true ∨ b'.manifest = b'.reader.manifest := by
    rw [hreader]
    rcases hdid.changed with hch | ⟨hch, hsame, -⟩
    · exact Or.inl hch
    · rw [hch, hdid.manifest, hsame]
      exact hb.changed
  have hkept : ∀ id ∈ base.manifest.blobIds, b'.host.blobs.shown id = blobs id := fun id hid =>
    (hold id (hb.grew.fileIds hid)).trans (hb.kept id hid)
  -- it remains to see what became of the entries
  have hgrown : ∀ done', Grew P base.suite.aeadAlg base.headerBytes b'.host.blobs.shown base.manifest.entries done'
      (c.apply b.manifest.entries) → c.superseded b.manifest.entries = [] → b'.Grown base blobs done' := by
    intro done' hg hs
    refine ⟨hreader ▸ hb.suite, hreader ▸ hb.header, hdid.index, ?_, hkept, ?_, hfresh, hchanged⟩
    · rw [hdid.manifest]
      exact hg
    · rw [hdid.superseded, hb.superseded, hs]
      rfl
  refine ⟨hreader, ?_⟩
  -- a put under a path that is free
  have hput : ∀ {p bytes blob mtime mode}, c = .put p (fileAttrs blob (P.hashContent bytes) bytes.length mtime mode)
      bytes → p ∉ pathsOf base.manifest.entries → p ∉ done.map Prod.fst → b'.Grown base blobs (done ++ [(p, bytes)]) := by
    rintro p bytes blob mtime mode rfl hbase hdone
    obtain ⟨hp, hfile, -⟩ := hdid.pre
    have hnone : entryAt b.manifest.entries p = none := by
      cases hd : entryAt b.manifest.entries p with
      | none => rfl
      | some d =>
        have hdir := hb.grew.free hbase hdone hd
        rw [hfile d hd] at hdir
        cases hdir
    obtain ⟨⟨id, key, nonce⟩, _, _, _, _, ha, hwrote, -⟩ := hdid.writes
    have hstores := hwrote.stores mtime mode
    rw [hb.suite, hb.header] at hstores
    simp only [fileAttrs, EntryAttrs.mk.injEq, Option.some.injEq] at ha
    obtain ⟨-, -, -, -, -, h1, h2, h3, -⟩ := ha
    refine hgrown _ (grew_put hgrew hp hnone ?_) ?_
    · unfold fileAttrs at hstores ⊢
      rw [h1, h2, h3]
      exact hstores
    · simp [Change.superseded, hnone]
  cases hop with
  | @mkdir vaultPath =>
    obtain ⟨p, rfl⟩ : ∃ p, c = .mkdir p := by
      cases hdid.makes with
      | mkdir hp => exact ⟨_, rfl⟩
    have hnil : (Op.mkdir vaultPath).adds.toList = [] := rfl
    rw [hnil, List.append_nil]
    exact ⟨rfl, hgrown done (grew_mkdir hgrew p) rfl⟩
  | @putBytes vaultPath bytes io mtime mode hsettled =>
    obtain ⟨hbase, hdone⟩ := hnew _ rfl
    cases hmakes : hdid.makes with
    | putBytes blob hp =>
      obtain rfl := hsettled _ hp
      exact ⟨rfl, hput rfl hbase hdone⟩
  | @putFile vaultPath hashed source io mtime mode hsettled =>
    cases hmakes : hdid.makes with
    | putFile blob hp hlen hhash =>
      obtain ⟨hbase, hdone⟩ := hnew _ rfl
      obtain rfl := hsettled _ hp
      exact ⟨rfl, hput rfl hbase hdone⟩

/-- Operations that add under distinct free paths let the batch grow. -/
theorem ofList_grown (hb : b.Grown base blobs done) {ops : List Op} (hops : ∀ op ∈ ops, op.Additive)
    (hnd : ((ops.filterMap Op.adds).map Prod.fst).Nodup)
    (hnew : ∀ d ∈ ops.filterMap Op.adds, d.1 ∉ pathsOf base.manifest.entries ∧ d.1 ∉ done.map Prod.fst) :
    wp ((Edits.ofList ops).run P) (fun r b' => r = .ok () → b'.reader = b.reader ∧
      (∀ op ∈ ops, op.dest = op.adds.map Prod.fst) ∧ b'.Grown base blobs (done ++ ops.filterMap Op.adds)) b := by
  induction ops generalizing b done with
  | nil =>
    simp only [Edits.ofList, Edits.run, wp_liftM]
    exact fun _ => ⟨trivial, List.forall_mem_nil _, by simpa using hb⟩
  | cons op ops ih =>
    simp only [Edits.ofList, Edits.run, wp_bind, wp_attempt]
    have hcons : (op :: ops).filterMap Op.adds = op.adds.toList ++ ops.filterMap Op.adds := by
      cases h : op.adds <;> simp [h]
    rw [hcons] at hnd hnew ⊢
    rw [List.map_append, List.nodup_append] at hnd
    obtain ⟨-, hnd', hapart⟩ := hnd
    refine wp_mono (Op.run_grown hb (hops op (by simp)) fun d hd => hnew d (by simp [hd])) ?_
    intro r b' hr
    cases r with
    | error e =>
      simp only [Edits.run, wp_liftM]
      rintro ⟨⟩
    | ok u =>
      obtain ⟨hreader, hread, hb'⟩ := hr rfl
      refine wp_mono (ih hb' (fun op' hop' => hops op' (by simp [hop'])) hnd' fun d hd => ?_) ?_
      · refine ⟨(hnew d (by simp [hd])).1, ?_⟩
        rw [List.map_append, List.mem_append, not_or]
        refine ⟨(hnew d (by simp [hd])).2, fun hmem => ?_⟩
        exact hapart _ hmem _ (List.mem_map_of_mem hd) rfl
      · intro r b'' h hr
        obtain ⟨hreader', hreads, hb''⟩ := h hr
        rw [← List.append_assoc]
        exact ⟨hreader'.trans hreader, List.forall_mem_cons.2 ⟨hread, hreads⟩, hb''⟩

end Batch

/-! ### Commits -/

/-- The reader and its vault have grown from the reader `base` with the blobs `blobs`. -/
structure VaultReaderV2.Grown (base : VaultReaderV2 P) (blobs : Str → Option Bytes) (identity : Identity)
    (done : List (Str × Bytes)) (r : VaultReaderV2 P) (h : Host P) : Prop where
  belongs : r.Belongs identity
  suite : r.suite = base.suite
  headerBytes : r.headerBytes = base.headerBytes
  header : h.top.shown .header = some r.headerBytes
  grew : Grew P base.suite.aeadAlg base.headerBytes h.blobs.shown base.manifest.entries done r.manifest.entries
  kept : ∀ id ∈ base.manifest.blobIds, h.blobs.shown id = blobs id
  pending : r.pendingReclaim = []
  fresh : h.rng.Fresh (· ∈ r.manifest.blobIds)
  /-- Opening the vault gives this reader. -/
  disk : ∀ r', openVault P h.top.shown identity = .ok r' → r' = r

section Commit

variable {base r : VaultReaderV2 P} {blobs : Str → Option Bytes} {identity : Identity} {done : List (Str × Bytes)}
  {h : Host P}

/-- A vault that has been opened has grown by nothing. -/
theorem grown_of_openVault (hopen : openVault P h.top.shown identity = .ok r)
    (hfresh : h.rng.Fresh (· ∈ r.manifest.blobIds)) : r.Grown h.blobs.shown identity [] r h where
  belongs := belongs_of_openVault hopen
  suite := rfl
  headerBytes := rfl
  header := header_of_openVault hopen
  grew := ⟨(validateManifestV2_iff.1 (valid_of_openVault hopen)).nodup, ⟨[], (List.append_nil _).symm, nofun⟩, nofun⟩
  kept _ _ := rfl
  pending := pendingReclaim_of_openVault hopen
  fresh := hfresh
  disk _ hr' := Except.ok.inj (hr'.symm.trans hopen)

/-- A successful commit of operations that add under distinct free paths lets the vault grow. -/
theorem commitWith_grown (hr : base.Grown blobs identity done r h) {ops : List Op} (hops : ∀ op ∈ ops, op.Additive)
    (hnd : ((ops.filterMap Op.adds).map Prod.fst).Nodup)
    (hnew : ∀ d ∈ ops.filterMap Op.adds, d.1 ∉ pathsOf base.manifest.entries ∧ d.1 ∉ done.map Prod.fst)
    (limit : Option Nat) (io : CommitIo) : wp (commitWith limit (.ofList ops) io) (fun res s => res = .ok () →
      (∀ op ∈ ops, op.dest = op.adds.map Prod.fst) ∧
        base.Grown blobs identity (done ++ ops.filterMap Op.adds) s.reader s.host) ⟨r, h⟩ := by
  have hb₀ : (VaultBatch.new r limit h).Grown base blobs done :=
    ⟨hr.suite, hr.headerBytes, rfl, hr.grew, hr.kept, rfl, hr.fresh, Or.inr rfl⟩
  have hb : (Session.edited ⟨r, h⟩ limit (.ofList ops)).1 = .ok () →
      (Session.edited ⟨r, h⟩ limit (.ofList ops)).2.reader = r ∧ (∀ op ∈ ops, op.dest = op.adds.map Prod.fst) ∧
        (Session.edited ⟨r, h⟩ limit (.ofList ops)).2.Grown base blobs (done ++ ops.filterMap Op.adds) :=
    ofList_grown hb₀ hops hnd hnew
  obtain ⟨k, hed⟩ := edited_spec ⟨r, h⟩ limit (.ofList ops)
  refine wp_mono (commitWith_outcome ⟨r, h⟩ limit (.ofList ops) io) ?_
  generalize Session.edited ⟨r, h⟩ limit (.ofList ops) = p at hb hed
  obtain ⟨edited, b⟩ := p
  intro res s hout hok
  have htop : b.host.top = h.top := hed.drew.top
  cases hout with
  | unchanged hedited hch =>
    obtain ⟨hreader, hreads, hb⟩ := hb hedited
    have hman : b.manifest = r.manifest := by
      rcases hb.changed with hc | hc
      · simp only at hch
        rw [hch] at hc
        cases hc
      · rw [hc, hreader]
    refine ⟨hreads, hr.belongs, hr.suite, hr.headerBytes, ?_, ?_, hb.kept, hr.pending, ?_, ?_⟩
    · show b.host.top.shown .header = some r.headerBytes
      rw [htop, hr.header]
    · show Grew _ _ _ _ _ _ r.manifest.entries
      rw [← hman]
      exact hb.grew
    · show b.host.rng.Fresh (· ∈ r.manifest.blobIds)
      rw [← hman]
      exact hb.fresh
    · intro r' hr'
      rw [show b.host.top = h.top from htop] at hr'
      exact hr.disk r' hr'
  | failed hhost => cases hok
  | @sealed state nonce h' hedited hch hsealed =>
    obtain ⟨hreader, hreads, hb⟩ := hb hedited
    obtain ⟨hnext, hdrawn, -, rfl⟩ := hsealed
    have hnonce := randomVec_length hdrawn
    have hqueue : r.pendingReclaim ++ b.superseded = [] := by
      rw [hr.pending, hb.superseded]
      rfl
    have hpending : (r.committed b state io.vaultSync).pendingReclaim = [] := by
      simp only [VaultReaderV2.committed, hqueue, ite_self]
    -- whether or not the directory was synced, nothing is reclaimed
    have hgrown : ∀ H : Host P, H.top = (b.host.top.write .manifest (r.sealedRaw b.manifest state nonce)).sync
        io.vaultSync → (H.rng = fun i => b.host.rng (i + 1)) → H.blobs.shown = b.host.blobs.shown →
        base.Grown blobs identity (done ++ ops.filterMap Op.adds) (r.committed b state io.vaultSync) H := by
      intro H hHtop hHrng hHblobs
      have hheader : H.top.shown .header = some r.headerBytes := by
        rw [hHtop, shown_sync, shown_write_of_ne (by decide), htop, hr.header]
      have hmanifest : H.top.shown .manifest = some (r.sealedRaw b.manifest state nonce) := by
        rw [hHtop, shown_sync, shown_write_self]
      refine ⟨⟨hr.belongs.header, hr.belongs.owner⟩, hr.suite, hr.headerBytes, hheader, ?_, ?_, hpending, ?_, ?_⟩
      · rw [hHblobs]
        exact hb.grew
      · rw [hHblobs]
        exact hb.kept
      · rw [hHrng]
        exact hb.fresh.skip 1
      · intro r' hr'
        have hopened := ((openVault_sealed hr.belongs hnext hnonce hheader hmanifest).1 hr').2.2.2
        rw [hopened]
        unfold VaultReaderV2.opened
        rw [← hpending]
        rfl
    have hshown : (b.host.blobs.sync io.blobsSync).shown = b.host.blobs.shown := shown_sync _ _
    refine ⟨hreads, hgrown _ ?_ ?_ ?_⟩
    · split <;> rfl
    · split <;> rfl
    · split
      · funext id
        have hid : id ∉ r.pendingReclaim ++ b.superseded := by simp [hqueue]
        exact (shown_unlinkAll_of_not_mem _ hid).trans (congrFun hshown id)
      · exact hshown

end Commit

end FileSec
