import FileSec.Limits
import FileSec.Reading
import FileSec.Retention
import FileSec.Shape

/-!
# A vault is a file tree

The abstract model of a vault is a map from paths to directories and files, on which the operations put, remove, move
and touch nodes.  A run of commits, garbage collections and reopenings keeps the entries of the reader those of the
model, and every file reads back as the bytes that were put (`vault_refines`), as long as no rename makes a path that is
too long or too deep and no file has `2 ^ 32` chunks.
-/

namespace FileSec

open CrashDir PathTree Prog SepPath

variable {P : Prims}

/-! ### The model -/

/-- What is at a path. -/
inductive Content where
  | dir
  | file (bytes : Bytes)
  deriving DecidableEq

/-- A directory or a file with its metadata. -/
structure Node where
  content : Content
  mtime : Option Int
  mode : Option Nat
  deriving DecidableEq

/-- The model of a vault. -/
abbrev FileTree := Tree Char Node

/-- A new directory. -/
def Node.dir : Node := ⟨.dir, none, none⟩

/-- The kind of a node, as an entry has it. -/
def Node.kind (n : Node) : EntryKind :=
  match n.content with
  | .dir => .dir
  | .file _ => .file

/-- The size of a node. -/
def Node.size (n : Node) : Nat :=
  match n.content with
  | .dir => 0
  | .file bytes => bytes.length

namespace FileTree

/-- Put a file, over one that is there or with the directories it needs. -/
def put (t : FileTree) (p : Str) (bytes : Bytes) (mtime : Option Int) (mode : Option Nat) : FileTree :=
  plant '/' .dir t p ⟨.file bytes, mtime, mode⟩

/-- Make a directory, with the directories it needs, unless there is one. -/
def mkdir (t : FileTree) (p : Str) : FileTree := if (t p).isSome then t else plant '/' .dir t p .dir

/-- Remove `p` and all below. -/
def remove (t : FileTree) (p : Str) : FileTree := prune '/' t p

/-- Move `p` and all below to `q`, with the directories it needs. -/
def rename (t : FileTree) (p q : Str) : FileTree := if p = q then t else move '/' .dir t p q

/-- Set the metadata of `p`. -/
def setAttr (t : FileTree) (p : Str) (mtime : Option Int) (mode : Option Nat) : FileTree :=
  Function.update t p ((t p).map fun n => { n with mtime := mtime, mode := mode })

end FileTree

/-- What a successful operation does to the model. -/
def Op.model (t : FileTree) : Op → FileTree
  | .putFile vaultPath _ source _ mtime mode =>
    match normalizePath vaultPath, source with
    | .ok p, .ok (.ok bytes) => t.put p bytes mtime mode
    | _, _ => t
  | .putBytes vaultPath bytes _ mtime mode =>
    match normalizePath vaultPath with
    | .ok p => t.put p bytes mtime mode
    | .error _ => t
  | .putStreamTrusted path _ _ source _ mtime mode =>
    match normalizeStoredPath path, source with
    | .ok p, .ok bytes => t.put p bytes mtime mode
    | _, _ => t
  | .mkdir vaultPath =>
    match normalizePath vaultPath with
    | .ok p => t.mkdir p
    | .error _ => t
  | .addDirTrusted path =>
    match normalizeStoredPath path with
    | .ok p => t.mkdir p
    | .error _ => t
  | .remove vaultPath =>
    match normalizeStoredPath vaultPath with
    | .ok p => t.remove p
    | .error _ => t
  | .rename vaultFrom vaultTo =>
    match normalizeStoredPath vaultFrom, normalizePath vaultTo with
    | .ok p, .ok q => t.rename p q
    | _, _ => t
  | .setAttr vaultPath mtime mode =>
    match normalizeStoredPath vaultPath with
    | .ok p => t.setAttr p mtime mode
    | .error _ => t

/-- What the calls of a closure on a batch do to the model: those that succeed, in turn. -/
def Edits.model : Edits → VaultBatch P → FileTree → FileTree
  | .done _, _, t => t
  | .call op next, b, t =>
    let r := exec (op.run P) b
    (next r.1).model r.2 (if r.1 = .ok () then op.model t else t)

/-- What an event does to the model: a commit that succeeds applies its operations, nothing else changes it. -/
def World.modelStep (w : World P) (t : FileTree) : Event → FileTree
  | .commit c =>
    match w.reader with
    | none => t
    | some r =>
      if (exec (commitWith c.limit c.edits c.io) ⟨r, w.host⟩).1 = .ok () then
        c.edits.model (VaultBatch.new r c.limit w.host) t
      else t
  | _ => t

/-- The model along a run. -/
def World.model (identity : Identity) : World P → FileTree → List Event → FileTree
  | _, t, [] => t
  | w, t, e :: events => (w.step identity e).model identity (w.modelStep t e) events

/-! ### Entries and nodes -/

/-- The entry stands for the node; a file's bytes are in its blob. -/
structure EntryAttrs.Represents (P : Prims) (alg : AeadAlg) (headerBytes : P.Raw) (blobs : Str → Option Bytes)
    (a : EntryAttrs) (n : Node) : Prop where
  mtime : a.mtime = n.mtime
  mode : a.mode = n.mode
  dir : n.content = .dir → a.kind = .dir ∧ a.size = 0 ∧ a.fileId = none
  file : ∀ bytes, n.content = .file bytes →
    a.Stores P alg headerBytes blobs bytes ∧ numChunks bytes.length defaultChunkSize ≤ u32Max

section Represents

variable {alg : AeadAlg} {headerBytes : P.Raw} {blobs blobs' : Str → Option Bytes} {a : EntryAttrs} {n : Node}

theorem represents_dir : dirAttrs.Represents P alg headerBytes blobs .dir :=
  ⟨rfl, rfl, fun _ => ⟨rfl, rfl, rfl⟩, by rintro bytes ⟨⟩⟩

/-- The representation depends only on the blob of the entry. -/
theorem EntryAttrs.Represents.of_blobs (h : a.Represents P alg headerBytes blobs n)
    (hb : ∀ id, a.fileId = some id → blobs' id = blobs id) : a.Represents P alg headerBytes blobs' n := by
  refine ⟨h.mtime, h.mode, h.dir, fun bytes hbytes => ?_⟩
  obtain ⟨⟨h1, h2, h3, h4, id, key, nonce, ct, hid, h6, h7, h8, h9, hct⟩, hchunks⟩ := h.file bytes hbytes
  exact ⟨⟨h1, h2, h3, h4, id, key, nonce, ct, hid, h6, h7, h8, h9, (hb id hid).trans hct⟩, hchunks⟩

theorem EntryAttrs.Represents.setAttr (h : a.Represents P alg headerBytes blobs n) (mtime : Option Int)
    (mode : Option Nat) : EntryAttrs.Represents P alg headerBytes blobs { a with mtime := mtime, mode := mode }
      { n with mtime := mtime, mode := mode } := by
  refine ⟨rfl, rfl, h.dir, fun bytes hbytes => ?_⟩
  obtain ⟨⟨h1, h2, h3, h4, h5⟩, hchunks⟩ := h.file bytes hbytes
  exact ⟨⟨h1, h2, h3, h4, h5⟩, hchunks⟩

/-- The entry of a blob just written stands for a file. -/
theorem Wrote.represents {b b' : VaultBatch P} {blob : StagedBlob} {bytes : Bytes} (h : Wrote b b' blob bytes)
    (hchunks : numChunks bytes.length defaultChunkSize ≠ u32Max + 1) (mtime : Option Int) (mode : Option Nat) :
    EntryAttrs.Represents P b.reader.suite.aeadAlg b.reader.headerBytes b'.host.blobs.shown
      (fileAttrs blob (P.hashContent bytes) bytes.length mtime mode) ⟨.file bytes, mtime, mode⟩ := by
  obtain ⟨ct, henc, hhost⟩ := h.host
  have hshown : b'.host.blobs.shown blob.fileId = some ct := by
    rw [hhost]
    exact shown_write_self _ _ _
  have hpos : 0 < defaultChunkSize ∧ defaultChunkSize ≤ maxChunkSize := by decide
  have hle := (encryptStreamWith_ok_iff h.nonce hpos.1 hpos.2).1 ⟨ct, henc⟩
  refine ⟨rfl, rfl, by rintro ⟨⟩, ?_⟩
  rintro _ ⟨⟩
  exact ⟨⟨rfl, rfl, rfl, rfl, _, _, _, ct, rfl, rfl, rfl, validateBlobId_blobId h.id, henc, hshown⟩, by omega⟩

end Represents

/-! ### Operations -/

section Op

variable {b b' : VaultBatch P} {t : FileTree} {c : Change}

/-- Entries that stand for the nodes of the model still do after the same change of both. -/
private theorem Op.Makes.related {op : Op} (hm : op.Makes P c) (hw : c.Writes b b') {es : List EntryV2}
    (hfits : c.Fits es) {u : Tree Char EntryAttrs}
    (h : Related (EntryAttrs.Represents P b.reader.suite.aeadAlg b.reader.headerBytes b'.host.blobs.shown) u t) :
    Related (EntryAttrs.Represents P b.reader.suite.aeadAlg b.reader.headerBytes b'.host.blobs.shown) (c.tree u)
      (op.model t) := by
  have hput : ∀ {blob bytes p mtime mode},
      (Change.put p (fileAttrs blob (P.hashContent bytes) bytes.length mtime mode) bytes).Writes b b' →
      numChunks bytes.length defaultChunkSize ≠ u32Max + 1 →
      Related (EntryAttrs.Represents P b.reader.suite.aeadAlg b.reader.headerBytes b'.host.blobs.shown)
        (plant '/' dirAttrs u p (fileAttrs blob (P.hashContent bytes) bytes.length mtime mode))
        (t.put p bytes mtime mode) := by
    rintro blob bytes p mtime mode ⟨⟨id, key, nonce⟩, _, _, _, _, ha, hwrote, -⟩ hchunks
    simp only [fileAttrs, EntryAttrs.mk.injEq, Option.some.injEq] at ha
    obtain ⟨-, -, -, -, -, rfl, rfl, rfl, -⟩ := ha
    exact h.plant represents_dir (hwrote.represents hchunks mtime mode)
  have hmkdir : ∀ p, Related (EntryAttrs.Represents P b.reader.suite.aeadAlg b.reader.headerBytes b'.host.blobs.shown)
      ((Change.mkdir p).tree u) (t.mkdir p) := by
    intro p
    have e : (u p).isSome = (t p).isSome := by
      rw [Bool.eq_iff_iff, Option.isSome_iff_ne_none, Option.isSome_iff_ne_none, Ne, Ne, h.eq_none_iff]
    simp only [Change.tree, FileTree.mkdir, e]
    split
    · exact h
    · exact h.plant represents_dir represents_dir
  cases hm with
  | putFile blob hp hlen hhash =>
    simp only [Op.model, hp]
    exact hput hw hfits
  | putBytes blob hp =>
    simp only [Op.model, hp]
    exact hput hw hfits
  | putStreamTrusted blob hp hlen hhash =>
    simp only [Op.model, hp]
    exact hput hw hfits
  | mkdir hp =>
    simp only [Op.model, hp]
    exact hmkdir _
  | addDirTrusted hp =>
    simp only [Op.model, hp]
    exact hmkdir _
  | @remove vaultPath p hp =>
    simp only [Op.model, hp]
    exact h.prune p
  | @rename vaultFrom vaultTo p q hp hq =>
    simp only [Op.model, hp, hq, Change.tree, FileTree.rename]
    split
    · exact h
    · exact h.move represents_dir
  | @setAttr vaultPath p mtime mode hp =>
    simp only [Op.model, hp]
    refine h.update ?_
    have hr := h p
    generalize u p = x at hr
    generalize t p = y at hr
    cases hr with
    | none => exact .none
    | some hr => exact .some (hr.setAttr mtime mode)

/-- The entries of the batch stand for the nodes of `t`. -/
structure VaultBatch.Mirrors (b : VaultBatch P) (t : FileTree) : Prop extends b.Shaped where
  normal : ∀ e ∈ b.manifest.entries, NormalPath e.path
  tree : Related (EntryAttrs.Represents P b.reader.suite.aeadAlg b.reader.headerBytes b.host.blobs.shown)
    (treeOf b.manifest.entries) t
  ids : b.ids.Nodup
  fresh : b.host.rng.Fresh (· ∈ b.ids)
  kept : b.changed = true ∨ b.manifest = b.reader.manifest

/-- Writing blobs under new ids changes nothing for the entries there are. -/
private theorem VaultBatch.Mirrors.tree_of_drew (hb : b.Mirrors t) {k : Nat} (hd : b.host.Drew k b'.host) :
    Related (EntryAttrs.Represents P b.reader.suite.aeadAlg b.reader.headerBytes b'.host.blobs.shown)
      (treeOf b.manifest.entries) t := by
  refine hb.tree.imp fun p a n ha hr => hr.of_blobs fun id hid => ?_
  have hmem : id ∈ b.manifest.blobIds :=
    List.mem_filterMap.2 ⟨_, (treeOf_eq_some_iff hb.nodup).1 ha, hid⟩
  exact hd.blobs.shown fun hn => hb.fresh.not_drawn hn (List.mem_append_left _ hmem)

/-- An operation that fits does to the entries what it does to the model. -/
theorem Op.run_mirrors (hb : b.Mirrors t) {op : Op} (hfits : op.Fits P b.manifest.entries) :
    wp (op.run P) (fun r b' => b'.reader = b.reader ∧ b'.Mirrors (if r = .ok () then op.model t else t)) b := by
  refine wp_mono (wp_and (wp_and (Op.run_spec hb.toIndexed op) (Op.run_shaped hb.toShaped op))
    (op.run_blind.drew b)) ?_
  rintro r b' ⟨⟨hspec, hshaped, -⟩, hreader, k, hdrew, hids⟩
  have hold := hb.tree_of_drew hdrew
  obtain ⟨hnd, hfresh⟩ := hb.fresh.ids hb.ids hids
  rw [← hdrew.rng] at hfresh
  refine ⟨hreader, hshaped, ?_, ?_, hnd, hfresh, ?_⟩
  · cases r with
    | ok u =>
      obtain ⟨c, hdid⟩ := hspec
      rw [hdid.manifest]
      exact normal_apply hb.normal hdid.pre (hfits c hdid.makes hdid.pre)
    | error e =>
      obtain ⟨ps, hstuck⟩ := hspec
      rw [hstuck.manifest, hstuck.closed hb.closed]
      simpa using hb.normal
  · rw [hreader]
    cases r with
    | ok u =>
      obtain ⟨c, hdid⟩ := hspec
      rw [hdid.manifest, if_pos rfl, treeOf_apply hb.nodup (closedEntries_iff.1 hb.closed) hdid.pre]
      exact hdid.makes.related hdid.writes (hfits c hdid.makes hdid.pre) hold
    | error e =>
      obtain ⟨ps, hstuck⟩ := hspec
      rw [hstuck.manifest, hstuck.closed hb.closed, if_neg (by simp)]
      simpa using hold
  · rw [hreader]
    cases r with
    | ok u =>
      obtain ⟨c, hdid⟩ := hspec
      rcases hdid.changed with hch | ⟨hch, hsame, -⟩
      · exact Or.inl hch
      · rw [hch, hdid.manifest, hsame]
        exact hb.kept
    | error e =>
      obtain ⟨ps, hstuck⟩ := hspec
      rw [hstuck.changed, hstuck.manifest, hstuck.closed hb.closed]
      simpa using hb.kept

/-- So does a closure whose calls all fit. -/
theorem Edits.run_mirrors (hb : b.Mirrors t) {edits : Edits}
    (h : edits.Along (fun b op => op.Fits P b.manifest.entries) b) :
    wp (edits.run P) (fun _ b' => b'.reader = b.reader ∧ b'.Mirrors (edits.model b t)) b := by
  induction edits generalizing b t with
  | done r =>
    simp only [Edits.run, wp_liftM]
    exact ⟨trivial, hb⟩
  | call op next ih =>
    simp only [Edits.run, wp_bind, wp_attempt]
    obtain ⟨hreader, hb'⟩ := Op.run_mirrors hb h.1
    have hrest := wp_mono (ih _ hb' h.2) fun _ _ h => And.intro (h.1.trans hreader) h.2
    exact hrest

end Op

/-! ### Runs -/

/-- The reader's entries stand for the nodes of `t`, and the blobs it queues for deletion are none of theirs. -/
structure VaultReaderV2.Mirrors (r : VaultReaderV2 P) (h : Host P) (t : FileTree) : Prop where
  shaped : r.manifest.Shaped
  normal : ∀ e ∈ r.manifest.entries, NormalPath e.path
  tree : Related (EntryAttrs.Represents P r.suite.aeadAlg r.headerBytes h.blobs.shown) (treeOf r.manifest.entries) t
  view : r.view = viewOf r.manifest
  pending : ∀ id ∈ r.pendingReclaim, id ∉ r.manifest.blobIds
  fresh : h.rng.Fresh fun id => id ∈ r.manifest.blobIds ∨ id ∈ r.pendingReclaim

/-- The reader in memory stands for `t`, and it is the one that opening the vault again yields. -/
structure World.Mirrors (w : World P) (identity : Identity) (t : FileTree) : Prop where
  reader : ∀ r, w.reader = some r → r.Belongs identity ∧ w.host.top.shown .header = some r.headerBytes ∧
    r.Mirrors w.host t
  disk : ∀ r', openVault P w.host.top.shown identity = .ok r' →
    ∃ r, w.reader = some r ∧ r' = r.reopened

section Run

variable {w : World P} {identity : Identity} {t : FileTree} {r : VaultReaderV2 P}

theorem VaultReaderV2.Mirrors.new {h : Host P} (hr : r.Mirrors h t) (limit : Option Nat) :
    (VaultBatch.new r limit h).Mirrors t := by
  have hids : (VaultBatch.new r limit h).ids = r.manifest.blobIds := List.append_nil _
  refine ⟨hr.shaped.new limit h, hr.normal, hr.tree, ?_, ?_, Or.inr rfl⟩
  · rw [hids]
    exact hr.shaped.ids
  · rw [hids]
    exact hr.fresh.mono fun _ hid => Or.inl hid

/-- The same reader on a machine that has the same blobs for it. -/
theorem VaultReaderV2.Mirrors.of_shown {h h' : Host P} (hr : r.Mirrors h t)
    (hblobs : ∀ id ∈ r.manifest.blobIds, h'.blobs.shown id = h.blobs.shown id)
    (hrng : ∃ k, h'.rng = fun i => h.rng (i + k)) : r.Mirrors h' t := by
  obtain ⟨k, hk⟩ := hrng
  refine ⟨hr.shaped, hr.normal, hr.tree.imp fun p a n ha hrep => hrep.of_blobs fun id hid => ?_, hr.view, hr.pending,
    hk ▸ hr.fresh.skip k⟩
  exact hblobs id (List.mem_filterMap.2 ⟨_, (treeOf_eq_some_iff hr.shaped.nodup).1 ha, hid⟩)

/-- A commit that fails, or seals nothing, leaves the reader standing for what it stood for. -/
private theorem World.Mirrors.same {t' : FileTree} (hw : w.Mirrors identity t) (hr : w.reader = some r) {h : Host P}
    (htop : h.top = w.host.top) (hm : r.Mirrors h t') : World.Mirrors ⟨h, some r⟩ identity t' := by
  obtain ⟨hbel, hheader, -⟩ := hw.reader r hr
  refine ⟨?_, fun r' hr' => ?_⟩
  · rintro _ ⟨⟩
    exact ⟨hbel, by rw [← hheader, ← htop], hm⟩
  · simp only [htop] at hr'
    obtain ⟨r₀, hr₀, e⟩ := hw.disk r' hr'
    rw [hr, Option.some.injEq] at hr₀
    exact ⟨r, rfl, hr₀ ▸ e⟩

/-- A commit whose calls fit does to the vault what it does to the model. -/
theorem commitWith_mirrors (hw : w.Mirrors identity t) (hr : w.reader = some r) {c : CommitCall}
    (hfits : c.edits.Along (fun b op => op.Fits P b.manifest.entries) (VaultBatch.new r c.limit w.host)) :
    wp (commitWith c.limit c.edits c.io) (fun res s => World.Mirrors ⟨s.host, some s.reader⟩ identity
      (if res = .ok () then c.edits.model (VaultBatch.new r c.limit w.host) t else t)) ⟨r, w.host⟩ := by
  obtain ⟨hbel, hheader, hm⟩ := hw.reader r hr
  refine wp_mono (commitWith_outcome ⟨r, w.host⟩ c.limit c.edits c.io) ?_
  obtain ⟨k, hed⟩ := edited_spec ⟨r, w.host⟩ c.limit c.edits
  obtain ⟨hreader, hb⟩ : (Session.edited ⟨r, w.host⟩ c.limit c.edits).2.reader = r ∧
      (Session.edited ⟨r, w.host⟩ c.limit c.edits).2.Mirrors (c.edits.model (VaultBatch.new r c.limit w.host) t) :=
    Edits.run_mirrors (hm.new c.limit) hfits
  generalize Session.edited ⟨r, w.host⟩ c.limit c.edits = p at hed hreader hb
  obtain ⟨edited, b⟩ := p
  intro res s hout
  simp only at hed hreader hb hout
  have hnew : ∀ id ∈ w.host.rng.drawn k, id ∉ r.manifest.blobIds ∧ id ∉ r.pendingReclaim := fun id hid =>
    not_or.1 (hm.fresh.not_drawn hid)
  have hblobs : ∀ id ∈ r.manifest.blobIds, b.host.blobs.shown id = w.host.blobs.shown id := fun id hid =>
    hed.drew.blobs.shown fun hd => (hnew id hd).1 hid
  cases hout with
  | unchanged _ hch =>
    rw [if_pos rfl]
    refine hw.same hr hed.drew.top ?_
    have hman : b.manifest = r.manifest := by
      rcases hb.kept with h | h
      · rw [hch] at h
        simp at h
      · rw [h, hreader]
    have hold := hm.of_shown hblobs ⟨k, hed.drew.rng⟩
    have htree := hb.tree
    rw [hreader, hman] at htree
    exact ⟨hm.shaped, hm.normal, htree, hm.view, hm.pending, hold.fresh⟩
  | @failed e h hhost =>
    rw [if_neg (by simp)]
    have hstaged : ∀ id ∈ r.manifest.blobIds, id ∉ b.staged := fun id hid hs => (hnew id (hed.staged hs)).1 hid
    rcases hhost with rfl | ⟨j, rfl⟩
    · refine hw.same hr hed.drew.top (hm.of_shown (fun id hid => ?_) ⟨k, hed.drew.rng⟩)
      exact (shown_unlinkAll_of_not_mem _ (hstaged id hid)).trans (hblobs id hid)
    · refine hw.same hr hed.drew.top (hm.of_shown (fun id hid => ?_) ⟨j + k, ?_⟩)
      · refine (shown_unlinkAll_of_not_mem _ (hstaged id hid)).trans ?_
        rw [shown_sync]
        exact hblobs id hid
      · simp only [hed.drew.rng, Nat.add_assoc]
  | @sealed state nonce h _ _ hsealed =>
    obtain ⟨hnext, hdrawn, -, rfl⟩ := hsealed
    have hnonce := randomVec_length hdrawn
    rw [if_pos rfl]
    obtain ⟨hnd, hfresh⟩ := (hm.fresh.mono fun _ hid => Or.inl hid).ids hm.shaped.ids hed.ids
    -- what is reclaimed is neither referred to by the new manifest nor drawn again
    have hqueue : ∀ id ∈ r.pendingReclaim ++ b.superseded, id ∉ b.manifest.blobIds := by
      intro id hid hmem
      rcases List.mem_append.1 hid with hid | hid
      · rcases List.mem_append.1 (hed.ids.subset (List.mem_append_left _ hmem)) with hold | hd
        · exact hm.pending id hid hold
        · exact (hnew id hd).2 hid
      · rw [VaultBatch.ids, List.nodup_append] at hnd
        exact hnd.2.2 id hmem id hid rfl
    have hfresh' : Rng.Fresh (fun i => w.host.rng (i + k))
        fun id => id ∈ b.manifest.blobIds ∨ id ∈ r.pendingReclaim ++ b.superseded := by
      refine ((hm.fresh.shift k).mono fun id hid => ?_)
      have hids : ∀ id ∈ b.ids, (id ∈ r.manifest.blobIds ∨ id ∈ r.pendingReclaim) ∨ id ∈ w.host.rng.drawn k :=
        fun id hid => (List.mem_append.1 (hed.ids.subset hid)).imp_left Or.inl
      rcases hid with hid | hid
      · exact hids id (List.mem_append_left _ hid)
      · rcases List.mem_append.1 hid with hid | hid
        · exact Or.inl (Or.inr hid)
        · exact hids id (List.mem_append_right _ hid)
    have hsealed : ∀ h : Host P, h.top = (b.host.top.write .manifest (r.sealedRaw b.manifest state nonce)).sync
        c.io.vaultSync → (h.rng = fun i => b.host.rng (i + 1)) →
        (∀ id ∈ b.manifest.blobIds, h.blobs.shown id = b.host.blobs.shown id) →
        World.Mirrors ⟨h, some (r.committed b state c.io.vaultSync)⟩ identity
          (c.edits.model (VaultBatch.new r c.limit w.host) t) := by
      intro h htop hrng hshown
      have hheader' : h.top.shown .header = some r.headerBytes := by
        rw [htop, shown_sync, shown_write_of_ne (by decide), hed.drew.top, hheader]
      have hraw : h.top.shown .manifest = some (r.sealedRaw b.manifest state nonce) := by
        rw [htop, shown_sync, shown_write_self]
      have hpending : ∀ id ∈ (r.committed b state c.io.vaultSync).pendingReclaim, id ∈ r.pendingReclaim ++ b.superseded := by
        intro id hid
        simp only [VaultReaderV2.committed] at hid
        split at hid
        · simp at hid
        · exact hid
      refine ⟨?_, fun r' hr' => ⟨_, rfl, ((openVault_sealed hbel hnext hnonce hheader' hraw).1 hr').2.2.2⟩⟩
      rintro _ ⟨⟩
      refine ⟨⟨hbel.header, hbel.owner⟩, hheader', ⟨hb.nodup, hb.closed, hnd.sublist (List.sublist_append_left _ _)⟩,
        hb.normal, ?_, rfl, fun id hid => hqueue id (hpending id hid), ?_⟩
      · have htree := hb.tree
        rw [hreader] at htree
        refine htree.imp fun p a n ha hrep => hrep.of_blobs fun id hid => ?_
        exact hshown id (List.mem_filterMap.2 ⟨_, (treeOf_eq_some_iff hb.nodup).1 ha, hid⟩)
      · have hrng' : h.rng = fun i => w.host.rng (i + 1 + k) := by rw [hrng, hed.drew.rng]
        show h.rng.Fresh _
        rw [hrng']
        exact (hfresh'.skip 1).mono fun id hid => hid.imp_right (hpending id)
    refine hsealed _ ?_ ?_ ?_
    · split <;> rfl
    · split <;> rfl
    · intro id hid
      have hsync := congrFun (shown_sync b.host.blobs c.io.blobsSync) id
      split
      · exact (shown_unlinkAll_of_not_mem _ fun hmem => hqueue id hmem hid).trans hsync
      · exact hsync

theorem VaultReaderV2.Mirrors.valid {h : Host P} (hm : r.Mirrors h t) :
    ∀ id ∈ r.manifest.blobIds, validateBlobId id = .ok () := by
  intro id hid
  obtain ⟨e, he, hfile⟩ := List.mem_filterMap.1 hid
  have hrel := hm.tree e.path
  rw [treeOf_of_mem hm.shaped.nodup he] at hrel
  generalize t e.path = y at hrel
  cases hrel with
  | @some _ n hrep =>
    cases hc : n.content with
    | dir =>
      rw [(hrep.dir hc).2.2] at hfile
      simp at hfile
    | file bytes =>
      obtain ⟨⟨-, -, -, -, id', _, _, _, hid', -, -, hvalid, -⟩, -⟩ := hrep.file bytes hc
      rw [hfile, Option.some.injEq] at hid'
      exact hid' ▸ hvalid

theorem collectGarbage_mirrors (hw : w.Mirrors identity t) (hr : w.reader = some r) (io : GcIo) :
    wp (collectGarbage io) (fun _ s => World.Mirrors ⟨s.host, some s.reader⟩ identity t) ⟨r, w.host⟩ := by
  refine wp_mono (collectGarbage_spec io ⟨r, w.host⟩) ?_
  rintro res ⟨r', h⟩ ⟨⟨pending, rfl, hsub⟩, hrng, htop, -, -, -, hshown⟩
  obtain ⟨hbel, hheader, hm⟩ := hw.reader r hr
  have htop' : h.top.shown = w.host.top.shown := by
    rcases htop with ⟨htop, -⟩ | htop
    · rw [htop]
    · rw [htop, shown_sync]
  have hm' : r.Mirrors h t := hm.of_shown (fun id hid => hshown id (isGarbage_of_mem hid (hm.valid id hid))) ⟨0, hrng⟩
  refine ⟨?_, fun r' hr' => ?_⟩
  · rintro _ ⟨⟩
    refine ⟨⟨hbel.header, hbel.owner⟩, by simp only [htop', hheader], hm'.shaped, hm'.normal, hm'.tree, hm'.view,
      fun id hid => hm'.pending id (hsub hid), hm'.fresh.mono fun id hid => hid.imp_right fun hid => hsub hid⟩
  · simp only [htop'] at hr'
    obtain ⟨r₀, hr₀, e⟩ := hw.disk r' hr'
    rw [hr, Option.some.injEq] at hr₀
    exact ⟨_, rfl, hr₀ ▸ e⟩

theorem World.Mirrors.reopen (hw : w.Mirrors identity t) : (w.step identity .reopen).Mirrors identity t := by
  refine ⟨fun r' hr' => ?_, fun r' hr' => ⟨r', ?_, ?_⟩⟩
  · obtain ⟨r, hr, rfl⟩ := hw.disk r' (openVault_of_toOption hr')
    obtain ⟨hbel, hheader, hm⟩ := hw.reader r hr
    refine ⟨⟨hbel.header, hbel.owner⟩, hheader, hm.shaped, hm.normal, hm.tree, hm.view, by simp, ?_⟩
    exact hm.fresh.mono fun id hid => hid.imp_right fun hid => by simp at hid
  · have hopen : openVault P w.host.top.shown identity = .ok r' := hr'
    simp only [World.step, hopen, Except.toOption]
  · obtain ⟨r, -, rfl⟩ := hw.disk r' hr'
    rfl

/-- An event whose calls fit does to the vault what it does to the model. -/
theorem World.Mirrors.step (hw : w.Mirrors identity t) {e : Event} (he : e.Calm)
    (hfits : w.Allows (fun b op => op.Fits P b.manifest.entries) e) :
    (w.step identity e).Mirrors identity (w.modelStep t e) := by
  cases e with
  | commit c =>
    cases hr : w.reader with
    | none => simpa only [World.step, World.onReader, World.modelStep, hr] using hw
    | some r =>
      simp only [World.step, World.onReader, World.modelStep, hr]
      exact commitWith_mirrors hw hr (hfits r hr)
  | collectGarbage io =>
    exact World.onReader_induction (World.Mirrors · identity t) hw fun r hr => collectGarbage_mirrors hw hr io
  | reopen => exact hw.reopen
  | crash => exact he.elim

theorem World.Mirrors.run {events : List Event} (hw : w.Mirrors identity t) (he : ∀ e ∈ events, e.Calm)
    (hfits : w.Along (fun b op => op.Fits P b.manifest.entries) identity events) :
    (w.run identity events).Mirrors identity (w.model identity t events) := by
  induction events generalizing w t with
  | nil => exact hw
  | cons e events ih =>
    exact ih (hw.step (he e (by simp)) hfits.1) (fun e' he' => he e' (by simp [he'])) hfits.2

/-- A new vault stands for the empty tree. -/
theorem Session.Created.mirrors {s : Session P} {h : Host P} (hs : s.Created identity h)
    (fresh : h.rng.Fresh fun _ => False) : World.Mirrors ⟨s.host, some s.reader⟩ identity fun _ => none := by
  obtain ⟨state, nonce, hstate, hnext, hnonce, hshown, -⟩ := hs.sealed
  obtain ⟨k, hk⟩ := hs.rng
  have hentries := hs.empty
  refine ⟨?_, fun r' hr' => ⟨_, rfl, ?_⟩⟩
  · rintro r ⟨⟩
    refine ⟨hs.belongs, hs.header.1, .of_empty hentries, by simp [hentries], ?_, hs.view, by simp [hs.pending], ?_⟩
    · refine .of_none (fun p => ?_) fun _ => rfl
      rw [treeOf_eq_none_iff, hentries]
      simp
    · rw [hk]
      exact (fresh.skip k).mono fun id hid => by simp [ManifestV2.blobIds, hentries, hs.pending] at hid
  · have hbel : VaultReaderV2.Belongs { s.reader with state := none } identity := ⟨hs.belongs.header, hs.belongs.owner⟩
    obtain ⟨-, -, -, rfl⟩ := (openVault_sealed hbel hnext hnonce hs.header.1 hshown).1 hr'
    simp only [VaultReaderV2.opened, VaultReaderV2.adopt, VaultReaderV2.reopened, ← hstate, ← hs.view]

end Run

/-! ### The refinement -/

/-- What the vault shows through the reader is the tree `t`: its paths are normal and have one entry each, with the kind,
size and metadata of the node, and files read back as their bytes. -/
structure VaultReaderV2.Refines (r : VaultReaderV2 P) (blobs : Str → Option Bytes) (t : FileTree) : Prop where
  distinct : (pathsOf r.manifest.entries).Nodup
  normal : ∀ p, t p ≠ none → NormalPath p
  entries : ∀ p, (entryAt r.manifest.entries p).map (fun e => (e.kind, e.size, e.mtime, e.mode)) =
    (t p).map fun n => (n.kind, n.size, n.mtime, n.mode)
  view : r.view = viewOf r.manifest
  contents : ∀ p n bytes, t p = some n → n.content = .file bytes → r.readEntryToWriter blobs p = .ok bytes

theorem EntryAttrs.Represents.meta_eq {alg : AeadAlg} {headerBytes : P.Raw} {blobs : Str → Option Bytes}
    {a : EntryAttrs} {n : Node} (h : a.Represents P alg headerBytes blobs n) : a.kind = n.kind ∧ a.size = n.size := by
  unfold Node.kind Node.size
  cases hc : n.content with
  | dir => exact ⟨(h.dir hc).1, (h.dir hc).2.1⟩
  | file bytes => exact ⟨(h.file bytes hc).1.kind, (h.file bytes hc).1.size⟩

theorem VaultReaderV2.Mirrors.refines {r : VaultReaderV2 P} {h : Host P} {t : FileTree} (hm : r.Mirrors h t) :
    r.Refines h.blobs.shown t := by
  have hentry : ∀ {p n}, t p = some n → ∃ e, entryAt r.manifest.entries p = some e ∧ e ∈ r.manifest.entries ∧
      e.path = p ∧ e.toEntryAttrs.Represents P r.suite.aeadAlg r.headerBytes h.blobs.shown n := by
    intro p n hn
    obtain ⟨a, ha, hrep⟩ := hm.tree.exists_left hn
    obtain ⟨e, he, rfl⟩ := Option.map_eq_some_iff.1 ha
    obtain ⟨hmem, hpath⟩ := Keyed.lookup_mem he
    exact ⟨e, he, hmem, hpath, hrep⟩
  refine ⟨hm.shaped.nodup, fun p hp => ?_, fun p => ?_, hm.view, fun p n bytes hn hc => ?_⟩
  · obtain ⟨n, hn⟩ := Option.ne_none_iff_exists'.1 hp
    obtain ⟨e, -, hmem, rfl, -⟩ := hentry hn
    exact hm.normal e hmem
  · cases hn : t p with
    | none =>
      have hnone : entryAt r.manifest.entries p = none := treeOf_eq_none.1 (hm.tree.eq_none_iff.2 hn)
      rw [hnone]
      rfl
    | some n =>
      obtain ⟨e, he, -, -, hrep⟩ := hentry hn
      rw [he, Option.map_some, Option.map_some, hrep.meta_eq.1, hrep.meta_eq.2, hrep.mtime, hrep.mode]
  · obtain ⟨e, he, hmem, rfl, hrep⟩ := hentry hn
    obtain ⟨hs, hchunks⟩ := hrep.file bytes hc
    exact readEntryToWriter_of_stores (hm.normal e hmem) he hs hchunks

/-- After any commits, garbage collections and reopenings of a new vault, as long as each call fits, the reader shows
the tree that the successful operations of the successful commits make of the empty one. -/
theorem vault_refines {suite : SuiteId} {name : Str} {createdAt : Int} {objectId : Option Str} {io : CreateIo}
    {identity : Identity} {h h' : Host P} {r r' : VaultReaderV2 P} {events : List Event}
    (fresh : h.rng.Fresh fun _ => False)
    (hcreate : exec (createFor P identity suite name createdAt objectId io) h = (.ok r, h'))
    (hcalm : ∀ e ∈ events, e.Calm)
    (hfits : World.Along (fun b op => op.Fits P b.manifest.entries) identity ⟨h', some r⟩ events)
    (hr' : (World.run identity ⟨h', some r⟩ events).reader = some r') :
    r'.Refines (World.run identity ⟨h', some r⟩ events).host.blobs.shown
      (World.model identity ⟨h', some r⟩ (fun _ => none) events) := by
  have hw : World.Mirrors ⟨h', some r⟩ identity fun _ => none :=
    Session.Created.mirrors (of_wp (createFor_spec identity suite name createdAt objectId io h) hcreate) fresh
  exact ((hw.run hcalm hfits).reader r' hr').2.2.refines

/-! A file is put and its directory renamed.  The new path is short in the first run; in the second it has 64 components,
so the file's has 65, and the reader that has just renamed it refuses to read it. -/

private def renamed (dst : Str) : List Event :=
  [Sym.put "d/x" [1] .fine, .commit ⟨none, .ofList [.rename "d".toList dst], .fine⟩]

set_option maxRecDepth 10000 in
private theorem withFile_ok : Sym.withFile.reader.isSome = true := by decide

private def renamedWorld : World Sym := Sym.world.run Sym.alice (renamed "e".toList ++ [.reopen])

set_option maxRecDepth 10000 in
private theorem renamedWorld_ok : renamedWorld.reader.isSome = true := by decide

set_option maxRecDepth 10000 in
private theorem renamed_fits : Sym.world.Along (fun b op => op.Fits Sym b.manifest.entries) Sym.alice
    (renamed "e".toList ++ [.reopen]) := by
  refine ⟨fun r _ => Edits.along_single ?_, fun r hr => Edits.along_single ?_, trivial, trivial⟩
  · rintro c ⟨⟩ -
    show numChunks 1 defaultChunkSize ≠ u32Max + 1
    decide
  · rintro c (_ | _ | _ | _ | _ | _ | ⟨hp, hq⟩ | _) - -
    rw [show normalizeStoredPath "d".toList = .ok "d".toList by decide, Except.ok.injEq] at hp
    rw [show normalizePath "e".toList = .ok "e".toList by decide, Except.ok.injEq] at hq
    subst hp hq
    have hget : Sym.withFile.reader = some (Sym.withFile.reader.get withFile_ok) := (Option.some_get _).symm
    obtain rfl : Sym.withFile.reader.get withFile_ok = r := Option.some.inj (hget.symm.trans hr)
    show ∀ e ∈ (Sym.withFile.reader.get withFile_ok).manifest.entries, _
    decide

set_option maxRecDepth 10000 in
theorem vault_refines_renamed : (renamedWorld.reader.get renamedWorld_ok).readEntryToWriter
    renamedWorld.host.blobs.shown "e/x".toList = .ok [1] := by
  have fresh : (Sym.host 16).rng.Fresh fun _ => False :=
    Rng.fresh_of_finite 16 (fun i hi => if_neg (by omega)) (by decide) fun _ _ => id
  have hcreate : exec (createFor Sym Sym.alice .classic "v".toList 0 none .fine) (Sym.host 16) =
      (.ok Sym.session.reader, Sym.session.host) := Prod.ext (eq_ok_get Sym.created_ok) rfl
  have hcalm : ∀ e ∈ renamed "e".toList ++ [.reopen], e.Calm := by
    rintro e (_ | ⟨_, _ | ⟨_, _ | ⟨_, h⟩⟩⟩)
    · trivial
    · trivial
    · trivial
    · cases h
  have h := vault_refines fresh hcreate hcalm renamed_fits (Option.some_get renamedWorld_ok).symm
  have hmodel : World.model Sym.alice Sym.world (fun _ => none) (renamed "e".toList ++ [.reopen]) "e/x".toList =
      some ⟨.file [1], none, none⟩ := by decide
  exact h.contents _ _ [1] hmodel rfl

private def deepWorld : World Sym := Sym.world.run Sym.alice (renamed Sym.deepPath)

set_option maxRecDepth 100000 in
private theorem deepWorld_ok : deepWorld.reader.isSome = true := by decide

set_option maxRecDepth 100000 in
theorem vault_refines_fails : ¬ (deepWorld.reader.get deepWorld_ok).Refines deepWorld.host.blobs.shown
    (World.model Sym.alice Sym.world (fun _ => none) (renamed Sym.deepPath)) := by
  intro h
  have hmodel : World.model Sym.alice Sym.world (fun _ => none) (renamed Sym.deepPath) (Sym.deepPath ++ "/x".toList) =
      some ⟨.file [1], none, none⟩ := by decide +kernel
  have hread : (deepWorld.reader.get deepWorld_ok).readEntryToWriter deepWorld.host.blobs.shown
      (Sym.deepPath ++ "/x".toList) = .error (.vault "path is too deep".toList) := by decide +kernel
  have hcontents := h.contents _ _ [1] hmodel rfl
  exact absurd (hcontents.symm.trans hread) (by simp)

end FileSec
