import FileSec.Refinement
import FileSec.Streaming

/-!
# Copying vaults

The builders that fill a new vault from another one call one trusted operation for each entry of the source, in order.
In the file tree this plants the entries one after the other, and what comes out is their tree, with directories above
each of them (`addAll_eq`).  So a copy lists what the source lists and reads back the same bytes (`copies_of_mirrors`).
-/

namespace FileSec

open CrashDir PathTree Prog SepPath

variable {P : Prims}

/-! ### Trees of entries -/

/-- What the trusted operations make of an entry; a directory gets no metadata. -/
def VaultEntry.node (v : VaultEntry) : Node :=
  match v.kind with
  | .dir => .dir
  | .file => ⟨.file v.content, v.mtime, v.mode⟩

/-- Add an entry to a tree. -/
def FileTree.add (t : FileTree) (v : VaultEntry) : FileTree :=
  match v.kind with
  | .dir => t.mkdir v.path
  | .file => t.put v.path v.content v.mtime v.mode

/-- Add entries to a tree, one after the other. -/
def FileTree.addAll (t : FileTree) (vs : List VaultEntry) : FileTree := vs.foldl FileTree.add t

/-- The tree of the entries: each at its path, and directories above them. -/
def copyTree (vs : List VaultEntry) : FileTree := fun p =>
  match vs.find? (·.path = p) with
  | some v => some v.node
  | none => if vs.any fun v => Below '/' p v.path then some .dir else none

variable {vs : List VaultEntry} {v : VaultEntry} {p : Str}

theorem copyTree_of_mem (hnd : (vs.map (·.path)).Nodup) (hv : v ∈ vs) : copyTree vs v.path = some v.node := by
  unfold copyTree
  have hfind : vs.find? (·.path = v.path) = some v := by
    cases h : vs.find? (·.path = v.path) with
    | none =>
      rw [List.find?_eq_none] at h
      exact absurd (by simp) (h v hv)
    | some w =>
      have hw := List.mem_of_find?_eq_some h
      have hpath : w.path = v.path := by simpa using List.find?_some h
      rw [List.inj_on_of_nodup_map hnd hw hv hpath]
  rw [hfind]

theorem copyTree_of_not_mem (hp : p ∉ vs.map (·.path)) :
    copyTree vs p = if vs.any fun v => Below '/' p v.path then some .dir else none := by
  unfold copyTree
  have hfind : vs.find? (·.path = p) = none := by
    rw [List.find?_eq_none]
    intro w hw hpath
    exact hp (List.mem_map.2 ⟨w, hw, by simpa using hpath⟩)
  rw [hfind]

/-- The node at a path comes from the entry there, or from one below. -/
theorem copyTree_eq_some {n : Node} (h : copyTree vs p = some n) :
    (∃ v ∈ vs, v.path = p ∧ n = v.node) ∨ n = .dir ∧ p ∉ vs.map (·.path) ∧ ∃ v ∈ vs, Below '/' p v.path := by
  by_cases hp : p ∈ vs.map (·.path)
  · unfold copyTree at h
    cases hfind : vs.find? (·.path = p) with
    | none =>
      rw [List.find?_eq_none] at hfind
      obtain ⟨w, hw, hpath⟩ := List.mem_map.1 hp
      exact absurd (by simpa using hpath) (hfind w hw)
    | some w =>
      rw [hfind, Option.some.injEq] at h
      exact Or.inl ⟨w, List.mem_of_find?_eq_some hfind, by simpa using List.find?_some hfind, h.symm⟩
  · rw [copyTree_of_not_mem hp] at h
    split at h
    · rename_i hany
      rw [Option.some.injEq] at h
      obtain ⟨w, hw, hb⟩ := List.any_eq_true.1 hany
      exact Or.inr ⟨h.symm, hp, w, hw, by simpa using hb⟩
    · cases h

/-- Adding an entry under a new path. -/
theorem copyTree_concat (hnew : v.path ∉ vs.map (·.path)) : copyTree (vs ++ [v]) = (copyTree vs).add v := by
  have hat : copyTree (vs ++ [v]) v.path = some v.node := by
    unfold copyTree
    have hfind : vs.find? (·.path = v.path) = none := by
      rw [List.find?_eq_none]
      intro w hw hpath
      exact hnew (List.mem_map.2 ⟨w, hw, by simpa using hpath⟩)
    rw [List.find?_append, hfind]
    simp
  have hother : ∀ r, r ≠ v.path → copyTree (vs ++ [v]) r =
      if Below '/' r v.path ∧ copyTree vs r = none then some .dir else copyTree vs r := by
    intro r hr
    unfold copyTree
    rw [List.find?_append]
    cases hfind : vs.find? (·.path = r) with
    | some w => simp
    | none =>
      have hv : [v].find? (·.path = r) = none := by simp [Ne.symm hr]
      rw [Option.none_or, hv, List.any_append]
      by_cases hany : (vs.any fun v => Below '/' r v.path) = true
      · simp [hany]
      · by_cases hb : Below '/' r v.path
        · simp [hany, hb]
        · simp [hany, hb]
  have hplant : copyTree (vs ++ [v]) = plant '/' .dir (copyTree vs) v.path v.node := by
    funext r
    unfold plant
    by_cases hr : r = v.path
    · rw [hr, Function.update_self, hat]
    · rw [Function.update_of_ne hr, hother r hr]
      rfl
  unfold FileTree.add
  cases hk : v.kind with
  | file =>
    rw [hplant, VaultEntry.node, hk]
    rfl
  | dir =>
    have hnode : v.node = .dir := by rw [VaultEntry.node, hk]
    show copyTree (vs ++ [v]) = FileTree.mkdir (copyTree vs) v.path
    unfold FileTree.mkdir
    split
    · rename_i hsome
      -- the directory is there already, and so is all above it
      rw [copyTree_of_not_mem hnew] at hsome
      split at hsome
      · rename_i hany
        obtain ⟨w, hw, hb⟩ := List.any_eq_true.1 hany
        funext r
        by_cases hr : r = v.path
        · rw [hr, hat, hnode, copyTree_of_not_mem hnew, if_pos hany]
        · rw [hother r hr, if_neg]
          rintro ⟨hrv, hnone⟩
          have hrw : Below '/' r w.path := hrv.trans (by simpa using hb)
          unfold copyTree at hnone
          cases hfind : vs.find? (·.path = r) with
          | some x => simp [hfind] at hnone
          | none =>
            rw [hfind] at hnone
            have hany' : (vs.any fun v => Below '/' r v.path) = true := List.any_eq_true.2 ⟨w, hw, by simpa using hrw⟩
            simp [hany'] at hnone
      · simp at hsome
    · rw [hplant, hnode]

/-- Adding entries under distinct paths to the empty tree. -/
theorem addAll_eq (hnd : (vs.map (·.path)).Nodup) : FileTree.addAll (fun _ => none) vs = copyTree vs := by
  induction vs using List.reverseRecOn with
  | nil => rfl
  | append_singleton vs v ih =>
    rw [List.map_append, List.nodup_append] at hnd
    have hnew : v.path ∉ vs.map (·.path) := fun hin => hnd.2.2 _ hin _ (by simp) rfl
    have ih := ih hnd.1
    unfold FileTree.addAll at ih ⊢
    rw [List.foldl_append, ih, copyTree_concat hnew]
    rfl

theorem addAll_cons (t : FileTree) (v : VaultEntry) (vs : List VaultEntry) : t.addAll (v :: vs) = (t.add v).addAll vs := rfl

/-! ### The trusted operations -/

/-- The name and the time of a manifest. -/
def ManifestV2.label (m : ManifestV2) : Str × Int := (m.vaultName, m.createdAt)

section Steps

variable {b b' : VaultBatch P} {t : FileTree} {op : Op} {rest : Edits}

/-- A closure that begins with an operation succeeds when both the operation and the rest do. -/
theorem andThen_eq_ok (hrun : exec ((Edits.andThen op rest).run P) b = (.ok (), b')) :
    ∃ b₁, exec (op.run P) b = (.ok (), b₁) ∧ exec (rest.run P) b₁ = (.ok (), b') := by
  simp only [Edits.andThen, Edits.run, exec_bind, exec_attempt] at hrun
  rcases hop : exec (op.run P) b with ⟨r, b₁⟩
  rw [hop] at hrun
  cases r with
  | error e => simp [Edits.run] at hrun
  | ok u => exact ⟨b₁, rfl, hrun⟩

theorem andThen_model {b₁ : VaultBatch P} (hop : exec (op.run P) b = (.ok (), b₁)) :
    (Edits.andThen op rest).model b t = rest.model b₁ (op.model t) := by
  simp only [Edits.andThen, Edits.model, hop, if_true]

theorem andThen_along {cond : VaultBatch P → Op → Prop} (hop : cond b op) (hrest : ∀ b, rest.Along cond b) :
    (Edits.andThen op rest).Along cond b := by
  refine ⟨hop, ?_⟩
  cases (exec (op.run P) b).1 with
  | ok u => exact hrest _
  | error e => trivial

/-- A successful operation leaves a batch that stands for the model after it, with the same label. -/
private theorem run_ok (hb : b.Mirrors t) (hfits : op.Fits P b.manifest.entries)
    (hop : exec (op.run P) b = (.ok (), b')) :
    b'.Mirrors (op.model t) ∧ b'.manifest.label = b.manifest.label ∧ ∃ c, op.Makes P c := by
  have hmirrors := (of_wp (Op.run_mirrors hb hfits) hop).2
  rw [if_pos rfl] at hmirrors
  obtain ⟨c, hdid⟩ : ∃ c, op.Did c b b' := of_wp (Op.run_spec hb.toIndexed op) hop
  exact ⟨hmirrors, by rw [hdid.manifest]; rfl, c, hdid.makes⟩

/-- A directory of the source comes first. -/
theorem andThen_dir {path : Str} (hb : b.Mirrors t)
    (hrun : exec ((Edits.andThen (.addDirTrusted path) rest).run P) b = (.ok (), b')) :
    ∃ p b₁, normalizeStoredPath path = .ok p ∧ b₁.Mirrors (t.mkdir p) ∧ b₁.manifest.label = b.manifest.label ∧
      exec (rest.run P) b₁ = (.ok (), b') ∧
      (Edits.andThen (.addDirTrusted path) rest).model b t = rest.model b₁ (t.mkdir p) := by
  obtain ⟨b₁, hop, hrest⟩ := andThen_eq_ok hrun
  have hfits : (Op.addDirTrusted path).Fits P b.manifest.entries := by
    rintro c (_ | _) -
    trivial
  obtain ⟨hmirrors, hlabel, c, hmakes⟩ := run_ok hb hfits hop
  cases hmakes with
  | @addDirTrusted _ p hp =>
    have hmodel : (Op.addDirTrusted path).model t = t.mkdir p := by simp only [Op.model, hp]
    rw [hmodel] at hmirrors
    exact ⟨p, b₁, hp, hmirrors, hlabel, hrest, by rw [andThen_model hop, hmodel]⟩

theorem putStreamTrusted_fits {path : Str} {blake3 : Bytes} {size : Nat} {source : Result Bytes} {io : BlobIo}
    {mtime : Option Int} {mode : Option Nat} (hsize : numChunks size defaultChunkSize ≠ u32Max + 1) (es : List EntryV2) :
    (Op.putStreamTrusted path blake3 size source io mtime mode).Fits P es := by
  intro c hmakes _
  cases hmakes with
  | putStreamTrusted blob hp hlen hhash =>
    rw [← hlen] at hsize
    exact hsize

/-- A file of the source comes first. -/
theorem andThen_file {path : Str} {blake3 : Bytes} {size : Nat} {source : Result Bytes} {io : BlobIo}
    {mtime : Option Int} {mode : Option Nat} (hb : b.Mirrors t) (hsize : numChunks size defaultChunkSize ≠ u32Max + 1)
    (hrun : exec ((Edits.andThen (.putStreamTrusted path blake3 size source io mtime mode) rest).run P) b =
      (.ok (), b')) :
    ∃ p bytes b₁, normalizeStoredPath path = .ok p ∧ source = .ok bytes ∧ bytes.length = size ∧
      P.hashContent bytes = blake3 ∧ b₁.Mirrors (t.put p bytes mtime mode) ∧
      b₁.manifest.label = b.manifest.label ∧ exec (rest.run P) b₁ = (.ok (), b') ∧
      (Edits.andThen (.putStreamTrusted path blake3 size source io mtime mode) rest).model b t =
        rest.model b₁ (t.put p bytes mtime mode) := by
  obtain ⟨b₁, hop, hrest⟩ := andThen_eq_ok hrun
  obtain ⟨hmirrors, hlabel, c, hmakes⟩ := run_ok hb (putStreamTrusted_fits hsize _) hop
  cases hmakes with
  | @putStreamTrusted _ p _ _ bytes _ _ _ blob hp hlen hhash =>
    have hmodel : (Op.putStreamTrusted path blake3 size (.ok bytes) io mtime mode).model t = t.put p bytes mtime mode := by
      simp only [Op.model, hp]
    rw [hmodel] at hmirrors
    exact ⟨p, bytes, b₁, hp, rfl, hlen, hhash, hmirrors, hlabel, hrest, by rw [andThen_model hop, hmodel]⟩

end Steps

/-! ### The closure of `from_reader_v2` -/

/-- The entry of the source authenticates, with what `v` says of it. -/
structure VaultReaderV2.Authenticates (source : VaultReaderV2 P) (blobs : Str → Option Bytes) (e : EntryV2)
    (v : VaultEntry) : Prop where
  path : normalizeStoredPath e.path = .ok v.path
  kind : v.kind = e.kind
  mtime : v.mtime = e.mtime
  mode : v.mode = e.mode
  file : e.kind = .file → source.entryPlaintext blobs e = .ok (.ok v.content) ∧ v.content.length = e.size ∧
    P.hashContent v.content = e.blake3
  dir : e.kind = .dir → v.content = []

section Rekey

variable {source : VaultReaderV2 P} {blobs : Str → Option Bytes} {io : Nat → BlobIo} {es : List EntryV2}

theorem rekeyEdits_along (hsize : ∀ e ∈ es, e.kind = .file → numChunks e.size defaultChunkSize ≠ u32Max + 1) (i : Nat)
    (b : VaultBatch P) : (rekeyEdits source blobs io i es).Along (fun b op => op.Fits P b.manifest.entries) b := by
  induction es generalizing i b with
  | nil => trivial
  | cons e es ih =>
    have ih := fun b => ih (fun e' he' => hsize e' (List.mem_cons_of_mem _ he')) (i + 1) b
    unfold rekeyEdits
    cases hk : e.kind with
    | dir =>
      refine andThen_along ?_ ih
      rintro c (_ | _) -
      trivial
    | file =>
      dsimp only
      cases source.entryPlaintext blobs e with
      | error err => trivial
      | ok stream => exact andThen_along (putStreamTrusted_fits (hsize e List.mem_cons_self hk) _) ih

/-- When the closure succeeds, all entries of the source have authenticated and been added. -/
theorem rekeyEdits_copies (hsize : ∀ e ∈ es, e.kind = .file → numChunks e.size defaultChunkSize ≠ u32Max + 1) {i : Nat}
    {b b' : VaultBatch P} {t : FileTree} (hb : b.Mirrors t)
    (hrun : exec ((rekeyEdits source blobs io i es).run P) b = (.ok (), b')) :
    ∃ vs, List.Forall₂ (source.Authenticates blobs) es vs ∧ b'.manifest.label = b.manifest.label ∧
      (rekeyEdits source blobs io i es).model b t = t.addAll vs := by
  induction es generalizing i b t with
  | nil =>
    simp only [rekeyEdits, Edits.run, exec_liftM, Prod.mk.injEq] at hrun
    exact ⟨[], .nil, by rw [hrun.2], rfl⟩
  | cons e es ih =>
    have ih := @ih fun e' he' => hsize e' (List.mem_cons_of_mem _ he')
    unfold rekeyEdits at hrun ⊢
    cases hk : e.kind with
    | dir =>
      rw [hk] at hrun
      obtain ⟨p, b₁, hp, hb₁, hlabel, hrest, hmodel⟩ := andThen_dir hb hrun
      obtain ⟨vs, hvs, hlabel', hmodel'⟩ := ih hb₁ hrest
      refine ⟨⟨p, .dir, e.mtime, e.mode, []⟩ :: vs, .cons ⟨hp, hk.symm, rfl, rfl, ?_, fun _ => rfl⟩ hvs,
        hlabel'.trans hlabel, ?_⟩
      · rw [hk]
        rintro ⟨⟩
      · dsimp only at hmodel ⊢
        rw [hmodel, hmodel', addAll_cons]
        rfl
    | file =>
      rw [hk] at hrun
      dsimp only at hrun ⊢
      cases hstream : source.entryPlaintext blobs e with
      | error err =>
        rw [hstream] at hrun
        simp [Edits.run] at hrun
      | ok stream =>
        rw [hstream] at hrun
        dsimp only at hrun ⊢
        obtain ⟨p, bytes, b₁, hp, rfl, hlen, hhash, hb₁, hlabel, hrest, hmodel⟩ :=
          andThen_file hb (hsize e List.mem_cons_self hk) hrun
        obtain ⟨vs, hvs, hlabel', hmodel'⟩ := ih hb₁ hrest
        refine ⟨⟨p, .file, e.mtime, e.mode, bytes⟩ :: vs, .cons ⟨hp, hk.symm, rfl, rfl, fun _ => ⟨hstream, hlen, hhash⟩, ?_⟩
          hvs, hlabel'.trans hlabel, ?_⟩
        · rw [hk]
          rintro ⟨⟩
        · rw [hmodel, hmodel', addAll_cons]
          rfl

end Rekey

/-! ### Copies -/

/-- The reader lists the entries, and besides them at most directories above them; the files are those of the entries
and read back as their bytes. -/
structure VaultReaderV2.Copies (r : VaultReaderV2 P) (blobs : Str → Option Bytes) (vs : List VaultEntry) : Prop where
  distinct : (pathsOf r.manifest.entries).Nodup
  listed : ∀ v ∈ vs, ∃ e ∈ r.manifest.entries, e.path = v.path ∧ e.kind = v.kind ∧
    (v.kind = .file → e.size = v.content.length ∧ e.blake3 = P.hashContent v.content ∧ e.mtime = v.mtime ∧ e.mode = v.mode)
  contents : ∀ v ∈ vs, v.kind = .file → r.readEntryToWriter blobs v.path = .ok v.content
  only : ∀ e ∈ r.manifest.entries, e.path ∈ vs.map (·.path) ∨ e.kind = .dir ∧ ∃ v ∈ vs, Below '/' e.path v.path

/-- The total size of the files among the entries. -/
def fileSize (vs : List VaultEntry) : Nat := ((vs.filter fun v => v.kind = .file).map (·.content.length)).sum

section Copies

variable {r : VaultReaderV2 P} {h : Host P}

theorem VaultEntry.node_kind (v : VaultEntry) : v.node.kind = v.kind := by
  unfold VaultEntry.node Node.kind
  cases v.kind <;> rfl

/-- The entry that stands for a node. -/
private theorem exists_entry {t : FileTree} {n : Node} (hm : r.Mirrors h t) (hn : t p = some n) :
    ∃ e ∈ r.manifest.entries, e.path = p ∧
      e.toEntryAttrs.Represents P r.suite.aeadAlg r.headerBytes h.blobs.shown n := by
  obtain ⟨a, ha, hrep⟩ := hm.tree.exists_left hn
  obtain ⟨e, he, rfl⟩ := Option.map_eq_some_iff.1 ha
  obtain ⟨hmem, hpath⟩ := Keyed.lookup_mem he
  exact ⟨e, hmem, hpath, hrep⟩

/-- The node that an entry stands for. -/
private theorem exists_node {t : FileTree} {e : EntryV2} (hm : r.Mirrors h t) (he : e ∈ r.manifest.entries) :
    ∃ n, t e.path = some n ∧ e.toEntryAttrs.Represents P r.suite.aeadAlg r.headerBytes h.blobs.shown n := by
  have hrel := hm.tree e.path
  rw [treeOf_of_mem hm.shaped.nodup he] at hrel
  generalize t e.path = y at hrel
  cases hrel with
  | @some _ n hrep => exact ⟨n, rfl, hrep⟩

/-- A reader that stands for the tree of the entries is a copy of them. -/
theorem copies_of_mirrors (hnd : (vs.map (·.path)).Nodup) (hm : r.Mirrors h (copyTree vs)) :
    r.Copies h.blobs.shown vs where
  distinct := hm.shaped.nodup
  listed v hv := by
    obtain ⟨e, he, hpath, hrep⟩ := exists_entry hm (copyTree_of_mem hnd hv)
    refine ⟨e, he, hpath, hrep.meta_eq.1.trans v.node_kind, fun hk => ?_⟩
    have hnode : v.node = ⟨.file v.content, v.mtime, v.mode⟩ := by rw [VaultEntry.node, hk]
    rw [hnode] at hrep
    obtain ⟨hstores, -⟩ := hrep.file v.content rfl
    exact ⟨hstores.size, hstores.blake3, hrep.mtime, hrep.mode⟩
  contents v hv hk := by
    have hnode : v.node = ⟨.file v.content, v.mtime, v.mode⟩ := by rw [VaultEntry.node, hk]
    exact hm.refines.contents v.path v.node v.content (copyTree_of_mem hnd hv) (by rw [hnode])
  only e he := by
    obtain ⟨n, hn, hrep⟩ := exists_node hm he
    rcases copyTree_eq_some hn with ⟨v, hv, hpath, -⟩ | ⟨rfl, -, hbelow⟩
    · exact Or.inl (List.mem_map.2 ⟨v, hv, hpath⟩)
    · exact Or.inr ⟨(hrep.dir rfl).1, hbelow⟩

/-- The files of a copy are as large as those of the entries. -/
private theorem totalSize_eq (hnd : (vs.map (·.path)).Nodup) (hm : r.Mirrors h (copyTree vs)) :
    totalSize r.manifest.entries = fileSize vs := by
  have hperm : ((r.manifest.entries.filter fun e => e.kind = .file).map fun e => (e.path, e.size)).Perm
      ((vs.filter fun v => v.kind = .file).map fun v => (v.path, v.content.length)) := by
    have hl : ((r.manifest.entries.filter fun e => e.kind = .file).map fun e => (e.path, e.size)).Nodup := by
      refine List.Nodup.of_map Prod.fst ?_
      rw [List.map_map]
      exact hm.shaped.nodup.sublist (List.filter_sublist.map _)
    have hr : ((vs.filter fun v => v.kind = .file).map fun v => (v.path, v.content.length)).Nodup := by
      refine List.Nodup.of_map Prod.fst ?_
      rw [List.map_map]
      exact hnd.sublist (List.filter_sublist.map _)
    rw [List.perm_ext_iff_of_nodup hl hr]
    have hcopies := copies_of_mirrors hnd hm
    rintro ⟨p, size⟩
    simp only [List.mem_map, List.mem_filter, decide_eq_true_eq, Prod.mk.injEq]
    constructor
    · rintro ⟨e, ⟨he, hk⟩, rfl, rfl⟩
      rcases hcopies.only e he with hin | ⟨hdir, -⟩
      · obtain ⟨v, hv, hpath⟩ := List.mem_map.1 hin
        obtain ⟨e', he', hpath', hkind, hfile⟩ := hcopies.listed v hv
        obtain rfl : e' = e := List.inj_on_of_nodup_map hcopies.distinct he' he (hpath'.trans hpath)
        exact ⟨v, ⟨hv, hkind.symm.trans hk⟩, hpath, (hfile (hkind.symm.trans hk)).1.symm⟩
      · rw [hdir] at hk
        cases hk
    · rintro ⟨v, ⟨hv, hk⟩, rfl, rfl⟩
      obtain ⟨e, he, hpath, hkind, hfile⟩ := hcopies.listed v hv
      exact ⟨e, ⟨he, hkind.trans hk⟩, hpath, (hfile hk).1⟩
  have hsum := (hperm.map Prod.snd).sum_eq
  rw [List.map_map, List.map_map] at hsum
  exact hsum

/-- A copy is valid, if it is not too large. -/
theorem valid_of_mirrors (hnd : (vs.map (·.path)).Nodup) (hm : r.Mirrors h (copyTree vs))
    (hcount : r.manifest.entries.length ≤ maxManifestEntries) (htotal : fileSize vs ≤ u64Max) :
    ValidEntries r.suite.aeadAlg r.manifest.entries where
  count := hcount
  paths e he := ⟨e.path, (hm.normal e he).normalizeStoredPath⟩
  apart := by
    have hnot : ∀ e ∈ r.manifest.entries, ∀ e' ∈ r.manifest.entries, e.kind = .file → ¬ Below '/' e.path e'.path := by
      intro e he e' he' hk hb
      obtain ⟨d, hd, hdir⟩ := hm.shaped.closed e.path e'.path e' hb ((Keyed.lookup_eq_some_iff hm.shaped.nodup).2 ⟨he', rfl⟩)
      obtain ⟨hmem, hpath⟩ := Keyed.lookup_mem hd
      obtain rfl : d = e := List.inj_on_of_nodup_map hm.shaped.nodup hmem he hpath
      rw [hdir] at hk
      cases hk
    have hnodup := List.pairwise_map.1 hm.shaped.nodup
    rw [List.pairwise_map]
    refine hnodup.imp_of_mem fun {e e'} he he' hne => ?_
    exact .of_normal (hm.normal e he) (hm.normal e' he') ⟨hne, hnot e he e' he', hnot e' he' e he⟩
  files e he hk := by
    obtain ⟨n, -, hrep⟩ := exists_node hm he
    cases hc : n.content with
    | dir =>
      rw [(hrep.dir hc).1] at hk
      cases hk
    | file bytes =>
      obtain ⟨⟨-, hsize, -, hchunk, id, key, nonce, ct, hid, hkey, hnonce, hvalid, henc, -⟩, hchunks⟩ := hrep.file bytes hc
      have hlen : nonce.length = r.suite.aeadAlg.streamNonceLen := by
        unfold encryptStreamWith at henc
        split at henc
        · cases henc
        · rename_i hlen
          exact not_not.1 hlen
      refine ⟨⟨id, hid, hvalid⟩, ?_, ?_, by simp [hkey], nonce, hnonce, hlen⟩
      · rw [hchunk]
        decide
      · rw [hchunk, hsize]
        exact hchunks
  total := by rw [totalSize_eq hnd hm]; exact htotal

end Copies

/-! ### Filling a new vault -/

/-- The vault at the destination, if there is one, is empty. -/
def Host.OpensEmpty (h : Host P) (identity : Identity) : Prop :=
  ∀ r, openVault P h.top.shown identity = .ok r → r.manifest.entries = []

/-- What has been written is within the limits of the reader. -/
structure VaultReaderV2.Small (r : VaultReaderV2 P) (h : Host P) : Prop where
  header : P.rawLen r.headerBytes ≤ maxHeaderLen
  manifest : ∀ raw, h.top.shown .manifest = some raw → P.rawLen raw ≤ maxManifestLen
  entries : r.manifest.entries.length ≤ maxManifestEntries

/-- The reader is that of a vault of `identity` which is a copy of the entries, under this name and time. -/
structure VaultReaderV2.Converted (r : VaultReaderV2 P) (h : Host P) (identity : Identity) (label : Str × Int)
    (vs : List VaultEntry) : Prop where
  label : r.manifest.label = label
  copies : r.Copies h.blobs.shown vs
  opens : openVault P h.top.shown identity = .ok r.reopened ↔ r.Small h

section Fill

variable {identity : Identity} {h : Host P} {s s' : Session P}

private theorem createInner_label (identity : Identity) (suite : SuiteId) (name : Str) (createdAt : Int)
    (vaultId : Bytes) (io : CreateIo) (h : Host P) :
    wp (createInner P identity suite name createdAt vaultId io) (fun res h' => match res with
      | .ok r => r.manifest.label = (name, createdAt)
      | .error _ => h'.top.shown .manifest = h.top.shown .manifest) h := by
  unfold createInner
  cases io.dirFault with
  | some e => exact rfl
  | none =>
    simp only [wp_bind, wp_draw]
    cases hkey : randomVec 32 (h.rng 0) with
    | error e => trivial
    | ok key =>
      simp only [wp_liftM]
      cases hw : P.wrapForRecipient key identity.publicPart suite io.wrapSeed with
      | error e => trivial
      | ok stanza =>
        unfold writeAtomic
        cases io.headerFault with
        | some e => exact rfl
        | none =>
          simp only [wp_bind, wp_modify, wp_pure]
          refine wp_mono (sealAndWrite_spec _ _ _ _) ?_
          intro res h' hres
          cases res with
          | ok sealed => exact rfl
          | error e =>
            obtain ⟨k, rfl⟩ := hres
            show ((h.top.write VaultFile.header _).sync io.headerSync).shown .manifest = _
            rw [shown_sync, shown_write_of_ne (by decide)]

/-- Creating a vault gives one with the label, or leaves the manifest as it was. -/
theorem createFor_label (identity : Identity) (suite : SuiteId) (name : Str) (createdAt : Int) (objectId : Option Str)
    (io : CreateIo) (h : Host P) :
    wp (createFor P identity suite name createdAt objectId io) (fun res h' => match res with
      | .ok r => r.manifest.label = (name, createdAt)
      | .error _ => h'.top.shown .manifest = h.top.shown .manifest) h := by
  cases objectId with
  | none =>
    simp only [createFor, create, wp_bind, wp_draw]
    cases hid : randomVec 16 (h.rng 0) with
    | error e => trivial
    | ok vaultId => exact createInner_label identity suite name createdAt vaultId io _
  | some id =>
    simp only [createFor, createWithObjectId]
    cases unhex id with
    | none => exact rfl
    | some vaultId =>
      simp only
      split
      · exact rfl
      · exact createInner_label identity suite name createdAt vaultId io h

/-- A new vault opens as its reader. -/
theorem Session.Created.opens_iff (hs : s.Created identity h) {files : VaultFile → Option P.Raw}
    (hfiles : files = s.host.top.shown) {r : VaultReaderV2 P} : openVault P files identity = .ok r ↔
      P.rawLen s.reader.headerBytes ≤ maxHeaderLen ∧ (∀ raw, files .manifest = some raw → P.rawLen raw ≤ maxManifestLen) ∧
        r = s.reader.reopened := by
  subst hfiles
  obtain ⟨state, nonce, hstate, hnext, hnonce, hshown, -⟩ := hs.sealed
  have hbel : VaultReaderV2.Belongs { s.reader with state := none } identity := ⟨hs.belongs.header, hs.belongs.owner⟩
  have hempty : ValidEntries s.reader.suite.aeadAlg s.reader.manifest.entries := by
    rw [hs.empty]
    exact ⟨by simp, by simp, by simp, by simp, by simp⟩
  have hopened : VaultReaderV2.opened { s.reader with state := none } s.reader.manifest state = s.reader.reopened := by
    simp only [VaultReaderV2.opened, VaultReaderV2.adopt, VaultReaderV2.reopened, ← hstate, ← hs.view]
  rw [openVault_sealed hbel hnext hnonce hs.header.1 hshown, validateManifestV2_iff, hopened, hshown]
  simp only [Option.some.injEq, forall_eq', hempty, true_and]
  exact Iff.rfl

/-- A new vault opens empty. -/
theorem Session.Created.opensEmpty (hs : s.Created identity h) {h' : Host P} (hshown : h'.top.shown = s.host.top.shown) :
    h'.OpensEmpty identity := by
  intro r hr
  rw [((hs.opens_iff hshown).1 hr).2.2]
  exact hs.empty

/-- Without a manifest there is no vault. -/
theorem Host.OpensEmpty.of_none (hnone : h.top.shown .manifest = none) : h.OpensEmpty identity := by
  intro r hr
  obtain ⟨-, raw, -, -, -, -, -, hraw, -⟩ := openVault_eq_ok.1 hr
  rw [hnone] at hraw
  cases hraw

/-- A closure that adds entries with the property `R` to the batch. -/
structure Edits.Fills (edits : Edits) (P : Prims) (R : List VaultEntry → Prop) : Prop where
  along : ∀ b : VaultBatch P, edits.Along (fun b op => op.Fits P b.manifest.entries) b
  fills : ∀ {b b' : VaultBatch P} {t : FileTree}, b.Mirrors t → exec (edits.run P) b = (.ok (), b') →
    ∃ vs, R vs ∧ b'.manifest.label = b.manifest.label ∧ edits.model b t = t.addAll vs

variable {edits : Edits} {io : CommitIo} {R : List VaultEntry → Prop}

/-- A commit into a new vault leaves one that opens as its reader exactly if what has been written is not too large; its
entries are valid if they are not too many. -/
private theorem commitBuild_opens (hs : s.Created identity h) (hok : exec (commitBuild edits io) s = (.ok (), s'))
    (hvalid : s'.reader.manifest.entries.length ≤ maxManifestEntries →
      ValidEntries s'.reader.suite.aeadAlg s'.reader.manifest.entries) :
    openVault P s'.host.top.shown identity = .ok s'.reader.reopened ↔ s'.reader.Small s'.host := by
  obtain ⟨k, hed⟩ := edited_spec s none edits
  have hout := of_wp (commitWith_outcome s none edits io) hok
  generalize Session.edited s none edits = edited at hed hout
  obtain ⟨res, b⟩ := edited
  have htop : b.host.top = s.host.top := hed.drew.top
  cases hout with
  | unchanged hres hch =>
    rw [hs.opens_iff (show b.host.top.shown = s.host.top.shown by rw [htop])]
    refine ⟨fun ⟨hheader, hmanifest, _⟩ => ⟨hheader, hmanifest, ?_⟩, fun hsmall => ⟨hsmall.header, hsmall.manifest, rfl⟩⟩
    rw [hs.empty]
    exact Nat.zero_le _
  | @sealed state nonce h' hres hch hsealed =>
    obtain ⟨hnext, hdrawn, -, rfl⟩ := hsealed
    have hall : ∀ H : Host P, H.top = (b.host.top.write .manifest (s.reader.sealedRaw b.manifest state nonce)).sync
        io.vaultSync → (openVault P H.top.shown identity = .ok (s.reader.committed b state io.vaultSync).reopened ↔
          (s.reader.committed b state io.vaultSync).Small H) := by
      intro H hH
      have hheader : H.top.shown .header = some s.reader.headerBytes := by
        rw [hH, shown_sync, shown_write_of_ne (by decide)]
        exact htop ▸ hs.header.1
      have hraw : H.top.shown .manifest = some (s.reader.sealedRaw b.manifest state nonce) := by
        rw [hH, shown_sync, shown_write_self]
      rw [openVault_sealed hs.belongs hnext (randomVec_length hdrawn) hheader hraw, validateManifestV2_iff]
      constructor
      · rintro ⟨hsmall, hlen, hentries, -⟩
        exact ⟨hsmall, fun raw hr => by rwa [← Option.some.inj (hraw.symm.trans hr)], hentries.count⟩
      · exact fun hsmall => ⟨hsmall.header, hsmall.manifest _ hraw, hvalid hsmall.entries, rfl⟩
    refine hall _ ?_
    split <;> rfl

/-- A commit that fails leaves the files of the vault as they are. -/
private theorem commitBuild_failed {e : Error} (hfail : exec (commitBuild edits io) s = (.error e, s')) :
    s'.host.top.shown = s.host.top.shown := by
  obtain ⟨k, hed⟩ := edited_spec s none edits
  have hout := of_wp (commitWith_outcome s none edits io) hfail
  generalize Session.edited s none edits = edited at hed hout
  obtain ⟨res, b⟩ := edited
  have htop : b.host.top = s.host.top := hed.drew.top
  cases hout with
  | failed hhost =>
    rw [← htop]
    rcases hhost with rfl | ⟨j, rfl⟩ <;> rfl

/-- The label of the reader after a commit is that of the batch. -/
private theorem commitBuild_label (hok : exec (commitBuild edits io) s = (.ok (), s')) :
    ∃ b, exec (edits.run P) (VaultBatch.new s.reader none s.host) = (.ok (), b) ∧
      (b.manifest.label = s.reader.manifest.label → s'.reader.manifest.label = s.reader.manifest.label) := by
  have hout := of_wp (commitWith_outcome s none edits io) hok
  rcases hed : Session.edited s none edits with ⟨res, b⟩
  rw [hed] at hout
  cases hout with
  | unchanged hres hch =>
    obtain rfl : res = .ok () := hres
    exact ⟨b, hed, fun _ => rfl⟩
  | sealed hres hch hsealed =>
    obtain rfl : res = .ok () := hres
    exact ⟨b, hed, id⟩

/-- Filling a new vault gives a copy of the entries, or leaves it empty. -/
theorem commitBuild_converted (hs : s.Created identity h) (fresh : h.rng.Fresh fun _ => False) (hfill : edits.Fills P R)
    (hR : ∀ vs, R vs → (vs.map (·.path)).Nodup ∧ fileSize vs ≤ u64Max) :
    wp (commitBuild edits io) (fun res s' => match res with
      | .ok () => ∃ vs, R vs ∧ s'.reader.Converted s'.host identity s.reader.manifest.label vs
      | .error _ => s'.host.OpensEmpty identity) s := by
  have hmirrors := commitWith_mirrors (hs.mirrors fresh) rfl (c := ⟨none, edits, io⟩) (hfill.along _)
  rcases hrun : exec (commitBuild edits io) s with ⟨res, s'⟩
  have hw := of_wp hmirrors hrun
  unfold wp
  rw [hrun]
  cases res with
  | error e => exact hs.opensEmpty (commitBuild_failed hrun)
  | ok u =>
    obtain ⟨b, hb, hlabel⟩ := commitBuild_label hrun
    have hnew : (VaultBatch.new s.reader none s.host).Mirrors fun _ => none :=
      ((hs.mirrors fresh).reader s.reader rfl).2.2.new none
    obtain ⟨vs, hvs, hlab, hmodel⟩ := hfill.fills hnew hb
    obtain ⟨hnd, htotal⟩ := hR vs hvs
    rw [if_pos rfl, hmodel, addAll_eq hnd] at hw
    have hm := (hw.reader s'.reader rfl).2.2
    exact ⟨vs, hvs, hlabel hlab, copies_of_mirrors hnd hm,
      commitBuild_opens hs hrun fun hcount => valid_of_mirrors hnd hm hcount htotal⟩

/-- `fill` runs the commit in the new vault. -/
theorem wp_fill {r : VaultReaderV2 P} {Q : Result (VaultReaderV2 P) → Host P → Prop} :
    wp (r.fill edits io) Q h ↔
      wp (commitBuild edits io) (fun res s' => Q (res.map fun _ => s'.reader) s'.host) ⟨r, h⟩ := Iff.rfl

/-- Creating a vault and filling it gives a copy of the entries under the label, or at a new place leaves at most an empty
vault. -/
theorem createFill_converted {α : Type} {x : Result α} {f : α → Edits} (fresh : h.rng.Fresh fun _ => False)
    (identity : Identity) (io : CommitIo) (suite : SuiteId) (name : Str) (createdAt : Int) (objectId : Option Str) (cio : CreateIo)
    (hfill : ∀ a, x = .ok a → (f a).Fills P R)
    (hR : ∀ vs, R vs → (vs.map (·.path)).Nodup ∧ fileSize vs ≤ u64Max) :
    wp (do
        let me ← createFor P identity suite name createdAt objectId cio
        let a ← x
        me.fill (f a) io) (fun res h' => match res with
      | .ok r => ∃ vs, R vs ∧ r.Converted h' identity (name, createdAt) vs
      | .error _ => h.top.shown .manifest = none → h'.OpensEmpty identity) h := by
  rw [wp_bind]
  refine wp_mono (wp_and (createFor_spec identity suite name createdAt objectId cio h)
    (createFor_label identity suite name createdAt objectId cio h)) ?_
  intro res h₁ hres
  cases res with
  | error e => exact fun hnone => .of_none (hres.2.trans hnone)
  | ok me =>
    obtain ⟨hs, hlabel⟩ := hres
    simp only [wp_bind, wp_liftM]
    cases x with
    | error e => exact fun _ => hs.opensEmpty rfl
    | ok a =>
      refine wp_fill.2 (wp_mono (commitBuild_converted hs fresh (hfill a rfl) hR) ?_)
      intro res s' hres
      cases res with
      | error e => exact fun _ => hres
      | ok u =>
        obtain ⟨vs, hvs, hconv⟩ := hres
        have hlab : me.manifest.label = (name, createdAt) := hlabel
        exact ⟨vs, hvs, hlab ▸ hconv⟩

end Fill

/-! ### Re-keying -/

section Rekey

variable {source : VaultReaderV2 P} {blobs : Str → Option Bytes}

/-- Entries that authenticate in a valid source have distinct normal forms and are not too large. -/
theorem authenticates_sound {alg : AeadAlg} {es : List EntryV2} (hv : ValidEntries alg es)
    (hvs : List.Forall₂ (source.Authenticates blobs) es vs) : (vs.map (·.path)).Nodup ∧ fileSize vs ≤ u64Max := by
  constructor
  · have happart : es.Pairwise fun e e' => Apart e.site e'.site := List.pairwise_map.1 hv.apart
    clear hv
    induction hvs with
    | nil => exact List.nodup_nil
    | @cons e v es vs hev hvs ih =>
      rw [List.pairwise_cons] at happart
      rw [List.map_cons, List.nodup_cons]
      refine ⟨fun hin => ?_, ih happart.2⟩
      obtain ⟨w, hw, hpath⟩ := List.mem_map.1 hin
      obtain ⟨e', he', hew⟩ := Keyed.exists_of_forall₂ hvs hw
      exact (happart.1 e' he' _ _ hev.path hew.path).1 hpath.symm
  · have hsize : fileSize vs = totalSize es := by
      clear hv
      induction hvs with
      | nil => rfl
      | @cons e v es vs hev hvs ih =>
        rw [totalSize_cons, ← ih]
        unfold fileSize
        rw [List.filter_cons, hev.kind]
        by_cases hk : e.kind = .file
        · simp [hk, (hev.file hk).2.1]
        · simp [hk]
    rw [hsize]
    exact hv.total

/-- An entry of the source, with its name in normal form and the bytes that its blob authenticates to; the source reads
them where a path leads to the entry. -/
structure VaultReaderV2.Lists (source : VaultReaderV2 P) (blobs : Str → Option Bytes) (e : EntryV2) (v : VaultEntry) :
    Prop where
  path : normalizeStoredPath e.path = .ok v.path
  attrs : v.kind = e.kind ∧ v.mtime = e.mtime ∧ v.mode = e.mode
  authentic : e.kind = .file → source.entryPlaintext blobs e = .ok (.ok v.content)
  file : e.kind = .file → e.size = v.content.length ∧ e.blake3 = P.hashContent v.content
  reads : ∀ path, source.fileEntry path = .ok e → source.readEntryToWriter blobs path = .ok v.content
  dir : e.kind = .dir → v.content = []

theorem VaultReaderV2.Authenticates.lists {e : EntryV2} (h : source.Authenticates blobs e v)
    (hok : e.kind = .file → e.FileOk source.suite.aeadAlg) : source.Lists blobs e v where
  path := h.path
  attrs := ⟨h.kind, h.mtime, h.mode⟩
  authentic hk := (h.file hk).1
  file hk := ⟨(h.file hk).2.1.symm, (h.file hk).2.2.symm⟩
  reads path hfind := by
    have hk : e.kind = .file := by
      unfold VaultReaderV2.fileEntry at hfind
      cases hp : normalizeStoredPath path with
      | error err => simp [hp, bind, Except.bind] at hfind
      | ok norm =>
        simp only [hp, bind, Except.bind] at hfind
        cases hf : source.manifest.entries.find? (·.path = norm) with
        | none => simp [hf] at hfind
        | some e' =>
          simp only [hf] at hfind
          split at hfind
          · rename_i hk
            rw [Except.ok.injEq] at hfind
            rw [← hfind]
            exact hk
          · cases hfind
    exact (readEntryToWriter_eq_ok_iff hfind (hok hk)).2 ⟨(h.file hk).1, (h.file hk).2.2⟩
  dir := h.dir

/-- The closure of a re-keying adds the entries of the source. -/
theorem rekeyEdits_fills {io : Nat → BlobIo} {es : List EntryV2}
    (hsize : ∀ e ∈ es, e.kind = .file → numChunks e.size defaultChunkSize ≠ u32Max + 1) :
    (rekeyEdits source blobs io 0 es).Fills P (List.Forall₂ (source.Authenticates blobs) es) :=
  ⟨rekeyEdits_along hsize 0, fun hb hrun => rekeyEdits_copies hsize hb hrun⟩

end Rekey

end FileSec
