import FileSec.Fsec.Arithmetic
import FileSec.Preflight
import FileSec.SafeIo

/-!
# Extracting to a directory

`extract_vault` (`store.rs`) and the two `extract_to` (`format.rs`, `format_v2.rs`) look at the destination with
`preflight_extraction` and then write one entry after the other.  Preflight takes what it cannot look at for free, and a
file there is replaced (`extraction_replaces`).  Otherwise, whatever the destination is and whichever calls fail, nothing
that was there changes, and a file that is not authenticated to its end leaves nothing in its place
(`extraction_confined`).
-/

open FileTree

namespace FileSec

open SepPath

/-- An entry, with the pieces that are written while it is read, and how that ends: with its whole content,
authenticated, or with an error. -/
structure Item where
  path : Str
  kind : EntryKind
  pieces : List Bytes
  content : Result Bytes

/-- How a file is filled with an entry. -/
def Item.fill (item : Item) : Filling := ⟨item.pieces, item.content.map fun _ => ()⟩

/-- What is authenticated is what has been written. -/
def Item.Sound (item : Item) : Prop := ∀ bytes, item.content = .ok bytes → item.pieces.flatten = bytes

/-- The names of the directories on the way to a normalised path. -/
def parentOf (norm : Str) : List Str := (norm.splitOn '/').dropLast

/-- The last name of a normalised path. -/
def leafOf (norm : Str) : Str := (norm.splitOn '/').getLastD []

section Code

variable (u : Folding) (env : Surroundings) (root : List Str)

/-- What `preflight_extraction` sees at the destination: whether there is a directory; an error is nothing. -/
def destination (t : PlaceTree Str Bytes) (norm : Str) : Option Bool :=
  match env.unseen norm with
  | some _ => none
  | none => (t.lookup env.follow root (parentOf norm) (leafOf norm)).map fun n => n = .dir

/-- One round of the loop of an extraction: `extract_dir_hardened` or `extract_file_hardened`. -/
def extractItem (item : Item) (v : Volume) : Result Unit × Volume :=
  match normalizePath item.path with
  | .error e => (.error e, v)
  | .ok norm =>
    match item.kind with
    | .dir => createDirsNoSymlink env root [] (norm.splitOn '/') v
    | .file =>
      match createDirsNoSymlink env root [] (parentOf norm) v with
      | (.error e, v) => (.error e, v)
      | (.ok (), v) => writeFile env root (parentOf norm) (leafOf norm) item.fill v

/-- The loop of an extraction. -/
def extractItems : List Item → Volume → Result Unit × Volume
  | [], v => (.ok (), v)
  | item :: items, v =>
    match extractItem env root item v with
    | (.error e, v) => (.error e, v)
    | (.ok (), v) => extractItems items v

/-- The pieces before the first one that fails. -/
def untilError (piece : Nat → Result Bytes) : List Nat → List Bytes
  | [] => []
  | c :: cs =>
    match piece c with
    | .error _ => []
    | .ok bytes => bytes :: untilError piece cs

/-- The entries of a vault in memory. -/
def Vault.items (vault : Vault) : List Item := vault.entries.map fun e => ⟨e.path, e.kind, [e.content], .ok e.content⟩

/-- `extract_vault` -/
def extractVault (vault : Vault) (v : Volume) : Result Unit × Volume :=
  match preflightExtraction u (destination env root v.tree) (vault.entries.map fun e => (e.path, e.kind)) with
  | .error e => (.error e, v)
  | .ok () => extractItems env root vault.items v

variable {P : Prims} (C : Fsec.FsecPrims P)

/-- What `decrypt_entry_to_writer` has written when it stops. -/
def Fsec.VaultReader.written (r : Fsec.VaultReader) (file : Bytes) (e : Entry) : List Bytes :=
  let fileEnd := e.dataOffset + e.size
  let first := e.dataOffset / r.dataChunkSize
  let last := (fileEnd - 1) / r.dataChunkSize
  if e.size = 0 ∨ fileEnd > u64Max ∨ last > r.numChunks - 1 then []
  else untilError (r.overlap C file e.dataOffset fileEnd) (List.range' first (last + 1 - first))

/-- The entries of a container, read from its file. -/
def Fsec.VaultReader.items (r : Fsec.VaultReader) (file : Bytes) : List Item :=
  r.manifest.entries.map fun e => ⟨e.path, e.kind, r.written C file e, r.decryptEntryToWriter C file e⟩

/-- `VaultReader::extract_to`; `opened` is what opening the container's file gives. -/
def Fsec.VaultReader.extractTo (r : Fsec.VaultReader) (opened : Result Bytes) (v : Volume) : Result Unit × Volume :=
  match preflightExtraction u (destination env root v.tree) (r.manifest.entries.map fun e => (e.path, e.kind)) with
  | .error e => (.error e, v)
  | .ok () =>
    match opened with
    | .error e => (.error e, v)
    | .ok file => extractItems env root (r.items C file) v

/-- What `read_entry_to_writer` has written when it stops. -/
def VaultReaderV2.written (r : VaultReaderV2 P) (blobs : Str → Option Bytes) (path : Str) : List Bytes :=
  match r.fileEntry path with
  | .error _ => []
  | .ok e =>
    match e.key, e.nonce, (blobId e).bind fun id => openBlob blobs id e.size e.chunkSize with
    | some key, some nonce, .ok file =>
      untilError (r.decryptBlobChunk file e key nonce) (List.range (numChunks e.size e.chunkSize))
    | _, _, _ => []

/-- The entries of a vault's manifest, read from its blobs. -/
def VaultReaderV2.items (r : VaultReaderV2 P) (blobs : Str → Option Bytes) : List Item :=
  r.manifest.entries.map fun e => ⟨e.path, e.kind, r.written blobs e.path, r.readEntryToWriter blobs e.path⟩

/-- `VaultReaderV2::extract_to` -/
def VaultReaderV2.extractTo (r : VaultReaderV2 P) (blobs : Str → Option Bytes) (v : Volume) : Result Unit × Volume :=
  match preflightExtraction u (destination env root v.tree) (r.manifest.entries.map fun e => (e.path, e.kind)) with
  | .error e => (.error e, v)
  | .ok () => extractItems env root (r.items blobs) v

/-- What is extracted: a vault in memory, a container with what opening its file gives, or a vault with its blobs. -/
inductive Extractable {P : Prims} (C : Fsec.FsecPrims P) where
  | vault (vault : Vault)
  | container (r : Fsec.VaultReader) (opened : Result Bytes)
  | reader (r : VaultReaderV2 P) (blobs : Str → Option Bytes)

variable {C}

/-- The entries of a source, as far as they can be read. -/
def Extractable.items : Extractable C → List Item
  | .vault memory => memory.items
  | .container r (.ok file) => r.items C file
  | .container _ (.error _) => []
  | .reader r blobs => r.items blobs

/-- The extraction of a source. -/
def Extractable.extract (v : Volume) : Extractable C → Result Unit × Volume
  | .vault memory => extractVault u env root memory v
  | .container r opened => r.extractTo u env root C opened v
  | .reader r blobs => r.extractTo u env root blobs v

end Code

/-- A vault in memory that has the shape of one that opens, and whatever has been opened. -/
inductive Extractable.Accepted {P : Prims} {C : Fsec.FsecPrims P} : Extractable C → Prop
  | vault {vault : Vault} {shape : List (Str × EntryKind)}
      (h : Held (vault.entries.map fun e => (e.path, e.kind)) shape) : Accepted (.vault vault)
  | container {file : Bytes} {identity : Fsec.Identity C} {opened : Fsec.Opened}
      (h : Fsec.openReaderInner C file file.length identity = .ok opened) (data : Result Bytes) :
      Accepted (.container opened.reader data)
  | reader {files : VaultFile → Option P.Raw} {identity : Identity} {r : VaultReaderV2 P}
      (h : openVault P files identity = .ok r) (blobs : Str → Option Bytes) : Accepted (.reader r blobs)

/-! ### What an extraction keeps to -/

/-- A place that an entry makes, and what it makes there: a directory on its path, or its file with all
its content. -/
def Makes (root : List Str) (item : Item) (p : List Str) (n : Option (FileTree.Node Bytes)) : Prop :=
  ∃ norm q, normalizePath item.path = .ok norm ∧ q ≠ [] ∧ q <+: norm.splitOn '/' ∧ p = root ++ q ∧
    (n = some .dir ∧ (q = norm.splitOn '/' → item.kind = .dir) ∨
      q = norm.splitOn '/' ∧ item.kind = .file ∧ ∃ bytes, item.content = .ok bytes ∧ n = some (.file bytes))

/-- Nothing is lost or changed, and what has come stands below the directory, on the path of an entry or in the
directory of an entry's file. -/
structure Confined (t : PlaceTree Str Bytes) (root : List Str) (items : List Item) (s : PlaceTree Str Bytes) :
    Prop where
  kept : ∀ p, t.node p ≠ none → s.node p = t.node p
  inside : ∀ p, t.node p = none → s.node p ≠ none → ∃ item ∈ items, ∃ norm q, normalizePath item.path = .ok norm ∧
    q ≠ [] ∧ p = root ++ q ∧ (q <+: norm.splitOn '/' ∨ item.kind = .file ∧ ∃ name, q = parentOf norm ++ [name])

/-- Nothing is lost or changed, and what has come is made by the entries. -/
structure Progress (t : PlaceTree Str Bytes) (root : List Str) (items : List Item) (s : PlaceTree Str Bytes) :
    Prop where
  kept : ∀ p, t.node p ≠ none → s.node p = t.node p
  fresh : ∀ p, t.node p = none → s.node p ≠ none → ∃ item ∈ items, Makes root item p (s.node p)

/-- The tree is `s`, but a temporary file may have been left where an entry's file was to be written. -/
def Remains (env : Surroundings) (root : List Str) (items : List Item) (s s' : PlaceTree Str Bytes) : Prop :=
  s'.node = s.node ∨
    ∃ item ∈ items, ∃ norm, normalizePath item.path = .ok norm ∧ item.kind = .file ∧ Left env s (root ++ parentOf norm) s'

variable {u : Folding} {env : Surroundings} {root : List Str} {t s s' : PlaceTree Str Bytes} {items done : List Item}
  {item : Item} {v : Volume} {norm : Str}

theorem parentOf_concat_leafOf (norm : Str) : parentOf norm ++ [leafOf norm] = norm.splitOn '/' := by
  have hne : norm.splitOn '/' ≠ [] := List.splitOn_ne_nil _ _
  unfold parentOf leafOf
  rw [List.getLastD_eq_getLast?, List.getLast?_eq_some_getLast hne, Option.getD_some, List.dropLast_concat_getLast hne]

private theorem parentOf_isPrefix (norm : Str) : parentOf norm <+: norm.splitOn '/' := List.dropLast_prefix _

private theorem not_prefix_parentOf {q : List Str} (h : q <+: parentOf norm) : q ≠ norm.splitOn '/' := by
  rintro rfl
  have hlen := h.length_le
  rw [← parentOf_concat_leafOf norm] at hlen
  simp at hlen

theorem Progress.confined (h : Progress t root items s) : Confined t root items s := by
  refine ⟨h.kept, fun p hp hs => ?_⟩
  obtain ⟨item, hitem, norm, q, hnorm, hq, hpre, rfl, -⟩ := h.fresh p hp hs
  exact ⟨item, hitem, norm, q, hnorm, hq, rfl, Or.inl hpre⟩

theorem Confined.mono {items' : List Item} (h : Confined t root items s) (hsub : items ⊆ items') :
    Confined t root items' s := by
  refine ⟨h.kept, fun p hp hs => ?_⟩
  obtain ⟨item, hitem, hrest⟩ := h.inside p hp hs
  exact ⟨item, hsub hitem, hrest⟩

private theorem Progress.mono {items' : List Item} (h : Progress t root items s) (hsub : items ⊆ items') :
    Progress t root items' s := by
  refine ⟨h.kept, fun p hp hs => ?_⟩
  obtain ⟨item, hitem, hmakes⟩ := h.fresh p hp hs
  exact ⟨item, hsub hitem, hmakes⟩

private theorem Remains.mono {items' : List Item} (h : Remains env root items s s') (hsub : items ⊆ items') :
    Remains env root items' s s' := by
  rcases h with hsame | ⟨item, hitem, hrest⟩
  · exact Or.inl hsame
  · exact Or.inr ⟨item, hsub hitem, hrest⟩

/-- A tree that adds to what has come only what an entry makes. -/
private theorem Progress.add (h : Progress t root items s) (hitem : item ∈ items)
    (hkept : ∀ p, s.node p ≠ none → s'.node p = s.node p)
    (hfresh : ∀ p, s.node p = none → s'.node p ≠ none → Makes root item p (s'.node p)) : Progress t root items s' := by
  constructor
  · intro p hp
    have hs := h.kept p hp
    rw [hkept p (by rwa [hs]), hs]
  · intro p hp hs'
    by_cases hs : s.node p = none
    · exact ⟨item, hitem, hfresh p hs hs'⟩
    · rw [hkept p hs] at hs' ⊢
      exact h.fresh p hp hs

/-- Directories on the way to a file, or on the path of a directory. -/
private theorem Progress.grown {path : List Str} (h : Progress t root items s) (hitem : item ∈ items)
    (hnorm : normalizePath item.path = .ok norm) (hpath : path <+: norm.splitOn '/')
    (hkind : item.kind = .dir ∨ path = parentOf norm) (hg : Grown s root path s') : Progress t root items s' := by
  refine h.add hitem hg.kept fun p hs hs' => ?_
  obtain ⟨hdir, q, hq, hpre, hp⟩ := hg.fresh p hs hs'
  refine ⟨norm, q, hnorm, hq, hpre.trans hpath, hp, Or.inl ⟨hdir, fun heq => ?_⟩⟩
  rcases hkind with hkind | rfl
  · exact hkind
  · exact absurd heq (not_prefix_parentOf hpre)

/-- One more file next to where an entry's file is to be. -/
private theorem Progress.oneMore (h : Progress t root items s) (hitem : item ∈ items)
    (hnorm : normalizePath item.path = .ok norm) (hkind : item.kind = .file)
    (hone : OneMore s (root ++ parentOf norm) s') : Confined t root items s' := by
  have hbefore := h.confined
  rcases hone with hsame | ⟨name, content, hfree, hnode⟩
  · refine ⟨fun p hp => by rw [hsame, hbefore.kept p hp], fun p hp hs => ?_⟩
    rw [hsame] at hs
    exact hbefore.inside p hp hs
  · constructor
    · intro p hp
      have hne : p ≠ root ++ parentOf norm ++ [name] := by
        rintro rfl
        rw [← hbefore.kept _ hp] at hp
        exact hp hfree
      rw [hnode, Function.update_of_ne hne, hbefore.kept p hp]
    · intro p hp hs
      by_cases hplace : p = root ++ parentOf norm ++ [name]
      · refine ⟨item, hitem, norm, parentOf norm ++ [name], hnorm, by simp, ?_, Or.inr ⟨hkind, name, rfl⟩⟩
        rw [hplace, List.append_assoc]
      · rw [hnode, Function.update_of_ne hplace] at hs
        exact hbefore.inside p hp hs

/-- The file of an entry, whole. -/
private theorem Progress.wrote (h : Progress t root items s) (hitem : item ∈ items)
    (hnorm : normalizePath item.path = .ok norm) (hkind : item.kind = .file) (hsound : item.Sound)
    (hresult : item.fill.result = .ok ()) (hfree : s.node (root ++ norm.splitOn '/') = none)
    (hnode : s'.node = Function.update s.node (root ++ norm.splitOn '/') (some (.file item.fill.pieces.flatten))) :
    Progress t root items s' := by
  obtain ⟨bytes, hcontent⟩ : ∃ bytes, item.content = .ok bytes := by
    cases hcontent : item.content with
    | error e => simp [Item.fill, hcontent, Except.map] at hresult
    | ok bytes => exact ⟨bytes, rfl⟩
  have hbytes : item.fill.pieces.flatten = bytes := hsound bytes hcontent
  rw [hbytes] at hnode
  refine h.add hitem (fun p hs => ?_) fun p hs hs' => ?_
  · have hne : p ≠ root ++ norm.splitOn '/' := by
      rintro rfl
      exact hs hfree
    rw [hnode, Function.update_of_ne hne]
  · by_cases hplace : p = root ++ norm.splitOn '/'
    · subst hplace
      rw [hnode, Function.update_self]
      refine ⟨norm, _, hnorm, List.splitOn_ne_nil _ _, List.prefix_refl _, rfl, Or.inr ?_⟩
      exact ⟨rfl, hkind, bytes, hcontent, rfl⟩
    · rw [hnode, Function.update_of_ne hplace] at hs'
      exact absurd hs hs'

/-- A path that has the components of another one first is at or below it. -/
private theorem atOrBelow_of_splitOn {norm norm' : Str} (h : norm.splitOn '/' <+: norm'.splitOn '/') :
    AtOrBelow '/' norm norm' := by
  obtain ⟨rest, hrest⟩ := h
  have hjoin : norm' = ['/'].intercalate (norm.splitOn '/' ++ rest) := by rw [hrest, List.intercalate_splitOn]
  by_cases hnil : rest = []
  · rw [hnil, List.append_nil, List.intercalate_splitOn] at hjoin
    exact Or.inl hjoin
  · rw [intercalate_append (List.splitOn_ne_nil _ _) hnil, List.intercalate_splitOn] at hjoin
    exact Or.inr (below_iff.2 ⟨_, hjoin⟩)

private theorem splitOn_inj {norm norm' : Str} (h : norm.splitOn '/' = norm'.splitOn '/') : norm = norm' := by
  have hback : ['/'].intercalate (norm.splitOn '/') = ['/'].intercalate (norm'.splitOn '/') := by rw [h]
  rwa [List.intercalate_splitOn, List.intercalate_splitOn] at hback

/-- Where a file is to be there is none: there was none before, and no other entry makes one. -/
private theorem Progress.no_file (h : Progress t root done s)
    (hnone : ∀ content, t.node (root ++ norm.splitOn '/') ≠ some (.file content))
    (hapart : ∀ d ∈ done, normalizePath d.path ≠ .ok norm) (content : Bytes) :
    s.node (root ++ norm.splitOn '/') ≠ some (.file content) := by
  intro hfile
  by_cases hfree : t.node (root ++ norm.splitOn '/') = none
  · obtain ⟨d, hd, norm', q, hnorm', -, -, hp, hmade⟩ := h.fresh _ hfree (by rw [hfile]; exact Option.some_ne_none _)
    rcases hmade with ⟨hdir, -⟩ | ⟨rfl, -⟩
    · rw [hfile] at hdir
      cases hdir
    · have hsame := splitOn_inj (List.append_cancel_left hp)
      exact hapart d hd (hsame ▸ hnorm')
  · rw [h.kept _ hfree] at hfile
    exact hnone content hfile

/-- What one round does. -/
private theorem extractItem_spec (h : Progress t root done v.tree) (hsound : item.Sound)
    (hnone : ∀ norm, normalizePath item.path = .ok norm → item.kind = .file →
      ∀ content, t.node (root ++ norm.splitOn '/') ≠ some (.file content))
    (hapart : ∀ d ∈ done, ∀ norm, normalizePath d.path = .ok norm → normalizePath item.path ≠ .ok norm) :
    ∃ r v' s, extractItem env root item v = (r, v') ∧ v.Through (Confined t root (done ++ [item])) v' ∧
      Progress t root (done ++ [item]) s ∧ Remains env root (done ++ [item]) s v'.tree ∧
      (r = .ok () → v'.tree.node = s.node) := by
  have hitem : item ∈ done ++ [item] := by simp
  have hstart : Progress t root (done ++ [item]) v.tree := h.mono (List.subset_append_left ..)
  unfold extractItem
  cases hnorm : normalizePath item.path with
  | error e => exact ⟨_, v, v.tree, rfl, .of_states_eq rfl, hstart, Or.inl rfl, fun _ => rfl⟩
  | ok norm =>
    cases hkind : item.kind with
    | dir =>
      obtain ⟨r, v', heq, hthrough, hgrown, -⟩ :=
        createDirs_spec env (norm.splitOn '/') (v.tree.real_nil root)
      rw [List.nil_append] at hthrough hgrown
      have hall : ∀ s', Grown v.tree root (norm.splitOn '/') s' → Progress t root (done ++ [item]) s' :=
        fun s' => hstart.grown hitem hnorm (List.prefix_refl _) (Or.inl hkind)
      exact ⟨r, v', v'.tree, heq, hthrough.mono fun s' hs' => (hall s' hs').confined, hall _ hgrown, Or.inl rfl,
        fun _ => rfl⟩
    | file =>
      obtain ⟨r, v₁, heq, hthrough, hgrown, hreal⟩ :=
        createDirs_spec env (parentOf norm) (v.tree.real_nil root)
      rw [List.nil_append] at hthrough hgrown hreal
      have hall : ∀ s', Grown v.tree root (parentOf norm) s' → Progress t root (done ++ [item]) s' :=
        fun s' => hstart.grown hitem hnorm (parentOf_isPrefix norm) (Or.inr rfl)
      have hupto := hthrough.mono fun s' hs' => (hall s' hs').confined
      dsimp only
      rw [heq]
      cases r with
      | error e => exact ⟨_, v₁, v₁.tree, rfl, hupto, hall _ hgrown, Or.inl rfl, fun _ => rfl⟩
      | ok _ =>
        dsimp only
        have hplace : root ++ parentOf norm ++ [leafOf norm] = root ++ norm.splitOn '/' := by
          rw [List.append_assoc, parentOf_concat_leafOf]
        have hnew : ∀ content, v₁.tree.node (root ++ parentOf norm ++ [leafOf norm]) ≠ some (.file content) := by
          intro content hfile
          rw [hplace] at hfile
          by_cases hfree : v.tree.node (root ++ norm.splitOn '/') = none
          · have hdir := (hgrown.fresh _ hfree (by rw [hfile]; exact Option.some_ne_none _)).1
            rw [hfile] at hdir
            cases hdir
          · rw [hgrown.kept _ hfree] at hfile
            exact h.no_file (hnone norm hnorm hkind) (fun d hd hd' => hapart d hd norm hd' hnorm) content hfile
        obtain ⟨r, v₂, hwrite, hthrough', hend⟩ := writeFile_spec item.fill (hreal rfl) hnew
        have hmore := hupto.trans (hthrough'.mono fun s' hs' => (hall _ hgrown).oneMore hitem hnorm hkind hs')
        rcases hend with ⟨e, rfl, hend⟩ | ⟨-, hresult, hfree, hnode⟩
        · refine ⟨_, v₂, v₁.tree, hwrite, hmore, hall _ hgrown, ?_, fun hr => by cases hr⟩
          exact hend.imp_right fun hleft => ⟨item, hitem, norm, hnorm, hkind, hleft⟩
        · rw [hplace] at hfree hnode
          refine ⟨r, v₂, v₂.tree, hwrite, hmore, ?_, Or.inl rfl, fun _ => rfl⟩
          exact (hall _ hgrown).wrote hitem hnorm hkind hsound hresult hfree hnode

/-- Entries have different normalised paths. -/
def PathsApart (items : List Item) : Prop :=
  items.Pairwise fun d item => ∀ norm, normalizePath d.path = .ok norm → normalizePath item.path ≠ .ok norm

/-- What the loop does. -/
private theorem extractItems_spec (h : Progress t root done v.tree) (hsound : ∀ item ∈ items, item.Sound)
    (hnone : ∀ item ∈ items, ∀ norm, normalizePath item.path = .ok norm → item.kind = .file →
      ∀ content, t.node (root ++ norm.splitOn '/') ≠ some (.file content))
    (hapart : PathsApart (done ++ items)) :
    ∃ r v' s, extractItems env root items v = (r, v') ∧ v.Through (Confined t root (done ++ items)) v' ∧
      Progress t root (done ++ items) s ∧ Remains env root (done ++ items) s v'.tree := by
  induction items generalizing done v with
  | nil => exact ⟨_, v, v.tree, rfl, .of_states_eq rfl, by rwa [List.append_nil], Or.inl rfl⟩
  | cons item items ih =>
    have hsplit : done ++ item :: items = done ++ [item] ++ items := by simp
    have hfirst : ∀ d ∈ done, ∀ norm, normalizePath d.path = .ok norm → normalizePath item.path ≠ .ok norm :=
      fun d hd => (List.pairwise_append.1 hapart).2.2 d hd item (by simp)
    obtain ⟨r, v₁, s, heq, hthrough, hdone, hremains, hclean⟩ :=
      extractItem_spec h (hsound item (by simp)) (hnone item (by simp)) hfirst
    unfold extractItems
    rw [heq]
    have hsub : done ++ [item] ⊆ done ++ item :: items := hsplit ▸ List.subset_append_left ..
    have hupto : v.Through (Confined t root (done ++ item :: items)) v₁ := hthrough.mono fun s' hs' => hs'.mono hsub
    cases r with
    | error e => exact ⟨_, v₁, s, rfl, hupto, hdone.mono hsub, hremains.mono hsub⟩
    | ok _ =>
      have hdone₁ : Progress t root (done ++ [item]) v₁.tree := by
        have hsame := hclean rfl
        exact ⟨fun p hp => by rw [hsame, hdone.kept p hp], fun p hp hs => by
          rw [hsame] at hs ⊢
          exact hdone.fresh p hp hs⟩
      dsimp only
      obtain ⟨r, v₂, s', heq', hthrough', hdone', hremains'⟩ := ih hdone₁ (fun item hi => hsound item (by simp [hi]))
        (fun item hi => hnone item (by simp [hi])) (hsplit ▸ hapart)
      rw [← hsplit] at hthrough' hdone' hremains'
      exact ⟨r, v₂, s', heq', hupto.trans hthrough', hdone', hremains'⟩

/-! ### Extractions -/

/-- What an extraction from `v` to `v'` keeps to: at every point it is confined and has changed nothing that was there,
in the end only the entries have made anything, but for a temporary file that could not be removed, and each file has its
whole authenticated content or is left alone. -/
structure Extracted (env : Surroundings) (root : List Str) (items : List Item) (v v' : Volume) : Prop where
  always : v.Through (Confined v.tree root items) v'
  progress : ∃ s, Progress v.tree root items s ∧ Remains env root items s v'.tree
  files : ∀ item ∈ items, item.kind = .file → ∀ norm, normalizePath item.path = .ok norm →
    v'.tree.node (root ++ norm.splitOn '/') = v.tree.node (root ++ norm.splitOn '/') ∨
      ∃ bytes, item.content = .ok bytes ∧ v'.tree.node (root ++ norm.splitOn '/') = some (.file bytes)

/-- When nothing happens, everything is kept to. -/
theorem Extracted.refl (env : Surroundings) (root : List Str) (items : List Item) (v : Volume) :
    Extracted env root items v v :=
  ⟨.of_states_eq rfl, ⟨v.tree, ⟨fun _ _ => rfl, fun _ hp hs => absurd hp hs⟩, Or.inl rfl⟩, fun _ _ _ _ _ => Or.inl rfl⟩

/-- Nothing that was there is gone or changed. -/
theorem Extracted.kept {v' : Volume} (h : Extracted env root items v v') {p : List Str} (hp : v.tree.node p ≠ none) :
    v'.tree.node p = v.tree.node p := by
  obtain ⟨s, hprogress, hremains⟩ := h.progress
  have hkept := hprogress.kept p hp
  rcases hremains with hsame | ⟨item, -, norm, -, -, i, suffix, content, -, hfree, hnode⟩
  · rw [hsame, hkept]
  · have hne : p ≠ root ++ parentOf norm ++ [tempName suffix] := by
      rintro rfl
      rw [hkept] at hfree
      exact hp hfree
    rw [hnode, Function.update_of_ne hne, hkept]

/-- Preflight does not see a file that an entry's file would replace, as it cannot look at it. -/
def Overlooked (env : Surroundings) (root : List Str) (items : List Item) (t : PlaceTree Str Bytes) : Prop :=
  ∃ item ∈ items, item.kind = .file ∧ ∃ norm content, normalizePath item.path = .ok norm ∧
    (env.unseen norm).isSome = true ∧ t.node (root ++ norm.splitOn '/') = some (.file content)

/-- No temporary file has the name of an entry. -/
def NamesApart (env : Surroundings) (items : List Item) : Prop :=
  ∀ i suffix, env.random i = .ok suffix → ∀ item ∈ items, ∀ norm, normalizePath item.path = .ok norm →
    leafOf norm ≠ tempName suffix

variable {shape : List (Str × EntryKind)}

/-- The normalised path of an entry that is held. -/
private theorem mem_shape (h : Held (items.map fun i => (i.path, i.kind)) shape) (hitem : item ∈ items)
    (hnorm : normalizePath item.path = .ok norm) : (norm, item.kind) ∈ shape := by
  obtain ⟨x, hx, hstored, hkind⟩ := Keyed.exists_of_forall₂ h.normalizes.flip (List.mem_map_of_mem hitem)
  rw [normalizeStoredPath_of_normalizePath hnorm, Except.ok.injEq] at hstored
  have hkind' : x.2 = item.kind := hkind
  rwa [hstored, ← hkind']

private theorem Held.pathsApart (h : Held (items.map fun i => (i.path, i.kind)) shape) : PathsApart items := by
  obtain ⟨hnormalizes, hnodup, -⟩ := h
  induction items generalizing shape with
  | nil => exact List.Pairwise.nil
  | cons item items ih =>
    cases hnormalizes with
    | @cons _ x _ shape hx hrest =>
      rw [List.map_cons, List.nodup_cons] at hnodup
      refine List.pairwise_cons.2 ⟨fun item' hitem' norm hnorm hnorm' => ?_, ih hrest hnodup.2⟩
      obtain ⟨y, hy, hstored, -⟩ := Keyed.exists_of_forall₂ hrest.flip (List.mem_map_of_mem hitem')
      have hfirst := hx.1
      rw [normalizeStoredPath_of_normalizePath hnorm, Except.ok.injEq] at hfirst
      rw [normalizeStoredPath_of_normalizePath hnorm', Except.ok.injEq] at hstored
      rw [← hfirst, hstored] at hnodup
      exact hnodup.1 (List.mem_map_of_mem hy)

/-- Entries with one path are one. -/
private theorem PathsApart.eq (h : PathsApart items) {item' : Item} (hitem : item ∈ items) (hitem' : item' ∈ items)
    (hnorm : normalizePath item.path = .ok norm) (hnorm' : normalizePath item'.path = .ok norm) : item = item' := by
  by_contra hne
  have hone : items.Pairwise fun d item : Item => d ≠ item →
      ∀ norm, normalizePath d.path = .ok norm → normalizePath item.path ≠ .ok norm := by
    refine List.Pairwise.imp ?_ h
    intro d item hd _
    exact hd
  have hother : items.Pairwise fun d item : Item => item ≠ d →
      ∀ norm, normalizePath item.path = .ok norm → normalizePath d.path ≠ .ok norm := by
    refine List.Pairwise.imp ?_ h
    intro d item hd _ norm hn hn'
    exact hd norm hn' hn
  have hall := List.Pairwise.forall_of_forall_of_flip (fun _ _ hself => absurd rfl hself) hone hother
  exact hall hitem hitem' hne norm hnorm hnorm'

/-- Where preflight has looked there is no file. -/
private theorem no_file_of_preflight (h : Held (items.map fun i => (i.path, i.kind)) shape)
    (hpre : preflightExtraction u (destination env root t) (items.map fun i => (i.path, i.kind)) = .ok ())
    (hseen : ¬ Overlooked env root items t) (hitem : item ∈ items) (hnorm : normalizePath item.path = .ok norm)
    (hkind : item.kind = .file) (content : Bytes) : t.node (root ++ norm.splitOn '/') ≠ some (.file content) := by
  intro hfile
  have hlooked : env.unseen norm = none := by
    rw [← Option.not_isSome_iff_eq_none]
    exact fun hunseen => hseen ⟨item, hitem, hkind, norm, content, hnorm, hunseen, hfile⟩
  have hok := (preflightExtraction_eq_ok h).1 hpre
  refine hok (Or.inr (Or.inr ⟨(norm, item.kind), mem_shape h hitem hnorm, hkind, ?_⟩))
  rw [← parentOf_concat_leafOf] at hfile
  have hreal : t.Real root (parentOf norm) := PlaceTree.real_of_node (by rw [hfile]; exact Option.some_ne_none _)
  unfold destination
  dsimp only
  rw [hlooked, hreal.lookup, List.append_assoc, hfile]
  simp

/-- Each file that an entry makes is its own. -/
private theorem Progress.files (h : Held (items.map fun i => (i.path, i.kind)) shape) (hdone : Progress t root items s)
    (hitem : item ∈ items) (hkind : item.kind = .file) (hnorm : normalizePath item.path = .ok norm) :
    s.node (root ++ norm.splitOn '/') = t.node (root ++ norm.splitOn '/') ∨
      ∃ bytes, item.content = .ok bytes ∧ s.node (root ++ norm.splitOn '/') = some (.file bytes) := by
  by_cases hfree : t.node (root ++ norm.splitOn '/') = none
  · by_cases hmade : s.node (root ++ norm.splitOn '/') = none
    · exact Or.inl (hmade.trans hfree.symm)
    · obtain ⟨item', hitem', norm', q, hnorm', -, hpre, hp, hwhat⟩ := hdone.fresh _ hfree hmade
      obtain rfl := List.append_cancel_left hp
      rcases hwhat with ⟨-, hdir⟩ | ⟨hq, -, bytes, hcontent, hnode⟩
      · -- a directory would be above another entry
        rcases atOrBelow_of_splitOn hpre with rfl | hbelow
        · obtain rfl := h.pathsApart.eq hitem hitem' hnorm hnorm'
          rw [hdir rfl] at hkind
          cases hkind
        · exact absurd hbelow (h.tree _ (mem_shape h hitem hnorm) _ (mem_shape h hitem' hnorm') hkind)
      · obtain rfl := splitOn_inj hq
        obtain rfl := h.pathsApart.eq hitem hitem' hnorm hnorm'
        exact Or.inr ⟨bytes, hcontent, hnode⟩
  · exact Or.inl (hdone.kept _ hfree)

/-- A temporary file that is left is in no entry's place. -/
private theorem Remains.node_eq (h : Remains env root items s s') (hnames : NamesApart env items) (hitem : item ∈ items)
    (hnorm : normalizePath item.path = .ok norm) :
    s'.node (root ++ norm.splitOn '/') = s.node (root ++ norm.splitOn '/') := by
  rcases h with hsame | ⟨item', -, norm', -, -, i, suffix, content, hdrawn, -, hnode⟩
  · rw [hsame]
  · have hne : root ++ norm.splitOn '/' ≠ root ++ parentOf norm' ++ [tempName suffix] := by
      rw [← parentOf_concat_leafOf, List.append_assoc]
      intro heq
      have hlast := (List.append_inj' (List.append_cancel_left heq) rfl).2
      exact hnames i suffix hdrawn item hitem norm hnorm (List.singleton_inj.1 hlast)
    rw [hnode, Function.update_of_ne hne]

/-- What an extraction keeps to that preflight has accepted. -/
private theorem extracted_of_preflight (h : Held (items.map fun i => (i.path, i.kind)) shape)
    (hsound : ∀ item ∈ items, item.Sound) (hseen : ¬ Overlooked env root items v.tree) (hnames : NamesApart env items)
    (hpre : preflightExtraction u (destination env root v.tree) (items.map fun i => (i.path, i.kind)) = .ok ()) :
    Extracted env root items v (extractItems env root items v).2 := by
  have hstart : Progress v.tree root [] v.tree := ⟨fun _ _ => rfl, fun _ hp hs => absurd hp hs⟩
  obtain ⟨r, v', s, heq, hthrough, hdone, hremains⟩ : ∃ r v' s, extractItems env root items v = (r, v') ∧
      v.Through (Confined v.tree root items) v' ∧ Progress v.tree root items s ∧ Remains env root items s v'.tree :=
    extractItems_spec hstart hsound
      (fun item hitem norm hnorm hkind content => no_file_of_preflight h hpre hseen hitem hnorm hkind content) h.pathsApart
  rw [heq]
  refine ⟨hthrough, ⟨s, hdone, hremains⟩, fun item hitem hkind norm hnorm => ?_⟩
  have hplace : v'.tree.node (root ++ norm.splitOn '/') = s.node (root ++ norm.splitOn '/') :=
    hremains.node_eq hnames hitem hnorm
  rw [hplace]
  exact hdone.files h hitem hkind hnorm

/-! ### What is read -/

variable {P : Prims} {C : Fsec.FsecPrims P}

private theorem Fsec.VaultReader.flatten_untilError {r : Fsec.VaultReader} {file : Bytes} {fileStart fileEnd : Nat}
    {cs : List Nat} {bytes : Bytes} (h : r.overlaps C file fileStart fileEnd cs = .ok bytes) :
    (untilError (r.overlap C file fileStart fileEnd) cs).flatten = bytes := by
  induction cs generalizing bytes with
  | nil => exact Except.ok.inj h
  | cons c cs ih =>
    obtain ⟨part, hpart, h⟩ := Fsec.bind_eq_ok.1 h
    obtain ⟨rest, hrest, h⟩ := Fsec.bind_eq_ok.1 h
    simp only [untilError, hpart, List.flatten_cons, ih hrest]
    exact Except.ok.inj h

private theorem VaultReaderV2.flatten_untilError {r : VaultReaderV2 P} {file : Bytes} {e : EntryV2} {key nonce : Bytes}
    {cs : List Nat} {bytes : Bytes} (h : r.readChunks file e key nonce cs = .ok bytes) :
    (untilError (r.decryptBlobChunk file e key nonce) cs).flatten = bytes := by
  induction cs generalizing bytes with
  | nil => exact Except.ok.inj h
  | cons c cs ih =>
    obtain ⟨part, hpart, h⟩ := Fsec.bind_eq_ok.1 h
    obtain ⟨rest, hrest, h⟩ := Fsec.bind_eq_ok.1 h
    simp only [untilError, hpart, List.flatten_cons, ih hrest]
    exact Except.ok.inj h

/-- What is written of a container's entry is what is read of it. -/
private theorem Fsec.VaultReader.written_eq {r : Fsec.VaultReader} {file : Bytes} {e : Entry} {bytes : Bytes}
    (h : r.decryptEntryToWriter C file e = .ok bytes) : (r.written C file e).flatten = bytes := by
  unfold Fsec.VaultReader.decryptEntryToWriter at h
  unfold Fsec.VaultReader.written
  by_cases hsize : e.size = 0
  · rw [if_pos hsize] at h
    rw [if_pos (Or.inl hsize)]
    split at h
    · cases h
    · exact Except.ok.inj h
  · rw [if_neg hsize] at h
    simp only [Fsec.bind_eq_ok, Fsec.refuseIf_eq_ok, exists_const, Except.ok.injEq] at h
    obtain ⟨hover, hfew, out, hout, -, rfl⟩ := h
    rw [if_neg (by rw [not_or, not_or]; exact ⟨hsize, hover, hfew⟩)]
    exact Fsec.VaultReader.flatten_untilError hout

/-- What is written of a vault's entry is what is read of it. -/
private theorem VaultReaderV2.written_eq {r : VaultReaderV2 P} {blobs : Str → Option Bytes} {path : Str} {bytes : Bytes}
    (h : r.readEntryToWriter blobs path = .ok bytes) : (r.written blobs path).flatten = bytes := by
  unfold VaultReaderV2.readEntryToWriter at h
  obtain ⟨e, he, h⟩ := Fsec.bind_eq_ok.1 h
  unfold VaultReaderV2.written
  rw [he]
  split at h
  · cases h
  · cases hkey : e.key with
    | none => simp [hkey] at h
    | some key =>
      cases hnonce : e.nonce with
      | none => simp [hkey, hnonce] at h
      | some nonce =>
        simp only [hkey, hnonce, Fsec.bind_eq_ok] at h
        obtain ⟨id, hid, file, hfile, out, hout, h⟩ := h
        split at h
        · have hopened : ((blobId e).bind fun id => openBlob blobs id e.size e.chunkSize) = .ok file :=
            Fsec.bind_eq_ok.2 ⟨id, hid, hfile⟩
          simp only [hkey, hnonce, hopened]
          rw [VaultReaderV2.flatten_untilError hout]
          exact Except.ok.inj h
        · cases h

/-- What an extraction keeps to, whether preflight accepts it or not. -/
private theorem extracted_of_held {entries : List (Str × EntryKind)} (h : Held entries shape)
    (hentries : items.map (fun i => (i.path, i.kind)) = entries) (hsound : ∀ item ∈ items, item.Sound)
    (hseen : ¬ Overlooked env root items v.tree) (hnames : NamesApart env items) :
    Extracted env root items v
      (match preflightExtraction u (destination env root v.tree) entries with
        | .error e => (Except.error e, v)
        | .ok () => extractItems env root items v).2 := by
  subst hentries
  cases hpre : preflightExtraction u (destination env root v.tree) (items.map fun i => (i.path, i.kind)) with
  | error e => exact .refl ..
  | ok _ => exact extracted_of_preflight h hsound hseen hnames hpre

private theorem extractVault_extracted {vault : Vault} (h : Held (vault.entries.map fun e => (e.path, e.kind)) shape)
    (hseen : ¬ Overlooked env root vault.items v.tree) (hnames : NamesApart env vault.items) :
    Extracted env root vault.items v (extractVault u env root vault v).2 := by
  have hentries : vault.items.map (fun i => (i.path, i.kind)) = vault.entries.map fun e => (e.path, e.kind) := by
    unfold Vault.items
    rw [List.map_map]
    rfl
  refine extracted_of_held h hentries (fun item hitem bytes hbytes => ?_) hseen hnames
  obtain ⟨e, -, rfl⟩ := List.mem_map.1 hitem
  simpa using Except.ok.inj hbytes

private theorem Fsec.VaultReader.extractTo_extracted {r : Fsec.VaultReader} (h : Fsec.Shaped r.manifest.entries shape)
    (file : Bytes) (hseen : ¬ Overlooked env root (r.items C file) v.tree) (hnames : NamesApart env (r.items C file)) :
    Extracted env root (r.items C file) v (r.extractTo u env root C (.ok file) v).2 := by
  have hentries : (r.items C file).map (fun i => (i.path, i.kind)) =
      r.manifest.entries.map fun e => (e.path, e.kind) := by
    unfold Fsec.VaultReader.items
    rw [List.map_map]
    rfl
  refine extracted_of_held h.held hentries (fun item hitem bytes hbytes => ?_) hseen hnames
  obtain ⟨e, -, rfl⟩ := List.mem_map.1 hitem
  exact Fsec.VaultReader.written_eq hbytes

private theorem VaultReaderV2.extractTo_extracted {r : VaultReaderV2 P}
    (h : Held (r.manifest.entries.map fun e => (e.path, e.kind)) shape) (blobs : Str → Option Bytes)
    (hseen : ¬ Overlooked env root (r.items blobs) v.tree) (hnames : NamesApart env (r.items blobs)) :
    Extracted env root (r.items blobs) v (r.extractTo u env root blobs v).2 := by
  have hentries : (r.items blobs).map (fun i => (i.path, i.kind)) =
      r.manifest.entries.map fun e => (e.path, e.kind) := by
    unfold VaultReaderV2.items
    rw [List.map_map]
    rfl
  refine extracted_of_held h hentries (fun item hitem bytes hbytes => ?_) hseen hnames
  obtain ⟨e, -, rfl⟩ := List.mem_map.1 hitem
  exact VaultReaderV2.written_eq hbytes

/-- Whatever is accepted, and wherever it is extracted to, if preflight overlooks no file: nothing that was there changes,
nothing is made but where the entries say, below the directory and through no link, and where a file is made it has the
entry's authenticated bytes. -/
theorem extraction_confined {source : Extractable C} (h : source.Accepted) (u : Folding) (env : Surroundings)
    (root : List Str) (v : Volume) (hseen : ¬ Overlooked env root source.items v.tree)
    (hnames : NamesApart env source.items) :
    Extracted env root source.items v (source.extract u env root v).2 := by
  cases h with
  | vault hheld => exact extractVault_extracted hheld hseen hnames
  | @container file identity opened hopen data =>
    obtain ⟨header, suite, cek, manifest, layout, hp, rfl⟩ := Fsec.openReaderInner_eq_ok.1 hopen
    obtain ⟨-, -, ⟨shape, hshape⟩, -⟩ := Fsec.validateManifestLayout_iff.1 hp.layout
    cases data with
    | ok bytes => exact Fsec.VaultReader.extractTo_extracted hshape bytes hseen hnames
    | error e =>
      -- the file does not open, so that nothing is written
      unfold Extractable.extract Fsec.VaultReader.extractTo
      dsimp only
      split
      · exact .refl ..
      · exact .refl ..
  | @reader files identity r hopen blobs =>
    obtain ⟨shape, hheld⟩ := (validateManifestV2_iff.1 (valid_of_openVault hopen)).held
    exact VaultReaderV2.extractTo_extracted hheld blobs hseen hnames

/-! ### Into a directory with a file and a link -/

/-- Links lead nowhere, everything can be looked at and no call fails. -/
private def calm : Surroundings := ⟨fun _ _ => none, fun _ => none, fun _ => none, fun _ => .ok (List.replicate 8 0)⟩

/-- No two texts are the same. -/
private def noFolding : Folding := ⟨id, id, id⟩

/-- A directory with a file and a link in it. -/
private def visited : Volume :=
  ⟨(PlaceTree.bare.set [] "old".toList (some (.file [9]))).set [] "link".toList (some .link), 0, []⟩

open Fsec.Sym in
private theorem openedNotes_ok :
    (Fsec.openReaderInner container noted noted.length alice).toOption.isSome = true := by
  decide +kernel

open Fsec.Sym in
/-- A container with a directory and a file in it, opened. -/
@[irreducible]
private def openedNotes : Fsec.Opened :=
  (Fsec.openReaderInner container noted noted.length alice).toOption.get openedNotes_ok

private theorem open_openedNotes :
    Fsec.openReaderInner Fsec.Sym.container Fsec.Sym.noted Fsec.Sym.noted.length Fsec.Sym.alice = .ok openedNotes := by
  unfold openedNotes
  exact eq_ok_get openedNotes_ok

/-- It, with its file. -/
private def notesSource : Extractable Fsec.Sym.container := .container openedNotes.reader (.ok Fsec.Sym.noted)

private theorem notes_apart : ∀ item ∈ notesSource.items,
    ((normalizePath item.path).toOption.all fun norm => leafOf norm ≠ tempName (List.replicate 8 0)) = true := by
  decide +kernel

private theorem calm_names : NamesApart calm notesSource.items := by
  intro i suffix hdrawn item hitem norm hnorm
  obtain rfl : List.replicate 8 0 = suffix := Except.ok.inj hdrawn
  have hall := notes_apart item hitem
  rw [hnorm] at hall
  exact of_decide_eq_true hall

theorem extraction_confined_visited :
    Extracted calm [] notesSource.items visited (notesSource.extract noFolding calm [] visited).2 :=
  extraction_confined (.container open_openedNotes (.ok Fsec.Sym.noted)) noFolding calm [] visited
    (by rintro ⟨item, -, -, norm, content, -, ⟨⟩, -⟩) calm_names

/-! ### Over a file that cannot be looked at -/

/-- A directory with a file where the container's file is to be. -/
private def occupied : Volume :=
  ⟨(PlaceTree.bare.set [] "a".toList (some .dir)).set ["a".toList] "f".toList (some (.file [9])), 0, []⟩

/-- Looking at that file fails once, before anything is written. -/
private def blinking : Surroundings := { calm with unseen := fun norm => if norm = "a/f".toList then some (.io []) else none }

private theorem occupied_before : occupied.tree.node ["a".toList, "f".toList] = some (.file [9]) := by
  decide +kernel

private theorem occupied_after :
    (notesSource.extract noFolding blinking [] occupied).2.tree.node ["a".toList, "f".toList] = some (.file [1, 2, 3]) := by
  decide +kernel

/-- The extraction replaces the user's file. -/
theorem extraction_replaces :
    ¬ Extracted blinking [] notesSource.items occupied (notesSource.extract noFolding blinking [] occupied).2 := by
  intro h
  have hkept := h.kept (p := ["a".toList, "f".toList]) (by rw [occupied_before]; exact Option.some_ne_none _)
  rw [occupied_before, occupied_after] at hkept
  exact absurd hkept (by decide)

end FileSec
