import FileSec.Lib.Runs
import FileSec.Fsec.Layout
import FileSec.Fsec.RoundTrip

/-!
# Vaults with implied directories

A vault that comes out of a container is a tree, but the directories above its entries need not be listed.  The
operations on it look for listed entries only: `vaultTree_iff` says along which runs of `add_file`, `add_dir` and `remove`
it stays a tree and a failed call leaves it alone.
-/

namespace FileSec

/-- What an operation on a vault returns. -/
def VaultOp.result (vault : Vault) : VaultOp → Result Unit
  | .addFile path content mtime mode => (vault.addFile path content mtime mode).1
  | .addDir path => (vault.addDir path).1
  | .remove _ => .ok ()

end FileSec

namespace FileSec.Fsec

open SepPath

variable {P : Prims} {C : FsecPrims P}

/-! ### Runs -/

/-- The vaults with which a run begins: an empty one, and what reading a container gives. -/
inductive Started (C : FsecPrims P) : Vault → Prop
  | new (name : Str) (createdAt : Int) : Started C (Vault.new name createdAt)
  | imported {bytes : Bytes} {identity : Identity C} {imported : ImportedVault}
      (h : importVault C bytes identity = .ok imported) : Started C imported.vault
  | opened {file data : Bytes} {identity : Identity C} {r : VaultReader} {vault : Vault}
      (hopen : openVaultFromPath C file identity = .ok r) (h : r.toVault C data = .ok vault) : Started C vault

/-- What an operation on a vault promises: the vault is a tree afterwards, so that a container of it is imported, and it
is as before if the operation fails. -/
structure StaysTree (C : FsecPrims P) (vault : Vault) (op : VaultOp) : Prop where
  nodup : ((op.run vault).entries.map (·.path)).Nodup
  shape : checkTreeShape ((op.run vault).entries.map fun v => (v.path, v.kind)) = .ok ()
  exports : ∀ (sender : Identity C) (recipients : List Peer.PublicIdentity) (identity : Identity C)
    (options : ExportOptions) (draws : Draws) (out : Bytes),
    IsRecipient recipients identity → NoCollision recipients identity →
    (op.run vault).entries.length ≤ maxManifestEntries →
    (C.encodeManifest (buildManifest P (op.run vault))).length + tagLen ≤ maxManifestLen →
    numChunks (totalSizeOf (op.run vault)) options.chunkSize ≤ 2 ^ 32 →
    exportVault C (op.run vault) sender recipients options draws = .ok out →
      (Imports C out identity (op.run vault) options.suite sender ↔
        numChunks (totalSizeOf (op.run vault)) options.chunkSize ≠ 2 ^ 32)
  unchanged : ∀ e, op.result vault = .error e → op.run vault = vault

/-- Where a file stands above the path, everything above that file is listed. -/
def NoGap (vault : Vault) (path : Str) : Prop :=
  ∀ f ∈ vault.entries, f.kind = .file → Below '/' f.path path → ∀ a, Below '/' a f.path →
    a ∈ vault.entries.map (·.path)

/-- The operation adds no file above an entry, and nothing below a file with unlisted directories above it. -/
def Fits (vault : Vault) : VaultOp → Prop
  | .addFile path _ _ _ => ∀ norm, normalizePath path = .ok norm → norm ∉ vault.entries.map (·.path) →
      (∀ e ∈ vault.entries, ¬ Below '/' norm e.path) ∧ NoGap vault norm
  | .addDir path => ∀ norm, normalizePath path = .ok norm → norm ∉ vault.entries.map (·.path) → NoGap vault norm
  | .remove _ => True

/-! ### What comes out of a container -/

/-- What the manifest describes has its paths and kinds, normalised. -/
private theorem Describes.forall₂ {es : List Entry} {offset : Nat} {vs : List VaultEntry}
    (h : Describes P offset es vs) :
    List.Forall₂ (fun e v => normalizePath e.path = .ok v.path ∧ v.kind = e.kind ∧ (v.kind = .dir → v.content = []))
      es vs := by
  induction h with
  | nil => exact .nil
  | file hpath hkind _ _ _ _ _ ih =>
    exact .cons ⟨hpath, hkind.2.trans hkind.1.symm, fun hdir => by rw [hkind.2] at hdir; cases hdir⟩ ih
  | dir hpath hkind _ hempty _ ih => exact .cons ⟨hpath, hkind.2.trans hkind.1.symm, fun _ => hempty⟩ ih

/-- A manifest in the shape of a tree gives a tree. -/
private theorem soundTree_of_shaped {es : List Entry} {shape : List (Str × EntryKind)} {vs : List VaultEntry}
    (hshape : Shaped es shape)
    (h : List.Forall₂ (fun e v => normalizePath e.path = .ok v.path ∧ v.kind = e.kind ∧ (v.kind = .dir → v.content = []))
      es vs) : SoundTree vs := by
  have hsame : vs.map (fun v => (v.path, v.kind)) = shape := by
    have hnorm := hshape.normalizes
    clear hshape
    induction h generalizing shape with
    | nil =>
      cases hnorm
      rfl
    | cons hv _ ih =>
      cases hnorm with
      | cons hx hrest =>
        obtain ⟨hpath, hkind⟩ := hx
        rw [hv.1, Except.ok.injEq] at hpath
        rw [List.map_cons, ih hrest, hpath, hv.2.1, ← hkind]
  have hall : ∀ v ∈ vs, CleanPath v.path ∧ (v.kind = .dir → v.content = []) := by
    intro v hv
    obtain ⟨e, -, hpath, -, hdir⟩ := Keyed.exists_of_forall₂ h hv
    exact ⟨cleanPath_of_normalizePath hpath, hdir⟩
  have hmem : ∀ v ∈ vs, (v.path, v.kind) ∈ shape := fun v hv => hsame ▸ List.mem_map_of_mem hv
  refine ⟨fun v hv => (hall v hv).1, ⟨?_, fun x hx y hy hfile => ?_⟩, fun v hv => (hall v hv).2⟩
  · have := hshape.nodup
    rwa [← hsame, List.map_map] at this
  · exact hshape.tree _ (hmem x hx) _ (hmem y hy) hfile

private theorem reconstruct_soundTree {m : Manifest} {plaintext : StreamDecryptReader P} {vault : Vault}
    {shape : List (Str × EntryKind)} (hr : plaintext.Running) (hshape : Shaped m.entries shape)
    (h : reconstructVaultStreaming m plaintext = .ok vault) : SoundTree vault.entries := by
  unfold reconstructVaultStreaming at h
  obtain ⟨⟨entries, rest⟩, hentries, h⟩ := bind_eq_ok.1 h
  dsimp only at h
  split at h
  · rw [← Except.ok.inj h]
    exact soundTree_of_shaped hshape (describes_of_reconstructEntries hr hentries).1.forall₂
  · cases h
  · cases h

theorem Started.soundTree {vault : Vault} (h : Started C vault) : SoundTree vault.entries := by
  cases h with
  | new name createdAt => exact soundTree_of_sound soundEntries_nil
  | imported h =>
    obtain ⟨header, suite, cek, manifest, layout, hp, -, ⟨plaintext, hplaintext, hvault⟩, -⟩ :=
      importVault_eq_ok.1 h
    obtain ⟨-, -, ⟨shape, hshape⟩, -⟩ := validateManifestLayout_iff.1 hp.layout
    exact reconstruct_soundTree (StreamDecryptReader.newWith_left P.openBytes hplaintext).1 hshape hvault
  | opened hopen h =>
    obtain ⟨header, suite, cek, manifest, layout, hp, rfl⟩ := openVaultFromPath_eq_ok.1 hopen
    obtain ⟨-, -, ⟨shape, hshape⟩, -⟩ := validateManifestLayout_iff.1 hp.layout
    obtain ⟨plaintext, hplaintext, hvault⟩ := bind_eq_ok.1 h
    exact reconstruct_soundTree (m := manifest) (StreamDecryptReader.newWith_left P.openBytes hplaintext).1 hshape hvault

/-! ### Creating parents -/

/-- The directories that creating parents adds: those of the paths that are not there. -/
def missing (paths : List Str) (es : List VaultEntry) : List VaultEntry :=
  (paths.filter fun a => a ∉ es.map (·.path)).map .dir

variable {es : List VaultEntry} {p : Str}

private theorem mem_missing {paths : List Str} {v : VaultEntry} :
    v ∈ missing paths es ↔ ∃ a ∈ paths, a ∉ es.map (·.path) ∧ VaultEntry.dir a = v := by
  unfold missing
  simp only [List.mem_map, List.mem_filter, decide_eq_true_eq, and_assoc]

/-- Where no file stands, the walk down the parents adds what is missing. -/
private theorem ensureParentsAt_append {up : List Str} (more : List Str) (hup : up.Nodup)
    (hdirs : ∀ e ∈ es, e.path ∈ up → e.kind = .dir) :
    ensureParentsAt (up ++ more) es = ensureParentsAt more (es ++ missing up es) := by
  induction up generalizing es with
  | nil => simp [missing]
  | cons acc up ih =>
    rw [List.nodup_cons] at hup
    rw [List.cons_append]
    conv => lhs; unfold ensureParentsAt
    cases hfind : es.find? (·.path = acc) with
    | some e =>
      have hmem := List.mem_of_find?_eq_some hfind
      have hpath : e.path = acc := by simpa using List.find?_some hfind
      have hin : acc ∈ es.map (·.path) := hpath ▸ List.mem_map_of_mem hmem
      have hsame : missing (acc :: up) es = missing up es := by
        unfold missing
        rw [List.filter_cons_of_neg (by simpa using hin)]
      dsimp only
      rw [if_pos (hdirs e hmem (by simp [hpath])), hsame]
      exact ih hup.2 fun e he hin => hdirs e he (List.mem_cons_of_mem _ hin)
    | none =>
      have hnew : acc ∉ es.map (·.path) := by
        intro hin
        obtain ⟨e, he, hpath⟩ := List.mem_map.1 hin
        exact List.find?_eq_none.1 hfind e he (by simpa using hpath)
      have hsame : missing (acc :: up) es = .dir acc :: missing up (es ++ [.dir acc]) := by
        unfold missing
        rw [List.filter_cons_of_pos (by simpa using hnew), List.map_cons]
        congr 2
        refine List.filter_congr fun a ha => ?_
        have hne : a ≠ acc := fun heq => hup.1 (heq ▸ ha)
        have hdir : (VaultEntry.dir acc).path = acc := rfl
        simp [hdir, hne]
      dsimp only
      rw [ih hup.2, hsame, List.append_assoc, List.singleton_append]
      intro e he hin
      rcases List.mem_append.1 he with he | he
      · exact hdirs e he (List.mem_cons_of_mem _ hin)
      · rw [List.mem_singleton.1 he]
        rfl

/-- A file among the parents stops the walk; what is missing above it has been added by then. -/
private theorem ensureParentsAt_file (down : List Str) {up : List Str} {f : VaultEntry} (hup : up.Nodup)
    (hdirs : ∀ e ∈ es, e.path ∈ up → e.kind = .dir) (hnodup : (es.map (·.path)).Nodup) (hf : f ∈ es)
    (hfile : f.kind = .file) :
    ∃ e, ensureParentsAt (up ++ f.path :: down) es = (.error e, es ++ missing up es) := by
  rw [ensureParentsAt_append _ hup hdirs]
  have hfind : (es ++ missing up es).find? (·.path = f.path) = some f := by
    rw [List.find?_append]
    obtain ⟨g, hg⟩ : ∃ g, es.find? (·.path = f.path) = some g := by
      rw [← Option.isSome_iff_exists, List.find?_isSome]
      exact ⟨f, hf, by simp⟩
    have hpath : g.path = f.path := by simpa using List.find?_some hg
    rw [hg, List.inj_on_of_nodup_map hnodup (List.mem_of_find?_eq_some hg) hf hpath]
    rfl
  unfold ensureParentsAt
  rw [hfind]
  dsimp only
  rw [if_neg (by rw [hfile]; decide)]
  exact ⟨_, rfl⟩

theorem ensureParents_eq (vault : Vault) (hp : CleanPath p) :
    vault.ensureParents p = ((ensureParentsAt (parents '/' p) vault.entries).1,
      { vault with entries := (ensureParentsAt (parents '/' p) vault.entries).2 }) := by
  simp only [Vault.ensureParents, accPaths_normal hp.1]

/-! ### Steps -/

/-- A new entry goes into a tree, unless a file stands above it or it is a file above an entry. -/
theorem SoundTree.push (h : SoundTree es) {v : VaultEntry} (hclean : CleanPath v.path) (hnew : v.path ∉ es.map (·.path))
    (hup : ∀ f ∈ es, f.kind = .file → ¬ Below '/' f.path v.path)
    (hdown : v.kind = .file → ∀ e ∈ es, ¬ Below '/' v.path e.path) (hdir : v.kind = .dir → v.content = []) :
    SoundTree (es ++ [v]) := by
  refine ⟨?_, ⟨?_, ?_⟩, ?_⟩
  · intro e he
    rcases List.mem_append.1 he with he | he
    · exact h.clean e he
    · exact List.mem_singleton.1 he ▸ hclean
  · rw [List.map_append, List.map_singleton, List.nodup_append]
    refine ⟨h.shaped.nodup, by simp, fun a ha b hb heq => ?_⟩
    rw [List.mem_singleton] at hb
    exact hnew (hb ▸ heq ▸ ha)
  · intro x hx y hy hfile
    rcases List.mem_append.1 hx with hx | hx
    · rcases List.mem_append.1 hy with hy | hy
      · exact h.shaped.shape x hx y hy hfile
      · rw [List.mem_singleton.1 hy]
        exact hup x hx hfile
    · rw [List.mem_singleton] at hx
      subst hx
      rcases List.mem_append.1 hy with hy | hy
      · exact hdown hfile y hy
      · rw [List.mem_singleton.1 hy]
        exact not_below_self _
  · intro e he hk
    rcases List.mem_append.1 he with he | he
    · exact h.dirs e he hk
    · rw [List.mem_singleton.1 he] at hk ⊢
      exact hdir hk

/-- So do the missing parents of a path that no file stands above. -/
private theorem SoundTree.missing (h : SoundTree es) (hp : CleanPath p) {paths : List Str} (hnodup : paths.Nodup)
    (hall : ∀ a ∈ paths, Below '/' a p) (hup : ∀ f ∈ es, f.kind = .file → ¬ Below '/' f.path p) :
    SoundTree (es ++ missing paths es) := by
  refine ⟨?_, ⟨?_, ?_⟩, ?_⟩
  · intro e he
    rcases List.mem_append.1 he with he | he
    · exact h.clean e he
    · obtain ⟨a, ha, -, rfl⟩ := mem_missing.1 he
      exact hp.of_below (hall a ha)
  · have hpaths : (Fsec.missing paths es).map (·.path) = paths.filter fun a => a ∉ es.map (·.path) := by
      unfold Fsec.missing
      rw [List.map_map]
      exact List.map_id _
    rw [List.map_append, hpaths, List.nodup_append]
    refine ⟨h.shaped.nodup, hnodup.filter _, fun a ha b hb heq => ?_⟩
    have := (List.mem_filter.1 hb).2
    rw [decide_eq_true_eq] at this
    exact this (heq ▸ ha)
  · intro x hx y hy hfile
    rcases List.mem_append.1 hx with hx | hx
    · rcases List.mem_append.1 hy with hy | hy
      · exact h.shaped.shape x hx y hy hfile
      · obtain ⟨a, ha, -, rfl⟩ := mem_missing.1 hy
        exact fun hb => hup x hx hfile (hb.trans (hall a ha))
    · obtain ⟨a, -, -, rfl⟩ := mem_missing.1 hx
      cases hfile
  · intro e he hk
    rcases List.mem_append.1 he with he | he
    · exact h.dirs e he hk
    · obtain ⟨a, -, -, rfl⟩ := mem_missing.1 he
      rfl

/-- What creating the parents of a new path does: it succeeds and adds what is missing if no file stands above the path,
and else fails and adds what is missing above that file. -/
private theorem ensureParents_cases {vault : Vault} (h : SoundTree vault.entries) (hp : CleanPath p) :
    ((∀ f ∈ vault.entries, f.kind = .file → ¬ Below '/' f.path p) ∧
      vault.ensureParents p = (.ok (), { vault with entries := vault.entries ++ missing (parents '/' p) vault.entries })) ∨
    ∃ f ∈ vault.entries, f.kind = .file ∧ Below '/' f.path p ∧
      ∃ e, vault.ensureParents p =
        (.error e, { vault with entries := vault.entries ++ missing (parents '/' f.path) vault.entries }) := by
  have hnodup : (parents '/' p).Nodup := parents_nodup p
  rw [ensureParents_eq vault hp]
  by_cases hup : ∀ f ∈ vault.entries, f.kind = .file → ¬ Below '/' f.path p
  · left
    refine ⟨hup, ?_⟩
    have hdirs : ∀ e ∈ vault.entries, e.path ∈ parents '/' p → e.kind = .dir := by
      intro e he hin
      cases hk : e.kind with
      | dir => rfl
      | file => exact absurd (mem_parents.1 hin) (hup e he hk)
    have hall := ensureParentsAt_append [] hnodup hdirs
    rw [List.append_nil] at hall
    rw [hall]
    rfl
  · right
    push Not at hup
    obtain ⟨f, hf, hfile, hb⟩ := hup
    refine ⟨f, hf, hfile, hb, ?_⟩
    obtain ⟨down, hdown⟩ : ∃ down, parents '/' p = parents '/' f.path ++ f.path :: down := by
      obtain ⟨t, rfl⟩ := below_iff.1 hb
      exact ⟨_, parents_append f.path t⟩
    rw [hdown] at hnodup ⊢
    have hdirs : ∀ e ∈ vault.entries, e.path ∈ parents '/' f.path → e.kind = .dir := by
      intro e he hin
      cases hk : e.kind with
      | dir => rfl
      | file => exact absurd (mem_parents.1 hin) (h.shaped.shape e he f hf hk)
    obtain ⟨e, heq⟩ := ensureParentsAt_file down (List.nodup_append.1 hnodup).1 hdirs h.shaped.nodup hf hfile
    rw [heq]
    exact ⟨e, rfl⟩

/-- Nothing is added exactly if everything above the file is listed. -/
private theorem missing_eq_nil {f : Str} :
    missing (parents '/' f) es = [] ↔ ∀ a, Below '/' a f → a ∈ es.map (·.path) := by
  unfold missing
  rw [List.map_eq_nil_iff, List.filter_eq_nil_iff]
  simp only [decide_eq_true_eq, not_not, mem_parents]

/-- The end of `add_file` and of `add_dir`: the parents, and then the entry. -/
private def addAt (vault : Vault) (v : VaultEntry) : Result Unit × Vault :=
  match vault.ensureParents v.path with
  | (.error e, vault) => (.error e, vault)
  | (.ok (), vault) => (.ok (), { vault with entries := vault.entries ++ [v] })

/-- Adding an entry keeps the tree, and leaves the vault alone if it fails, exactly if the entry is no file above an
entry and nothing is missing above a file that stands above it. -/
private theorem addAt_iff {vault : Vault} (h : SoundTree vault.entries) {v : VaultEntry} (hclean : CleanPath v.path)
    (hnew : v.path ∉ vault.entries.map (·.path)) (hdir : v.kind = .dir → v.content = []) :
    ((v.kind = .file → ∀ e ∈ vault.entries, ¬ Below '/' v.path e.path) ∧ NoGap vault v.path →
      SoundTree (addAt vault v).2.entries ∧ ∀ e, (addAt vault v).1 = .error e → (addAt vault v).2 = vault) ∧
    (TreeShaped (addAt vault v).2.entries → (∀ e, (addAt vault v).1 = .error e → (addAt vault v).2 = vault) →
      (v.kind = .file → ∀ e ∈ vault.entries, ¬ Below '/' v.path e.path) ∧ NoGap vault v.path) := by
  unfold addAt
  rcases ensureParents_cases h hclean with ⟨hup, heq⟩ | ⟨f, hf, hfile, hb, e, heq⟩
  · rw [heq]
    dsimp only
    constructor
    · rintro ⟨hdown, -⟩
      refine ⟨?_, fun e he => by cases he⟩
      have hparents := SoundTree.missing h hclean (parents_nodup v.path) (fun a ha => mem_parents.1 ha) hup
      refine hparents.push hclean ?_ ?_ ?_ hdir
      · intro hin
        obtain ⟨e, he, hpath⟩ := List.mem_map.1 hin
        rcases List.mem_append.1 he with he | he
        · exact hnew (hpath ▸ List.mem_map_of_mem he)
        · obtain ⟨a, ha, -, rfl⟩ := mem_missing.1 he
          exact (mem_parents.1 ha).ne hpath
      · intro f hf hfile
        rcases List.mem_append.1 hf with hf | hf
        · exact hup f hf hfile
        · obtain ⟨a, -, -, rfl⟩ := mem_missing.1 hf
          cases hfile
      · intro hk e he
        rcases List.mem_append.1 he with he | he
        · exact hdown hk e he
        · obtain ⟨a, ha, -, rfl⟩ := mem_missing.1 he
          exact (mem_parents.1 ha).asymm
    · intro htree _
      refine ⟨fun hk e he => ?_, fun f hf hfile hb => absurd hb (hup f hf hfile)⟩
      exact htree.shape v (by simp) e (by simp [he]) hk
  · rw [heq]
    dsimp only
    have hlisted : vault.entries ++ missing (parents '/' f.path) vault.entries = vault.entries ↔
        ∀ a, Below '/' a f.path → a ∈ vault.entries.map (·.path) := by
      rw [← missing_eq_nil]
      exact List.append_right_eq_self
    constructor
    · rintro ⟨-, hgap⟩
      rw [hlisted.2 (hgap f hf hfile hb)]
      exact ⟨h, fun _ _ => rfl⟩
    · intro _ hsame
      have hall := hlisted.1 (congrArg Vault.entries (hsame e rfl))
      refine ⟨fun _ d hd hbelow => h.shaped.shape f hf d hd hfile (hb.trans hbelow), fun g hg hgfile hgb => ?_⟩
      -- only one file stands above the path
      rcases hgb.comparable hb with heq | hlt | hlt
      · rw [heq]
        exact hall
      · exact absurd hlt (h.shaped.shape g hg f hf hgfile)
      · exact absurd hlt (h.shaped.shape f hf g hg hfile)

/-- What one operation on a tree promises holds exactly if it fits, and then the entries stay a tree. -/
private theorem step_iff {vault : Vault} (h : SoundTree vault.entries) (op : VaultOp) :
    (Fits vault op → SoundTree (op.run vault).entries ∧ ∀ e, op.result vault = .error e → op.run vault = vault) ∧
    (TreeShaped (op.run vault).entries → (∀ e, op.result vault = .error e → op.run vault = vault) → Fits vault op) := by
  cases op with
  | addFile path content mtime mode =>
    show (_ → SoundTree (vault.addFile path content mtime mode).2.entries ∧
      ∀ e, (vault.addFile path content mtime mode).1 = .error e → (vault.addFile path content mtime mode).2 = vault) ∧
      (TreeShaped (vault.addFile path content mtime mode).2.entries → (∀ e,
        (vault.addFile path content mtime mode).1 = .error e → (vault.addFile path content mtime mode).2 = vault) → _)
    unfold Fits
    cases hn : normalizePath path with
    | error e =>
      have heq : vault.addFile path content mtime mode = (.error e, vault) := by simp only [Vault.addFile, hn]
      rw [heq]
      exact ⟨fun _ => ⟨h, fun _ _ => rfl⟩, fun _ _ norm hnorm => by rw [hn] at hnorm; cases hnorm⟩
    | ok norm =>
      by_cases hin : norm ∈ vault.entries.map (·.path)
      · have heq : vault.addFile path content mtime mode =
            (.error (.vault ("path already exists: ".toList ++ norm)), vault) := by
          simp only [Vault.addFile, hn, if_pos hin]
        rw [heq]
        refine ⟨fun _ => ⟨h, fun _ _ => rfl⟩, fun _ _ norm' hnorm hnew => ?_⟩
        rw [Except.ok.inj (hn.symm.trans hnorm)] at hin
        exact absurd hin hnew
      · have heq : vault.addFile path content mtime mode = addAt vault ⟨norm, .file, mtime, mode, content⟩ := by
          unfold Vault.addFile addAt
          rw [hn]
          exact if_neg hin
        have hstep := addAt_iff h (v := ⟨norm, .file, mtime, mode, content⟩) (cleanPath_of_normalizePath hn) hin
          fun hk => by cases hk
        rw [heq]
        constructor
        · intro hfits
          obtain ⟨hdown, hgap⟩ := hfits norm hn hin
          exact hstep.1 ⟨fun _ => hdown, hgap⟩
        · intro htree hsame norm' hnorm _
          obtain ⟨hdown, hgap⟩ := hstep.2 htree hsame
          rw [← Except.ok.inj (hn.symm.trans hnorm)]
          exact ⟨hdown rfl, hgap⟩
  | addDir path =>
    show (_ → SoundTree (vault.addDir path).2.entries ∧
      ∀ e, (vault.addDir path).1 = .error e → (vault.addDir path).2 = vault) ∧
      (TreeShaped (vault.addDir path).2.entries → (∀ e,
        (vault.addDir path).1 = .error e → (vault.addDir path).2 = vault) → _)
    unfold Fits
    cases hn : normalizePath path with
    | error e =>
      have heq : vault.addDir path = (.error e, vault) := by simp only [Vault.addDir, hn]
      rw [heq]
      exact ⟨fun _ => ⟨h, fun _ _ => rfl⟩, fun _ _ norm hnorm => by rw [hn] at hnorm; cases hnorm⟩
    | ok norm =>
      cases hfind : vault.entries.find? (·.path = norm) with
      | some e =>
        have hin : norm ∈ vault.entries.map (·.path) := by
          have hpath : e.path = norm := by simpa using List.find?_some hfind
          exact hpath ▸ List.mem_map_of_mem (List.mem_of_find?_eq_some hfind)
        have heq : (vault.addDir path).2 = vault := by
          simp only [Vault.addDir, hn, hfind]
          split <;> rfl
        rw [heq]
        refine ⟨fun _ => ⟨h, fun _ _ => rfl⟩, fun _ _ norm' hnorm hnew => ?_⟩
        rw [Except.ok.inj (hn.symm.trans hnorm)] at hin
        exact absurd hin hnew
      | none =>
        have hin : norm ∉ vault.entries.map (·.path) := by
          intro hin
          obtain ⟨e, he, hpath⟩ := List.mem_map.1 hin
          exact List.find?_eq_none.1 hfind e he (by simpa using hpath)
        have heq : vault.addDir path = addAt vault (.dir norm) := by
          unfold Vault.addDir addAt
          rw [hn]
          dsimp only
          rw [hfind]
          rfl
        have hstep := addAt_iff h (v := .dir norm) (cleanPath_of_normalizePath hn) hin fun _ => rfl
        rw [heq]
        constructor
        · intro hfits
          exact hstep.1 ⟨fun hk => (by cases hk), hfits norm hn hin⟩
        · intro htree hsame norm' hnorm _
          rw [← Except.ok.inj (hn.symm.trans hnorm)]
          exact (hstep.2 htree hsame).2
  | remove path =>
    refine ⟨fun _ => ⟨?_, fun _ he => by cases he⟩, fun _ _ => trivial⟩
    show SoundTree (vault.remove path).2.entries
    unfold Vault.remove
    cases hn : normalizePath path with
    | error e => exact h
    | ok norm =>
      have hkept : ∀ {q : VaultEntry → Bool}, SoundTree (vault.entries.filter q) := by
        intro q
        refine ⟨fun e he => h.clean e (List.mem_of_mem_filter he), ⟨h.shaped.nodup.sublist (List.filter_sublist.map _),
          fun x hx y hy => h.shaped.shape x (List.mem_of_mem_filter hx) y (List.mem_of_mem_filter hy)⟩,
          fun e he => h.dirs e (List.mem_of_mem_filter he)⟩
      exact hkept

/-- No operation spoils the paths or puts anything into a directory. -/
private theorem clean_of_run {vault : Vault} (h : SoundTree vault.entries) (op : VaultOp)
    (htree : TreeShaped (op.run vault).entries) (hsame : ∀ e, op.result vault = .error e → op.run vault = vault) :
    SoundTree (op.run vault).entries :=
  ((step_iff h op).1 ((step_iff h op).2 htree hsame)).1

private theorem treeShaped_iff {vs : List VaultEntry} :
    TreeShaped vs ↔ (vs.map (·.path)).Nodup ∧ checkTreeShape (vs.map fun v => (v.path, v.kind)) = .ok () := by
  rw [checkTreeShape_eq_ok]
  constructor
  · intro h
    refine ⟨h.nodup, fun x hx y hy hfile => ?_⟩
    obtain ⟨v, hv, rfl⟩ := List.mem_map.1 hx
    obtain ⟨w, hw, rfl⟩ := List.mem_map.1 hy
    exact h.shape v hv w hw hfile
  · rintro ⟨hnodup, hshape⟩
    exact ⟨hnodup, fun x hx y hy hfile => hshape _ (List.mem_map_of_mem hx) _ (List.mem_map_of_mem hy) hfile⟩

/-- Along a run of operations on a vault that is empty or comes out of a container, every operation leaves a tree that a
container can hold, and leaves the vault alone if it fails, exactly if every operation fits. -/
theorem vaultTree_iff {vault : Vault} (h : Started C vault) (ops : List VaultOp) :
    Runs.Along (fun vault op => VaultOp.run vault op) (StaysTree C) vault ops ↔
      Runs.Along (fun vault op => VaultOp.run vault op) Fits vault ops := by
  have hstart := h.soundTree
  constructor
  · refine Runs.Along.imp_along (fun vault => SoundTree vault.entries) (fun vault op hs hstays => ?_)
      (fun vault op hs hstays => ?_) hstart
    · exact clean_of_run hs op (treeShaped_iff.2 ⟨hstays.nodup, hstays.shape⟩) hstays.unchanged
    · exact (step_iff hs op).2 (treeShaped_iff.2 ⟨hstays.nodup, hstays.shape⟩) hstays.unchanged
  · refine Runs.Along.imp_along (fun vault => SoundTree vault.entries) (fun vault op hs hfits => ?_)
      (fun vault op hs hfits => ?_) hstart
    · exact ((step_iff hs op).1 hfits).1
    · obtain ⟨hsound, hsame⟩ := (step_iff hs op).1 hfits
      obtain ⟨hnodup, hshape⟩ := treeShaped_iff.1 hsound.shaped
      exact ⟨hnodup, hshape, fun sender recipients identity options draws out hmem hcoll hentries hmanifest hchunks
        hexport => imports_export_iff hsound hmem hcoll hentries hmanifest hchunks hexport, hsame⟩

/-! ### A vault that stays a tree and one that does not -/

namespace Sym

/-- A vault with a file in a directory that is not listed. -/
def implied : Vault := ⟨"v".toList, 0, [⟨"p/q".toList, .file, none, none, [1, 2, 3]⟩]⟩

theorem exportImplied_ok : (exportVault container implied alice [alice.publicPart] ⟨.classic, 2⟩ draws).toOption.isSome =
    true := by
  decide +kernel

/-- A container of it is imported as it was. -/
theorem started_implied : Started container implied := by
  have hclean : CleanPath "p/q".toList := cleanPath_iff.2 (by decide)
  have hsound : SoundTree implied.entries := by
    refine ⟨by simpa [implied] using hclean, ⟨by simp [implied], ?_⟩, by simp [implied]⟩
    simpa [implied] using not_below_self "p/q".toList
  obtain ⟨imported, himport, hvault, -⟩ := (imports_export_iff hsound mem_alice noCollision_alice (by decide +kernel)
    (by decide +kernel) (by decide +kernel) (eq_ok_get exportImplied_ok)).2 (by decide +kernel)
  rw [← hvault]
  exact .imported himport

end Sym

/-- A file is added next to the one that is there. -/
theorem vaultTree_iff_beside :
    Runs.Along (fun vault op => VaultOp.run vault op) (StaysTree Sym.container) Sym.implied
        [.addFile "p/r".toList [4] none none] ↔
      Runs.Along (fun vault op => VaultOp.run vault op) Fits Sym.implied [.addFile "p/r".toList [4] none none] :=
  vaultTree_iff Sym.started_implied _

/-- A file is added where the directory is implied. -/
theorem vaultTree_fails :
    ¬ ∀ (vault : Vault) (ops : List VaultOp), Started Sym.container vault →
      Runs.Along (fun vault op => VaultOp.run vault op) (StaysTree Sym.container) vault ops := by
  intro h
  have hshape := (h Sym.implied [.addFile "p".toList [4] none none] Sym.started_implied).1.shape
  exact absurd hshape (by decide +kernel)

end FileSec.Fsec
