import FileSec.Fsec.Symbolic
import FileSec.Fsec.Vaults
import FileSec.Fsec.Written
import FileSec.Validation

/-!
# The round trip of a container

A manifest that `Describes` files and directories is laid out as the reader expects, and from the stream of their
contents the reader gets them back.  So a vault that is exported is imported again as it was, unless its data fills
exactly `2 ^ 32` chunks: the writer counts to `2 ^ 32`, the reader only below (`container_round_trip`).
-/

namespace FileSec.Fsec

open SepPath

variable {P : Prims} {C : FsecPrims P}

/-! ### Reading the stream -/

/-- `read_exact` takes its bytes off the front of what is left. -/
theorem readExact_spec {r : StreamDecryptReader P} (hr : r.Running) {bytes tail : Bytes}
    (hleft : (r.left P.openBytes).1 = bytes ++ tail) :
    ∃ r', readExact P bytes.length r = .ok (bytes, r') ∧ r'.Running ∧
      r'.left P.openBytes = (tail, (r.left P.openBytes).2) := by
  have hloop : ∀ fuel, bytes.length < fuel → ∃ r', readExactLoop P fuel bytes.length r = .ok (bytes, r') ∧ r'.Running ∧
      r'.left P.openBytes = (tail, (r.left P.openBytes).2) := by
    intro fuel
    induction fuel generalizing r bytes with
    | zero => omega
    | succ fuel ih =>
      intro hf
      unfold readExactLoop
      by_cases hn : bytes.length = 0
      · have hnil := List.eq_nil_of_length_eq_zero hn
        subst hnil
        rw [if_pos hn]
        exact ⟨r, rfl, hr, Prod.ext hleft rfl⟩
      · rw [if_neg hn]
        rcases StreamDecryptReader.read_cases P.openBytes bytes.length hr with
          ⟨got, r', heq, hrun, hgot, hend⟩ | ⟨e, r', heq, hend⟩
        · have hle : got.length ≤ bytes.length := StreamDecryptReader.readLoop_length_le heq
          rw [heq]
          dsimp only
          by_cases hnil : got = []
          · have hdone := hend hnil hn
            rw [hdone] at hleft
            have hlen := congrArg List.length hleft
            simp only [List.length_nil, List.length_append] at hlen
            omega
          · rw [if_neg hnil]
            rw [hgot] at hleft
            have hsplit : bytes = got ++ bytes.drop got.length := by
              have htake := congrArg (List.take got.length) hleft
              rw [List.take_left' rfl, List.take_append_of_le_length hle] at htake
              conv => lhs; rw [← List.take_append_drop got.length bytes, ← htake]
            have hrest : (r'.left P.openBytes).1 = bytes.drop got.length ++ tail := by
              have hdrop := congrArg (List.drop got.length) hleft
              rw [List.drop_left' rfl, List.drop_append_of_le_length hle] at hdrop
              exact hdrop
            have hpos := List.length_pos_of_ne_nil hnil
            obtain ⟨r'', heq', hrun', hleft'⟩ := ih hrun hrest (by rw [List.length_drop]; omega)
            rw [List.length_drop] at heq'
            refine ⟨r'', ?_, hrun', ?_⟩
            · rw [heq']
              show Except.ok (got ++ bytes.drop got.length, r'') = _
              rw [← hsplit]
            · rw [hleft', hgot]
        · rw [hend] at hleft
          have hlen := congrArg List.length hleft
          simp only [List.length_nil, List.length_append] at hlen
          omega
  exact hloop _ (Nat.lt_succ_self _)

/-- What `read_exact` returns has come off the front of what was left. -/
theorem readExact_ok {r r' : StreamDecryptReader P} (hr : r.Running) {n : Nat} {bytes : Bytes}
    (h : readExact P n r = .ok (bytes, r')) :
    bytes.length = n ∧ r'.Running ∧
      r.left P.openBytes = (bytes ++ (r'.left P.openBytes).1, (r'.left P.openBytes).2) := by
  have hloop : ∀ fuel, readExactLoop P fuel n r = .ok (bytes, r') → bytes.length = n ∧ r'.Running ∧
      r.left P.openBytes = (bytes ++ (r'.left P.openBytes).1, (r'.left P.openBytes).2) := by
    intro fuel
    clear h
    induction fuel generalizing r n bytes with
    | zero => exact fun h => by cases h
    | succ fuel ih =>
      intro h
      unfold readExactLoop at h
      by_cases hn : n = 0
      · rw [if_pos hn, Except.ok.injEq, Prod.mk.injEq] at h
        obtain ⟨rfl, rfl⟩ := h
        exact ⟨hn.symm, hr, rfl⟩
      · rw [if_neg hn] at h
        rcases StreamDecryptReader.read_cases P.openBytes n hr with ⟨got, r₁, heq, hrun, hgot, -⟩ | ⟨e, r₁, heq, -⟩
        · have hle : got.length ≤ n := StreamDecryptReader.readLoop_length_le heq
          rw [heq] at h
          dsimp only at h
          by_cases hnil : got = []
          · rw [if_pos hnil] at h
            cases h
          · rw [if_neg hnil] at h
            cases hrest : readExactLoop P fuel (n - got.length) r₁ with
            | error e =>
              rw [hrest] at h
              cases h
            | ok out =>
              obtain ⟨more, r₂⟩ := out
              rw [hrest] at h
              obtain ⟨rfl, rfl⟩ := Prod.mk.inj (Except.ok.inj h)
              obtain ⟨hlen, hr₂, hleft⟩ := ih hrun hrest
              refine ⟨by rw [List.length_append, hlen]; omega, hr₂, ?_⟩
              rw [hgot, hleft, List.append_assoc]
        · rw [heq] at h
          cases h
  exact hloop _ h

/-! ### Manifests and what they describe -/

/-- The manifest entries, from the data offset on, describe the files and directories. -/
inductive Describes (P : Prims) : Nat → List Entry → List VaultEntry → Prop
  | nil (offset : Nat) : Describes P offset [] []
  | file {offset : Nat} {e : Entry} {v : VaultEntry} {es : List Entry} {vs : List VaultEntry}
      (hpath : normalizePath e.path = .ok v.path) (hkind : e.kind = .file ∧ v.kind = .file)
      (hattrs : e.mtime = v.mtime ∧ e.mode = v.mode) (hoffset : e.dataOffset = offset) (hsize : e.size = v.content.length)
      (hhash : e.blake3 = P.hashContent v.content) (h : Describes P (offset + v.content.length) es vs) :
      Describes P offset (e :: es) (v :: vs)
  | dir {offset : Nat} {e : Entry} {v : VaultEntry} {es : List Entry} {vs : List VaultEntry}
      (hpath : normalizePath e.path = .ok v.path) (hkind : e.kind = .dir ∧ v.kind = .dir)
      (hattrs : e.mtime = v.mtime ∧ e.mode = v.mode) (hempty : v.content = []) (h : Describes P offset es vs) :
      Describes P offset (e :: es) (v :: vs)

/-- The size of the contents. -/
def contentSize (vs : List VaultEntry) : Nat := (vs.map (·.content.length)).sum

theorem contentSize_cons (v : VaultEntry) (vs : List VaultEntry) :
    contentSize (v :: vs) = v.content.length + contentSize vs := by simp [contentSize]

/-- The contents, one after the other. -/
def contentsOf (vs : List VaultEntry) : Bytes := vs.flatMap (·.content)

theorem contentsOf_length (vs : List VaultEntry) : (contentsOf vs).length = contentSize vs := by
  simp [contentsOf, contentSize, List.length_flatMap]

variable {offset : Nat} {es : List Entry} {vs : List VaultEntry}

theorem Describes.length_eq (h : Describes P offset es vs) : es.length = vs.length := by
  induction h with
  | nil => rfl
  | file _ _ _ _ _ _ _ ih => simp [ih]
  | dir _ _ _ _ _ ih => simp [ih]

/-- The walk of the validation over entries that describe files and directories at distinct paths. -/
theorem Describes.layoutEntries_eq (h : Describes P offset es vs) (shape : List (Str × EntryKind))
    (hnd : (shape.map (·.1) ++ vs.map (·.path)).Nodup) (hsize : offset + contentSize vs ≤ u64Max) :
    layoutEntries es shape offset = .ok (shape ++ vs.map fun v => (v.path, v.kind), offset + contentSize vs) := by
  -- the part of the entry itself
  have hnew {v : VaultEntry} {vs : List VaultEntry} {shape : List (Str × EntryKind)}
      (hnd : (shape.map (·.1) ++ (v :: vs).map (·.path)).Nodup) :
      v.path ∉ shape.map (·.1) ∧ ((shape ++ [(v.path, v.kind)]).map (·.1) ++ vs.map (·.path)).Nodup := by
    have hsame : (shape ++ [(v.path, v.kind)]).map (·.1) ++ vs.map (·.path) =
        shape.map (·.1) ++ (v :: vs).map (·.path) := by simp
    refine ⟨fun hin => ?_, hsame ▸ hnd⟩
    rw [List.nodup_append] at hnd
    exact hnd.2.2 _ hin _ (by simp) rfl
  induction h generalizing shape with
  | nil => simp [layoutEntries, contentSize]
  | @file offset e v es vs hpath hkind _ hoffset hlen _ _ ih =>
    obtain ⟨hin, hnd'⟩ := hnew hnd
    rw [contentSize_cons] at hsize
    have hrest := ih _ hnd' (by omega)
    unfold layoutEntries
    rw [hpath]
    dsimp only
    rw [if_neg hin, if_pos hkind.1, if_neg (not_not.2 hoffset), hlen, if_neg (by omega), hkind.1, ← hkind.2, hrest]
    simp only [contentSize_cons, List.map_cons, List.append_assoc, List.cons_append, List.nil_append, Nat.add_assoc]
  | @dir offset e v es vs hpath hkind _ hempty _ ih =>
    obtain ⟨hin, hnd'⟩ := hnew hnd
    rw [contentSize_cons, hempty, List.length_nil, Nat.zero_add] at hsize
    have hrest := ih _ hnd' hsize
    have hnot : ¬ EntryKind.dir = .file := by decide
    unfold layoutEntries
    rw [hpath]
    dsimp only
    rw [if_neg hin, hkind.1, if_neg hnot, ← hkind.2, hrest]
    simp only [contentSize_cons, hempty, List.length_nil, Nat.zero_add, List.map_cons, List.append_assoc,
      List.cons_append, List.nil_append]

/-- From the stream of the contents the reader gets the files and directories back. -/
theorem Describes.reconstructEntries_eq (h : Describes P offset es vs) {r : StreamDecryptReader P} (hr : r.Running)
    {tail : Bytes} (hleft : (r.left P.openBytes).1 = contentsOf vs ++ tail) (hsize : offset + contentSize vs ≤ u64Max) :
    ∃ r', reconstructEntries P es offset r = .ok (vs, r') ∧ r'.Running ∧
      r'.left P.openBytes = (tail, (r.left P.openBytes).2) := by
  induction h generalizing r with
  | nil => exact ⟨r, rfl, hr, Prod.ext hleft rfl⟩
  | @file offset e v es vs hpath hkind hattrs hoffset hlen hhash _ ih =>
    rw [contentSize_cons] at hsize
    have hleft' : (r.left P.openBytes).1 = v.content ++ (contentsOf vs ++ tail) := by
      rw [hleft]
      simp [contentsOf]
    obtain ⟨r₁, hread, hr₁, hleft₁⟩ := readExact_spec hr hleft'
    obtain ⟨r₂, hrest, hr₂, hleft₂⟩ := ih hr₁ (by rw [hleft₁]) (by omega)
    refine ⟨r₂, ?_, hr₂, by rw [hleft₂, hleft₁]⟩
    unfold reconstructEntries
    rw [bind_eq_ok]
    refine ⟨v.path, hpath, ?_⟩
    rw [hkind.1]
    dsimp only
    rw [hlen]
    simp only [bind_eq_ok, refuseIf_eq_ok, exists_const, not_not]
    refine ⟨hoffset, _, hread, hhash.symm, by omega, _, hrest, ?_⟩
    obtain ⟨vpath, vkind, vmtime, vmode, vcontent⟩ := v
    obtain ⟨rfl, rfl⟩ := hattrs
    obtain rfl : vkind = .file := hkind.2
    rfl
  | @dir offset e v es vs hpath hkind hattrs hempty _ ih =>
    have hsize' : offset + contentSize vs ≤ u64Max := by
      rw [contentSize_cons] at hsize
      omega
    have hleft' : (r.left P.openBytes).1 = contentsOf vs ++ tail := by
      rw [hleft]
      simp [contentsOf, hempty]
    obtain ⟨r₁, hrest, hr₁, hleft₁⟩ := ih hr hleft' hsize'
    refine ⟨r₁, ?_, hr₁, hleft₁⟩
    unfold reconstructEntries
    rw [bind_eq_ok]
    refine ⟨v.path, hpath, ?_⟩
    rw [hkind.1]
    dsimp only
    simp only [bind_eq_ok]
    refine ⟨_, hrest, ?_⟩
    obtain ⟨vpath, vkind, vmtime, vmode, vcontent⟩ := v
    obtain ⟨rfl, rfl⟩ := hattrs
    obtain rfl : vkind = .dir := hkind.2
    obtain rfl : vcontent = [] := hempty
    rfl

/-- What the reader has reconstructed are the files and directories of the manifest, with the contents that came off the
stream. -/
theorem describes_of_reconstructEntries {r r' : StreamDecryptReader P} (hr : r.Running)
    (h : reconstructEntries P es offset r = .ok (vs, r')) :
    Describes P offset es vs ∧ r'.Running ∧
      r.left P.openBytes = (contentsOf vs ++ (r'.left P.openBytes).1, (r'.left P.openBytes).2) := by
  induction es generalizing offset r vs with
  | nil =>
    unfold reconstructEntries at h
    obtain ⟨rfl, rfl⟩ := Prod.mk.inj (Except.ok.inj h)
    exact ⟨.nil _, hr, rfl⟩
  | cons e es ih =>
    unfold reconstructEntries at h
    obtain ⟨path, hpath, h⟩ := bind_eq_ok.1 h
    cases hk : e.kind with
    | file =>
      simp only [hk, bind_eq_ok, refuseIf_eq_ok, exists_const, not_not] at h
      obtain ⟨hoffset, ⟨content, r₁⟩, hread, hhash, -, ⟨rest, r₂⟩, hrest, h⟩ := h
      obtain ⟨rfl, rfl⟩ := Prod.mk.inj (Except.ok.inj h)
      obtain ⟨hlen, hr₁, hleft₁⟩ := readExact_ok hr hread
      obtain ⟨hd, hr₂, hleft₂⟩ := ih hr₁ hrest
      refine ⟨.file hpath ⟨hk, rfl⟩ ⟨rfl, rfl⟩ hoffset hlen.symm hhash.symm (hlen ▸ hd), hr₂, ?_⟩
      rw [hleft₁, hleft₂, ← List.append_assoc]
      rfl
    | dir =>
      simp only [hk, bind_eq_ok] at h
      obtain ⟨⟨rest, r₁⟩, hrest, h⟩ := h
      obtain ⟨rfl, rfl⟩ := Prod.mk.inj (Except.ok.inj h)
      obtain ⟨hd, hr₁, hleft₁⟩ := ih hr hrest
      exact ⟨.dir hpath ⟨hk, rfl⟩ ⟨rfl, rfl⟩ rfl hd, hr₁, hleft₁⟩

/-- The whole stream gives the whole vault. -/
theorem Describes.reconstruct_eq {m : Manifest} (h : Describes P 0 m.entries vs) {r : StreamDecryptReader P} (hr : r.Running)
    (hleft : r.left P.openBytes = (contentsOf vs, .ok ())) (hsize : contentSize vs ≤ u64Max) :
    reconstructVaultStreaming m r = .ok ⟨m.vaultName, m.createdAt, vs⟩ := by
  have hfirst : (r.left P.openBytes).1 = contentsOf vs ++ [] := by rw [hleft, List.append_nil]
  obtain ⟨r', hrec, hr', hleft'⟩ := h.reconstructEntries_eq hr hfirst (by omega)
  rw [hleft] at hleft'
  unfold reconstructVaultStreaming
  rw [bind_eq_ok]
  refine ⟨_, hrec, ?_⟩
  dsimp only
  rcases StreamDecryptReader.read_cases P.openBytes 1 hr' with ⟨got, r'', heq, -, hgot, -⟩ | ⟨e, r'', heq, hend⟩
  · rw [hleft', Prod.mk.injEq] at hgot
    have hnil := (List.append_eq_nil_iff.1 hgot.1.symm).1
    rw [heq, hnil]
  · rw [hleft'] at hend
    cases hend

/-! ### Importing what has been written -/

/-- The files and directories have distinct paths, and no file is above another entry. -/
structure TreeShaped (vs : List VaultEntry) : Prop where
  nodup : (vs.map (·.path)).Nodup
  shape : ∀ x ∈ vs, ∀ y ∈ vs, x.kind = .file → ¬ Below '/' x.path y.path

/-- The entries form a tree of clean paths, whose directories hold nothing themselves; what lies above an entry need not
be there. -/
structure SoundTree (vs : List VaultEntry) : Prop where
  clean : ∀ v ∈ vs, CleanPath v.path
  shaped : TreeShaped vs
  dirs : ∀ v ∈ vs, v.kind = .dir → v.content = []

theorem soundTree_of_sound (h : SoundEntries vs) : SoundTree vs :=
  ⟨h.clean, ⟨h.nodup, fun _ hx _ hy hfile => h.not_below hx hy hfile⟩, h.dirs⟩

/-- The sender that an import should report. -/
def Identity.asSender (sender : Identity C) : VerifiedSender :=
  ⟨sender.fingerprint, C.signPublic sender.signSecret, C.kemPublic sender.kemSecret, sender.mldsa.map (·.publicKey),
    sender.mlkem.map (·.publicKey)⟩

/-- The identity imports the vault from the bytes, with this suite and this sender. -/
def Imports (C : FsecPrims P) (bytes : Bytes) (identity : Identity C) (vault : Vault) (suite : SuiteId)
    (sender : Identity C) : Prop :=
  ∃ imported, importVault C bytes identity = .ok imported ∧ imported.vault = vault ∧ imported.suite = suite ∧
    imported.sender = sender.asSender

variable {manifest : Manifest} {options : ExportOptions} {sender : Identity C} {recipients : List Peer.PublicIdentity}

private theorem contentSize_le (hne : options.chunkSize ≠ 0) (hle : options.chunkSize ≤ maxChunkSize)
    (hchunks : numChunks (contentSize vs) options.chunkSize ≤ u32Max + 1) : contentSize vs ≤ u64Max := by
  have h1 := le_numChunks_mul (contentSize vs) (Nat.pos_of_ne_zero hne)
  have h2 := Nat.mul_le_mul hchunks hle
  have hbound : (u32Max + 1) * maxChunkSize ≤ u64Max := by decide
  omega

/-- The reader accepts the layout of a manifest that describes a tree, unless there are too many chunks. -/
theorem Describes.layout_iff (h : Describes P 0 manifest.entries vs) (hshape : TreeShaped vs)
    (hcount : manifest.entries.length ≤ maxManifestEntries) (hne : options.chunkSize ≠ 0)
    (hle : options.chunkSize ≤ maxChunkSize) (hchunks : numChunks (contentSize vs) options.chunkSize ≤ u32Max + 1) :
    (∃ layout, validateManifestLayout manifest options.chunkSize
      (dataCiphertextLen (contentSize vs) options.chunkSize) = .ok layout) ↔
      numChunks (contentSize vs) options.chunkSize ≤ u32Max := by
  have hsize := contentSize_le hne hle hchunks
  have hwalk := h.layoutEntries_eq [] (by simpa using hshape.nodup) (by omega)
  rw [Nat.zero_add, List.nil_append] at hwalk
  constructor
  · rintro ⟨layout, hl⟩
    obtain ⟨-, -, shape, hwalk', hnum, hmax, -⟩ := validateManifestLayout_eq_ok.1 hl
    rw [hwalk, Except.ok.injEq, Prod.mk.injEq] at hwalk'
    rwa [← hwalk'.2, ← hnum] at *
  · intro hmax
    refine ⟨(contentSize vs, numChunks (contentSize vs) options.chunkSize), validateManifestLayout_eq_ok.2
      ⟨hne, hcount, _, hwalk, rfl, hmax, checkTreeShape_eq_ok.2 ?_, ?_, rfl⟩⟩
    · intro x hx y hy hfile
      obtain ⟨v, hv, rfl⟩ := List.mem_map.1 hx
      obtain ⟨w, hw, rfl⟩ := List.mem_map.1 hy
      exact hshape.shape v hv w hw hfile
    · have h1 := le_numChunks_mul (contentSize vs) (Nat.pos_of_ne_zero hne)
      have h2 := Nat.mul_le_mul hmax hle
      have h3 := Nat.mul_le_mul_right tagLen hmax
      have hbound : u32Max * maxChunkSize + u32Max * tagLen ≤ u64Max := by decide
      dsimp only
      omega

/-- A written container whose manifest describes a tree is imported by each recipient as that tree, unless there are too
many chunks. -/
theorem imports_write_iff {plan : ContainerPlan C} {header : Header} {out : Bytes} {identity : Identity C}
    (hm : plan.Made manifest (contentSize vs) sender recipients options header)
    (hwrite : plan.write ⟨contentsOf vs, none⟩ = .ok out) (h : Describes P 0 manifest.entries vs) (hshape : TreeShaped vs)
    (hcount : manifest.entries.length ≤ maxManifestEntries)
    (hmax : (C.encodeManifest manifest).length + tagLen ≤ maxManifestLen)
    (hchunks : numChunks (contentSize vs) options.chunkSize ≤ u32Max + 1)
    (hmem : IsRecipient recipients identity) (hcoll : NoCollision recipients identity) :
    Imports C out identity ⟨manifest.vaultName, manifest.createdAt, vs⟩ options.suite sender ↔
      numChunks (contentSize vs) options.chunkSize ≤ u32Max := by
  obtain ⟨encData, trailer, hw⟩ := ContainerPlan.write_eq_ok hwrite
  have hne := hm.chunkSize_ne
  have hle := hw.chunkSize_le
  rw [hm.chunkSize_eq] at hle
  have hmax' : plan.manifestLen ≤ maxManifestLen := by
    rw [hm.manifestLen_eq, hm.manifestPlaintext_eq]
    exact hmax
  have hlayout := h.layout_iff hshape hcount hne hle hchunks
  rw [← hm.dataLen_eq] at hlayout
  rw [← hlayout]
  constructor
  · rintro ⟨imported, himp, -⟩
    obtain ⟨header', suite', cek', manifest', layout', hp, -⟩ := importVault_eq_ok.1 himp
    obtain ⟨-, -, -, -, -, hl⟩ := hw.of_parses hm hmem hcoll hp
    exact ⟨layout', hl⟩
  · rintro ⟨layout, hl⟩
    obtain ⟨hp, hsigned⟩ := hw.parses hm hmax' hmem hcoll hl
    obtain ⟨r, hreader, hr, hleft⟩ := hw.dataReader_eq hm hmax'
    have hsize := contentSize_le hne hle hchunks
    have hvault := h.reconstruct_eq hr hleft hsize
    obtain ⟨vaultId, hhdr⟩ := hm.header_eq
    refine ⟨⟨_, options.suite, header.senderFpr, header.senderSignPublic, header.senderKemPublic,
      header.senderMldsaPublic, header.senderMlkemPublic⟩, importVault_eq_ok.2 ⟨header, options.suite, plan.cek, manifest,
      layout, hp, hsigned, ⟨r, hreader, hvault⟩, rfl, rfl⟩, rfl, rfl, ?_⟩
    rw [hhdr]
    rfl

/-! ### The manifest of an in-memory vault -/

/-- The manifest of sound entries describes them. -/
private theorem buildEntries_describes (hs : ∀ v ∈ vs, CleanPath v.path ∧ (v.kind = .dir → v.content = []))
    (hsize : offset + contentSize vs ≤ u64Max) : Describes P offset (buildEntries P vs offset) vs := by
  induction vs generalizing offset with
  | nil => exact .nil offset
  | cons v vs ih =>
    rw [contentSize_cons] at hsize
    obtain ⟨hclean, hdir⟩ := hs v List.mem_cons_self
    have hrest : ∀ w ∈ vs, CleanPath w.path ∧ (w.kind = .dir → w.content = []) :=
      fun w hw => hs w (List.mem_cons_of_mem _ hw)
    unfold buildEntries
    cases hk : v.kind with
    | file =>
      rw [Nat.min_eq_left (by omega)]
      exact .file (cleanPath_iff.1 hclean) ⟨rfl, hk⟩ ⟨rfl, rfl⟩ rfl rfl rfl (ih hrest (by omega))
    | dir =>
      exact .dir (cleanPath_iff.1 hclean) ⟨rfl, hk⟩ ⟨rfl, rfl⟩ (hdir hk) (ih hrest (by omega))

theorem buildEntries_length (vs : List VaultEntry) (offset : Nat) :
    (buildEntries P vs offset).length = vs.length := by
  induction vs generalizing offset with
  | nil => rfl
  | cons v vs ih =>
    unfold buildEntries
    split
    · rw [List.length_cons, ih, List.length_cons]
    · rw [List.length_cons, ih, List.length_cons]

/-- Directories hold nothing, so the files' contents are all there is. -/
theorem vaultContent_eq {vault : Vault} (hdirs : ∀ v ∈ vault.entries, v.kind = .dir → v.content = []) :
    vaultContent vault = contentsOf vault.entries := by
  unfold vaultContent contentsOf
  generalize vault.entries = vs at hdirs
  induction vs with
  | nil => rfl
  | cons v vs ih =>
    have ih := ih fun w hw => hdirs w (List.mem_cons_of_mem _ hw)
    cases hk : v.kind with
    | file => simp [hk, ih]
    | dir => simp [hk, ih, hdirs v List.mem_cons_self hk]

/-- The container of a vault has the length that was planned. -/
private theorem exportVault_length {vault : Vault} {draws : Draws} {out : Bytes}
    (h : exportVault C vault sender recipients options draws = .ok out) :
    ∃ plan, ContainerPlan.new C (buildManifest P vault) (totalSizeOf vault) sender recipients options draws = .ok plan ∧
      out.length = plan.containerLen := by
  obtain ⟨plan, hplan, hwrite⟩ := bind_eq_ok.1 h
  obtain ⟨encData, trailer, hw⟩ := ContainerPlan.write_eq_ok hwrite
  exact ⟨plan, hplan, hw.length_eq⟩

/-- A sound vault that is exported is imported by each recipient as it was, exactly when the data does not fill `2 ^ 32`
chunks. -/
theorem imports_export_iff {vault : Vault} {identity : Identity C} {draws : Draws} {out : Bytes}
    (hsound : SoundTree vault.entries) (hmem : IsRecipient recipients identity) (hcoll : NoCollision recipients identity)
    (hentries : vault.entries.length ≤ maxManifestEntries)
    (hmanifest : (C.encodeManifest (buildManifest P vault)).length + tagLen ≤ maxManifestLen)
    (hchunks : numChunks (totalSizeOf vault) options.chunkSize ≤ 2 ^ 32)
    (hexport : exportVault C vault sender recipients options draws = .ok out) :
    Imports C out identity vault options.suite sender ↔ numChunks (totalSizeOf vault) options.chunkSize ≠ 2 ^ 32 := by
  have hmax : u32Max + 1 = 2 ^ 32 := by decide
  obtain ⟨plan, hplan, hwrite⟩ := bind_eq_ok.1 hexport
  obtain ⟨header, hm⟩ := ContainerPlan.new_eq_ok hplan
  obtain ⟨encData, trailer, hw⟩ := ContainerPlan.write_eq_ok hwrite
  have hle := hw.chunkSize_le
  rw [hm.chunkSize_eq] at hle
  have hsize : contentSize vault.entries ≤ u64Max := contentSize_le hm.chunkSize_ne hle (hmax ▸ hchunks)
  have hdescr : Describes P 0 (buildManifest P vault).entries vault.entries :=
    buildEntries_describes (fun v hv => ⟨hsound.clean v hv, hsound.dirs v hv⟩) (by omega)
  have hcount : (buildManifest P vault).entries.length ≤ maxManifestEntries := by
    rw [buildManifest, buildEntries_length]
    exact hentries
  rw [vaultContent_eq hsound.dirs] at hwrite
  have hiff : Imports C out identity vault options.suite sender ↔
      numChunks (totalSizeOf vault) options.chunkSize ≤ u32Max :=
    imports_write_iff hm hwrite hdescr hsound.shaped hcount hmanifest (hmax ▸ hchunks) hmem hcoll
  rw [hiff]
  omega

/-- A vault that is built by any operations and exported to a recipient is imported by it as it was, and the container
has the length that was planned, exactly when the data does not fill `2 ^ 32` chunks; the limits are those of the reader
and of the stream. -/
theorem container_round_trip (C : FsecPrims P) (name : Str) (createdAt : Int) (ops : List VaultOp) (sender : Identity C)
    (recipients : List Peer.PublicIdentity) (identity : Identity C) (options : ExportOptions) (draws : Draws) (out : Bytes)
    (hmem : IsRecipient recipients identity) (hcoll : NoCollision recipients identity)
    (hentries : (Vault.build name createdAt ops).entries.length ≤ maxManifestEntries)
    (hmanifest : (C.encodeManifest (buildManifest P (Vault.build name createdAt ops))).length + tagLen ≤ maxManifestLen)
    (hchunks : numChunks (totalSizeOf (Vault.build name createdAt ops)) options.chunkSize ≤ 2 ^ 32)
    (hexport : exportVault C (Vault.build name createdAt ops) sender recipients options draws = .ok out) :
    (Imports C out identity (Vault.build name createdAt ops) options.suite sender ∧
      ∃ plan, ContainerPlan.new C (buildManifest P (Vault.build name createdAt ops))
        (totalSizeOf (Vault.build name createdAt ops)) sender recipients options draws = .ok plan ∧
        out.length = plan.containerLen) ↔
    numChunks (totalSizeOf (Vault.build name createdAt ops)) options.chunkSize ≠ 2 ^ 32 := by
  have hiff := imports_export_iff (soundTree_of_sound (Vault.build_sound name createdAt ops)) hmem hcoll hentries hmanifest hchunks
    hexport
  rw [← hiff]
  exact ⟨fun h => h.1, fun h => ⟨h, exportVault_length hexport⟩⟩

/-! ### A vault that comes back and one that does not -/

namespace Sym

theorem mem_alice : IsRecipient [alice.publicPart] alice := ⟨_, List.mem_singleton_self _, rfl⟩

theorem noCollision_alice : NoCollision [alice.publicPart] alice := fun r hr _ => by rw [List.mem_singleton.1 hr]

/-- A directory with a file of three bytes. -/
def notes : List VaultOp := [.addFile "a/f".toList [1, 2, 3] (some 5) none]

theorem exportNotes_ok : (exportVault container (Vault.build "v".toList 0 notes) alice [alice.publicPart] ⟨.classic, 2⟩
    draws).toOption.isSome = true := by
  decide +kernel

/-- A vault of one file. -/
def single (content : Bytes) : List VaultOp := [.addFile "f".toList content none none]

theorem build_single (content : Bytes) :
    Vault.build "v".toList 0 (single content) = ⟨"v".toList, 0, [⟨"f".toList, .file, none, none, content⟩]⟩ := by
  have hpath : normalizePath "f".toList = .ok "f".toList := by decide
  have hparents : accPaths [] (("f".toList.splitOn '/').take (("f".toList.splitOn '/').length - 1)) = [] := by
    decide
  simp only [Vault.build, single, List.foldl_cons, List.foldl_nil, VaultOp.run, Vault.addFile, Vault.new, hpath,
    List.map_nil, List.not_mem_nil, if_false, Vault.ensureParents, hparents, ensureParentsAt, List.nil_append]

/-- The checksum of zeros depends on their number alone, and `2 ^ 32` is none to a byte. -/
theorem hashContent_zeros : FileSec.Sym.hashContent (List.replicate (2 ^ 32) 0) = List.replicate 32 0 := by
  show checksum 32 (List.replicate (2 ^ 32) 0) = _
  unfold checksum
  rw [List.map_replicate, List.sum_replicate, List.length_replicate]
  decide

/-- The manifest of the vault of `2 ^ 32` zeros. -/
def zerosManifest : Manifest := ⟨"v".toList, 0, [⟨"f".toList, .file, 2 ^ 32, none, none, List.replicate 32 0, 0⟩]⟩

theorem buildManifest_zeros : buildManifest FileSec.Sym (Vault.build "v".toList 0 (single (List.replicate (2 ^ 32) 0))) =
    zerosManifest := by
  have hhash := hashContent_zeros
  have hlen : (List.replicate (2 ^ 32) (0 : UInt8)).length = 2 ^ 32 := List.length_replicate
  rw [build_single]
  generalize List.replicate (2 ^ 32) (0 : UInt8) = content at *
  simp only [buildManifest, buildEntries, hhash, hlen, zerosManifest]

theorem planZeros_ok : (ContainerPlan.new container zerosManifest (2 ^ 32) alice [alice.publicPart] ⟨.classic, 1⟩
    draws).toOption.isSome = true := by
  decide +kernel

end Sym

theorem container_round_trip_notes :
    (Imports Sym.container ((exportVault Sym.container (Vault.build "v".toList 0 Sym.notes) Sym.alice
        [Sym.alice.publicPart] ⟨.classic, 2⟩ Sym.draws).toOption.get Sym.exportNotes_ok) Sym.alice
        (Vault.build "v".toList 0 Sym.notes) .classic Sym.alice ∧
      ∃ plan, ContainerPlan.new Sym.container (buildManifest FileSec.Sym (Vault.build "v".toList 0 Sym.notes))
        (totalSizeOf (Vault.build "v".toList 0 Sym.notes)) Sym.alice [Sym.alice.publicPart] ⟨.classic, 2⟩ Sym.draws =
          .ok plan ∧
        ((exportVault Sym.container (Vault.build "v".toList 0 Sym.notes) Sym.alice [Sym.alice.publicPart] ⟨.classic, 2⟩
          Sym.draws).toOption.get Sym.exportNotes_ok).length = plan.containerLen) ↔
    numChunks (totalSizeOf (Vault.build "v".toList 0 Sym.notes)) 2 ≠ 2 ^ 32 :=
  container_round_trip Sym.container "v".toList 0 Sym.notes Sym.alice [Sym.alice.publicPart] Sym.alice ⟨.classic, 2⟩
    Sym.draws _ Sym.mem_alice Sym.noCollision_alice (by decide) (by decide +kernel) (by decide)
    (eq_ok_get Sym.exportNotes_ok)

/-- A file of `2 ^ 32` bytes in chunks of one byte is exported, and no recipient imports it. -/
theorem container_round_trip_zeros : ∃ out,
    IsRecipient [Sym.alice.publicPart] Sym.alice ∧ NoCollision [Sym.alice.publicPart] Sym.alice ∧
    (Vault.build "v".toList 0 (Sym.single (List.replicate (2 ^ 32) 0))).entries.length ≤ maxManifestEntries ∧
    (Sym.container.encodeManifest (buildManifest FileSec.Sym
      (Vault.build "v".toList 0 (Sym.single (List.replicate (2 ^ 32) 0))))).length + tagLen ≤ maxManifestLen ∧
    numChunks (totalSizeOf (Vault.build "v".toList 0 (Sym.single (List.replicate (2 ^ 32) 0)))) 1 ≤ 2 ^ 32 ∧
    exportVault Sym.container (Vault.build "v".toList 0 (Sym.single (List.replicate (2 ^ 32) 0))) Sym.alice
      [Sym.alice.publicPart] ⟨.classic, 1⟩ Sym.draws = .ok out ∧
    ¬ Imports Sym.container out Sym.alice (Vault.build "v".toList 0 (Sym.single (List.replicate (2 ^ 32) 0))) .classic
      Sym.alice := by
  have hmanifest := Sym.buildManifest_zeros
  have hsound := soundTree_of_sound (Vault.build_sound "v".toList 0 (Sym.single (List.replicate (2 ^ 32) 0)))
  have hlen : (List.replicate (2 ^ 32) (0 : UInt8)).length = 2 ^ 32 := List.length_replicate
  rw [Sym.build_single] at *
  generalize List.replicate (2 ^ 32) (0 : UInt8) = content at *
  have htotal : totalSizeOf ⟨"v".toList, 0, [⟨"f".toList, .file, none, none, content⟩]⟩ = 2 ^ 32 := by
    simp [totalSizeOf, hlen]
  have hcontent : vaultContent ⟨"v".toList, 0, [⟨"f".toList, .file, none, none, content⟩]⟩ = content := by
    simp [vaultContent]
  have hchunks : numChunks (2 ^ 32) 1 = 2 ^ 32 := by decide
  have hplan := eq_ok_get Sym.planZeros_ok
  obtain ⟨header, hm⟩ := ContainerPlan.new_eq_ok hplan
  obtain ⟨out, hwrite⟩ := (ContainerPlan.write_ok_iff hm hlen).2 ⟨by decide, by rw [hchunks]; decide⟩
  have hexport : exportVault Sym.container ⟨"v".toList, 0, [⟨"f".toList, .file, none, none, content⟩]⟩ Sym.alice
      [Sym.alice.publicPart] ⟨.classic, 1⟩ Sym.draws = .ok out := by
    unfold exportVault writeContainer
    rw [hmanifest, htotal, hcontent, bind_eq_ok]
    exact ⟨_, hplan, hwrite⟩
  have hsmall : (Sym.container.encodeManifest (buildManifest FileSec.Sym
      ⟨"v".toList, 0, [⟨"f".toList, .file, none, none, content⟩]⟩)).length + tagLen ≤ maxManifestLen := by
    rw [hmanifest]
    decide
  refine ⟨out, Sym.mem_alice, Sym.noCollision_alice, by simp [maxManifestEntries], hsmall, ?_, hexport, fun himports => ?_⟩
  · rw [htotal, hchunks]
  · have hiff := imports_export_iff hsound Sym.mem_alice Sym.noCollision_alice (by simp [maxManifestEntries]) hsmall
      (by rw [htotal]; exact hchunks.le) hexport
    have hne := hiff.1 himports
    rw [htotal] at hne
    exact hne hchunks

end FileSec.Fsec
