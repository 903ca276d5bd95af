import FileSec.Copying
import FileSec.Fsec.RoundTrip

/-!
# Converting vaults

A vault is converted by building a new one from it: a v1 container through its reader and the stream of its data section
(`from_reader_v1`), a v2 vault through its reader and its blobs (`from_reader_v2`).  When the conversion returns, every
entry of the source has authenticated and the new vault is a copy of them; when it does not, what it began with is empty
(`convert_faithful`).  A copy has no attributes on its directories, so a directory loses them; and it has directories
that the source does not list, so that its manifest may be too large for a reader.
-/

namespace FileSec.Fsec

open CrashDir Prog SepPath SymTerm

variable {P : Prims}

/-! ### Containers as sources -/

/-- The error that a stream ends with. -/
def faultOf : Result Unit → Option Error
  | .ok () => none
  | .error e => some e

theorem faultOf_eq_none {res : Result Unit} : faultOf res = none ↔ res = .ok () := by
  cases res <;> simp [faultOf]

/-- The reader as an import looks at it. -/
def VaultReader.imported (C : FsecPrims P) (r : VaultReader) (file : Bytes) : FileSec.VaultReader where
  name := r.manifest.vaultName
  createdAt := r.manifest.createdAt
  entries := r.manifest.entries
  plaintextStream := (r.plaintextReader C file).map fun plaintext =>
    ⟨(plaintext.left P.openBytes).1, faultOf (plaintext.left P.openBytes).2⟩

/-- Reading `n` bytes of a stream to the end gives the first `n`, if they are there. -/
theorem take_eq_ok {s : ByteStream} {n : Nat} {bytes : Bytes} (h : (s.take n).1 = .ok bytes) (hlen : bytes.length = n) :
    s.bytes = bytes ++ (s.take n).2.bytes ∧ (s.take n).2.fault = s.fault := by
  unfold ByteStream.take at h ⊢
  by_cases hn : n ≤ s.bytes.length
  · rw [if_pos hn] at h ⊢
    rw [Except.ok.injEq] at h
    rw [← h]
    exact ⟨(List.take_append_drop n s.bytes).symm, rfl⟩
  · rw [if_neg hn] at h
    cases hf : s.fault with
    | some e => simp [hf] at h
    | none =>
      simp only [hf, Except.ok.injEq] at h
      subst h
      omega

variable {io : Nat → BlobIo} {es : List Entry} {vs : List VaultEntry} {offset : Nat}

theorem importEdits_along (hsize : ∀ e ∈ es, e.kind = .file → numChunks e.size defaultChunkSize ≠ u32Max + 1) (i offset : Nat)
    (s : ByteStream) (b : VaultBatch P) :
    (importEdits io i es offset s).Along (fun b op => op.Fits P b.manifest.entries) b := by
  induction es generalizing i offset s b with
  | nil => trivial
  | cons e es ih =>
    have ih := fun i offset s b => ih (fun e' he' => hsize e' (List.mem_cons_of_mem _ he')) i offset s b
    unfold importEdits
    cases hk : e.kind with
    | dir =>
      refine andThen_along ?_ (ih _ _ _)
      rintro c (_ | _) -
      trivial
    | file =>
      dsimp only
      by_cases hoff : e.dataOffset = offset
      · rw [if_neg (not_not.2 hoff)]
        refine andThen_along (putStreamTrusted_fits (hsize e List.mem_cons_self hk) _) fun b => ?_
        split
        · trivial
        · exact ih _ _ _ b
      · rw [if_pos hoff]
        trivial

/-- When the closure of an import succeeds, the manifest describes what the stream holds, and this has been added. -/
theorem importEdits_copies (hsize : ∀ e ∈ es, e.kind = .file → numChunks e.size defaultChunkSize ≠ u32Max + 1)
    (hpaths : ∀ e ∈ es, ∃ p, normalizePath e.path = .ok p) {i offset : Nat} {s : ByteStream} {b b' : VaultBatch P}
    {t : FileTree} (hb : b.Mirrors t) (hrun : exec ((importEdits io i es offset s).run P) b = (.ok (), b')) :
    ∃ vs, Describes P offset es vs ∧ s = ⟨contentsOf vs, none⟩ ∧ b'.manifest.label = b.manifest.label ∧
      (importEdits io i es offset s).model b t = t.addAll vs := by
  induction es generalizing i offset s b t with
  | nil =>
    unfold importEdits at hrun
    simp only [Edits.run, exec_liftM, Prod.mk.injEq] at hrun
    obtain ⟨hres, rfl⟩ := hrun
    refine ⟨[], .nil offset, ?_, rfl, rfl⟩
    obtain ⟨bytes, fault⟩ := s
    split at hres
    · cases hres
    · rename_i hnil
      cases fault with
      | some e => cases hres
      | none =>
        obtain rfl : bytes = [] := not_not.1 hnil
        rfl
  | cons e es ih =>
    have ih := @ih (fun e' he' => hsize e' (List.mem_cons_of_mem _ he')) fun e' he' => hpaths e' (List.mem_cons_of_mem _ he')
    obtain ⟨norm, hnorm⟩ := hpaths e List.mem_cons_self
    have hstored := (normalizePath_eq_ok_iff.1 hnorm).1
    unfold importEdits at hrun ⊢
    cases hk : e.kind with
    | dir =>
      rw [hk] at hrun
      obtain ⟨p, b₁, hp, hb₁, hlabel, hrest, hmodel⟩ := andThen_dir hb hrun
      obtain rfl : p = norm := Except.ok.inj (hp.symm.trans hstored)
      obtain ⟨vs, hvs, hs, hlabel', hmodel'⟩ := ih hb₁ hrest
      refine ⟨⟨p, .dir, e.mtime, e.mode, []⟩ :: vs, .dir hnorm ⟨hk, rfl⟩ ⟨rfl, rfl⟩ rfl hvs, ?_, hlabel'.trans hlabel, ?_⟩
      · rw [hs]
        rfl
      · dsimp only at hmodel ⊢
        rw [hmodel, hmodel', addAll_cons]
        rfl
    | file =>
      rw [hk] at hrun
      dsimp only at hrun ⊢
      by_cases hoff : e.dataOffset = offset
      · rw [if_neg (not_not.2 hoff)] at hrun ⊢
        obtain ⟨p, bytes, b₁, hp, htake, hlen, hhash, hb₁, hlabel, hrest, hmodel⟩ :=
          andThen_file hb (hsize e List.mem_cons_self hk) hrun
        obtain rfl : p = norm := Except.ok.inj (hp.symm.trans hstored)
        by_cases hover : offset + e.size > u64Max
        · rw [if_pos hover] at hrest
          simp [Edits.run] at hrest
        · rw [if_neg hover] at hrest hmodel ⊢
          obtain ⟨vs, hvs, hs, hlabel', hmodel'⟩ := ih hb₁ hrest
          obtain ⟨hbytes, hfault⟩ := take_eq_ok htake hlen
          rw [← hlen] at hvs
          refine ⟨⟨p, .file, e.mtime, e.mode, bytes⟩ :: vs,
            .file hnorm ⟨hk, rfl⟩ ⟨rfl, rfl⟩ hoff hlen.symm hhash.symm hvs, ?_, hlabel'.trans hlabel, ?_⟩
          · rw [hs] at hbytes hfault
            obtain ⟨sbytes, sfault⟩ := s
            simp only at hbytes hfault
            rw [hbytes, ← hfault]
            rfl
          · rw [hmodel, hmodel', addAll_cons]
            rfl
      · rw [if_pos hoff] at hrun
        simp [Edits.run] at hrun

/-- The layout of a manifest that describes files and directories. -/
theorem Describes.of_layout (h : Describes P offset es vs) {shape shape' : List (Str × EntryKind)} {total : Nat}
    (hl : layoutEntries es shape offset = .ok (shape', total)) : total = offset + contentSize vs ∧
      ((shape.map (·.1)).Nodup → (shape.map (·.1) ++ vs.map (·.path)).Nodup) := by
  -- the part of the entry itself
  have hnew {v : VaultEntry} {vs : List VaultEntry} {shape : List (Str × EntryKind)} {kind : EntryKind}
      (hin : v.path ∉ shape.map (·.1)) (ih : ((shape ++ [(v.path, kind)]).map (·.1)).Nodup →
        ((shape ++ [(v.path, kind)]).map (·.1) ++ vs.map (·.path)).Nodup) (hnd : (shape.map (·.1)).Nodup) :
      (shape.map (·.1) ++ (v :: vs).map (·.path)).Nodup := by
    have hmap : (shape ++ [(v.path, kind)]).map (·.1) = shape.map (·.1) ++ [v.path] := by simp
    rw [hmap] at ih
    have ih := ih (List.nodup_append.2 ⟨hnd, by simp, fun a ha b hb hab => hin (by simp_all)⟩)
    rwa [List.append_assoc] at ih
  induction h generalizing shape with
  | nil =>
    simp only [layoutEntries, Except.ok.injEq, Prod.mk.injEq] at hl
    exact ⟨hl.2.symm, by simp⟩
  | @file offset e v es vs hpath hkind _ hoffset hlen _ _ ih =>
    unfold layoutEntries at hl
    rw [hpath] at hl
    dsimp only at hl
    split at hl
    · cases hl
    · rename_i hin
      rw [if_pos hkind.1, if_neg (not_not.2 hoffset)] at hl
      split at hl
      · cases hl
      · rw [hlen] at hl
        obtain ⟨htotal, hnd⟩ := ih hl
        exact ⟨by rw [htotal, contentSize_cons, Nat.add_assoc], hnew hin hnd⟩
  | @dir offset e v es vs hpath hkind _ hempty _ ih =>
    unfold layoutEntries at hl
    rw [hpath] at hl
    dsimp only at hl
    split at hl
    · cases hl
    · rename_i hin
      have hnot : ¬ e.kind = .file := by
        rw [hkind.1]
        decide
      rw [if_neg hnot] at hl
      obtain ⟨htotal, hnd⟩ := ih hl
      exact ⟨by rw [htotal, contentSize_cons, hempty, List.length_nil, Nat.zero_add], hnew hin hnd⟩

/-- The paths of a manifest that has a layout. -/
theorem paths_of_layout {shape shape' : List (Str × EntryKind)} {total : Nat}
    (hl : layoutEntries es shape offset = .ok (shape', total)) : ∀ e ∈ es, ∃ p, normalizePath e.path = .ok p := by
  induction es generalizing shape offset with
  | nil => simp
  | cons e es ih =>
    unfold layoutEntries at hl
    cases hp : normalizePath e.path with
    | error err => simp [hp] at hl
    | ok p =>
      rw [hp] at hl
      dsimp only at hl
      intro e' he'
      rcases List.mem_cons.1 he' with rfl | he'
      · exact ⟨p, hp⟩
      · split at hl
        · cases hl
        · split at hl
          · split at hl
            · cases hl
            · split at hl
              · cases hl
              · exact ih hl e' he'
          · exact ih hl e' he'

/-- Directories hold nothing, so the files are as large as the contents. -/
theorem Describes.fileSize_eq (h : Describes P offset es vs) : fileSize vs = contentSize vs := by
  induction h with
  | nil => rfl
  | file hpath hkind _ _ _ _ _ ih =>
    rw [contentSize_cons, ← ih]
    simp [fileSize, hkind.2]
  | dir hpath hkind _ hempty _ ih =>
    rw [contentSize_cons, ← ih, hempty]
    simp [fileSize, hkind.2]

variable {C : FsecPrims P} {reader : VaultReader} {file : Bytes}

/-- What the entries and the stream of an opened container hold is the vault that it reads. -/
theorem Describes.toVault_eq (h : Describes P 0 reader.manifest.entries vs)
    (hstream : (reader.imported C file).plaintextStream = .ok ⟨contentsOf vs, none⟩) (hsize : contentSize vs ≤ u64Max) :
    reader.toVault C file = .ok ⟨reader.manifest.vaultName, reader.manifest.createdAt, vs⟩ := by
  unfold VaultReader.imported at hstream
  dsimp only at hstream
  cases hplain : reader.plaintextReader C file with
  | error e => simp [hplain, Except.map] at hstream
  | ok plaintext =>
    rw [hplain] at hstream
    simp only [Except.map, Except.ok.injEq, ByteStream.mk.injEq, faultOf_eq_none] at hstream
    unfold VaultReader.toVault
    rw [bind_eq_ok]
    exact ⟨plaintext, hplain, h.reconstruct_eq (StreamDecryptReader.newWith_left P.openBytes hplain).1
      (Prod.ext hstream.1 hstream.2) hsize⟩

/-! ### Conversions -/

/-- What a vault can be made from: a container that has been opened, or another vault. -/
inductive Source (P : Prims) where
  | v1 (reader : VaultReader) (file : Bytes)
  | v2 (reader : VaultReaderV2 P) (blobs : Str → Option Bytes)

/-- The reader of the source has accepted it. -/
def Source.Accepted (C : FsecPrims P) : Source P → Prop
  | .v1 reader file => ∃ identity sender, verifyAndOpen C file identity = .ok (reader, sender)
  | .v2 reader _ => validateManifestV2 reader.manifest reader.suite.aeadAlg = .ok ()

/-- The name and the time of the source. -/
def Source.label : Source P → Str × Int
  | .v1 reader _ => (reader.manifest.vaultName, reader.manifest.createdAt)
  | .v2 reader _ => reader.manifest.label

/-- The sizes of the files of the source. -/
def Source.fileSizes : Source P → List Nat
  | .v1 reader _ => (reader.manifest.entries.filter (·.kind = .file)).map (·.size)
  | .v2 reader _ => (reader.manifest.entries.filter (·.kind = .file)).map (·.size)

/-- All entries of the source authenticate, and these are they, under the normal form of their paths. -/
def Source.Holds (C : FsecPrims P) (vs : List VaultEntry) : Source P → Prop
  | .v1 reader file => reader.toVault C file = .ok ⟨reader.manifest.vaultName, reader.manifest.createdAt, vs⟩
  | .v2 reader blobs => List.Forall₂ (reader.Lists blobs) reader.manifest.entries vs

/-- `from_reader_v1` or `from_reader_v2`. -/
def Source.convert (C : FsecPrims P) (identity : FileSec.Identity) (suite : SuiteId) (objectId : Option Str) (io : BuildIo) :
    Source P → HostM P (VaultReaderV2 P)
  | .v1 reader file => fromReaderV1 identity suite (reader.imported C file) objectId io
  | .v2 reader blobs => fromReaderV2 identity suite reader blobs objectId io

section Convert

variable {source : Source P} {h : Host P}

/-- The import of a container that has been accepted. -/
private theorem importEdits_fills {recipient : Identity C} {sender : VerifiedSender} {stream : ByteStream}
    (haccepted : verifyAndOpen C file recipient = .ok (reader, sender))
    (hstream : (reader.imported C file).plaintextStream = .ok stream)
    (hsize : ∀ e ∈ reader.manifest.entries, e.kind = .file → numChunks e.size defaultChunkSize ≠ u32Max + 1) :
    (importEdits io 0 reader.manifest.entries 0 stream).Fills P fun vs => (vs.map (·.path)).Nodup ∧ fileSize vs ≤ u64Max ∧
      reader.toVault C file = .ok ⟨reader.manifest.vaultName, reader.manifest.createdAt, vs⟩ where
  along := importEdits_along hsize 0 0 stream
  fills hb hrun := by
    obtain ⟨header, s, cek, manifest, layout, hp, -, rfl, -⟩ := verifyAndOpen_eq_ok.1 haccepted
    obtain ⟨-, -, shape, hl, -, -, -, htotal, -⟩ := validateManifestLayout_eq_ok.1 hp.layout
    obtain ⟨vs, hvs, rfl, hlabel, hmodel⟩ := importEdits_copies hsize (paths_of_layout hl) hb hrun
    obtain ⟨hlen, hnd⟩ := hvs.of_layout hl
    have hle : contentSize vs ≤ u64Max := by omega
    exact ⟨vs, ⟨by simpa using hnd, by rw [hvs.fileSize_eq]; exact hle, hvs.toVault_eq hstream hle⟩, hlabel, hmodel⟩

/-- Converting gives a copy of the source, or at a new place leaves at most an empty vault. -/
private theorem convert_spec (identity : FileSec.Identity) (suite : SuiteId) (objectId : Option Str) (bio : BuildIo)
    (haccepted : source.Accepted C) (fresh : h.rng.Fresh fun _ => False)
    (hsize : ∀ n ∈ source.fileSizes, numChunks n defaultChunkSize ≠ u32Max + 1) :
    wp (source.convert C identity suite objectId bio) (fun res h' => match res with
      | .ok r => ∃ vs, source.Holds C vs ∧ r.Converted h' identity source.label vs
      | .error _ => h.top.shown .manifest = none → h'.OpensEmpty identity) h := by
  cases source with
  | v1 reader file =>
    obtain ⟨recipient, sender, haccepted⟩ := haccepted
    have hsize : ∀ e ∈ reader.manifest.entries, e.kind = .file → numChunks e.size defaultChunkSize ≠ u32Max + 1 :=
      fun e he hk => hsize e.size (List.mem_map.2 ⟨e, List.mem_filter.2 ⟨he, by simpa using hk⟩, rfl⟩)
    refine wp_mono (createFill_converted fresh identity bio.commit suite _ _ objectId bio.create (fun stream hstream =>
      importEdits_fills haccepted hstream hsize) fun vs hvs => ⟨hvs.1, hvs.2.1⟩) ?_
    intro res h' hres
    cases res with
    | error e => exact hres
    | ok r =>
      obtain ⟨vs, ⟨-, -, hvault⟩, hconv⟩ := hres
      exact ⟨vs, hvault, hconv⟩
  | v2 reader blobs =>
    have hvalid := validateManifestV2_iff.1 haccepted
    have hsize : ∀ e ∈ reader.manifest.entries, e.kind = .file → numChunks e.size defaultChunkSize ≠ u32Max + 1 :=
      fun e he hk => hsize e.size (List.mem_map.2 ⟨e, List.mem_filter.2 ⟨he, by simpa using hk⟩, rfl⟩)
    have hbuilt := createFill_converted (x := .ok ())
      (f := fun _ => rekeyEdits reader blobs bio.blob 0 reader.manifest.entries) fresh identity bio.commit suite
      reader.manifest.vaultName reader.manifest.createdAt objectId bio.create (fun _ _ => rekeyEdits_fills hsize)
      fun vs hvs => authenticates_sound hvalid hvs
    simp only [lift_ok_bind] at hbuilt
    refine wp_mono hbuilt ?_
    intro res h' hres
    cases res with
    | error e => exact hres
    | ok r =>
      obtain ⟨vs, hvs, hconv⟩ := hres
      refine ⟨vs, ?_, hconv⟩
      have hall := List.forall₂_iff_zip.1 hvs
      exact List.forall₂_iff_zip.2 ⟨hall.1, fun hz => (hall.2 hz).lists (hvalid.files _ (List.of_mem_zip hz).1)⟩

/-- The header of a vault of the recipient is within the limit for headers: it holds a single stanza. -/
def HeaderFits (P : Prims) (recipient : FileSec.PublicIdentity) (suite : SuiteId) : Prop :=
  ∀ key seed stanza vaultId, P.wrapForRecipient key recipient suite seed = .ok stanza → vaultId.length = 16 →
    P.rawLen (P.encodeHeader ⟨formatVersionV2, suite.toU16, vaultId, stanza⟩) ≤ maxHeaderLen

private theorem createInner_header {identity : FileSec.Identity} {suite : SuiteId}
    (hheader : HeaderFits P identity.publicPart suite) (name : Str) (createdAt : Int) {vaultId : Bytes}
    (hid : vaultId.length = 16) (cio : CreateIo) (h : Host P) :
    wp (createInner P identity suite name createdAt vaultId cio)
      (fun res _ => ∀ r, res = .ok r → P.rawLen r.headerBytes ≤ maxHeaderLen) h := by
  unfold createInner
  cases cio.dirFault with
  | some e => exact fun r hr => by cases hr
  | none =>
    simp only [wp_bind, wp_draw]
    cases randomVec 32 (h.rng 0) with
    | error e => exact fun r hr => by cases hr
    | ok key =>
      simp only [wp_liftM]
      cases hw : P.wrapForRecipient key identity.publicPart suite cio.wrapSeed with
      | error e => exact fun r hr => by cases hr
      | ok stanza =>
        unfold writeAtomic
        cases cio.headerFault with
        | some e => exact fun r hr => by cases hr
        | none =>
          simp only [wp_bind, wp_modify, wp_pure]
          refine wp_mono (Q := fun _ _ => True) trivial ?_
          intro res h' _
          cases res with
          | error e => exact fun r hr => by cases hr
          | ok sealed =>
            intro r hr
            obtain rfl := Except.ok.inj hr
            exact hheader key cio.wrapSeed stanza vaultId hw hid

/-- A new vault has a header within the limit. -/
private theorem createFor_header {identity : FileSec.Identity} {suite : SuiteId}
    (hheader : HeaderFits P identity.publicPart suite) (name : Str) (createdAt : Int) (objectId : Option Str)
    (cio : CreateIo) (h : Host P) : wp (createFor P identity suite name createdAt objectId cio)
      (fun res _ => ∀ r, res = .ok r → P.rawLen r.headerBytes ≤ maxHeaderLen) h := by
  cases objectId with
  | none =>
    simp only [createFor, create, wp_bind, wp_draw]
    cases hid : randomVec 16 (h.rng 0) with
    | error e => exact fun r hr => by cases hr
    | ok vaultId => exact createInner_header hheader name createdAt (randomVec_length hid) cio _
  | some id =>
    simp only [createFor, createWithObjectId]
    cases unhex id with
    | none => exact fun r hr => by cases hr
    | some vaultId =>
      simp only
      split
      · exact fun r hr => by cases hr
      · rename_i hlen
        exact createInner_header hheader name createdAt (not_not.1 hlen) cio h

/-- Filling a vault leaves its header. -/
private theorem fill_header (r : VaultReaderV2 P) (edits : Edits) (cio : CommitIo) (h : Host P) :
    wp (r.fill edits cio) (fun res _ => ∀ r', res = .ok r' → r'.headerBytes = r.headerBytes) h := by
  refine wp_fill.2 (wp_mono (commitWith_outcome ⟨r, h⟩ none edits cio) ?_)
  intro res s' hout r' hr'
  cases hout with
  | sealed hok hchanged hsealed =>
    obtain rfl := Except.ok.inj hr'
    rfl
  | unchanged hok hchanged =>
    obtain rfl := Except.ok.inj hr'
    rfl
  | failed hhost => cases hr'

/-- The new vault has a header within the limit. -/
private theorem convert_header {identity : FileSec.Identity} {suite : SuiteId}
    (hheader : HeaderFits P identity.publicPart suite) (objectId : Option Str) (bio : BuildIo) :
    wp (source.convert C identity suite objectId bio)
      (fun res _ => ∀ r, res = .ok r → P.rawLen r.headerBytes ≤ maxHeaderLen) h := by
  have hfill : ∀ (me : VaultReaderV2 P) (edits : Edits) (h₁ : Host P), P.rawLen me.headerBytes ≤ maxHeaderLen →
      wp (me.fill edits bio.commit) (fun res _ => ∀ r, res = .ok r → P.rawLen r.headerBytes ≤ maxHeaderLen) h₁ :=
    fun me edits h₁ hme => wp_mono (fill_header me edits bio.commit h₁) fun res h₂ hsame r hr => by
      rw [hsame r hr]
      exact hme
  cases source with
  | v1 reader file =>
    refine (wp_bind _ _).2 (wp_mono (createFor_header hheader _ _ objectId bio.create h) ?_)
    intro res h₁ hme
    cases res with
    | error e => exact fun r hr => by cases hr
    | ok me =>
      simp only [wp_bind, wp_liftM]
      cases (reader.imported C file).plaintextStream with
      | error e => exact fun r hr => by cases hr
      | ok stream => exact hfill me _ h₁ (hme me rfl)
  | v2 reader blobs =>
    refine (wp_bind _ _).2 (wp_mono (createFor_header hheader _ _ objectId bio.create h) ?_)
    intro res h₁ hme
    cases res with
    | error e => exact fun r hr => by cases hr
    | ok me => exact hfill me _ h₁ (hme me rfl)

/-- A conversion that returns has authenticated every entry of the source.  The new vault has its name and is a copy of
the entries, and opening it gives the reader that the conversion returned exactly if its manifest is not too large.  If an
entry does not authenticate the conversion fails, and at a new place it leaves at most the empty vault it began with. -/
theorem convert_faithful (C : FsecPrims P) {source : Source P} (identity : FileSec.Identity) (suite : SuiteId)
    (objectId : Option Str) (bio : BuildIo) {h : Host P} (haccepted : source.Accepted C)
    (fresh : h.rng.Fresh fun _ => False) (hheader : HeaderFits P identity.publicPart suite)
    (hsize : ∀ n ∈ source.fileSizes, numChunks n defaultChunkSize ≠ u32Max + 1) :
    (∀ r h', exec (source.convert C identity suite objectId bio) h = (.ok r, h') →
      ∃ vs, source.Holds C vs ∧ r.Converted h' identity source.label vs ∧ P.rawLen r.headerBytes ≤ maxHeaderLen) ∧
    ((∀ vs, ¬ source.Holds C vs) → ∃ e h', exec (source.convert C identity suite objectId bio) h = (.error e, h')) ∧
    ∀ e h', exec (source.convert C identity suite objectId bio) h = (.error e, h') →
      h.top.shown .manifest = none → h'.OpensEmpty identity := by
  have hspec := convert_spec identity suite objectId bio haccepted fresh hsize
  refine ⟨fun r h' hrun => ?_, fun hnone => ?_, fun e h' hrun => of_wp hspec hrun⟩
  · obtain ⟨vs, hvs, hconv⟩ := of_wp hspec hrun
    exact ⟨vs, hvs, hconv, of_wp (convert_header hheader objectId bio) hrun r rfl⟩
  · rcases hrun : exec (source.convert C identity suite objectId bio) h with ⟨res, h'⟩
    cases res with
    | error e => exact ⟨e, h', rfl⟩
    | ok r =>
      obtain ⟨vs, hvs, -⟩ := of_wp hspec hrun
      exact absurd hvs (hnone vs)

end Convert

/-! A vault with a file in a directory is converted.  Where the directory has a modification time, the copy's has none;
where the blob is missing the conversion fails, and what it leaves opens as an empty vault.  Where a name is not normal and its
parent is not listed, the copy has the normal name and the parent; if the manifest was almost as large as a reader takes
it, the copy does not open. -/

namespace Sym

/-- Conversion to a new vault of `alice`, where nothing goes wrong. -/
def convert (source : Source FileSec.Sym) : Result (VaultReaderV2 FileSec.Sym) × Host FileSec.Sym :=
  exec (source.convert container FileSec.Sym.alice .classic none ⟨.fine, fun _ => .fine, .fine⟩) (FileSec.Sym.host 16)

/-- The vault with a file in a directory that has a modification time. -/
def dated : World FileSec.Sym :=
  FileSec.Sym.withFile.run FileSec.Sym.alice [.commit ⟨none, .ofList [.setAttr "d".toList (some 5) none], .fine⟩]

set_option maxRecDepth 10000 in
theorem dated_ok : dated.reader.isSome = true := by decide

/-- It with these blobs. -/
def datedSource (blobs : Str → Option Bytes) : Source FileSec.Sym := .v2 (dated.reader.get dated_ok) blobs

set_option maxRecDepth 10000 in
private theorem dated_accepted (blobs : Str → Option Bytes) : (datedSource blobs).Accepted container := by
  show validateManifestV2 (dated.reader.get dated_ok).manifest (dated.reader.get dated_ok).suite.aeadAlg = .ok ()
  decide

private theorem convertDated_ok : (convert (datedSource dated.host.blobs.shown)).1.toOption.isSome = true := by decide

private theorem headerFits (recipient : FileSec.PublicIdentity) (suite : SuiteId) :
    HeaderFits FileSec.Sym recipient suite := by
  intro key seed stanza vaultId hw hid
  have hstanza : stanza = .wrap recipient.fingerprint key seed := by
    by_cases hpqc : suite = .hybrid ∧ recipient.hybridCapable = false
    · have hrefused := (if_pos hpqc).symm.trans hw
      cases hrefused
    · exact (Except.ok.inj ((if_neg hpqc).symm.trans hw)).symm
  subst hstanza
  show 1 + 9 + (1 + 9 + (1 + (9 + vaultId.length) + 1200)) ≤ maxHeaderLen
  rw [hid]
  decide

/-- A reader of a vault of this name with one directory, under a name that is not normal and whose parent is not listed. -/
private def wide (name : Str) : VaultReaderV2 FileSec.Sym :=
  { FileSec.Sym.session.reader with state := none, manifest := ⟨name, 0, [dirEntry "a/b/".toList]⟩ }

/-- The length of a sealed manifest. -/
private theorem sealedRaw_size (r : VaultReaderV2 FileSec.Sym) (m : ManifestV2) (state : StateMetadata Term) (nonce : Bytes) :
    Prims.rawLen FileSec.Sym (r.sealedRaw m state nonce) = 4 * m.vaultName.length + (Codec.int.enc m.createdAt).size +
      (entryCodec.list.enc m.entries).size + (stateCodec.enc state).size + nonce.length + 48 := by
  show 1 + 9 + (1 + (stateCodec.enc state).size + (1 + (9 + nonce.length) + (1 + (9 + 4 * m.vaultName.length) +
    (1 + (Codec.int.enc m.createdAt).size + (entryCodec.list.enc m.entries).size) + 16))) = _
  omega

private theorem dirs_size : (Codec.int.enc 0).size = 19 ∧ (entryCodec.list.enc [dirEntry "a/b/".toList]).size = 157 ∧
    (entryCodec.list.enc [dirEntry "a".toList, dirEntry "a/b".toList]).size = 289 := by
  decide

/-- The state with which it is sealed. -/
private theorem wide_state (name : Str) : ∃ state, (wide name).nextState (wide name).manifest = .ok state ∧
    (stateCodec.enc state).size = 221 := ⟨_, rfl, rfl⟩

/-- Its files, sealed with the state. -/
private def wideFiles (name : Str) (state : StateMetadata Term) : VaultFile → Option Term
  | .header => some (wide name).headerBytes
  | .manifest => some ((wide name).sealedRaw (wide name).manifest state (List.replicate 24 0))

/-- The vault they open as. -/
private def wideSource (name : Str) (state : StateMetadata Term) : Source FileSec.Sym :=
  .v2 ((wide name).opened (wide name).manifest state) fun _ => none

set_option maxRecDepth 20000 in
private theorem convertWide_ok (name : Str) (state : StateMetadata Term) :
    (convert (wideSource name state)).1.toOption.isSome = true := rfl

set_option maxRecDepth 20000 in
private theorem convertWide_sealed (name : Str) (state : StateMetadata Term) :
    ∃ r : VaultReaderV2 FileSec.Sym, ∃ state' nonce, (convert (wideSource name state)).2.top.shown .manifest =
      some (r.sealedRaw ⟨name, 0, [dirEntry "a".toList, dirEntry "a/b".toList]⟩ state' nonce) ∧
    (stateCodec.enc state').size = 244 ∧ nonce.length = 24 :=
  ⟨(convert (wideSource name state)).1.toOption.get (convertWide_ok name state), _, _, rfl, rfl, rfl⟩

/-- The manifest file of the copy has one more directory. -/
private theorem convertWide_manifest (name : Str) (state : StateMetadata Term) :
    ∃ raw, (convert (wideSource name state)).2.top.shown .manifest = some raw ∧
      Prims.rawLen FileSec.Sym raw = 4 * name.length + 624 := by
  obtain ⟨r, state', nonce, hshown, hstate, hnonce⟩ := convertWide_sealed name state
  obtain ⟨hint, -, htwo⟩ := dirs_size
  have hsize := sealedRaw_size r ⟨name, 0, [dirEntry "a".toList, dirEntry "a/b".toList]⟩ state' nonce
  rw [hstate, hnonce, hint, htwo] at hsize
  exact ⟨_, hshown, hsize⟩

/-- A name that makes the manifest file of the vault as long as a reader takes it. -/
private def longName : Str := List.replicate 67108746 'a'

/-- The vault opens and is converted, and the copy, in which the name is normal and the parent is listed, does not open. -/
private theorem wide_copy_refused : ∃ files source, openVault FileSec.Sym files FileSec.Sym.alice = .ok source ∧
    source.manifest.entries.map (·.path) = ["a/b/".toList] ∧
    (∃ r, (convert (.v2 source fun _ => none)).1 = .ok r ∧
      r.manifest.entries.map (·.path) = ["a".toList, "a/b".toList]) ∧
    ∀ r, openVault FileSec.Sym (convert (.v2 source fun _ => none)).2.top.shown FileSec.Sym.alice ≠ .ok r := by
  have hlong : longName.length = 67108746 := List.length_replicate
  have hmax : maxManifestLen = 268435456 := rfl
  generalize longName = name at hlong
  obtain ⟨hint, hone, -⟩ := dirs_size
  obtain ⟨state, hstate, hstatelen⟩ := wide_state name
  have hopens : openVault FileSec.Sym (wideFiles name state) FileSec.Sym.alice =
      .ok ((wide name).opened (wide name).manifest state) := by
    have hheader : Prims.rawLen FileSec.Sym FileSec.Sym.session.reader.headerBytes ≤ maxHeaderLen := by decide
    have hfile : wideFiles name state .manifest =
        some ((wide name).sealedRaw (wide name).manifest state (List.replicate 24 0)) := rfl
    refine (openVault_sealed ⟨⟨_, rfl⟩, rfl⟩ hstate rfl rfl hfile).2 ⟨hheader, ?_, rfl, rfl⟩
    have hsize := sealedRaw_size (wide name) (wide name).manifest state (List.replicate 24 0)
    have hname : (wide name).manifest.vaultName.length = 67108746 := hlong
    have htime : (Codec.int.enc (wide name).manifest.createdAt).size = 19 := hint
    have hentries : (entryCodec.list.enc (wide name).manifest.entries).size = 157 := hone
    rw [hsize, hname, htime, hentries, hstatelen, List.length_replicate, hmax]
    omega
  refine ⟨_, _, hopens, rfl, ⟨_, eq_ok_get (convertWide_ok name state), rfl⟩, fun r hr => ?_⟩
  obtain ⟨copied, hshown, hcopied⟩ := convertWide_manifest name state
  obtain ⟨-, raw, -, -, -, -, -, hraw, hlen, -⟩ := openVault_eq_ok.1 hr
  obtain rfl : copied = raw := Option.some.inj (hshown.symm.trans hraw)
  rw [hcopied, hlong, hmax] at hlen
  exact absurd hlen (by norm_num)

end Sym

theorem convert_faithful_dated : ∃ vs, (Sym.datedSource Sym.dated.host.blobs.shown).Holds Sym.container vs ∧
    ((Sym.convert (Sym.datedSource Sym.dated.host.blobs.shown)).1.toOption.get Sym.convertDated_ok).Converted
      (Sym.convert (Sym.datedSource Sym.dated.host.blobs.shown)).2 FileSec.Sym.alice ("v".toList, 0) vs ∧
    FileSec.Sym.rawLen ((Sym.convert (Sym.datedSource Sym.dated.host.blobs.shown)).1.toOption.get
      Sym.convertDated_ok).headerBytes ≤ maxHeaderLen := by
  have fresh : (FileSec.Sym.host 16).rng.Fresh fun _ => False :=
    Rng.fresh_of_finite 16 (fun i hi => if_neg (by omega)) (by decide) fun _ _ => id
  have hsize : ∀ n ∈ (Sym.datedSource Sym.dated.host.blobs.shown).fileSizes, numChunks n defaultChunkSize ≠ u32Max + 1 := by
    decide
  exact (convert_faithful Sym.container FileSec.Sym.alice .classic none ⟨.fine, fun _ => .fine, .fine⟩
    (Sym.dated_accepted Sym.dated.host.blobs.shown) fresh (Sym.headerFits _ _) hsize).1 _ _ (Prod.ext (eq_ok_get Sym.convertDated_ok) rfl)

theorem convert_faithful_fails :
    (∃ r, (Sym.datedSource Sym.dated.host.blobs.shown).Accepted Sym.container ∧
      (Sym.convert (Sym.datedSource Sym.dated.host.blobs.shown)).1 = .ok r ∧
      (∃ e ∈ (Sym.dated.reader.get Sym.dated_ok).manifest.entries, e.path = "d".toList ∧ e.mtime = some 5) ∧
      ∀ e ∈ r.manifest.entries, e.path = "d".toList → e.mtime = none) ∧
    ((Sym.datedSource fun _ => none).Accepted Sym.container ∧
      (∃ e, (Sym.convert (Sym.datedSource fun _ => none)).1 = .error e) ∧
      ∃ r, openVault FileSec.Sym (Sym.convert (Sym.datedSource fun _ => none)).2.top.shown FileSec.Sym.alice = .ok r) ∧
    ∃ files source, openVault FileSec.Sym files FileSec.Sym.alice = .ok source ∧
      source.manifest.entries.map (·.path) = ["a/b/".toList] ∧
      (∃ r, (Sym.convert (.v2 source fun _ => none)).1 = .ok r ∧
        r.manifest.entries.map (·.path) = ["a".toList, "a/b".toList]) ∧
      ∀ r, openVault FileSec.Sym (Sym.convert (.v2 source fun _ => none)).2.top.shown FileSec.Sym.alice ≠ .ok r := by
  refine ⟨⟨_, Sym.dated_accepted _, eq_ok_get Sym.convertDated_ok, ?_, ?_⟩, ⟨Sym.dated_accepted _, ?_, ?_⟩,
    Sym.wide_copy_refused⟩
  · decide
  · decide
  · cases hrun : (Sym.convert (Sym.datedSource fun _ => none)).1 with
    | error e => exact ⟨e, rfl⟩
    | ok r =>
      have hnone : (Sym.convert (Sym.datedSource fun _ => none)).1.toOption = none := by decide
      simp [hrun, Except.toOption] at hnone
  · have hopens : (openVault FileSec.Sym (Sym.convert (Sym.datedSource fun _ => none)).2.top.shown
        FileSec.Sym.alice).toOption.isSome = true := by decide
    exact ⟨_, eq_ok_get hopens⟩

end FileSec.Fsec
