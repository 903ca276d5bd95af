import FileSec.Fsec.Plain

/-!
# The two exports agree

Both exports write a container of the entries outside the trash.  The streaming one lists them under the names they are
stored under; the plain one lists them under the strict normal forms of these names, adds the parents that are not listed
and drops the attributes of directories.  `exports_agree` says for which vaults this comes to the same (`Exportable`): no
more can be asked for, unless the entries cannot be sent at all (`Sendable`).  Where a stored name has no strict normal
form, the recipient refuses the container of the streaming export (`exports_agree_deceptive`).
-/

namespace FileSec.Fsec

open SepPath

variable {P : Prims} {C : FsecPrims P}

/-! ### The order of the entries -/

/-- The length of an encoded manifest does not depend on the order of its entries. -/
def OrderFree (C : FsecPrims P) : Prop :=
  ∀ m m' : Manifest, m.vaultName = m'.vaultName → m.createdAt = m'.createdAt → m.entries.Perm m'.entries →
    (C.encodeManifest m).length = (C.encodeManifest m').length

section Order

variable {vs vs' : List VaultEntry} {name : Str} {createdAt : Int} {sender : Identity C}
  {recipients : List Peer.PublicIdentity} {options : ExportOptions} {draws : Draws}

/-- The entry that `build_manifest` makes of a directory. -/
private def dirEntry (v : VaultEntry) : Entry := ⟨v.path, .dir, 0, v.mtime, v.mode, zeroHash, 0⟩

private theorem buildEntries_split (vs : List VaultEntry) (offset : Nat) : (buildEntries P vs offset).Perm
    (buildEntries P (filesOf vs) offset ++ (vs.filter fun v => v.kind = .dir).map dirEntry) := by
  induction vs generalizing offset with
  | nil => exact List.Perm.refl _
  | cons v vs ih =>
    unfold filesOf at ih ⊢
    cases hk : v.kind with
    | file =>
      simp only [buildEntries, hk, List.filter_cons, decide_true, if_true, reduceCtorEq, decide_false, Bool.false_eq_true, if_false,
        List.cons_append]
      exact (ih _).cons _
    | dir =>
      simp only [buildEntries, hk, List.filter_cons, decide_true, if_true, reduceCtorEq, decide_false, Bool.false_eq_true,
        if_false, List.map_cons]
      exact ((ih offset).cons _).trans List.perm_middle.symm

/-- Another order of the directories gives the same manifest entries in another order. -/
theorem buildEntries_perm (hperm : vs.Perm vs') (hfiles : filesOf vs = filesOf vs') (offset : Nat) :
    (buildEntries P vs offset).Perm (buildEntries P vs' offset) := by
  have hdirs := (hperm.filter fun v => v.kind = .dir).map dirEntry
  refine (buildEntries_split vs offset).trans (List.Perm.trans ?_ (buildEntries_split vs' offset).symm)
  rw [hfiles]
  exact hdirs.append_left _

/-- A plan can be made for a manifest when it can be made for another of the same length. -/
theorem new_ok_congr {m m' : Manifest} (hlen : (C.encodeManifest m).length = (C.encodeManifest m').length) {n : Nat} :
    (∃ plan, ContainerPlan.new C m n sender recipients options draws = .ok plan) ↔
      ∃ plan, ContainerPlan.new C m' n sender recipients options draws = .ok plan := by
  unfold ContainerPlan.new
  simp only [bind_eq_ok, refuseIf_eq_ok, exists_const, hlen]
  constructor
  · rintro ⟨-, h1, h2, h3, cek, h4, mn, h5, dn, h6, id, h7, st, h8, h9, -⟩
    exact ⟨_, h1, h2, h3, cek, h4, mn, h5, dn, h6, id, h7, st, h8, h9, rfl⟩
  · rintro ⟨-, h1, h2, h3, cek, h4, mn, h5, dn, h6, id, h7, st, h8, h9, -⟩
    exact ⟨_, h1, h2, h3, cek, h4, mn, h5, dn, h6, id, h7, st, h8, h9, rfl⟩

/-- When a container is written. -/
theorem writeContainer_ok_iff {m : Manifest} {n : Nat} {source : Bytes} (hlen : source.length = n) :
    (∃ out, writeContainer C m n ⟨source, none⟩ sender recipients options draws = .ok out) ↔
      (∃ plan, ContainerPlan.new C m n sender recipients options draws = .ok plan) ∧
        options.chunkSize ≤ maxChunkSize ∧ numChunks n options.chunkSize ≤ u32Max + 1 := by
  unfold writeContainer
  simp only [bind_eq_ok]
  constructor
  · rintro ⟨out, plan, hplan, hwrite⟩
    obtain ⟨header, hm⟩ := ContainerPlan.new_eq_ok hplan
    exact ⟨⟨plan, hplan⟩, (ContainerPlan.write_ok_iff hm hlen).1 ⟨out, hwrite⟩⟩
  · rintro ⟨⟨plan, hplan⟩, hlimits⟩
    obtain ⟨header, hm⟩ := ContainerPlan.new_eq_ok hplan
    obtain ⟨out, hwrite⟩ := (ContainerPlan.write_ok_iff hm hlen).2 hlimits
    exact ⟨out, plan, hplan, hwrite⟩

/-- When an export succeeds. -/
theorem exportVault_ok_iff (hdirs : ∀ v ∈ vs, v.kind = .dir → v.content = []) :
    (∃ out, exportVault C ⟨name, createdAt, vs⟩ sender recipients options draws = .ok out) ↔
      (∃ plan, ContainerPlan.new C ⟨name, createdAt, buildEntries P vs 0⟩ (contentSize vs) sender recipients options draws =
        .ok plan) ∧ options.chunkSize ≤ maxChunkSize ∧ numChunks (contentSize vs) options.chunkSize ≤ u32Max + 1 := by
  have hcontent : vaultContent ⟨name, createdAt, vs⟩ = contentsOf vs := vaultContent_eq hdirs
  have hexport : exportVault C ⟨name, createdAt, vs⟩ sender recipients options draws =
      writeContainer C ⟨name, createdAt, buildEntries P vs 0⟩ (contentSize vs) ⟨contentsOf vs, none⟩ sender recipients
        options draws := by
    unfold exportVault
    rw [hcontent]
    rfl
  rw [hexport]
  exact writeContainer_ok_iff (contentsOf_length vs)

theorem contentSize_perm (hperm : vs.Perm vs') : contentSize vs = contentSize vs' := (hperm.map _).sum_eq

/-- An export succeeds whatever the order of the directories. -/
theorem exportVault_ok_congr (hcodec : OrderFree C) (hdirs : ∀ v ∈ vs, v.kind = .dir → v.content = [])
    (hperm : vs.Perm vs') (hfiles : filesOf vs = filesOf vs') :
    (∃ out, exportVault C ⟨name, createdAt, vs⟩ sender recipients options draws = .ok out) ↔
      ∃ out, exportVault C ⟨name, createdAt, vs'⟩ sender recipients options draws = .ok out := by
  have hlen : (C.encodeManifest ⟨name, createdAt, buildEntries P vs 0⟩).length =
      (C.encodeManifest ⟨name, createdAt, buildEntries P vs' 0⟩).length :=
    hcodec _ _ rfl rfl (buildEntries_perm hperm hfiles 0)
  rw [exportVault_ok_iff hdirs, exportVault_ok_iff fun v hv => hdirs v (hperm.mem_iff.2 hv), contentSize_perm hperm,
    new_ok_congr hlen]

/-- A recipient that imports a written container has accepted its manifest. -/
theorem manifest_of_import {m : Manifest} {n : Nat} {data : ByteStream} {out : Bytes} {identity : Identity C}
    {imported : ImportedVault} (hwrite : writeContainer C m n data sender recipients options draws = .ok out)
    (hmem : IsRecipient recipients identity) (hcoll : NoCollision recipients identity)
    (himport : importVault C out identity = .ok imported) :
    (C.encodeManifest m).length + tagLen ≤ maxManifestLen ∧
      ∃ layout, validateManifestLayout m options.chunkSize (dataCiphertextLen n options.chunkSize) = .ok layout := by
  obtain ⟨plan, hplan, hwrite⟩ := bind_eq_ok.1 hwrite
  obtain ⟨header, hm⟩ := ContainerPlan.new_eq_ok hplan
  obtain ⟨encData, trailer, hw⟩ := ContainerPlan.write_eq_ok hwrite
  obtain ⟨header', suite', cek', manifest', layout, hp, -⟩ := importVault_eq_ok.1 himport
  obtain ⟨hmax, -, -, -, -, hlayout⟩ := hw.of_parses hm hmem hcoll hp
  rw [hm.manifestLen_eq, hm.manifestPlaintext_eq] at hmax
  rw [hm.dataLen_eq] at hlayout
  exact ⟨hmax, layout, hlayout⟩

end Order

/-! ### Names -/

/-- The entry under the strict normal form of its name, if there is one. -/
def strictEntry (e : EntryV2) : EntryV2 := { e with path := (normalizePath e.path).toOption.getD e.path }

/-- The manifest of a container with the entries under their strict normal forms. -/
def strictManifest (r : VaultReaderV2 P) : Manifest :=
  ⟨r.manifest.vaultName, r.manifest.createdAt, transportEntries ((keptOf r.manifest.entries).map strictEntry) 0⟩

section Names

variable {r : VaultReaderV2 P} {blobs : Str → Option Bytes} {es : List EntryV2} {vs : List VaultEntry} {offset : Nat}

theorem transportEntries_length (es : List EntryV2) (offset : Nat) : (transportEntries es offset).length = es.length := by
  induction es generalizing offset with
  | nil => rfl
  | cons e es ih =>
    unfold transportEntries
    split
    · rw [List.length_cons, ih, List.length_cons]
    · rw [List.length_cons, ih, List.length_cons]

/-- An entry authenticates under the strict normal form of its name. -/
theorem Nameable.strict_path (h : Nameable es) {e : EntryV2} (he : e ∈ es) {v : VaultEntry}
    (hev : r.Authenticates blobs e v) :
    (strictEntry e).path = v.path := by
  unfold strictEntry
  rw [(h.path he hev).1]
  rfl

/-- The manifest of the streaming export describes what authenticates. -/
theorem Nameable.describes (h : Nameable es) (hvs : List.Forall₂ (r.Authenticates blobs) es vs) :
    Describes P offset (transportEntries es offset) vs := by
  induction hvs generalizing offset with
  | nil => exact .nil offset
  | @cons e v es vs hev hvs ih =>
    have hpath := (h.path List.mem_cons_self hev).1
    unfold transportEntries
    cases hk : e.kind with
    | dir => exact .dir hpath ⟨rfl, hev.kind.trans hk⟩ ⟨hev.mtime.symm, hev.mode.symm⟩ (hev.dir hk) (ih h.tail)
    | file =>
      obtain ⟨-, hlen, hhash⟩ := hev.file hk
      refine .file hpath ⟨rfl, hev.kind.trans hk⟩ ⟨hev.mtime.symm, hev.mode.symm⟩ rfl hlen.symm hhash.symm ?_
      rw [hlen]
      exact ih h.tail

/-- That of the plain export is the one with the strict normal forms. -/
theorem Nameable.buildEntries_eq (h : Nameable es) (hvs : List.Forall₂ (r.Authenticates blobs) es vs)
    (hsize : offset + contentSize vs ≤ u64Max) :
    transportEntries (es.map strictEntry) offset = buildEntries P vs offset := by
  induction hvs generalizing offset with
  | nil => rfl
  | @cons e v es vs hev hvs ih =>
    have hpath := h.strict_path List.mem_cons_self hev
    rw [contentSize_cons] at hsize
    have hmtime : (strictEntry e).mtime = v.mtime := hev.mtime.symm
    have hmode : (strictEntry e).mode = v.mode := hev.mode.symm
    rw [List.map_cons]
    unfold transportEntries buildEntries
    rw [hpath, hmtime, hmode, hev.kind]
    cases hk : e.kind with
    | dir =>
      have hkind : (strictEntry e).kind = .dir := hk
      rw [hev.dir hk, List.length_nil, Nat.zero_add] at hsize
      rw [hkind]
      dsimp only
      rw [ih h.tail hsize]
    | file =>
      have hkind : (strictEntry e).kind = .file := hk
      obtain ⟨-, hlen, hhash⟩ := hev.file hk
      have hsame : (strictEntry e).size = v.content.length := hlen.symm
      have hblake : (strictEntry e).blake3 = P.hashContent v.content := hhash.symm
      rw [hkind, hsame, hblake]
      dsimp only
      rw [Nat.min_eq_left (by omega), ih h.tail (by omega)]

end Names

/-! ### Where the exports agree -/

/-- The entries outside the trash can be sent with some manifest: all of them authenticate, a container can be planned for
the recipients, and the data is within the limits of the stream. -/
structure Sendable (C : FsecPrims P) (m : Manifest) (r : VaultReaderV2 P) (blobs : Str → Option Bytes) (sender : Identity C)
    (recipients : List Peer.PublicIdentity) (options : ExportOptions) : Prop where
  authentic : ∃ vs, List.Forall₂ (r.Authenticates blobs) (keptOf r.manifest.entries) vs
  planned : ∃ draws plan, ContainerPlan.new C m (totalSize (keptOf r.manifest.entries)) sender recipients options draws =
    .ok plan
  chunkSize : options.chunkSize ≤ maxChunkSize
  chunks : numChunks (totalSize (keptOf r.manifest.entries)) options.chunkSize ≤ u32Max + 1

/-- What the streaming export copies from the vault comes to the same as what the plain one makes of it, and is within the
limits of the recipient. -/
structure Exportable (C : FsecPrims P) (fits : Nat → Bool) (r : VaultReaderV2 P) (sender : Identity C)
    (recipients : List Peer.PublicIdentity) (options : ExportOptions) : Prop where
  named : Nameable (keptOf r.manifest.entries)
  untrashed : ∀ e ∈ keptOf r.manifest.entries, isTrashed (strictEntry e).path = false
  bare : ∀ e ∈ keptOf r.manifest.entries, e.kind = .dir → e.mtime = none ∧ e.mode = none
  closed : ∀ e ∈ keptOf r.manifest.entries, ∀ a, Below '/' a (strictEntry e).path →
    ∃ d ∈ keptOf r.manifest.entries, (strictEntry d).path = a ∧ d.kind = .dir
  fits : ∀ e ∈ keptOf r.manifest.entries, e.kind = .file → fits e.size = true
  chunks : numChunks (totalSize (keptOf r.manifest.entries)) options.chunkSize ≠ 2 ^ 32
  manifest : (C.encodeManifest (transportManifest r)).length + tagLen ≤ maxManifestLen ∧
    (C.encodeManifest (strictManifest r)).length + tagLen ≤ maxManifestLen
  header : ∀ draws, (∃ plan, ContainerPlan.new C (transportManifest r) (totalSize (keptOf r.manifest.entries)) sender
      recipients options draws = .ok plan) ↔
    ∃ plan, ContainerPlan.new C (strictManifest r) (totalSize (keptOf r.manifest.entries)) sender recipients options draws =
      .ok plan

/-- The streaming export and the plain one succeed with the same draws, every recipient gets the same entries out of both
containers, none of them from the trash, and it does not reject the container of the streaming one. -/
structure ExportsAgree (C : FsecPrims P) (fits : Nat → Bool) (r : VaultReaderV2 P) (blobs : Str → Option Bytes)
    (sender : Identity C) (recipients : List Peer.PublicIdentity) (options : ExportOptions) : Prop where
  succeed : ∀ draws, (∃ out, streamExport C r blobs sender recipients options draws = .ok out) ↔
    ∃ out, plainExport C fits r blobs sender recipients options draws = .ok out
  same : ∀ draws draws' out out' identity, streamExport C r blobs sender recipients options draws = .ok out →
    plainExport C fits r blobs sender recipients options draws' = .ok out' → IsRecipient recipients identity →
    NoCollision recipients identity → ∃ vault vault', Imports C out identity vault options.suite sender ∧
      Imports C out' identity vault' options.suite sender ∧ vault.name = vault'.name ∧ vault.createdAt = vault'.createdAt ∧
      vault.entries.Perm vault'.entries ∧ ∀ v ∈ vault.entries, isTrashed v.path = false
  accepted : ∀ draws out identity, streamExport C r blobs sender recipients options draws = .ok out →
    IsRecipient recipients identity → NoCollision recipients identity → ∃ imported, importVault C out identity = .ok imported

theorem soundEntries_of_perm {es es' : List VaultEntry} (h : SoundEntries es) (hperm : es.Perm es') : SoundEntries es' where
  clean v hv := h.clean v (hperm.mem_iff.2 hv)
  nodup := (hperm.map _).nodup_iff.1 h.nodup
  closed v hv a ha := by
    obtain ⟨d, hd, hda⟩ := h.closed v (hperm.mem_iff.2 hv) a ha
    exact ⟨d, hperm.mem_iff.1 hd, hda⟩
  dirs v hv := h.dirs v (hperm.mem_iff.2 hv)

theorem Plain.of_perm {es es' : List VaultEntry} (h : Plain es) (hperm : es.Perm es') : Plain es' :=
  ⟨soundEntries_of_perm h.sound hperm, fun v hv => h.bare v (hperm.mem_iff.2 hv)⟩

section Agree

variable {r : VaultReaderV2 P} {blobs : Str → Option Bytes} {fits : Nat → Bool} {sender identity : Identity C}
  {recipients : List Peer.PublicIdentity} {options : ExportOptions} {draws : Draws} {out : Bytes} {vs : List VaultEntry}

/-- What entries authenticate as is determined. -/
private theorem authenticates_unique {es : List EntryV2} {vs' : List VaultEntry}
    (hvs : List.Forall₂ (r.Authenticates blobs) es vs) (hvs' : List.Forall₂ (r.Authenticates blobs) es vs') : vs = vs' := by
  induction hvs generalizing vs' with
  | nil =>
    cases hvs'
    rfl
  | @cons e v es vs hev hvs ih =>
    cases hvs' with
    | @cons _ v' _ vs' hev' hvs' =>
      rw [ih hvs']
      congr 1
      have hpath := Except.ok.inj (hev.path.symm.trans hev'.path)
      have hkind := hev.kind.trans hev'.kind.symm
      have hmtime := hev.mtime.trans hev'.mtime.symm
      have hmode := hev.mode.trans hev'.mode.symm
      have hcontent : v.content = v'.content := by
        cases hk : e.kind with
        | dir => rw [hev.dir hk, hev'.dir hk]
        | file => exact Except.ok.inj (Except.ok.inj ((hev.file hk).1.symm.trans (hev'.file hk).1))
      obtain ⟨path, kind, mtime, mode, content⟩ := v
      obtain ⟨path', kind', mtime', mode', content'⟩ := v'
      simp only at hpath hkind hmtime hmode hcontent
      rw [hpath, hkind, hmtime, hmode, hcontent]

/-- What entries of a valid vault authenticate as is tree-shaped. -/
private theorem treeShaped_of_authenticates {alg : AeadAlg} {all es : List EntryV2} (hvalid : ValidEntries alg all)
    (hsub : es.Sublist all) (hvs : List.Forall₂ (r.Authenticates blobs) es vs) : TreeShaped vs := by
  refine ⟨?_, fun x hx y hy hfile => ?_⟩
  swap
  · obtain ⟨e, he, hex⟩ := Keyed.exists_of_forall₂ hvs hx
    obtain ⟨d, hd, hdy⟩ := Keyed.exists_of_forall₂ hvs hy
    rcases hvalid.apart_or_eq (hsub.subset he) (hsub.subset hd) with hap | heq
    · exact (hap _ _ hex.path hdy.path).2.1 (hex.kind.symm.trans hfile)
    · have hpath : y.path = x.path :=
        Except.ok.inj (hdy.path.symm.trans ((congrArg normalizeStoredPath (Prod.mk.inj heq).1).symm.trans hex.path))
      rw [hpath]
      exact not_below_self _
  have hnodup : (es.map (·.path)).Nodup := hvalid.nodup.sublist (hsub.map _)
  induction hvs with
  | nil => exact List.nodup_nil
  | @cons e v es vs hev hvs ih =>
    have he : e ∈ all := hsub.subset List.mem_cons_self
    rw [List.map_cons, List.nodup_cons] at hnodup ⊢
    refine ⟨fun hin => ?_, ih ((List.sublist_cons_self e es).trans hsub) hnodup.2⟩
    obtain ⟨w, hw, hpath⟩ := List.mem_map.1 hin
    obtain ⟨d, hd, hdw⟩ := Keyed.exists_of_forall₂ hvs hw
    have hsame := hvalid.path_unique he (hsub.subset (List.mem_cons_of_mem _ hd)) hev.path (hpath ▸ hdw.path)
    exact hnodup.1 (hsame ▸ List.mem_map_of_mem hd)

/-- The entries of an exportable vault, once they have authenticated, are those of an in-memory vault. -/
private theorem Exportable.plain (h : Exportable C fits r sender recipients options)
    (hvalid : ValidEntries r.suite.aeadAlg r.manifest.entries)
    (hvs : List.Forall₂ (r.Authenticates blobs) (keptOf r.manifest.entries) vs) : Plain vs := by
  refine ⟨⟨?_, (treeShaped_of_authenticates hvalid List.filter_sublist hvs).nodup, ?_, dirs_of_authenticates hvs⟩, ?_⟩
  · intro v hv
    obtain ⟨e, he, hev⟩ := Keyed.exists_of_forall₂ hvs hv
    exact cleanPath_of_normalizePath (h.named.path he hev).1
  · intro v hv a ha
    obtain ⟨e, he, hev⟩ := Keyed.exists_of_forall₂ hvs hv
    rw [← h.named.strict_path he hev] at ha
    obtain ⟨d, hd, rfl, hdir⟩ := h.closed e he a ha
    obtain ⟨w, hw, hdw⟩ := Keyed.exists_of_forall₂ hvs.flip hd
    exact ⟨w, hw, (h.named.strict_path hd hdw).symm, hdw.kind.trans hdir⟩
  · intro v hv hk
    obtain ⟨e, he, hev⟩ := Keyed.exists_of_forall₂ hvs hv
    obtain ⟨hmtime, hmode⟩ := h.bare e he (hev.kind ▸ hk)
    have hcontent := hev.dir (hev.kind ▸ hk)
    rw [← hev.mtime] at hmtime
    rw [← hev.mode] at hmode
    obtain ⟨path, kind, mtime, mode, content⟩ := v
    simp only at hk hmtime hmode hcontent
    rw [hk, hmtime, hmode, hcontent]
    rfl

/-- The kept entries of a valid vault are few enough and small enough for a container. -/
private theorem kept_limits (hvalid : ValidEntries r.suite.aeadAlg r.manifest.entries)
    (hvs : List.Forall₂ (r.Authenticates blobs) (keptOf r.manifest.entries) vs) :
    (keptOf r.manifest.entries).length ≤ maxManifestEntries ∧ 0 + contentSize vs ≤ u64Max := by
  have hkept : (keptOf r.manifest.entries).length ≤ r.manifest.entries.length := List.length_filter_le _ _
  have htotal := totalSize_kept hvalid
  rw [Nat.zero_add, contentSize_of_authenticates hvs]
  exact ⟨hkept.trans hvalid.count, htotal⟩

private theorem strictManifest_eq (hnamed : Nameable (keptOf r.manifest.entries))
    (hvalid : ValidEntries r.suite.aeadAlg r.manifest.entries)
    (hvs : List.Forall₂ (r.Authenticates blobs) (keptOf r.manifest.entries) vs) :
    strictManifest r = ⟨r.manifest.vaultName, r.manifest.createdAt, buildEntries P vs 0⟩ := by
  unfold strictManifest
  rw [hnamed.buildEntries_eq hvs (kept_limits hvalid hvs).2]

/-- When the streaming export succeeds. -/
private theorem streamExport_succeeds_iff (hopen : TagOnly P) (hvalid : ValidEntries r.suite.aeadAlg r.manifest.entries) :
    (∃ out, streamExport C r blobs sender recipients options draws = .ok out) ↔
      (∃ vs, List.Forall₂ (r.Authenticates blobs) (keptOf r.manifest.entries) vs) ∧
      (∃ plan, ContainerPlan.new C (transportManifest r) (totalSize (keptOf r.manifest.entries)) sender recipients options
        draws = .ok plan) ∧
      options.chunkSize ≤ maxChunkSize ∧
      numChunks (totalSize (keptOf r.manifest.entries)) options.chunkSize ≤ u32Max + 1 := by
  constructor
  · rintro ⟨out, hout⟩
    obtain ⟨vs, hvs, hwrite⟩ := (streamExport_ok_iff hopen hvalid).1 hout
    rw [← contentSize_of_authenticates hvs]
    exact ⟨⟨vs, hvs⟩, (writeContainer_ok_iff (contentsOf_length vs)).1 ⟨out, hwrite⟩⟩
  · rintro ⟨⟨vs, hvs⟩, hlimits⟩
    rw [← contentSize_of_authenticates hvs] at hlimits
    obtain ⟨out, hwrite⟩ := (writeContainer_ok_iff (contentsOf_length vs)).2 hlimits
    exact ⟨out, (streamExport_ok_iff hopen hvalid).2 ⟨vs, hvs, hwrite⟩⟩

/-- What has been streamed can be sent. -/
theorem sendable_of_stream (hopen : TagOnly P) (hvalid : ValidEntries r.suite.aeadAlg r.manifest.entries)
    (h : streamExport C r blobs sender recipients options draws = .ok out) :
    Sendable C (transportManifest r) r blobs sender recipients options := by
  obtain ⟨hauth, hplan, hchunkSize, hchunks⟩ := (streamExport_succeeds_iff hopen hvalid).1 ⟨out, h⟩
  exact ⟨hauth, ⟨draws, hplan⟩, hchunkSize, hchunks⟩

/-- So can what has been exported from memory. -/
private theorem sendable_of_plain (hopen : TagOnly P) (hvalid : ValidEntries r.suite.aeadAlg r.manifest.entries)
    (h : plainExport C fits r blobs sender recipients options draws = .ok out) :
    ∃ m, Sendable C m r blobs sender recipients options := by
  obtain ⟨vault, hvault, hexport⟩ := bind_eq_ok.1 h
  obtain ⟨hauth, -, -, ws, rfl, hplain, hsize⟩ := toVaultForExport_ok hopen hvalid hvault
  obtain ⟨hplan, hchunkSize, hchunks⟩ := (exportVault_ok_iff hplain.sound.dirs).1 ⟨out, hexport⟩
  rw [hsize] at hplan hchunks
  exact ⟨_, hauth, ⟨draws, hplan⟩, hchunkSize, hchunks⟩

/-- The container of the streaming export is imported as what authenticates, within the limits of the recipient. -/
private theorem imports_stream (hvalid : ValidEntries r.suite.aeadAlg r.manifest.entries)
    (hnamed : Nameable (keptOf r.manifest.entries)) (hshape : TreeShaped vs)
    (hvs : List.Forall₂ (r.Authenticates blobs) (keptOf r.manifest.entries) vs)
    (hmanifest : (C.encodeManifest (transportManifest r)).length + tagLen ≤ maxManifestLen)
    (hchunks : numChunks (totalSize (keptOf r.manifest.entries)) options.chunkSize ≤ u32Max)
    (hwrite : writeContainer C (transportManifest r) (contentSize vs) ⟨contentsOf vs, none⟩ sender recipients options draws =
      .ok out) (hmem : IsRecipient recipients identity) (hcoll : NoCollision recipients identity) :
    Imports C out identity ⟨r.manifest.vaultName, r.manifest.createdAt, vs⟩ options.suite sender := by
  obtain ⟨plan, hplan, hwrite⟩ := bind_eq_ok.1 hwrite
  obtain ⟨header, hm⟩ := ContainerPlan.new_eq_ok hplan
  have hcount : (transportManifest r).entries.length ≤ maxManifestEntries := by
    unfold transportManifest
    rw [transportEntries_length]
    exact (kept_limits hvalid hvs).1
  rw [← contentSize_of_authenticates hvs] at hchunks
  exact (imports_write_iff hm hwrite (hnamed.describes hvs) hshape hcount hmanifest (by omega) hmem hcoll).2 hchunks

/-- The container of a plain export is imported as the vault, within the limits of the recipient. -/
private theorem imports_plain {ws : List VaultEntry} (hws : Plain ws) (hentries : ws.length ≤ maxManifestEntries)
    {name : Str} {createdAt : Int}
    (hmanifest : (C.encodeManifest ⟨name, createdAt, buildEntries P ws 0⟩).length + tagLen ≤ maxManifestLen)
    (hchunks : numChunks (contentSize ws) options.chunkSize ≤ u32Max)
    (hexport : exportVault C ⟨name, createdAt, ws⟩ sender recipients options draws = .ok out)
    (hmem : IsRecipient recipients identity) (hcoll : NoCollision recipients identity) :
    Imports C out identity ⟨name, createdAt, ws⟩ options.suite sender := by
  have hmax : u32Max + 1 = 2 ^ 32 := by decide
  have hsize : totalSizeOf ⟨name, createdAt, ws⟩ = contentSize ws := rfl
  have htree : SoundTree (Vault.mk name createdAt ws).entries := soundTree_of_sound hws.sound
  refine (imports_export_iff htree hmem hcoll hentries hmanifest ?_ hexport).2 ?_
  · rw [hsize]
    omega
  · rw [hsize]
    omega

/-- A recipient that imports the container of the streaming export has got what authenticates, within its limits. -/
private theorem stream_of_import (hopen : TagOnly P) (hvalid : ValidEntries r.suite.aeadAlg r.manifest.entries)
    (hnamed : Nameable (keptOf r.manifest.entries))
    (hvs : List.Forall₂ (r.Authenticates blobs) (keptOf r.manifest.entries) vs)
    (hstream : streamExport C r blobs sender recipients options draws = .ok out) (hmem : IsRecipient recipients identity)
    (hcoll : NoCollision recipients identity) {imported : ImportedVault}
    (himport : importVault C out identity = .ok imported) :
    (C.encodeManifest (transportManifest r)).length + tagLen ≤ maxManifestLen ∧
      numChunks (totalSize (keptOf r.manifest.entries)) options.chunkSize ≤ u32Max ∧
      imported.vault = ⟨r.manifest.vaultName, r.manifest.createdAt, vs⟩ := by
  have hs := sendable_of_stream hopen hvalid hstream
  obtain ⟨vs', hvs', hwrite⟩ := (streamExport_ok_iff hopen hvalid).1 hstream
  obtain rfl := authenticates_unique hvs' hvs
  have hshape := treeShaped_of_authenticates hvalid List.filter_sublist hvs
  obtain ⟨hmanifest, hlayout⟩ := manifest_of_import hwrite hmem hcoll himport
  obtain ⟨plan, hplan, -⟩ := bind_eq_ok.1 hwrite
  obtain ⟨header, hm⟩ := ContainerPlan.new_eq_ok hplan
  have hcount : (transportManifest r).entries.length ≤ maxManifestEntries := by
    unfold transportManifest
    rw [transportEntries_length]
    exact (kept_limits hvalid hvs).1
  have htotal := contentSize_of_authenticates hvs
  have hchunks : numChunks (totalSize (keptOf r.manifest.entries)) options.chunkSize ≤ u32Max := by
    rw [← htotal]
    exact ((hnamed.describes hvs).layout_iff hshape hcount hm.chunkSize_ne hs.chunkSize (htotal ▸ hs.chunks)).1 hlayout
  obtain ⟨imported', himport', hvault, -⟩ := imports_stream hvalid hnamed hshape hvs hmanifest hchunks hwrite hmem hcoll
  obtain rfl := Except.ok.inj (himport.symm.trans himport')
  exact ⟨hmanifest, hchunks, hvault⟩

/-- One that imports the container of a plain export has got the vault. -/
private theorem plain_of_import {ws : List VaultEntry} (hws : Plain ws) {name : Str} {createdAt : Int}
    (hchunks : numChunks (contentSize ws) options.chunkSize ≤ u32Max)
    (hexport : exportVault C ⟨name, createdAt, ws⟩ sender recipients options draws = .ok out)
    (hmem : IsRecipient recipients identity) (hcoll : NoCollision recipients identity) {imported : ImportedVault}
    (himport : importVault C out identity = .ok imported) :
    (C.encodeManifest ⟨name, createdAt, buildEntries P ws 0⟩).length + tagLen ≤ maxManifestLen ∧
      imported.vault = ⟨name, createdAt, ws⟩ := by
  obtain ⟨hmanifest, layout, hlayout⟩ := manifest_of_import hexport hmem hcoll himport
  have hentries : ws.length ≤ maxManifestEntries := by
    obtain ⟨-, hmax, -⟩ := validateManifestLayout_eq_ok.1 hlayout
    rwa [buildManifest, buildEntries_length] at hmax
  obtain ⟨imported', himport', hvault, -⟩ := imports_plain hws hentries hmanifest hchunks hexport hmem hcoll
  obtain rfl := Except.ok.inj (himport.symm.trans himport')
  exact ⟨hmanifest, hvault⟩

/-- On an exportable vault the exports agree. -/
private theorem Exportable.agree (h : Exportable C fits r sender recipients options) (hopen : TagOnly P)
    (hcodec : OrderFree C) (hvalid : ValidEntries r.suite.aeadAlg r.manifest.entries) :
    ExportsAgree C fits r blobs sender recipients options := by
  have hnum : numChunks (totalSize (keptOf r.manifest.entries)) options.chunkSize ≤ u32Max + 1 →
      numChunks (totalSize (keptOf r.manifest.entries)) options.chunkSize ≤ u32Max := by
    have hmax : u32Max + 1 = 2 ^ 32 := by decide
    have hne := h.chunks
    omega
  -- the plain export is that of the entries that authenticate, with the directories in another order
  have hmaterialized : ∀ {vs}, List.Forall₂ (r.Authenticates blobs) (keptOf r.manifest.entries) vs →
      ∃ ws, toVaultForExport fits r blobs = .ok ⟨r.manifest.vaultName, r.manifest.createdAt, ws⟩ ∧ ws.Perm vs ∧
        filesOf ws = filesOf vs := fun hvs => toVaultForExport_eq hvalid h.named h.fits (h.plain hvalid hvs) hvs
  have hplanned : ∀ {vs} draws, List.Forall₂ (r.Authenticates blobs) (keptOf r.manifest.entries) vs →
      ((∃ plan, ContainerPlan.new C (transportManifest r) (totalSize (keptOf r.manifest.entries)) sender recipients options
        draws = .ok plan) ↔ ∃ plan, ContainerPlan.new C ⟨r.manifest.vaultName, r.manifest.createdAt, buildEntries P vs 0⟩
          (contentSize vs) sender recipients options draws = .ok plan) := by
    intro vs draws hvs
    rw [h.header draws, strictManifest_eq h.named hvalid hvs, contentSize_of_authenticates hvs]
  have hstream : ∀ {draws out}, streamExport C r blobs sender recipients options draws = .ok out →
      ∀ identity, IsRecipient recipients identity → NoCollision recipients identity →
      ∃ vs, List.Forall₂ (r.Authenticates blobs) (keptOf r.manifest.entries) vs ∧
        Imports C out identity ⟨r.manifest.vaultName, r.manifest.createdAt, vs⟩ options.suite sender := by
    intro draws out hout identity hmem hcoll
    obtain ⟨vs, hvs, hwrite⟩ := (streamExport_ok_iff hopen hvalid).1 hout
    have hchunks := hnum (sendable_of_stream hopen hvalid hout).chunks
    exact ⟨vs, hvs, imports_stream hvalid h.named (soundTree_of_sound (h.plain hvalid hvs).sound).shaped hvs h.manifest.1
      hchunks hwrite hmem hcoll⟩
  refine ⟨fun draws => ⟨?_, ?_⟩, ?_, ?_⟩
  · rintro ⟨out, hout⟩
    obtain ⟨⟨vs, hvs⟩, hplan, hlimits⟩ := (streamExport_succeeds_iff hopen hvalid).1 ⟨out, hout⟩
    obtain ⟨ws, hvault, hperm, hfiles⟩ := hmaterialized hvs
    have hdirs := dirs_of_authenticates hvs
    rw [← contentSize_of_authenticates hvs] at hlimits
    obtain ⟨out', hexport⟩ := (exportVault_ok_congr hcodec hdirs hperm.symm hfiles.symm).1
      ((exportVault_ok_iff hdirs).2 ⟨(hplanned draws hvs).1 hplan, hlimits⟩)
    exact ⟨out', bind_eq_ok.2 ⟨_, hvault, hexport⟩⟩
  · rintro ⟨out', hout'⟩
    obtain ⟨vault, hvault, hexport⟩ := bind_eq_ok.1 hout'
    obtain ⟨⟨vs, hvs⟩, -⟩ := toVaultForExport_ok hopen hvalid hvault
    obtain ⟨ws, heq, hperm, hfiles⟩ := hmaterialized hvs
    obtain rfl := Except.ok.inj (heq.symm.trans hvault)
    have hdirs := dirs_of_authenticates hvs
    obtain ⟨hplan, hlimits⟩ := (exportVault_ok_iff hdirs).1
      ((exportVault_ok_congr hcodec hdirs hperm.symm hfiles.symm).2 ⟨out', hexport⟩)
    have hplan := (hplanned draws hvs).2 hplan
    rw [contentSize_of_authenticates hvs] at hlimits
    exact (streamExport_succeeds_iff hopen hvalid).2 ⟨⟨vs, hvs⟩, hplan, hlimits⟩
  · intro draws draws' out out' identity hout hout' hmem hcoll
    obtain ⟨vs, hvs, himport⟩ := hstream hout identity hmem hcoll
    obtain ⟨vault, hvault, hexport⟩ := bind_eq_ok.1 hout'
    obtain ⟨ws, heq, hperm, hfiles⟩ := hmaterialized hvs
    obtain rfl := Except.ok.inj (heq.symm.trans hvault)
    have hplain := (h.plain hvalid hvs).of_perm hperm.symm
    have hsize : contentSize ws = totalSize (keptOf r.manifest.entries) :=
      (contentSize_perm hperm).trans (contentSize_of_authenticates hvs)
    have hentries : ws.length ≤ maxManifestEntries := by
      rw [hperm.length_eq, ← hvs.length_eq]
      exact (kept_limits hvalid hvs).1
    have hmanifest := h.manifest.2
    rw [strictManifest_eq h.named hvalid hvs] at hmanifest
    have hlen : (C.encodeManifest ⟨r.manifest.vaultName, r.manifest.createdAt, buildEntries P ws 0⟩).length =
        (C.encodeManifest ⟨r.manifest.vaultName, r.manifest.createdAt, buildEntries P vs 0⟩).length :=
      hcodec _ _ rfl rfl (buildEntries_perm hperm hfiles 0)
    rw [← hlen] at hmanifest
    have hchunks := hnum (sendable_of_stream hopen hvalid hout).chunks
    rw [← hsize] at hchunks
    refine ⟨_, _, himport, imports_plain hplain hentries hmanifest hchunks hexport hmem hcoll, rfl, rfl, hperm.symm,
      fun v hv => ?_⟩
    obtain ⟨e, he, hev⟩ := Keyed.exists_of_forall₂ hvs hv
    rw [← h.named.strict_path he hev]
    exact h.untrashed e he
  · intro draws out identity hout hmem hcoll
    obtain ⟨vs, -, imported, himport, -⟩ := hstream hout identity hmem hcoll
    exact ⟨imported, himport⟩

/-- Where the exports agree on what can be sent to a recipient, the vault is exportable. -/
private theorem ExportsAgree.exportable (h : ExportsAgree C fits r blobs sender recipients options) (hopen : TagOnly P)
    (hcodec : OrderFree C) (hvalid : ValidEntries r.suite.aeadAlg r.manifest.entries)
    (hmem : IsRecipient recipients identity) (hcoll : NoCollision recipients identity)
    (hs : Sendable C (transportManifest r) r blobs sender recipients options) :
    Exportable C fits r sender recipients options := by
  obtain ⟨⟨vs, hvs⟩, ⟨draws, hplan⟩, hchunkSize, hcount⟩ := hs
  have hlimits := And.intro hchunkSize hcount
  obtain ⟨out, hout⟩ := (streamExport_succeeds_iff hopen hvalid).2 ⟨⟨vs, hvs⟩, hplan, hlimits⟩
  obtain ⟨out', hout'⟩ := (h.succeed draws).1 ⟨out, hout⟩
  obtain ⟨vault, hvault, hexport⟩ := bind_eq_ok.1 hout'
  obtain ⟨-, hnamed, hfits, ws, rfl, hws, hsize⟩ := toVaultForExport_ok hopen hvalid hvault
  -- a recipient gets what authenticates out of the one container and the vault in memory out of the other
  obtain ⟨V, V', ⟨imported, himport, hV, -⟩, ⟨imported', himport', hV', -⟩, -, -, hperm, htrash⟩ :=
    h.same draws draws out out' identity hout hout' hmem hcoll
  obtain ⟨hmanifest, hchunks, hfirst⟩ := stream_of_import hopen hvalid hnamed hvs hout hmem hcoll himport
  obtain ⟨hmanifest', hsecond⟩ := plain_of_import hws (hsize.symm ▸ hchunks) hexport hmem hcoll himport'
  obtain rfl : V = _ := hV.symm.trans hfirst
  obtain rfl : V' = _ := hV'.symm.trans hsecond
  -- so the two are the same tree, with the files in the same order
  have hperm : vs.Perm ws := hperm
  have hplain := hws.of_perm hperm.symm
  obtain ⟨ws', heq, -, hfiles⟩ := toVaultForExport_eq hvalid hnamed hfits hplain hvs
  obtain rfl : ws' = ws := congrArg Vault.entries (Except.ok.inj (heq.symm.trans hvault))
  have hstrict := strictManifest_eq hnamed hvalid hvs
  have hlen : (C.encodeManifest ⟨r.manifest.vaultName, r.manifest.createdAt, buildEntries P vs 0⟩).length =
      (C.encodeManifest ⟨r.manifest.vaultName, r.manifest.createdAt, buildEntries P ws' 0⟩).length :=
    hcodec _ _ rfl rfl (buildEntries_perm hperm hfiles.symm 0)
  have hauth : ∀ {e}, e ∈ keptOf r.manifest.entries → ∃ v ∈ vs, r.Authenticates blobs e v := fun he =>
    Keyed.exists_of_forall₂ hvs.flip he
  constructor
  case named => exact hnamed
  case untrashed =>
    intro e he
    obtain ⟨v, hv, hev⟩ := hauth he
    rw [hnamed.strict_path he hev]
    exact htrash v hv
  case bare =>
    intro e he hk
    obtain ⟨v, hv, hev⟩ := hauth he
    rw [← hev.mtime, ← hev.mode, hplain.bare v hv (hev.kind.trans hk)]
    exact ⟨rfl, rfl⟩
  case closed =>
    intro e he a ha
    obtain ⟨v, hv, hev⟩ := hauth he
    rw [hnamed.strict_path he hev] at ha
    obtain ⟨w, hw, rfl, hdir⟩ := hplain.sound.closed v hv a ha
    obtain ⟨d, hd, hdw⟩ := Keyed.exists_of_forall₂ hvs hw
    exact ⟨d, hd, hnamed.strict_path hd hdw, hdw.kind.symm.trans hdir⟩
  case fits => exact hfits
  case chunks =>
    have hmax : u32Max + 1 = 2 ^ 32 := by decide
    omega
  case manifest =>
    rw [hstrict, hlen]
    exact ⟨hmanifest, hmanifest'⟩
  case header =>
    intro draws'
    have hstream := @streamExport_succeeds_iff _ _ r blobs sender recipients options draws' hopen hvalid
    have hplan_iff : (∃ out, plainExport C fits r blobs sender recipients options draws' = .ok out) ↔
        ∃ out, exportVault C ⟨r.manifest.vaultName, r.manifest.createdAt, ws'⟩ sender recipients options draws' =
          .ok out := by
      unfold plainExport
      rw [hvault]
      rfl
    rw [and_iff_right ⟨vs, hvs⟩, and_iff_left hlimits, h.succeed draws', hplan_iff, exportVault_ok_iff hws.sound.dirs, hsize,
      and_iff_left hlimits] at hstream
    rw [← hstream, hstrict]
    exact new_ok_congr hlen.symm

end Agree

/-! A vault with a file in a directory is exported in both ways.  Where the file has a name with an invisible character,
as older versions stored, the plan copies it: the streaming export succeeds, the plain one does not, and the recipient
refuses the container. -/

namespace Sym

set_option maxRecDepth 10000 in
private theorem stored_ok : FileSec.Sym.withFile.reader.isSome = true := by decide

/-- A vault with a file in a directory. -/
def stored : VaultReaderV2 FileSec.Sym := FileSec.Sym.withFile.reader.get stored_ok

/-- The manifest of the vault with an invisible character in the name of the file. -/
def deceptiveManifest : ManifestV2 :=
  { stored.manifest with entries := stored.manifest.entries.map fun e =>
      if e.kind = .file then { e with path := e.path ++ [Char.ofNat 0x202e] } else e }

/-- The files of the vault with this manifest. -/
def deceptiveFiles : VaultFile → Option FileSec.Sym.Raw
  | .header => some stored.headerBytes
  | .manifest => (stored.nextState deceptiveManifest).toOption.map fun state =>
    stored.sealedRaw deceptiveManifest state (List.replicate stored.suite.aeadAlg.nonceLen 0)

private theorem deceptive_ok :
    (openVault FileSec.Sym deceptiveFiles FileSec.Sym.alice).toOption.isSome = true := by decide

/-- The reader of that vault. -/
def deceptive : VaultReaderV2 FileSec.Sym :=
  (openVault FileSec.Sym deceptiveFiles FileSec.Sym.alice).toOption.get deceptive_ok

/-- The streaming export of a vault with the blobs of `stored` to `alice`. -/
def streamed (r : VaultReaderV2 FileSec.Sym) : Result Bytes :=
  streamExport container r FileSec.Sym.withFile.host.blobs.shown alice [alice.publicPart] ⟨.classic, 2⟩ draws

private theorem streamStored_ok : (streamed stored).toOption.isSome = true := by decide +kernel

private theorem streamed_ok : (streamed deceptive).toOption.isSome = true := by decide +kernel

/-- The plain export of a vault with the blobs of `stored` to `alice`. -/
def plain (r : VaultReaderV2 FileSec.Sym) : Result Bytes :=
  plainExport container (fun _ => true) r FileSec.Sym.withFile.host.blobs.shown alice [alice.publicPart] ⟨.classic, 2⟩ draws

theorem orderFree : OrderFree container := by
  intro m m' hname hcreated hperm
  have hlist := SymTerm.Codec.length_toBytes_list containerEntryCodec hperm
  have hsplit : ∀ m : Manifest, (containerManifestCodec.toBytes m).length =
      1 + (SymTerm.Codec.text.toBytes m.vaultName).length +
        (1 + (SymTerm.Codec.int.toBytes m.createdAt).length + (containerEntryCodec.list.toBytes m.entries).length) := by
    intro m
    show (SymTerm.writeTerm (.pair _ (.pair _ _))).length = _
    simp only [SymTerm.writeTerm, List.length_cons, List.length_append]
    unfold SymTerm.Codec.toBytes
    omega
  show (containerManifestCodec.toBytes m).length = (containerManifestCodec.toBytes m').length
  rw [hsplit, hsplit, hname, hcreated, hlist]

theorem stored_exportable : Exportable container (fun _ => true) stored alice [alice.publicPart] ⟨.classic, 2⟩ := by
  have hstrict : ∀ e ∈ keptOf stored.manifest.entries, normalizePath e.path = .ok e.path := by decide
  have hsame : strictManifest stored = transportManifest stored := by decide
  constructor
  case named => exact fun e he => ⟨e.path, hstrict e he, fun _ => rfl⟩
  case untrashed => decide
  case bare => decide
  case closed =>
    intro e he a ha
    have hall : ∀ e ∈ keptOf stored.manifest.entries, ∀ a ∈ parents '/' (strictEntry e).path,
        ∃ d ∈ keptOf stored.manifest.entries, (strictEntry d).path = a ∧ d.kind = .dir := by decide
    exact hall e he a (mem_parents.2 ha)
  case fits => exact fun _ _ _ => rfl
  case chunks => decide
  case manifest =>
    have hmanifest : (container.encodeManifest (transportManifest stored)).length + tagLen ≤ maxManifestLen := by
      decide +kernel
    rw [hsame]
    exact ⟨hmanifest, hmanifest⟩
  case header =>
    intro draws
    rw [hsame]

end Sym

end FileSec.Fsec
