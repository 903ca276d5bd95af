import FileSec.Fsec.Rewrite

/-!
# Random access and full decryption

`read_entry` looks a file up and decrypts the chunks that cover it; `to_vault` decrypts the whole stream (`format.rs`).
Both give the same bytes for a file, but the lookup compares stored paths with a normalised one, while everything else
normalises the stored paths too: a file is found exactly if its stored path is normal (`randomAccess_agrees_iff`).
-/

namespace FileSec.Fsec

variable {P : Prims} {C : FsecPrims P}

/-- `VaultReader::read_entry` -/
def VaultReader.readEntry (C : FsecPrims P) (r : VaultReader) (file : Bytes) (path : Str) : Result Bytes := do
  let entry ← r.fileEntry path
  r.decryptEntryToWriter C file entry

/-- Random access agrees with the vault: each file reads, by the path that is listed, as the vault has it, and nothing
else can be read. -/
structure VaultReader.Agrees (C : FsecPrims P) (r : VaultReader) (file : Bytes) (vault : Vault) : Prop where
  files : ∀ e ∈ r.manifest.entries, e.kind = .file →
    ∃ v ∈ vault.entries, v.kind = .file ∧ normalizePath e.path = .ok v.path ∧ r.readEntry C file e.path = .ok v.content
  refuses : ∀ path, (∀ v ∈ vault.entries, v.kind = .file → normalizePath path ≠ .ok v.path) →
    ∃ err, r.readEntry C file path = .error err

/-! ### Looking a file up -/

variable {r : VaultReader} {file : Bytes}

/-- Entries in the shape of a tree have distinct normalised paths. -/
private theorem Shaped.entry_unique {es : List Entry} {shape : List (Str × EntryKind)} (h : Shaped es shape) {e e' : Entry}
    (he : e ∈ es) (he' : e' ∈ es) {norm : Str} (hn : normalizePath e.path = .ok norm)
    (hn' : normalizePath e'.path = .ok norm) : e = e' := by
  obtain ⟨hnorm, hnodup, -⟩ := h
  have hlisted : ∀ {es : List Entry} {shape : List (Str × EntryKind)} {d : Entry}, List.Forall₂ Normalizes es shape →
      d ∈ es → normalizePath d.path = .ok norm → norm ∈ shape.map (·.1) := by
    intro es shape d hall hd hdn
    obtain ⟨x, hx, hdx, -⟩ := Keyed.exists_of_forall₂ hall.flip hd
    rw [hdn, Except.ok.injEq] at hdx
    exact hdx ▸ List.mem_map_of_mem hx
  induction hnorm with
  | nil => cases he
  | @cons d x es shape hx hrest ih =>
    rw [List.map_cons, List.nodup_cons] at hnodup
    have hhead : normalizePath d.path = .ok norm → norm = x.1 := by
      intro hd
      rw [hx.1, Except.ok.injEq] at hd
      exact hd.symm
    rcases List.mem_cons.1 he with rfl | hin
    · rcases List.mem_cons.1 he' with rfl | hin'
      · rfl
      · exact absurd (hhead hn ▸ hlisted hrest hin' hn') hnodup.1
    · rcases List.mem_cons.1 he' with rfl | hin'
      · exact absurd (hhead hn' ▸ hlisted hrest hin hn) hnodup.1
      · exact ih hin hin' hnodup.2

/-- A path finds the file that is stored under its normal form. -/
theorem fileEntry_eq_ok {shape : List (Str × EntryKind)} (h : Shaped r.manifest.entries shape) {path : Str} {e : Entry} :
    r.fileEntry path = .ok e ↔ e ∈ r.manifest.entries ∧ e.kind = .file ∧ normalizePath path = .ok e.path := by
  unfold VaultReader.fileEntry
  rw [bind_eq_ok]
  constructor
  · rintro ⟨norm, hnorm, hfound⟩
    split at hfound
    · cases hfound
    · rename_i entry hfind
      split at hfound
      · cases hfound
      · rename_i hkind
        obtain rfl := Except.ok.inj hfound
        have hpath : entry.path = norm := by simpa using List.find?_some hfind
        exact ⟨List.mem_of_find?_eq_some hfind, not_not.1 hkind, hpath ▸ hnorm⟩
  · rintro ⟨he, hkind, hnorm⟩
    have hclean : normalizePath e.path = .ok e.path := cleanPath_iff.1 (cleanPath_of_normalizePath hnorm)
    refine ⟨e.path, hnorm, ?_⟩
    cases hfind : r.manifest.entries.find? fun e' => e'.path = e.path with
    | none =>
      have hmiss := List.find?_eq_none.1 hfind e he
      simp at hmiss
    | some entry =>
      have hpath : entry.path = e.path := by simpa using List.find?_some hfind
      have hsame : entry = e := h.entry_unique (List.mem_of_find?_eq_some hfind) he (hpath ▸ hclean) hclean
      simp [hsame, hkind]

/-! ### What the vault has of a file -/

/-- What is described lies one after the other. -/
private theorem Describes.laid {offset : Nat} {es : List Entry} {vs : List VaultEntry} (h : Describes P offset es vs) :
    Laid offset es (offset + contentSize vs) := by
  induction h with
  | nil => exact .nil _
  | @file offset e v es vs _ hkind _ hoffset hsize _ _ ih =>
    rw [contentSize_cons, ← Nat.add_assoc]
    refine .file hkind.1 hoffset ?_
    rw [hsize]
    exact ih
  | @dir offset e v es vs _ hkind _ hempty _ ih =>
    rw [contentSize_cons, hempty, List.length_nil, Nat.zero_add]
    exact .dir hkind.1 ih

/-- A file that is described has a slice of the contents. -/
private theorem Describes.sliceOf_eq {offset : Nat} {es : List Entry} {vs : List VaultEntry} (h : Describes P offset es vs)
    {e : Entry} (he : e ∈ es) (hk : e.kind = .file) :
    ∃ v ∈ vs, v.kind = .file ∧ normalizePath e.path = .ok v.path ∧ P.hashContent v.content = e.blake3 ∧
      ∀ front back : Bytes, front.length = offset → sliceOf (front ++ contentsOf vs ++ back) e = v.content := by
  induction h with
  | nil => cases he
  | @file offset d v es vs hpath hkind _ hoffset hsize hhash _ ih =>
    have hcontents : contentsOf (v :: vs) = v.content ++ contentsOf vs := rfl
    rcases List.mem_cons.1 he with rfl | he
    · refine ⟨v, List.mem_cons_self, hkind.2, hpath, hhash.symm, fun front back hfront => ?_⟩
      unfold sliceOf
      rw [hoffset, hsize, hcontents, List.append_assoc, List.append_assoc, ← hfront, List.drop_left, List.take_left]
    · obtain ⟨w, hw, hwk, hwp, hwh, hslice⟩ := ih he
      refine ⟨w, List.mem_cons_of_mem _ hw, hwk, hwp, hwh, fun front back hfront => ?_⟩
      rw [hcontents, ← List.append_assoc]
      exact hslice (front ++ v.content) back (by rw [List.length_append, hfront])
  | @dir offset d v es vs _ hkind _ hempty _ ih =>
    rcases List.mem_cons.1 he with rfl | he
    · rw [hkind.1] at hk
      cases hk
    · obtain ⟨w, hw, hwk, hwp, hwh, hslice⟩ := ih he
      refine ⟨w, List.mem_cons_of_mem _ hw, hwk, hwp, hwh, fun front back hfront => ?_⟩
      have hcontents : contentsOf (v :: vs) = contentsOf vs := by simp [contentsOf, hempty]
      rw [hcontents]
      exact hslice front back hfront

/-- Each file of a container that has been reconstructed decrypts to what the vault has. -/
private theorem decryptEntryToWriter_toVault (hopen : TagOnly P) (ha : Accepted C r file) {vault : Vault}
    (h : r.toVault C file = .ok vault) {e : Entry} (he : e ∈ r.manifest.entries) (hk : e.kind = .file) :
    ∃ v ∈ vault.entries, v.kind = .file ∧ normalizePath e.path = .ok v.path ∧
      r.decryptEntryToWriter C file e = .ok v.content := by
  obtain ⟨stream, hstream, h⟩ := bind_eq_ok.1 h
  unfold reconstructVaultStreaming at h
  obtain ⟨⟨vs, rest⟩, hrec, h⟩ := bind_eq_ok.1 h
  have hvault : vault.entries = vs := by
    dsimp only at h
    split at h
    · rw [← Except.ok.inj h]
    · cases h
    · cases h
  obtain ⟨hd, -, hleft⟩ := describes_of_reconstructEntries (StreamDecryptReader.newWith_left P.openBytes hstream).1 hrec
  -- the contents fill the data
  have hsize : contentSize vs = r.totalPlaintext := by
    have hlaid := hd.laid.unique ha.laid
    omega
  have hdata : (stream.left P.openBytes).1 = [] ++ contentsOf vs ++ (rest.left P.openBytes).1 := by
    rw [hleft, List.nil_append]
  have hheld := holds_of_stream hopen ha.fits hstream (by
    rw [hdata, List.length_append, List.nil_append, contentsOf_length]
    omega)
  have hlen := hheld.length
  have htotal := ha.total_le
  obtain ⟨v, hv, hvk, hvp, hvh, hslice⟩ := hd.sliceOf_eq he hk
  refine ⟨v, hvault ▸ hv, hvk, hvp, ?_⟩
  have hread := decryptEntryToWriter_eq hheld (e := e) (by rw [hlen]; exact (ha.laid.bounds he hk).2) (by omega)
  have hcontent : ((stream.left P.openBytes).1.drop e.dataOffset).take e.size = v.content := by
    rw [hdata]
    exact hslice [] _ rfl
  rw [hread, hcontent, if_pos hvh]

/-! ### When they agree -/

/-- Random access agrees with full decryption exactly if the stored paths of all files are normal. -/
theorem randomAccess_agrees_iff (hopen : TagOnly P) {identity : Identity C} {sender : VerifiedSender} {vault : Vault}
    (h : verifyAndOpen C file identity = .ok (r, sender)) (hvault : r.toVault C file = .ok vault) :
    r.Agrees C file vault ↔ ∀ e ∈ r.manifest.entries, e.kind = .file → normalizePath e.path = .ok e.path := by
  obtain ⟨header, suite, cek, manifest, layout, hp, -, hr, -⟩ := verifyAndOpen_eq_ok.1 h
  have ha : Accepted C r file := accepted_of_open (openVaultFromPath_eq_ok.2 ⟨_, _, _, _, _, hp, hr⟩)
  obtain ⟨shape, hshape⟩ := ha.shape
  have hread {path : Str} {bytes : Bytes} : r.readEntry C file path = .ok bytes ↔ ∃ e ∈ r.manifest.entries,
      e.kind = .file ∧ normalizePath path = .ok e.path ∧ r.decryptEntryToWriter C file e = .ok bytes := by
    unfold VaultReader.readEntry
    simp only [bind_eq_ok, fileEntry_eq_ok hshape, and_assoc]
  constructor
  · rintro ⟨hfiles, -⟩ e he hk
    obtain ⟨v, -, -, -, hok⟩ := hfiles e he hk
    obtain ⟨e', he', -, hnorm, -⟩ := hread.1 hok
    -- what was found is the entry itself
    have hclean : normalizePath e'.path = .ok e'.path := cleanPath_iff.1 (cleanPath_of_normalizePath hnorm)
    have hsame : e = e' := hshape.entry_unique he he' hnorm hclean
    rw [← hsame] at hclean
    exact hclean
  · intro hnormal
    refine ⟨fun e he hk => ?_, fun path hno => ?_⟩
    · obtain ⟨v, hv, hvk, hvp, hok⟩ := decryptEntryToWriter_toVault hopen ha hvault he hk
      exact ⟨v, hv, hvk, hvp, hread.2 ⟨e, he, hk, hnormal e he hk, hok⟩⟩
    · cases hres : r.readEntry C file path with
      | error err => exact ⟨err, rfl⟩
      | ok bytes =>
        obtain ⟨e, he, hk, hnorm, -⟩ := hread.1 hres
        obtain ⟨v, hv, hvk, hvp, -⟩ := decryptEntryToWriter_toVault hopen ha hvault he hk
        rw [hnormal e he hk, Except.ok.injEq] at hvp
        exact absurd (hvp ▸ hnorm) (hno v hv hvk)

/-! ### Stored paths -/

namespace Sym

private theorem noted_facts : ((verifyAndOpen container noted alice).toOption.any fun v =>
    (v.1.toVault container noted).toOption.isSome) = true := by
  decide +kernel

private theorem verifyNoted_ok : (verifyAndOpen container noted alice).toOption.isSome = true :=
  Option.isSome_of_any noted_facts

/-- The container with a directory and a file, opened. -/
@[irreducible]
private def verifiedNoted : VaultReader × VerifiedSender := (verifyAndOpen container noted alice).toOption.get verifyNoted_ok

private theorem verify_noted : verifyAndOpen container noted alice = .ok verifiedNoted := by
  unfold verifiedNoted
  exact eq_ok_get verifyNoted_ok

private theorem notedVault_ok : (verifiedNoted.1.toVault container noted).toOption.isSome = true := by
  have hfacts := noted_facts
  rwa [verify_noted] at hfacts

/-- Its vault. -/
@[irreducible]
private def notedVault : Vault := (verifiedNoted.1.toVault container noted).toOption.get notedVault_ok

private theorem toVault_noted : verifiedNoted.1.toVault container noted = .ok notedVault := by
  unfold notedVault
  exact eq_ok_get notedVault_ok

private theorem exportSpelled_ok : (exportVault container ⟨"v".toList, 0, [⟨"a//f".toList, .file, none, none, [1, 2, 3]⟩]⟩
    alice [alice.publicPart] ⟨.classic, 2⟩ draws).toOption.isSome = true := by
  decide +kernel

/-- A container whose sender stores a path that is not normal. -/
def spelled : Bytes :=
  (exportVault container ⟨"v".toList, 0, [⟨"a//f".toList, .file, none, none, [1, 2, 3]⟩]⟩ alice [alice.publicPart]
    ⟨.classic, 2⟩ draws).toOption.get exportSpelled_ok

private theorem spelled_facts : ((verifyAndOpen container spelled alice).toOption.any fun v =>
    (v.1.toVault container spelled).toOption.isSome = true ∧
      v.1.manifest.entries.map (fun e => (e.path, e.kind)) = [("a//f".toList, .file)] ∧
      (v.1.readEntry container spelled "a//f".toList).toOption = none) = true := by
  decide +kernel

private theorem verifySpelled_ok : (verifyAndOpen container spelled alice).toOption.isSome = true :=
  Option.isSome_of_any spelled_facts

@[irreducible]
private def verifiedSpelled : VaultReader × VerifiedSender :=
  (verifyAndOpen container spelled alice).toOption.get verifySpelled_ok

private theorem verify_spelled : verifyAndOpen container spelled alice = .ok verifiedSpelled := by
  unfold verifiedSpelled
  exact eq_ok_get verifySpelled_ok

private theorem toVault_spelled : (verifiedSpelled.1.toVault container spelled).toOption.isSome = true ∧
    verifiedSpelled.1.manifest.entries.map (fun e => (e.path, e.kind)) = [("a//f".toList, .file)] ∧
    (verifiedSpelled.1.readEntry container spelled "a//f".toList).toOption = none := by
  have hfacts := spelled_facts
  rw [verify_spelled] at hfacts
  exact of_decide_eq_true hfacts

end Sym

theorem randomAccess_agrees_noted :
    Sym.verifiedNoted.1.Agrees Sym.container Sym.noted Sym.notedVault ↔
      ∀ e ∈ Sym.verifiedNoted.1.manifest.entries, e.kind = .file → normalizePath e.path = .ok e.path :=
  randomAccess_agrees_iff Sym.tagOnly Sym.verify_noted Sym.toVault_noted

/-- A file that is stored as `a//f` is in the vault, but cannot be read. -/
theorem randomAccess_disagrees :
    ∃ r sender vault, verifyAndOpen Sym.container Sym.spelled Sym.alice = .ok (r, sender) ∧
      r.toVault Sym.container Sym.spelled = .ok vault ∧ ¬ r.Agrees Sym.container Sym.spelled vault := by
  obtain ⟨hok, hentries, hrefused⟩ := Sym.toVault_spelled
  refine ⟨_, _, _, Sym.verify_spelled, eq_ok_get hok, fun hagrees => ?_⟩
  obtain ⟨e, he, hsite⟩ := List.mem_map.1 (hentries ▸ List.mem_singleton_self ("a//f".toList, EntryKind.file))
  obtain ⟨hpath, hkind⟩ := Prod.mk.inj hsite
  obtain ⟨v, -, -, -, hread⟩ := hagrees.files e he hkind
  rw [hpath] at hread
  rw [hread] at hrefused
  cases hrefused

end FileSec.Fsec
