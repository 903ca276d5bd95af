import FileSec.Fsec.Export

/-!
# The in-memory vault of an export

`to_vault_for_export` adds the files and directories of a vault one after the other to an in-memory one, which adds the
parents that have not come yet.  Where all of them are listed, as directories without attributes, nothing new is added and
only the order may change (`toVaultForExport_eq`).  Where it succeeds, it has found a name for every entry and read every
file, and what it returns is a tree whose directories have no attributes (`toVaultForExport_ok`).
-/

namespace FileSec.Fsec

open SepPath

variable {P : Prims} {C : FsecPrims P}

/-! ### Adding entries of a given list -/

/-- Some of the entries `all`, each of them once. -/
structure Among (all es : List VaultEntry) : Prop where
  nodup : (es.map (·.path)).Nodup
  mem : ∀ v ∈ es, v ∈ all

/-- The files. -/
def filesOf (es : List VaultEntry) : List VaultEntry := es.filter fun v => v.kind = .file

theorem filesOf_append (es es' : List VaultEntry) : filesOf (es ++ es') = filesOf es ++ filesOf es' := List.filter_append ..

@[simp] theorem filesOf_dir (p : Str) : filesOf [.dir p] = [] := by simp [filesOf, VaultEntry.dir]

section Among

variable {all es : List VaultEntry} {v : VaultEntry} {vault : Vault}

/-- One more of the entries. -/
theorem Among.push (hes : Among all es) (hv : v ∈ all) (hnew : v.path ∉ es.map (·.path)) : Among all (es ++ [v]) := by
  refine ⟨?_, fun w hw => ?_⟩
  · rw [List.map_append, List.nodup_append]
    refine ⟨hes.nodup, by simp, ?_⟩
    rintro a ha b hb rfl
    rw [List.map_singleton, List.mem_singleton] at hb
    exact hnew (hb ▸ ha)
  · rcases List.mem_append.1 hw with hw | hw
    · exact hes.mem w hw
    · rw [List.mem_singleton] at hw
      exact hw ▸ hv

/-- What is found at the path of an entry is the entry. -/
theorem Among.find_eq (hall : (all.map (·.path)).Nodup) (hes : Among all es) (hv : v ∈ all) {w : VaultEntry}
    (h : es.find? (·.path = v.path) = some w) : w = v ∧ w ∈ es := by
  have hw := List.mem_of_find?_eq_some h
  have hpath : w.path = v.path := by simpa using List.find?_some h
  exact ⟨List.inj_on_of_nodup_map hall (hes.mem w hw) hv hpath, hw⟩

theorem not_mem_of_find {p : Str} (h : es.find? (·.path = p) = none) : p ∉ es.map (·.path) := by
  rw [List.find?_eq_none] at h
  intro hin
  obtain ⟨w, hw, hpath⟩ := List.mem_map.1 hin
  exact h w hw (by simpa using hpath)

@[simp] theorem dir_kind (p : Str) : (VaultEntry.dir p).kind = .dir := rfl

@[simp] theorem dir_path (p : Str) : (VaultEntry.dir p).path = p := rfl

/-- `es'` has come out of `es` by adding some of the directories `ps` that are among the entries. -/
structure Grown (all : List VaultEntry) (ps : List Str) (es es' : List VaultEntry) : Prop where
  among : Among all es'
  subset : es ⊆ es'
  new : ∀ w ∈ es', w ∈ es ∨ w.path ∈ ps
  files : filesOf es' = filesOf es

/-- The walk down parents that are among the entries adds those that are not there yet. -/
theorem ensureParentsAt_among (hall : (all.map (·.path)).Nodup) {ps : List Str} (hps : ∀ a ∈ ps, VaultEntry.dir a ∈ all)
    (hes : Among all es) : ∃ es', ensureParentsAt ps es = (.ok (), es') ∧ Grown all ps es es' := by
  induction ps generalizing es with
  | nil => exact ⟨es, rfl, hes, List.Subset.refl _, fun w hw => Or.inl hw, rfl⟩
  | cons acc ps ih =>
    have hacc := hps acc List.mem_cons_self
    have hrest : ∀ a ∈ ps, VaultEntry.dir a ∈ all := fun a ha => hps a (List.mem_cons_of_mem _ ha)
    unfold ensureParentsAt
    cases hfind : es.find? (·.path = acc) with
    | some w =>
      obtain ⟨rfl, -⟩ := hes.find_eq hall hacc hfind
      obtain ⟨es', heq, hg⟩ := ih hrest hes
      dsimp only
      rw [dir_kind, if_pos rfl]
      exact ⟨es', heq, hg.among, hg.subset, fun w hw => (hg.new w hw).imp_right (List.mem_cons_of_mem _), hg.files⟩
    | none =>
      obtain ⟨es', heq, hg⟩ := ih hrest (hes.push hacc (not_mem_of_find hfind))
      refine ⟨es', heq, hg.among, fun w hw => hg.subset (List.mem_append_left _ hw), fun w hw => ?_, ?_⟩
      · rcases hg.new w hw with hw | hw
        · rcases List.mem_append.1 hw with hw | hw
          · exact Or.inl hw
          · rw [List.mem_singleton] at hw
            exact Or.inr (by simp [hw])
        · exact Or.inr (List.mem_cons_of_mem _ hw)
      · rw [hg.files, filesOf_append, filesOf_dir, List.append_nil]

/-- A path that is not there is not there either once its parents have been made. -/
private theorem ensureParents_among (hall : (all.map (·.path)).Nodup) (hes : Among all vault.entries) {p : Str}
    (hclean : CleanPath p) (hparents : ∀ a, Below '/' a p → VaultEntry.dir a ∈ all) :
    ∃ es', vault.ensureParents p = (.ok (), { vault with entries := es' }) ∧
      Grown all (parents '/' p) vault.entries es' ∧ (p ∉ vault.entries.map (·.path) → p ∉ es'.map (·.path)) := by
  obtain ⟨es', heq, hg⟩ := ensureParentsAt_among hall (fun a ha => hparents a (mem_parents.1 ha)) hes
  refine ⟨es', ?_, hg, fun hnew hin => ?_⟩
  · simp only [Vault.ensureParents, accPaths_normal hclean.1, heq]
  · obtain ⟨w, hw, hpath⟩ := List.mem_map.1 hin
    rcases hg.new w hw with hw | hw
    · exact hnew (List.mem_map.2 ⟨w, hw, hpath⟩)
    · rw [hpath] at hw
      exact not_below_self p (mem_parents.1 hw)

/-- Adding a directory that is among the entries, under any name for its path. -/
theorem addDir_among (hall : (all.map (·.path)).Nodup) (hes : Among all vault.entries) {name p : Str}
    (hname : normalizePath name = .ok p) (hv : VaultEntry.dir p ∈ all)
    (hparents : ∀ a, Below '/' a p → VaultEntry.dir a ∈ all) :
    ∃ es', vault.addDir name = (.ok (), { vault with entries := es' }) ∧ Among all es' ∧ vault.entries ⊆ es' ∧
      VaultEntry.dir p ∈ es' ∧ filesOf es' = filesOf vault.entries := by
  have hclean := cleanPath_of_normalizePath hname
  unfold Vault.addDir
  rw [hname]
  dsimp only
  cases hfind : vault.entries.find? (·.path = p) with
  | some w =>
    obtain ⟨rfl, hw⟩ := hes.find_eq hall hv hfind
    dsimp only
    rw [dir_kind, if_pos rfl]
    exact ⟨vault.entries, rfl, hes, List.Subset.refl _, hw, rfl⟩
  | none =>
    obtain ⟨es', heq, hg, hnew⟩ := ensureParents_among hall hes hclean hparents
    rw [heq]
    refine ⟨es' ++ [.dir p], rfl, hg.among.push hv (hnew (not_mem_of_find hfind)),
      fun w hw => List.mem_append_left _ (hg.subset hw), by simp, ?_⟩
    rw [filesOf_append, filesOf_dir, List.append_nil, hg.files]

/-- Adding a file that is among the entries and has not been added. -/
theorem addFile_among (hall : (all.map (·.path)).Nodup) (hes : Among all vault.entries) (hclean : CleanPath v.path)
    (hv : v ∈ all) (hk : v.kind = .file) (hnot : v ∉ vault.entries)
    (hparents : ∀ a, Below '/' a v.path → VaultEntry.dir a ∈ all) :
    ∃ es', vault.addFile v.path v.content v.mtime v.mode = (.ok (), { vault with entries := es' }) ∧ Among all es' ∧
      vault.entries ⊆ es' ∧ v ∈ es' ∧ filesOf es' = filesOf vault.entries ++ [v] := by
  have hnew : v.path ∉ vault.entries.map (·.path) := by
    intro hin
    obtain ⟨w, hw, hpath⟩ := List.mem_map.1 hin
    exact hnot (List.inj_on_of_nodup_map hall (hes.mem w hw) hv hpath ▸ hw)
  unfold Vault.addFile
  rw [cleanPath_iff.1 hclean]
  dsimp only
  rw [if_neg hnew]
  obtain ⟨es', heq, hg, hnew'⟩ := ensureParents_among hall hes hclean hparents
  have hself : (⟨v.path, .file, v.mtime, v.mode, v.content⟩ : VaultEntry) = v := by rw [← hk]
  rw [heq, hself]
  refine ⟨es' ++ [v], rfl, hg.among.push hv (hnew' hnew), fun w hw => List.mem_append_left _ (hg.subset hw), by simp, ?_⟩
  rw [filesOf_append, hg.files]
  simp [filesOf, hk]

end Among

/-! ### What adding leaves -/

/-- Directories have no attributes and hold nothing themselves. -/
def BareDirs (es : List VaultEntry) : Prop := ∀ v ∈ es, v.kind = .dir → v = .dir v.path

section Growth

variable {es es' : List VaultEntry} {vault : Vault}

theorem BareDirs.append (h : BareDirs es) (h' : BareDirs es') : BareDirs (es ++ es') := by
  intro v hv hk
  rcases List.mem_append.1 hv with hv | hv
  · exact h v hv hk
  · exact h' v hv hk

theorem bareDirs_dir (p : Str) : BareDirs [.dir p] := by
  intro v hv _
  obtain rfl := List.mem_singleton.1 hv
  rfl

theorem contentSize_append (es es' : List VaultEntry) : contentSize (es ++ es') = contentSize es + contentSize es' := by
  simp [contentSize]

/-- The walk down the parents adds directories, without attributes and without contents. -/
private theorem ensureParentsAt_grows (ps : List Str) (es : List VaultEntry) :
    ∃ more, (ensureParentsAt ps es).2 = es ++ more ∧ BareDirs more ∧ contentSize more = 0 := by
  induction ps generalizing es with
  | nil => exact ⟨[], (List.append_nil es).symm, fun v hv => absurd hv List.not_mem_nil, rfl⟩
  | cons acc ps ih =>
    unfold ensureParentsAt
    cases es.find? (·.path = acc) with
    | some w =>
      dsimp only
      split
      · exact ih es
      · exact ⟨[], (List.append_nil es).symm, fun v hv => absurd hv List.not_mem_nil, rfl⟩
    | none =>
      obtain ⟨more, heq, hbare, hsize⟩ := ih (es ++ [.dir acc])
      refine ⟨.dir acc :: more, ?_, (bareDirs_dir acc).append hbare, by rw [contentSize_cons, hsize]; rfl⟩
      dsimp only
      rw [heq, List.append_assoc, List.singleton_append]

private theorem ensureParents_grows (vault : Vault) (p : Str) :
    ∃ more, (vault.ensureParents p).2 = { vault with entries := vault.entries ++ more } ∧ BareDirs more ∧
      contentSize more = 0 := by
  obtain ⟨more, heq, hmore⟩ := ensureParentsAt_grows (accPaths [] ((p.splitOn '/').take ((p.splitOn '/').length - 1)))
    vault.entries
  refine ⟨more, ?_, hmore⟩
  simp only [Vault.ensureParents, heq]

/-- A file that has been added comes after the parents that have been added for it. -/
theorem addFile_ok {path : Str} {content : Bytes} {mtime : Option Int} {mode : Option Nat}
    (h : (vault.addFile path content mtime mode).1 = .ok ()) :
    ∃ norm more, normalizePath path = .ok norm ∧
      (vault.addFile path content mtime mode).2 = { vault with entries := vault.entries ++ more } ∧ BareDirs more ∧
      contentSize more = content.length := by
  unfold Vault.addFile at h ⊢
  cases hnorm : normalizePath path with
  | error e => simp [hnorm] at h
  | ok norm =>
    simp only [hnorm] at h ⊢
    by_cases hin : norm ∈ vault.entries.map (·.path)
    · rw [if_pos hin] at h
      cases h
    · rw [if_neg hin] at h ⊢
      obtain ⟨more, hgrow, hbare, hsize⟩ := ensureParents_grows vault norm
      rcases hup : vault.ensureParents norm with ⟨res, vault'⟩
      rw [hup] at h hgrow
      cases res with
      | error e => cases h
      | ok u =>
        refine ⟨norm, more ++ [⟨norm, .file, mtime, mode, content⟩], rfl, ?_, hbare.append ?_, ?_⟩
        · dsimp only at hgrow ⊢
          rw [hgrow, List.append_assoc]
        · intro v hv hk
          rw [List.mem_singleton.1 hv] at hk
          cases hk
        · rw [contentSize_append, hsize, contentSize_cons]
          exact Nat.zero_add _

/-- So does a directory, unless it has been there. -/
theorem addDir_ok {path : Str} (h : (vault.addDir path).1 = .ok ()) :
    ∃ norm more, normalizePath path = .ok norm ∧
      (vault.addDir path).2 = { vault with entries := vault.entries ++ more } ∧ BareDirs more ∧ contentSize more = 0 := by
  unfold Vault.addDir at h ⊢
  cases hnorm : normalizePath path with
  | error e => simp [hnorm] at h
  | ok norm =>
    simp only [hnorm] at h ⊢
    cases hfind : vault.entries.find? (·.path = norm) with
    | some w =>
      simp only [hfind] at h ⊢
      by_cases hk : w.kind = .dir
      · rw [if_pos hk]
        exact ⟨norm, [], rfl, by rw [List.append_nil], fun v hv => absurd hv List.not_mem_nil, rfl⟩
      · rw [if_neg hk] at h
        cases h
    | none =>
      simp only [hfind] at h ⊢
      obtain ⟨more, hgrow, hbare, hsize⟩ := ensureParents_grows vault norm
      rcases hup : vault.ensureParents norm with ⟨res, vault'⟩
      rw [hup] at h hgrow
      cases res with
      | error e => cases h
      | ok u =>
        refine ⟨norm, more ++ [.dir norm], rfl, ?_, hbare.append (bareDirs_dir norm), ?_⟩
        · dsimp only at hgrow ⊢
          rw [hgrow, List.append_assoc]
        · rw [contentSize_append, hsize]
          rfl

end Growth

/-! ### The whole vault -/

/-- Entries that an in-memory vault can hold as they are: a tree whose directories have no attributes. -/
structure Plain (all : List VaultEntry) : Prop where
  sound : SoundEntries all
  bare : BareDirs all

theorem Plain.parent {all : List VaultEntry} (h : Plain all) {v : VaultEntry} (hv : v ∈ all) {a : Str}
    (ha : Below '/' a v.path) : VaultEntry.dir a ∈ all := by
  obtain ⟨d, hd, rfl, hdir⟩ := h.sound.closed v hv a ha
  rw [← h.bare d hd hdir]
  exact hd

/-- Every entry has a strict normal form, and every file is stored under it. -/
def Nameable (es : List EntryV2) : Prop :=
  ∀ e ∈ es, ∃ norm, normalizePath e.path = .ok norm ∧ (e.kind = .file → norm = e.path)

section Materialize

variable {r : VaultReaderV2 P} {blobs : Str → Option Bytes} {fits : Nat → Bool} {es : List EntryV2}
  {all done rest : List VaultEntry}

/-- Reading an entry of a valid vault into memory finds it only under a name in normal form. -/
theorem readEntry_ok_iff (hvalid : ValidEntries r.suite.aeadAlg r.manifest.entries) {e : EntryV2}
    (he : e ∈ r.manifest.entries) (hk : e.kind = .file) {out : Bytes} : readEntry fits r blobs e.path = .ok out ↔
      NormalPath e.path ∧ fits e.size = true ∧ r.entryPlaintext blobs e = .ok (.ok out) ∧ P.hashContent out = e.blake3 := by
  have hentry : ∀ d, r.fileEntry e.path = .ok d ↔ NormalPath e.path ∧ d = e := by
    intro d
    unfold VaultReaderV2.fileEntry
    rw [bind_eq_ok]
    constructor
    · rintro ⟨norm, hnorm, hd⟩
      cases hfind : r.manifest.entries.find? (·.path = norm) with
      | none => simp [hfind] at hd
      | some d' =>
        obtain ⟨hmem, rfl⟩ := Keyed.lookup_mem hfind
        have hnormal := normalPath_of_normalizeStoredPath hnorm
        have hpath := hvalid.path_unique hmem he hnormal.normalizeStoredPath hnorm
        obtain rfl : d' = e := List.inj_on_of_nodup_map hvalid.nodup hmem he hpath
        simp only [hfind, hk, if_true, Except.ok.injEq] at hd
        exact ⟨hnormal, hd.symm⟩
    · rintro ⟨hnormal, rfl⟩
      have hfind : r.manifest.entries.find? (·.path = d.path) = some d :=
        (Keyed.lookup_eq_some_iff hvalid.nodup).2 ⟨he, rfl⟩
      refine ⟨d.path, hnormal.normalizeStoredPath, ?_⟩
      simp only [hfind, hk, if_true]
  unfold readEntry
  simp only [bind_eq_ok, refuseIf_eq_ok, exists_const, hentry]
  constructor
  · rintro ⟨d, ⟨hnormal, rfl⟩, hfits, hread⟩
    exact ⟨hnormal, by simpa using hfits,
      (readEntryToWriter_eq_ok_iff ((hentry d).2 ⟨hnormal, rfl⟩) (hvalid.files d he hk)).1 hread⟩
  · rintro ⟨hnormal, hfits, hread⟩
    exact ⟨e, ⟨hnormal, rfl⟩, by simp [hfits],
      (readEntryToWriter_eq_ok_iff ((hentry e).2 ⟨hnormal, rfl⟩) (hvalid.files e he hk)).2 hread⟩

/-- The strict normal form of an entry is the one under which it authenticates. -/
theorem Nameable.path (h : Nameable es) {e : EntryV2} (he : e ∈ es) {v : VaultEntry} (hev : r.Authenticates blobs e v) :
    normalizePath e.path = .ok v.path ∧ (e.kind = .file → v.path = e.path) := by
  obtain ⟨norm, hnorm, hfile⟩ := h e he
  obtain rfl : norm = v.path := Except.ok.inj ((normalizeStoredPath_of_normalizePath hnorm).symm.trans hev.path)
  exact ⟨hnorm, hfile⟩

theorem Nameable.tail {e : EntryV2} (h : Nameable (e :: es)) : Nameable es := fun e' he' => h e' (List.mem_cons_of_mem _ he')

/-- When all entries authenticate, the loop adds them all, and nothing else. -/
theorem materializeFrom_eq (hall : Plain all) (hnamed : Nameable (keptOf es))
    (hread : ∀ e ∈ keptOf es, e.kind = .file → ∀ v, r.Authenticates blobs e v →
      readEntry fits r blobs e.path = .ok v.content)
    (hvs : List.Forall₂ (r.Authenticates blobs) (keptOf es) rest) (hsplit : all = done ++ rest) {vault : Vault}
    (hes : Among all vault.entries) (hdone : ∀ v ∈ done, v ∈ vault.entries) (hfiles : filesOf vault.entries = filesOf done) :
    ∃ es', materializeFrom fits r blobs (fun path => !isTrashed path) es vault = .ok { vault with entries := es' } ∧
      Among all es' ∧ (∀ v ∈ all, v ∈ es') ∧ filesOf es' = filesOf all := by
  have hnodup := hall.sound.nodup
  induction es generalizing rest done vault with
  | nil =>
    cases hvs
    rw [List.append_nil] at hsplit
    exact ⟨vault.entries, rfl, hes, hsplit ▸ hdone, hsplit ▸ hfiles⟩
  | cons e es ih =>
    unfold materializeFrom
    rw [keptOf_cons] at hnamed hread hvs
    by_cases htrash : isTrashed e.path = true
    · rw [if_pos htrash] at hnamed hread hvs
      rw [if_pos (by simp [htrash])]
      exact ih hnamed hread hvs hsplit hes hdone hfiles
    · rw [if_neg htrash] at hnamed hread hvs
      rw [if_neg (by simp [htrash])]
      cases hvs with
      | @cons _ v _ rest hev hvs =>
        have ih := fun d w hs => @ih d rest hnamed.tail (fun e' he' => hread e' (List.mem_cons_of_mem _ he')) hvs hs w
        have hv : v ∈ all := by simp [hsplit]
        obtain ⟨hpath, hfile⟩ := hnamed.path List.mem_cons_self hev
        have hclean := hall.sound.clean v hv
        have hsplit' : all = (done ++ [v]) ++ rest := by rw [hsplit, List.append_assoc, List.singleton_append]
        have hparents : ∀ a, Below '/' a v.path → VaultEntry.dir a ∈ all := fun a ha => hall.parent hv ha
        have hadd : ∀ es', vault.entries ⊆ es' → v ∈ es' → ∀ w ∈ done ++ [v], w ∈ es' := by
          intro es' hsub hin w hw
          rcases List.mem_append.1 hw with hw | hw
          · exact hsub (hdone w hw)
          · rw [List.mem_singleton] at hw
            exact hw ▸ hin
        unfold materializeEntry
        cases hk : e.kind with
        | dir =>
          have hbare := hall.bare v hv (hev.kind.trans hk)
          obtain ⟨es', heq, hamong, hsub, hin, hf⟩ := addDir_among hnodup hes hpath (hbare ▸ hv) hparents
          simp only [heq, bind, Except.bind]
          refine ih (done ++ [v]) { vault with entries := es' } hsplit' hamong (hadd es' hsub (by rw [hbare]; exact hin)) ?_
          rw [filesOf_append, hbare, filesOf_dir, List.append_nil]
          exact hf.trans hfiles
        | file =>
          have hvk : v.kind = .file := hev.kind.trans hk
          have hnot : v ∉ vault.entries := by
            intro hin
            have hmem : v ∈ filesOf done := by
              rw [← hfiles]
              exact List.mem_filter.2 ⟨hin, by simpa using hvk⟩
            rw [hsplit, List.map_append, List.nodup_append] at hnodup
            exact hnodup.2.2 _ (List.mem_map_of_mem (List.mem_of_mem_filter hmem)) _ (by simp) rfl
          obtain ⟨es', heq, hamong, hsub, hin, hf⟩ := addFile_among hnodup hes hclean hv hvk hnot hparents
          rw [hfile hk, hev.mtime, hev.mode] at heq
          have hcontent := hread e List.mem_cons_self hk v hev
          simp only [hcontent, heq, bind, Except.bind]
          refine ih (done ++ [v]) { vault with entries := es' } hsplit' hamong (hadd es' hsub hin) ?_
          have hlast : filesOf [v] = [v] := by simp [filesOf, hvk]
          rw [filesOf_append, hlast, ← hfiles]
          exact hf

/-- What a loop that succeeds has found out about the entries and made of the vault. -/
structure Materialized (fits : Nat → Bool) (r : VaultReaderV2 P) (blobs : Str → Option Bytes) (es : List EntryV2)
    (vault vault' : Vault) : Prop where
  authentic : ∃ vs, List.Forall₂ (r.Authenticates blobs) es vs
  named : Nameable es
  fits : ∀ e ∈ es, e.kind = .file → fits e.size = true
  built : ∃ ops : List VaultOp, vault' = ops.foldl VaultOp.run vault
  grown : ∃ more, vault' = { vault with entries := vault.entries ++ more } ∧ BareDirs more ∧ contentSize more = totalSize es

/-- One round of it. -/
private theorem materializeEntry_ok (hopen : TagOnly P) (hvalid : ValidEntries r.suite.aeadAlg r.manifest.entries)
    {e : EntryV2} (he : e ∈ r.manifest.entries) {vault vault' : Vault}
    (h : materializeEntry fits r blobs vault e = .ok vault') : Materialized fits r blobs [e] vault vault' := by
  obtain ⟨path, hpath⟩ := hvalid.paths e he
  unfold materializeEntry at h
  cases hk : e.kind with
  | dir =>
    simp only [hk] at h
    obtain ⟨u, hadd, heq⟩ := bind_eq_ok.1 h
    obtain ⟨norm, more, hnorm, hgrow, hbare, hsize⟩ := addDir_ok hadd
    have hauth : r.Authenticates blobs e ⟨path, .dir, e.mtime, e.mode, []⟩ :=
      ⟨hpath, hk.symm, rfl, rfl, by simp [hk], fun _ => rfl⟩
    refine ⟨⟨_, .cons hauth .nil⟩, by simp [Nameable, hnorm, hk], by simp [hk], ⟨[.addDir e.path], ?_⟩, more, ?_, hbare, ?_⟩
    · exact (Except.ok.inj heq).symm
    · rw [← hgrow]
      exact (Except.ok.inj heq).symm
    · rw [hsize, totalSize_cons, hk]
      rfl
  | file =>
    simp only [hk] at h
    obtain ⟨content, hcontent, h⟩ := bind_eq_ok.1 h
    obtain ⟨u, hadd, heq⟩ := bind_eq_ok.1 h
    obtain ⟨hnormal, hfits, hstream, hhash⟩ := (readEntry_ok_iff hvalid he hk).1 hcontent
    obtain ⟨norm, more, hnorm, hgrow, hbare, hsize⟩ := addFile_ok hadd
    have hsame : norm = e.path :=
      Except.ok.inj ((normalizeStoredPath_of_normalizePath hnorm).symm.trans hnormal.normalizeStoredPath)
    have hlen := entryPlaintext_length hopen (hvalid.files e he hk) hstream
    have hauth : r.Authenticates blobs e ⟨path, .file, e.mtime, e.mode, content⟩ :=
      ⟨hpath, hk.symm, rfl, rfl, fun _ => ⟨hstream, hlen, hhash⟩, by simp [hk]⟩
    refine ⟨⟨_, .cons hauth .nil⟩, by simp [Nameable, hnorm, hsame], by simp [hfits],
      ⟨[.addFile e.path content e.mtime e.mode], ?_⟩, more, ?_, hbare, ?_⟩
    · exact (Except.ok.inj heq).symm
    · rw [← hgrow]
      exact (Except.ok.inj heq).symm
    · rw [hsize, totalSize_cons, hk, hlen]
      rfl

/-- One entry, and then the others. -/
private theorem Materialized.cons {e : EntryV2} {vault vault₁ vault' : Vault}
    (h : Materialized fits r blobs [e] vault vault₁) (h' : Materialized fits r blobs es vault₁ vault') :
    Materialized fits r blobs (e :: es) vault vault' := by
  obtain ⟨vs₁, hvs₁⟩ := h.authentic
  obtain ⟨vs, hvs⟩ := h'.authentic
  obtain ⟨ops₁, hops₁⟩ := h.built
  obtain ⟨ops, hops⟩ := h'.built
  obtain ⟨more₁, hgrow₁, hbare₁, hsize₁⟩ := h.grown
  obtain ⟨more, hgrow, hbare, hsize⟩ := h'.grown
  refine ⟨⟨vs₁ ++ vs, List.rel_append hvs₁ hvs⟩, ?_, ?_, ⟨ops₁ ++ ops, ?_⟩, more₁ ++ more, ?_, hbare₁.append hbare, ?_⟩
  · exact List.forall_mem_cons.2 ⟨h.named e List.mem_cons_self, h'.named⟩
  · exact List.forall_mem_cons.2 ⟨h.fits e List.mem_cons_self, h'.fits⟩
  · rw [List.foldl_append, ← hops₁, hops]
  · rw [hgrow, hgrow₁, List.append_assoc]
  · rw [contentSize_append, hsize₁, hsize, totalSize_cons, totalSize_cons]
    rfl

theorem materializeFrom_ok (hopen : TagOnly P) (hvalid : ValidEntries r.suite.aeadAlg r.manifest.entries)
    (hsub : es ⊆ r.manifest.entries) {vault vault' : Vault}
    (h : materializeFrom fits r blobs (fun path => !isTrashed path) es vault = .ok vault') :
    Materialized fits r blobs (keptOf es) vault vault' := by
  induction es generalizing vault with
  | nil =>
    obtain rfl := Except.ok.inj h
    have hnone : ∀ {α : Type} {p : α → Prop}, ∀ x ∈ ([] : List α), p x := fun x hx => absurd hx List.not_mem_nil
    exact ⟨⟨[], .nil⟩, hnone, hnone, ⟨[], rfl⟩, [], by rw [List.append_nil], hnone, rfl⟩
  | cons e es ih =>
    have hsub' : es ⊆ r.manifest.entries := fun e' he' => hsub (List.mem_cons_of_mem _ he')
    unfold materializeFrom at h
    rw [keptOf_cons]
    by_cases htrash : isTrashed e.path = true
    · rw [if_pos htrash]
      rw [if_pos (by simp [htrash])] at h
      exact ih hsub' h
    · rw [if_neg htrash]
      rw [if_neg (by simp [htrash])] at h
      obtain ⟨vault₁, hentry, h⟩ := bind_eq_ok.1 h
      exact (materializeEntry_ok hopen hvalid (hsub List.mem_cons_self) hentry).cons (ih hsub' h)

/-- When it succeeds, every entry has authenticated, has a name and fits into memory, and the vault is a tree with these
contents whose directories have no attributes. -/
theorem toVaultForExport_ok (hopen : TagOnly P) (hvalid : ValidEntries r.suite.aeadAlg r.manifest.entries) {vault : Vault}
    (h : toVaultForExport fits r blobs = .ok vault) :
    (∃ vs, List.Forall₂ (r.Authenticates blobs) (keptOf r.manifest.entries) vs) ∧ Nameable (keptOf r.manifest.entries) ∧
      (∀ e ∈ keptOf r.manifest.entries, e.kind = .file → fits e.size = true) ∧
      ∃ ws, vault = ⟨r.manifest.vaultName, r.manifest.createdAt, ws⟩ ∧ Plain ws ∧
        contentSize ws = totalSize (keptOf r.manifest.entries) := by
  obtain ⟨hvs, hnamed, hfits, ⟨ops, hops⟩, ws, hgrow, hbare, hsize⟩ :=
    materializeFrom_ok hopen hvalid (List.Subset.refl _) h
  have hsound := Vault.build_sound r.manifest.vaultName r.manifest.createdAt ops
  unfold Vault.build at hsound
  rw [← hops, hgrow] at hsound
  exact ⟨hvs, hnamed, hfits, ws, hgrow, ⟨hsound, hbare⟩, hsize⟩

/-- The in-memory vault of entries that authenticate: the same entries, the files in the same order. -/
theorem toVaultForExport_eq (hvalid : ValidEntries r.suite.aeadAlg r.manifest.entries)
    (hnamed : Nameable (keptOf r.manifest.entries))
    (hfits : ∀ e ∈ keptOf r.manifest.entries, e.kind = .file → fits e.size = true) (hall : Plain all)
    (hvs : List.Forall₂ (r.Authenticates blobs) (keptOf r.manifest.entries) all) :
    ∃ vs, toVaultForExport fits r blobs = .ok ⟨r.manifest.vaultName, r.manifest.createdAt, vs⟩ ∧ vs.Perm all ∧
      filesOf vs = filesOf all := by
  have hread : ∀ e ∈ keptOf r.manifest.entries, e.kind = .file → ∀ v, r.Authenticates blobs e v →
      readEntry fits r blobs e.path = .ok v.content := by
    intro e he hk v hev
    obtain ⟨hstream, -, hhash⟩ := hev.file hk
    obtain ⟨norm, hnorm, hfile⟩ := hnamed e he
    have hnormal : NormalPath e.path := hfile hk ▸ normalPath_of_normalizePath hnorm
    exact (readEntry_ok_iff hvalid (List.mem_of_mem_filter he) hk).2 ⟨hnormal, hfits e he hk, hstream, hhash⟩
  have hnone : Among all (Vault.new r.manifest.vaultName r.manifest.createdAt).entries :=
    ⟨List.nodup_nil, fun v hv => absurd hv List.not_mem_nil⟩
  obtain ⟨vs, heq, hamong, hsub, hfiles⟩ :=
    materializeFrom_eq hall hnamed hread hvs (List.nil_append all).symm hnone (fun v hv => by cases hv) rfl
  refine ⟨vs, heq, ?_, hfiles⟩
  rw [List.perm_ext_iff_of_nodup (List.Nodup.of_map _ hamong.nodup) (List.Nodup.of_map _ hall.sound.nodup)]
  exact fun v => ⟨hamong.mem v, hsub v⟩

end Materialize

end FileSec.Fsec
