import FileSec.Ensure
import FileSec.Build

/-!
# In-memory vaults

The operations on a `Vault` (`vault.rs`).  Whatever has been done to a vault that began empty, its paths are normal and
distinct, and every entry has its parents (`Vault.run_sound`).
-/

namespace FileSec

open SepPath

/-- `Vault::new` -/
def Vault.new (name : Str) (createdAt : Int) : Vault := ⟨name, createdAt, []⟩

/-- A directory entry that `Vault` makes. -/
def VaultEntry.dir (path : Str) : VaultEntry := ⟨path, .dir, none, none, []⟩

/-- The loop of `ensure_parents` over the paths of the parents. -/
def ensureParentsAt : List Str → List VaultEntry → Result Unit × List VaultEntry
  | [], es => (.ok (), es)
  | acc :: rest, es =>
    match es.find? (·.path = acc) with
    | some e =>
      if e.kind = .dir then ensureParentsAt rest es
      else (.error (.vault ("a file exists at ".toList ++ acc ++ "; it cannot contain other entries".toList)), es)
    | none => ensureParentsAt rest (es ++ [.dir acc])

/-- `Vault::ensure_parents` -/
def Vault.ensureParents (vault : Vault) (path : Str) : Result Unit × Vault :=
  let comps := path.splitOn '/'
  let out := ensureParentsAt (accPaths [] (comps.take (comps.length - 1))) vault.entries
  (out.1, { vault with entries := out.2 })

/-- `Vault::add_file` -/
def Vault.addFile (vault : Vault) (path : Str) (content : Bytes) (mtime : Option Int) (mode : Option Nat) :
    Result Unit × Vault :=
  match normalizePath path with
  | .error e => (.error e, vault)
  | .ok norm =>
    if norm ∈ vault.entries.map (·.path) then (.error (.vault ("path already exists: ".toList ++ norm)), vault)
    else
      match vault.ensureParents norm with
      | (.error e, vault) => (.error e, vault)
      | (.ok (), vault) => (.ok (), { vault with entries := vault.entries ++ [⟨norm, .file, mtime, mode, content⟩] })

/-- `Vault::add_dir` -/
def Vault.addDir (vault : Vault) (path : Str) : Result Unit × Vault :=
  match normalizePath path with
  | .error e => (.error e, vault)
  | .ok norm =>
    match vault.entries.find? (·.path = norm) with
    | some e => if e.kind = .dir then (.ok (), vault) else (.error (.vault ("a file exists at ".toList ++ norm)), vault)
    | none =>
      match vault.ensureParents norm with
      | (.error e, vault) => (.error e, vault)
      | (.ok (), vault) => (.ok (), { vault with entries := vault.entries ++ [.dir norm] })

/-- `Vault::remove` -/
def Vault.remove (vault : Vault) (path : Str) : Nat × Vault :=
  match normalizePath path with
  | .error _ => (0, vault)
  | .ok norm =>
    let kept := vault.entries.filter fun e => e.path ≠ norm ∧ ¬ norm ++ ['/'] <+: e.path
    (vault.entries.length - kept.length, { vault with entries := kept })

/-- The operations on a vault. -/
inductive VaultOp where
  | addFile (path : Str) (content : Bytes) (mtime : Option Int) (mode : Option Nat)
  | addDir (path : Str)
  | remove (path : Str)

/-- The vault after an operation, whether it succeeds or not. -/
def VaultOp.run (vault : Vault) : VaultOp → Vault
  | .addFile path content mtime mode => (vault.addFile path content mtime mode).2
  | .addDir path => (vault.addDir path).2
  | .remove path => (vault.remove path).2

/-- The vault built from an empty one by a sequence of operations. -/
def Vault.build (name : Str) (createdAt : Int) (ops : List VaultOp) : Vault :=
  ops.foldl VaultOp.run (Vault.new name createdAt)

/-! ### Normal paths without invisible characters -/

/-- A path that the strict normalisation keeps. -/
def CleanPath (path : Str) : Prop := NormalPath path ∧ path.any isSpoofingFormatChar = false

theorem normalizePath_eq_ok_iff {path norm : Str} :
    normalizePath path = .ok norm ↔ normalizeStoredPath path = .ok norm ∧ norm.any isSpoofingFormatChar = false := by
  unfold normalizePath
  cases h : normalizeStoredPath path with
  | error e => simp [bind, Except.bind]
  | ok n =>
    simp only [bind, Except.bind]
    split
    · rename_i hany
      simp only [reduceCtorEq, Except.ok.injEq, false_iff, not_and]
      rintro rfl
      simp [hany]
    · rename_i hany
      simp only [Except.ok.injEq, iff_self_and]
      rintro rfl
      simpa using hany

theorem cleanPath_iff {path : Str} : CleanPath path ↔ normalizePath path = .ok path := by
  rw [normalizePath_eq_ok_iff, CleanPath, normalPath_iff]

theorem cleanPath_of_normalizePath {path norm : Str} (h : normalizePath path = .ok norm) : CleanPath norm :=
  ⟨normalPath_of_normalizePath h, (normalizePath_eq_ok_iff.1 h).2⟩

theorem CleanPath.of_below {p q : Str} (h : CleanPath q) (hb : Below '/' p q) : CleanPath p := by
  refine ⟨h.1.of_below hb, ?_⟩
  have hq := h.2
  obtain ⟨t, rfl⟩ := below_iff.1 hb
  rw [List.any_append, Bool.or_eq_false_iff] at hq
  exact hq.1

/-! ### Sound vaults -/

/-- The entries form a tree of clean paths whose directories hold nothing themselves. -/
structure SoundEntries (es : List VaultEntry) : Prop where
  clean : ∀ e ∈ es, CleanPath e.path
  nodup : (es.map (·.path)).Nodup
  closed : ∀ e ∈ es, ∀ a, Below '/' a e.path → ∃ d ∈ es, d.path = a ∧ d.kind = .dir
  dirs : ∀ e ∈ es, e.kind = .dir → e.content = []

variable {es : List VaultEntry}

theorem soundEntries_nil : SoundEntries [] := ⟨by simp, by simp, by simp, by simp⟩

/-- No file is above another entry. -/
theorem SoundEntries.not_below (h : SoundEntries es) {x y : VaultEntry} (hx : x ∈ es) (hy : y ∈ es)
    (hfile : x.kind = .file) : ¬ Below '/' x.path y.path := by
  intro hb
  obtain ⟨d, hd, hpath, hdir⟩ := h.closed y hy _ hb
  have hxd : x = d := List.inj_on_of_nodup_map h.nodup hx hd hpath.symm
  rw [hxd, hdir] at hfile
  cases hfile

/-- An entry with a new clean path whose parents are there can be added. -/
theorem SoundEntries.push (h : SoundEntries es) {v : VaultEntry} (hclean : CleanPath v.path)
    (hnew : v.path ∉ es.map (·.path)) (hparents : ∀ a, Below '/' a v.path → ∃ d ∈ es, d.path = a ∧ d.kind = .dir)
    (hdir : v.kind = .dir → v.content = []) : SoundEntries (es ++ [v]) := by
  refine ⟨?_, ?_, ?_, ?_⟩
  · intro e he
    rcases List.mem_append.1 he with he | he
    · exact h.clean e he
    · rw [List.mem_singleton] at he
      exact he ▸ hclean
  · rw [List.map_append, List.nodup_append]
    refine ⟨h.nodup, by simp, ?_⟩
    rintro a ha b hb rfl
    rw [List.map_singleton, List.mem_singleton] at hb
    exact hnew (hb ▸ ha)
  · intro e he a ha
    have hold : ∃ d ∈ es, d.path = a ∧ d.kind = .dir := by
      rcases List.mem_append.1 he with he | he
      · exact h.closed e he a ha
      · rw [List.mem_singleton] at he
        exact hparents a (he ▸ ha)
    obtain ⟨d, hd, hda⟩ := hold
    exact ⟨d, List.mem_append_left _ hd, hda⟩
  · intro e he hk
    rcases List.mem_append.1 he with he | he
    · exact h.dirs e he hk
    · rw [List.mem_singleton] at he
      subst he
      exact hdir hk

/-- Whether it succeeds or not, the walk down the parents of a clean path keeps the entries sound and adds nothing but
parents; if it succeeds, all parents are there. -/
private theorem ensureParentsAt_spec {p : Str} (hp : CleanPath p) (done : List Str) {rest : List Str}
    (hps : parents '/' p = done ++ rest) (h : SoundEntries es)
    (hdone : ∀ a ∈ done, ∃ d ∈ es, d.path = a ∧ d.kind = .dir) :
    SoundEntries (ensureParentsAt rest es).2 ∧ (∀ e ∈ (ensureParentsAt rest es).2, e ∈ es ∨ Below '/' e.path p) ∧
      ((ensureParentsAt rest es).1 = .ok () →
        ∀ a, Below '/' a p → ∃ d ∈ (ensureParentsAt rest es).2, d.path = a ∧ d.kind = .dir) := by
  induction rest generalizing es done with
  | nil =>
    rw [List.append_nil] at hps
    refine ⟨h, fun e he => Or.inl he, fun _ a ha => ?_⟩
    exact hdone a (hps ▸ mem_parents.2 ha)
  | cons acc rest ih =>
    have hacc : Below '/' acc p := mem_parents.1 (hps ▸ by simp)
    have hnext : parents '/' p = (done ++ [acc]) ++ rest := by simpa using hps
    unfold ensureParentsAt
    cases hfind : es.find? (·.path = acc) with
    | some e =>
      have hmem := List.mem_of_find?_eq_some hfind
      have hpath : e.path = acc := by simpa using List.find?_some hfind
      dsimp only
      by_cases hdir : e.kind = .dir
      · rw [if_pos hdir]
        refine ih _ hnext h fun a ha => ?_
        rcases List.mem_append.1 ha with ha | ha
        · exact hdone a ha
        · rw [List.mem_singleton] at ha
          exact ⟨e, hmem, hpath.trans ha.symm, hdir⟩
      · rw [if_neg hdir]
        exact ⟨h, fun e he => Or.inl he, fun hok => by cases hok⟩
    | none =>
      have hnew : acc ∉ es.map (·.path) := by
        rw [List.find?_eq_none] at hfind
        intro hin
        obtain ⟨e, he, hpath⟩ := List.mem_map.1 hin
        exact hfind e he (by simpa using hpath)
      -- what lies above this parent comes before it in the list
      have habove : ∀ a, Below '/' a acc → ∃ d ∈ es, d.path = a ∧ d.kind = .dir := by
        intro a ha
        have hmem : a ∈ done ++ acc :: rest := hps ▸ mem_parents.2 (ha.trans hacc)
        have hpair : (parents '/' p).Pairwise (Below '/') := parents_pairwise p
        rw [hps, List.pairwise_append, List.pairwise_cons] at hpair
        rcases List.mem_append.1 hmem with hin | hin
        · exact hdone a hin
        · rcases List.mem_cons.1 hin with rfl | hin
          · exact absurd ha (not_below_self a)
          · exact absurd (hpair.2.1.1 a hin) ha.asymm
      have hpush := @SoundEntries.push es h (.dir acc) (hp.of_below hacc) hnew habove fun _ => rfl
      have hstep := ih _ hnext hpush fun a ha => by
        rcases List.mem_append.1 ha with ha | ha
        · obtain ⟨d, hd, hda⟩ := hdone a ha
          exact ⟨d, List.mem_append_left _ hd, hda⟩
        · rw [List.mem_singleton] at ha
          exact ⟨.dir acc, by simp, ha.symm, rfl⟩
      obtain ⟨h1, h2, h3⟩ := hstep
      refine ⟨h1, fun e he => ?_, h3⟩
      rcases h2 e he with he | he
      · rcases List.mem_append.1 he with he | he
        · exact Or.inl he
        · rw [List.mem_singleton] at he
          exact Or.inr (he ▸ hacc)
      · exact Or.inr he

/-- Creating the parents of a path that is not there. -/
private theorem ensureParents_spec {vault : Vault} (h : SoundEntries vault.entries) {p : Str} (hp : CleanPath p)
    (hnew : p ∉ vault.entries.map (·.path)) :
    SoundEntries (vault.ensureParents p).2.entries ∧ p ∉ (vault.ensureParents p).2.entries.map (·.path) ∧
      ((vault.ensureParents p).1 = .ok () →
        ∀ a, Below '/' a p → ∃ d ∈ (vault.ensureParents p).2.entries, d.path = a ∧ d.kind = .dir) := by
  have hpar : vault.ensureParents p = ((ensureParentsAt (parents '/' p) vault.entries).1,
      { vault with entries := (ensureParentsAt (parents '/' p) vault.entries).2 }) := by
    simp only [Vault.ensureParents, accPaths_normal hp.1]
  rw [hpar]
  obtain ⟨h1, h2, h3⟩ := ensureParentsAt_spec hp [] rfl h (by simp)
  refine ⟨h1, fun hin => ?_, h3⟩
  obtain ⟨e, he, hpath⟩ := List.mem_map.1 hin
  rcases h2 e he with he | he
  · exact hnew (List.mem_map.2 ⟨e, he, hpath⟩)
  · rw [hpath] at he
    exact not_below_self p he

private theorem addFile_sound {vault : Vault} (h : SoundEntries vault.entries) (path : Str) (content : Bytes)
    (mtime : Option Int) (mode : Option Nat) : SoundEntries (vault.addFile path content mtime mode).2.entries := by
  unfold Vault.addFile
  cases hn : normalizePath path with
  | error e => exact h
  | ok norm =>
    dsimp only
    have hclean := cleanPath_of_normalizePath hn
    by_cases hin : norm ∈ vault.entries.map (·.path)
    · rw [if_pos hin]
      exact h
    · rw [if_neg hin]
      obtain ⟨h1, h2, h3⟩ := ensureParents_spec h hclean hin
      rcases hp : vault.ensureParents norm with ⟨r, v⟩
      rw [hp] at h1 h2 h3
      cases r with
      | error e => exact h1
      | ok u => exact h1.push hclean h2 (h3 rfl) fun hk => by cases hk

private theorem addDir_sound {vault : Vault} (h : SoundEntries vault.entries) (path : Str) :
    SoundEntries (vault.addDir path).2.entries := by
  unfold Vault.addDir
  cases hn : normalizePath path with
  | error e => exact h
  | ok norm =>
    dsimp only
    have hclean := cleanPath_of_normalizePath hn
    cases hfind : vault.entries.find? (·.path = norm) with
    | some e =>
      dsimp only
      split <;> exact h
    | none =>
      have hin : norm ∉ vault.entries.map (·.path) := by
        rw [List.find?_eq_none] at hfind
        intro hin
        obtain ⟨e, he, hpath⟩ := List.mem_map.1 hin
        exact hfind e he (by simpa using hpath)
      obtain ⟨h1, h2, h3⟩ := ensureParents_spec h hclean hin
      dsimp only
      rcases hp : vault.ensureParents norm with ⟨r, v⟩
      rw [hp] at h1 h2 h3
      cases r with
      | error e => exact h1
      | ok u => exact h1.push hclean h2 (h3 rfl) fun _ => rfl

private theorem remove_sound {vault : Vault} (h : SoundEntries vault.entries) (path : Str) :
    SoundEntries (vault.remove path).2.entries := by
  unfold Vault.remove
  cases hn : normalizePath path with
  | error e => exact h
  | ok norm =>
    dsimp only
    refine ⟨fun e he => h.clean e (List.mem_of_mem_filter he), h.nodup.sublist (List.filter_sublist.map _), ?_,
      fun e he => h.dirs e (List.mem_of_mem_filter he)⟩
    intro e he a ha
    obtain ⟨hmem, hkeep⟩ := List.mem_filter.1 he
    rw [decide_eq_true_eq] at hkeep
    obtain ⟨d, hd, rfl, hdir⟩ := h.closed e hmem a ha
    refine ⟨d, List.mem_filter.2 ⟨hd, ?_⟩, rfl, hdir⟩
    -- what lies above an entry that is kept is kept
    rw [decide_eq_true_eq]
    constructor
    · intro heq
      exact hkeep.2 (heq ▸ ha)
    · intro hb
      exact hkeep.2 (Below.trans hb ha)

/-- Whatever has been done to a vault, its entries are sound. -/
theorem Vault.build_sound (name : Str) (createdAt : Int) (ops : List VaultOp) :
    SoundEntries (Vault.build name createdAt ops).entries := by
  unfold Vault.build
  have hinit : SoundEntries (Vault.new name createdAt).entries := soundEntries_nil
  generalize Vault.new name createdAt = vault at hinit
  induction ops generalizing vault with
  | nil => exact hinit
  | cons op ops ih =>
    refine ih _ ?_
    cases op with
    | addFile path content mtime mode => exact addFile_sound hinit path content mtime mode
    | addDir path => exact addDir_sound hinit path
    | remove path => exact remove_sound hinit path

end FileSec
