import FileSec.Batch
import FileSec.Lib.PathTree

/-!
# The parents an operation creates

`ensure_dirs` walks down the parents of a path and adds the ones that are missing.  In a tree that holds the parents
of its entries a parent is missing only if everything below it is, so a walk that fails has added nothing:
`ensureDirs_spec`.
-/

namespace FileSec

open SepPath Prog

variable {P : Prims}

/-- The entry with the path `p`. -/
abbrev entryAt (es : List EntryV2) (p : Str) : Option EntryV2 := Keyed.lookup EntryV2.path es p

/-- The paths of the entries. -/
abbrev pathsOf (es : List EntryV2) : List Str := es.map EntryV2.path

/-- The parents of `p` that have no entry, from the root down. -/
def missingParents (es : List EntryV2) (p : Str) : List Str := (parents '/' p).filter fun a => (entryAt es a).isNone

/-- The entries together with those of the missing parents of `p`. -/
def withParents (es : List EntryV2) (p : Str) : List EntryV2 := es ++ (missingParents es p).map dirEntry

/-- No parent of `p` is a file. -/
def NoFileAbove (es : List EntryV2) (p : Str) : Prop :=
  ∀ a d, Below '/' a p → entryAt es a = some d → d.kind = .dir

/-- The index is that of the entries, whose paths are distinct. -/
structure VaultBatch.Indexed (b : VaultBatch P) : Prop where
  index : b.index = indexEntries b.manifest
  nodup : (pathsOf b.manifest.entries).Nodup

/-- The batch with other entries, indexed. -/
def VaultBatch.withEntries (b : VaultBatch P) (es : List EntryV2) : VaultBatch P :=
  { b with manifest := { b.manifest with entries := es }, index := Keyed.index EntryV2.path es }

@[simp] theorem withEntries_entries (b : VaultBatch P) (es : List EntryV2) :
    (b.withEntries es).manifest.entries = es := rfl

@[simp] theorem withEntries_withEntries (b : VaultBatch P) (es es' : List EntryV2) :
    (b.withEntries es).withEntries es' = b.withEntries es' := rfl

theorem VaultBatch.Indexed.withEntries_self {b : VaultBatch P} (h : b.Indexed) :
    b.withEntries b.manifest.entries = b := by
  have e : Keyed.index EntryV2.path b.manifest.entries = b.index := h.index.symm
  simp only [VaultBatch.withEntries, e]

theorem indexed_withEntries {b : VaultBatch P} {es : List EntryV2} (h : (pathsOf es).Nodup) :
    (b.withEntries es).Indexed := ⟨rfl, h⟩

theorem VaultBatch.Indexed.push {b : VaultBatch P} (h : b.Indexed) (e : EntryV2) :
    b.push e = b.withEntries (b.manifest.entries ++ [e]) := by
  simp only [VaultBatch.push, VaultBatch.withEntries, Keyed.index_concat, h.index, indexEntries]

theorem VaultBatch.Indexed.kindAt {b : VaultBatch P} (h : b.Indexed) (p : Str) :
    b.kindAt p = (entryAt b.manifest.entries p).map (·.kind) := by
  unfold VaultBatch.kindAt
  cases hi : b.index p with
  | none =>
    rw [h.index, indexEntries, Keyed.index_eq_none_iff_lookup] at hi
    simp [entryAt, hi]
  | some i =>
    rw [h.index, indexEntries] at hi
    simp [entryAt, Keyed.lookup_eq_getElem h.nodup hi]

theorem VaultBatch.Indexed.index_eq_none {b : VaultBatch P} (h : b.Indexed) {p : Str} :
    b.index p = none ↔ entryAt b.manifest.entries p = none := by
  rw [h.index, indexEntries, Keyed.index_eq_none_iff_lookup]

/-! ### The paths of the loop -/

/-- The values of `acc` in `ensure_dirs` and in `Vault::ensure_parents`. -/
def accPaths : Str → List Str → List Str
  | _, [] => []
  | acc, comp :: comps =>
    let acc := (if acc = [] then [] else acc ++ ['/']) ++ comp
    acc :: accPaths acc comps

private theorem accPaths_eq {acc : Str} {comps : List Str} (hne : comps ≠ [])
    (hc : ∀ c ∈ comps, c ≠ [] ∧ '/' ∉ c) :
    accPaths acc (comps.take (comps.length - 1)) =
      (parents '/' (['/'].intercalate comps)).map ((if acc = [] then [] else acc ++ ['/']) ++ ·) := by
  induction comps generalizing acc with
  | nil => exact absurd rfl hne
  | cons c comps ih =>
    obtain ⟨hcne, hslash⟩ := hc c (by simp)
    cases comps with
    | nil => simp [accPaths, parents_of_not_mem hslash]
    | cons d comps =>
      have hacc : (if acc = [] then [] else acc ++ ['/']) ++ c ≠ [] := by simp [hcne]
      have hstep := @ih ((if acc = [] then [] else acc ++ ['/']) ++ c) (by simp) fun x hx => hc x (by simp [hx])
      have htake : (c :: d :: comps).take ((c :: d :: comps).length - 1) =
          c :: (d :: comps).take ((d :: comps).length - 1) := by
        simp
      have hcat : ['/'].intercalate (c :: d :: comps) = c ++ '/' :: ['/'].intercalate (d :: comps) := by
        rw [List.intercalate_cons_cons]
        simp
      rw [htake, accPaths, hstep, hcat, parents_append_cons hslash, if_neg hacc]
      simp

theorem accPaths_normal {p : Str} (h : NormalPath p) :
    accPaths [] ((p.splitOn '/').take ((p.splitOn '/').length - 1)) = parents '/' p := by
  rw [accPaths_eq (List.splitOn_ne_nil _ _) fun c hc => ⟨(h.1 c hc).1, (h.1 c hc).2.2.2.1⟩,
    List.intercalate_splitOn]
  simp

/-! ### The loop -/

/-- The loop over the parents themselves. -/
private def ensureAll : List Str → BatchM P Unit
  | [] => pure ()
  | a :: ps => do
    let b ← get
    match b.kindAt a with
    | some .dir => ensureAll ps
    | some .file =>
      throw (.vault ("a file exists at ".toList ++ a ++ "; it cannot contain other entries".toList))
    | none => do
      modify fun b => b.push (dirEntry a)
      ensureAll ps

private theorem ensureDirsFrom_eq (acc : Str) (comps : List Str) :
    ensureDirsFrom (P := P) acc comps = ensureAll (accPaths acc comps) := by
  induction comps generalizing acc with
  | nil => rfl
  | cons c comps ih =>
    simp only [ensureDirsFrom, ih]
    rfl

private theorem ensureAll_spec {b : VaultBatch P} (hb : b.Indexed) (ps : List Str) (hps : ps.Nodup) :
    wp (ensureAll ps) (fun r b' => match r with
      | .ok () => (∀ a ∈ ps, ∀ d, entryAt b.manifest.entries a = some d → d.kind = .dir) ∧
          b' = b.withEntries (b.manifest.entries ++
            (ps.filter fun a => (entryAt b.manifest.entries a).isNone).map dirEntry)
      | .error _ => ∃ ps₁ a ps₂ d, ps = ps₁ ++ a :: ps₂ ∧ entryAt b.manifest.entries a = some d ∧ d.kind = .file ∧
          b' = b.withEntries (b.manifest.entries ++
            (ps₁.filter fun a => (entryAt b.manifest.entries a).isNone).map dirEntry)) b := by
  induction ps generalizing b with
  | nil => simpa [ensureAll] using hb.withEntries_self.symm
  | cons a ps ih =>
    rw [List.nodup_cons] at hps
    simp only [ensureAll, wp_bind, wp_get]
    rw [hb.kindAt]
    cases ha : entryAt b.manifest.entries a with
    | none =>
      simp only [Option.map_none, wp_bind, wp_modify, hb.push]
      have hkey : a ∉ pathsOf b.manifest.entries := Keyed.lookup_eq_none_iff.1 ha
      have hb' : (b.withEntries (b.manifest.entries ++ [dirEntry a])).Indexed := by
        refine indexed_withEntries ?_
        rw [pathsOf, List.map_append, List.nodup_append]
        refine ⟨hb.nodup, by simp, ?_⟩
        intro x hx y hy
        rw [List.map_singleton, List.mem_singleton] at hy
        have hya : y = a := hy
        rintro rfl
        exact hkey (hya ▸ hx)
      have hsame : ∀ c ∈ ps, entryAt (b.manifest.entries ++ [dirEntry a]) c = entryAt b.manifest.entries c := by
        intro c hc
        have hne : c ≠ a := fun e => hps.1 (e ▸ hc)
        rw [entryAt, Keyed.lookup_append]
        have : Keyed.lookup EntryV2.path [dirEntry a] c = none := by
          rw [Keyed.lookup_eq_none_iff]
          simpa [dirEntry] using hne
        simp [this]
      have hfilter : ∀ qs, qs ⊆ ps →
          (qs.filter fun c => (entryAt (b.manifest.entries ++ [dirEntry a]) c).isNone) =
            qs.filter fun c => (entryAt b.manifest.entries c).isNone := by
        intro qs hqs
        apply List.filter_congr
        intro c hc
        rw [hsame c (hqs hc)]
      refine wp_mono (ih hb' hps.2) ?_
      intro r b' h
      cases r with
      | ok u =>
        obtain ⟨h1, h2⟩ := h
        simp only [withEntries_entries, withEntries_withEntries] at h1 h2
        refine ⟨?_, ?_⟩
        · intro c hc d hd
          rcases List.mem_cons.1 hc with rfl | hc
          · rw [ha] at hd
            exact absurd hd (by simp)
          · exact h1 c hc d (by rw [hsame c hc, hd])
        · rw [h2, hfilter ps (List.Subset.refl _)]
          simp [ha]
      | error e =>
        obtain ⟨ps₁, c, ps₂, d, rfl, hc, hd, h2⟩ := h
        simp only [withEntries_entries, withEntries_withEntries] at hc h2
        refine ⟨a :: ps₁, c, ps₂, d, rfl, ?_, hd, ?_⟩
        · rwa [hsame c (by simp)] at hc
        · rw [h2, hfilter ps₁ (List.subset_append_left _ _)]
          simp [ha]
    | some d =>
      simp only [Option.map_some]
      cases hd : d.kind with
      | dir =>
        refine wp_mono (ih hb hps.2) ?_
        intro r b' h
        cases r with
        | ok u =>
          obtain ⟨h1, h2⟩ := h
          refine ⟨?_, ?_⟩
          · intro c hc e he
            rcases List.mem_cons.1 hc with rfl | hc
            · rw [ha, Option.some.injEq] at he
              exact he ▸ hd
            · exact h1 c hc e he
          · rw [h2]
            simp [ha]
        | error e =>
          obtain ⟨ps₁, c, ps₂, f, rfl, hc, hf, h2⟩ := h
          refine ⟨a :: ps₁, c, ps₂, f, rfl, hc, hf, ?_⟩
          rw [h2]
          simp [ha]
      | file =>
        refine ⟨[], a, ps, d, rfl, ha, hd, ?_⟩
        simpa using hb.withEntries_self.symm

/-! ### The whole walk -/

/-- The entries hold the parents of each entry, as directories. -/
def ClosedEntries (es : List EntryV2) : Prop :=
  ∀ a p e, Below '/' a p → entryAt es p = some e → ∃ d, entryAt es a = some d ∧ d.kind = .dir

theorem ensureDirs_spec {b : VaultBatch P} (hb : b.Indexed) {p : Str} (hp : NormalPath p) :
    wp (ensureDirs p) (fun r b' => match r with
      | .ok () => NoFileAbove b.manifest.entries p ∧ b' = b.withEntries (withParents b.manifest.entries p)
      | .error _ => ∃ ps : List Str, ps.Sublist (missingParents b.manifest.entries p) ∧
          (∃ f d, Below '/' f p ∧ entryAt b.manifest.entries f = some d ∧ d.kind = .file ∧ ∀ a ∈ ps, Below '/' a f) ∧
          b' = b.withEntries (b.manifest.entries ++ ps.map dirEntry)) b := by
  unfold ensureDirs
  simp only [ensureDirsFrom_eq, accPaths_normal hp]
  refine wp_mono (ensureAll_spec hb _ (parents_nodup p)) ?_
  intro r b' h
  cases r with
  | ok u =>
    obtain ⟨h1, h2⟩ := h
    exact ⟨fun a d ha hd => h1 a (mem_parents.2 ha) d hd, h2⟩
  | error e =>
    obtain ⟨ps₁, f, ps₂, d, hps, hf, hk, rfl⟩ := h
    -- what stands before the file in the walk lies above it
    have hpair : (parents '/' p).Pairwise (Below '/') := parents_pairwise p
    have hmem : f ∈ parents '/' p := hps ▸ by simp
    rw [hps, List.pairwise_append] at hpair
    refine ⟨_, ?_, ⟨f, d, mem_parents.1 hmem, hf, hk, fun a ha => ?_⟩, rfl⟩
    · unfold missingParents
      rw [hps, List.filter_append]
      exact List.sublist_append_left _ _
    · exact hpair.2.2 a (List.mem_of_mem_filter ha) f (by simp)

end FileSec
