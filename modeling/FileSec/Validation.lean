import FileSec.Manifest
import Mathlib.Data.List.Forall2

/-!
# What the validation accepts

`validateManifestV2` walks over the entries with the paths and the total size so far.  It accepts exactly the manifests
that satisfy each of its rules: `validateManifestV2_eq_ok`.
-/

namespace FileSec

/-- What `validate_manifest_v2` asks of a file entry on its own. -/
structure EntryV2.FileOk (alg : AeadAlg) (e : EntryV2) : Prop where
  fileId : ∃ id, e.fileId = some id ∧ validateBlobId id = .ok ()
  chunkSize : 0 < e.chunkSize ∧ e.chunkSize ≤ maxChunkSize
  chunks : numChunks e.size e.chunkSize ≤ u32Max
  key : e.key ≠ none
  nonce : ∃ nonce, e.nonce = some nonce ∧ nonce.length = alg.streamNonceLen

/-- The total size of the files. -/
def totalSize (es : List EntryV2) : Nat := ((es.filter fun e => e.kind = .file).map (·.size)).sum

/-- The paths and kinds that `check_tree_shape` looks at. -/
def shapeOf (norms : List Str) (es : List EntryV2) : List (Str × EntryKind) := norms.zip (es.map (·.kind))

@[simp] theorem totalSize_nil : totalSize [] = 0 := rfl

theorem totalSize_cons (e : EntryV2) (es : List EntryV2) :
    totalSize (e :: es) = (if e.kind = .file then e.size else 0) + totalSize es := by
  unfold totalSize
  split <;> simp_all

theorem validateFileEntry_eq_ok {alg : AeadAlg} {total total' : Nat} {e : EntryV2} :
    validateFileEntry alg total e = .ok total' ↔
      e.FileOk alg ∧ total + e.size ≤ u64Max ∧ total' = total + e.size := by
  unfold validateFileEntry
  cases hid : e.fileId with
  | none =>
    simp only [reduceCtorEq, false_iff, not_and]
    rintro ⟨⟨id, h, -⟩, -⟩
    simp [hid] at h
  | some id =>
    simp only
    cases hv : validateBlobId id with
    | error err =>
      simp only [reduceCtorEq, false_iff, not_and]
      rintro ⟨⟨id', h, h'⟩, -⟩
      rw [hid, Option.some.injEq] at h
      rw [h, h'] at hv
      simp at hv
    | ok u =>
      simp only
      constructor
      · intro h
        split at h
        · simp at h
        · split at h
          · simp at h
          · split at h
            · simp at h
            · split at h
              · simp at h
              · split at h
                · simp at h
                · rename_i h1 h2 h3 h4 h5
                  simp only [Except.ok.injEq] at h
                  obtain ⟨nonce, hn, hlen⟩ := Option.map_eq_some_iff.1 (not_not.1 h5)
                  refine ⟨⟨⟨id, hid, hv⟩, by omega, by omega, ?_, nonce, hn, hlen⟩, by omega, h.symm⟩
                  simpa [Option.isNone_iff_eq_none] using h4
      · rintro ⟨⟨-, hchunk, hcount, hkey, nonce, hn, hlen⟩, htotal, rfl⟩
        rw [if_neg (by omega), if_neg (by omega), if_neg (by omega), if_neg (by simpa using hkey),
          if_neg (by simp [hn, hlen])]

/-- The loop, from the paths `shape` and the total size `total`. -/
private theorem validateEntries_eq_ok {alg : AeadAlg} {es : List EntryV2} {shape shape' : List (Str × EntryKind)}
    {total : Nat} (hnd : (shape.map (·.1)).Nodup) (htotal : total ≤ u64Max) :
    validateEntries alg es shape total = .ok shape' ↔
      ∃ norms, List.Forall₂ (fun e norm => normalizeStoredPath e.path = .ok norm) es norms ∧
        (shape.map (·.1) ++ norms).Nodup ∧ (∀ e ∈ es, e.kind = .file → e.FileOk alg) ∧
        total + totalSize es ≤ u64Max ∧ shape' = shape ++ shapeOf norms es := by
  induction es generalizing shape total with
  | nil =>
    simp only [validateEntries, Except.ok.injEq]
    constructor
    · rintro rfl
      exact ⟨[], .nil, by simpa using hnd, by simp, by simpa using htotal, by simp [shapeOf]⟩
    · rintro ⟨norms, hf, -, -, -, rfl⟩
      cases hf
      simp [shapeOf]
  | cons e es ih =>
    unfold validateEntries
    cases hnorm : normalizeStoredPath e.path with
    | error err =>
      simp only [reduceCtorEq, false_iff, not_exists, not_and]
      rintro norms hf
      cases hf with
      | cons h => rw [hnorm] at h; simp at h
    | ok norm =>
      simp only
      -- what the induction hypothesis says of the rest, once the entry itself has passed
      have hrest : ∀ total', norm ∉ shape.map (·.1) → total' ≤ u64Max →
          (validateEntries alg es (shape ++ [(norm, e.kind)]) total' = .ok shape' ↔
            ∃ norms, List.Forall₂ (fun e norm => normalizeStoredPath e.path = .ok norm) es norms ∧
              (shape.map (·.1) ++ norm :: norms).Nodup ∧ (∀ e ∈ es, e.kind = .file → e.FileOk alg) ∧
              total' + totalSize es ≤ u64Max ∧ shape' = shape ++ shapeOf (norm :: norms) (e :: es)) := by
        intro total' hnew ht
        have hnd' : ((shape ++ [(norm, e.kind)]).map (·.1)).Nodup := by
          rw [List.map_append, List.nodup_append]
          refine ⟨hnd, by simp, ?_⟩
          rintro a ha b hb rfl
          simp only [List.map_cons, List.map_nil, List.mem_singleton] at hb
          exact hnew (hb ▸ ha)
        rw [ih hnd' ht]
        simp [shapeOf]
      have hhead : ∀ {Q : List Str → Prop},
          (∃ norms, List.Forall₂ (fun e norm => normalizeStoredPath e.path = .ok norm) (e :: es) norms ∧ Q norms) ↔
            ∃ norms, List.Forall₂ (fun e norm => normalizeStoredPath e.path = .ok norm) es norms ∧
              Q (norm :: norms) := by
        intro Q
        constructor
        · rintro ⟨norms, hf, hq⟩
          cases hf with
          | cons h hf =>
            rw [hnorm, Except.ok.injEq] at h
            subst h
            exact ⟨_, hf, hq⟩
        · rintro ⟨norms, hf, hq⟩
          exact ⟨norm :: norms, .cons hnorm hf, hq⟩
      rw [hhead]
      by_cases hdup : norm ∈ shape.map (·.1)
      · rw [if_pos hdup]
        simp only [reduceCtorEq, false_iff, not_exists, not_and]
        intro norms _ hn
        rw [List.nodup_append] at hn
        exact absurd rfl (hn.2.2 norm hdup norm (by simp))
      · rw [if_neg hdup]
        by_cases hk : e.kind = .file
        · rw [if_pos hk, totalSize_cons, if_pos hk]
          cases hv : validateFileEntry alg total e with
          | error err =>
            simp only [reduceCtorEq, false_iff, not_exists, not_and]
            intro norms _ _ hall hle
            have hle' : total + e.size ≤ u64Max := by omega
            rw [validateFileEntry_eq_ok.2 ⟨hall e (by simp) hk, hle', rfl⟩] at hv
            simp at hv
          | ok total' =>
            obtain ⟨hok, hle, rfl⟩ := validateFileEntry_eq_ok.1 hv
            simp only
            rw [hrest _ hdup hle]
            simp only [List.forall_mem_cons, hk, hok, forall_const, true_and, Nat.add_assoc]
        · rw [if_neg hk, totalSize_cons, if_neg hk, Nat.zero_add, hrest _ hdup htotal]
          simp only [List.forall_mem_cons, hk, false_implies, true_and]

/-- The rules a valid manifest satisfies. -/
theorem validateManifestV2_eq_ok {m : ManifestV2} {alg : AeadAlg} : validateManifestV2 m alg = .ok () ↔
    m.entries.length ≤ maxManifestEntries ∧
      ∃ norms, List.Forall₂ (fun e norm => normalizeStoredPath e.path = .ok norm) m.entries norms ∧ norms.Nodup ∧
        (∀ e ∈ m.entries, e.kind = .file → e.FileOk alg) ∧ totalSize m.entries ≤ u64Max ∧
        checkTreeShape (shapeOf norms m.entries) = .ok () := by
  unfold validateManifestV2
  split
  · simp
    omega
  · rename_i hlen
    have hloop := fun shape => @validateEntries_eq_ok alg m.entries [] shape 0 (by simp) (by decide)
    simp only [List.map_nil, List.nil_append, Nat.zero_add] at hloop
    cases hv : validateEntries alg m.entries [] 0 with
    | error err =>
      simp only [reduceCtorEq, false_iff, not_and, not_exists]
      intro _ norms hf hnd hfile htotal
      have := (hloop (shapeOf norms m.entries)).2 ⟨norms, hf, hnd, hfile, htotal, rfl⟩
      rw [hv] at this
      simp at this
    | ok shape =>
      obtain ⟨norms, hf, hnd, hfile, htotal, rfl⟩ := (hloop shape).1 hv
      simp only
      constructor
      · exact fun h => ⟨by omega, norms, hf, hnd, hfile, htotal, h⟩
      · rintro ⟨-, norms', hf', -, -, -, h⟩
        have : norms' = norms := by
          refine List.right_unique_forall₂' ?_ hf' hf
          intro e a b ha hb
          rw [ha, Except.ok.injEq] at hb
          exact hb
        exact this ▸ h

/-! ### The rules, entry by entry -/

open SepPath

/-- The path of an entry and its kind. -/
abbrev EntryV2.site (e : EntryV2) : Str × EntryKind := (e.path, e.kind)

/-- Neither of two paths is the other, and neither is that of a file above the other. -/
def Unclashing (x y : Str × EntryKind) : Prop :=
  x.1 ≠ y.1 ∧ (x.2 = .file → ¬ Below '/' x.1 y.1) ∧ (y.2 = .file → ¬ Below '/' y.1 x.1)

/-- Entries with these paths and kinds can stand in one manifest: what the paths normalise to does not clash. -/
def Apart (x y : Str × EntryKind) : Prop :=
  ∀ n n', normalizeStoredPath x.1 = .ok n → normalizeStoredPath y.1 = .ok n' → Unclashing (n, x.2) (n', y.2)

/-- The entries of a valid manifest. -/
structure ValidEntries (alg : AeadAlg) (es : List EntryV2) : Prop where
  count : es.length ≤ maxManifestEntries
  paths : ∀ e ∈ es, ∃ n, normalizeStoredPath e.path = .ok n
  apart : (es.map EntryV2.site).Pairwise Apart
  files : ∀ e ∈ es, e.kind = .file → e.FileOk alg
  total : totalSize es ≤ u64Max

theorem Unclashing.symm {x y : Str × EntryKind} (h : Unclashing x y) : Unclashing y x := ⟨h.1.symm, h.2.2, h.2.1⟩

theorem Apart.symm {x y : Str × EntryKind} (h : Apart x y) : Apart y x := fun n n' hn hn' => (h n' n hn' hn).symm

theorem checkTreeShape_eq_ok {shape : List (Str × EntryKind)} :
    checkTreeShape shape = .ok () ↔ ∀ x ∈ shape, ∀ y ∈ shape, x.2 = .file → ¬ Below '/' x.1 y.1 := by
  unfold checkTreeShape
  simp only
  split
  · rename_i h
    simp only [reduceCtorEq, false_iff]
    intro hall
    obtain ⟨y, hy, hpar⟩ := List.any_eq_true.1 h
    obtain ⟨a, ha, hfile⟩ := List.any_eq_true.1 hpar
    rw [List.contains_iff_mem, List.mem_map] at hfile
    obtain ⟨x, hx, rfl⟩ := hfile
    obtain ⟨hx, hk⟩ := List.mem_filter.1 hx
    exact hall x hx y hy (by simpa using hk) (mem_parents.1 ha)
  · rename_i h
    simp only [true_iff]
    intro x hx y hy hk hb
    refine h (List.any_eq_true.2 ⟨y, hy, List.any_eq_true.2 ⟨x.1, mem_parents.2 hb, ?_⟩⟩)
    rw [List.contains_iff_mem, List.mem_map]
    exact ⟨x, List.mem_filter.2 ⟨hx, by simpa using hk⟩, rfl⟩

private theorem pairwise_unclashing {shape : List (Str × EntryKind)} :
    shape.Pairwise Unclashing ↔ (shape.map (·.1)).Nodup ∧ checkTreeShape shape = .ok () := by
  rw [checkTreeShape_eq_ok, List.Nodup, List.pairwise_map]
  constructor
  · intro h
    refine ⟨h.imp fun h => h.1, ?_⟩
    have hall := List.Pairwise.forall_of_forall_of_flip (fun x _ _ => not_below_self x.1) (h.imp fun h => h.2.1)
      (h.imp fun h => h.2.2)
    exact fun x hx y hy => hall hx hy
  · rintro ⟨hnd, hshape⟩
    exact hnd.imp_of_mem fun {x y} hx hy hne => ⟨hne, hshape x hx y hy, hshape y hy x hx⟩

private theorem forall_apart {es : List EntryV2} {norms : List Str}
    (h : List.Forall₂ (fun e norm => normalizeStoredPath e.path = .ok norm) es norms) {x : Str × EntryKind} {n : Str}
    (hx : normalizeStoredPath x.1 = .ok n) :
    (∀ y ∈ es.map EntryV2.site, Apart x y) ↔ ∀ y ∈ shapeOf norms es, Unclashing (n, x.2) y := by
  induction h with
  | nil => simp [shapeOf]
  | @cons e norm es norms he _ ih =>
    have hhead : Apart x e.site ↔ Unclashing (n, x.2) (norm, e.kind) := by
      constructor
      · exact fun h => h n norm hx he
      · intro h n₁ n₂ h₁ h₂
        rw [hx, Except.ok.injEq] at h₁
        rw [he, Except.ok.injEq] at h₂
        exact h₁ ▸ h₂ ▸ h
    simp only [shapeOf, List.map_cons, List.zip_cons_cons, List.forall_mem_cons] at ih ⊢
    rw [ih, hhead]

private theorem pairwise_apart {es : List EntryV2} {norms : List Str}
    (h : List.Forall₂ (fun e norm => normalizeStoredPath e.path = .ok norm) es norms) :
    (es.map EntryV2.site).Pairwise Apart ↔ (shapeOf norms es).Pairwise Unclashing := by
  induction h with
  | nil => simp [shapeOf]
  | @cons e norm es norms he htail ih =>
    have hhead := forall_apart htail (x := e.site) he
    simp only [shapeOf, List.map_cons, List.zip_cons_cons, List.pairwise_cons] at ih hhead ⊢
    rw [ih, hhead]

private theorem exists_norm {es : List EntryV2} {norms : List Str}
    (h : List.Forall₂ (fun e norm => normalizeStoredPath e.path = .ok norm) es norms) :
    ∀ e ∈ es, ∃ n, normalizeStoredPath e.path = .ok n := by
  induction h with
  | nil => simp
  | cons h _ ih => exact List.forall_mem_cons.2 ⟨⟨_, h⟩, ih⟩

/-- A manifest is valid exactly if its entries are. -/
theorem validateManifestV2_iff {m : ManifestV2} {alg : AeadAlg} :
    validateManifestV2 m alg = .ok () ↔ ValidEntries alg m.entries := by
  have hmap : ∀ {norms : List Str}, List.Forall₂ (fun e norm => normalizeStoredPath e.path = .ok norm) m.entries norms →
      (shapeOf norms m.entries).map (·.1) = norms := by
    intro norms h
    rw [shapeOf, List.map_fst_zip (by simp [h.length_eq])]
  rw [validateManifestV2_eq_ok]
  constructor
  · rintro ⟨hcount, norms, hf, hnd, hfile, htotal, hshape⟩
    refine ⟨hcount, exists_norm hf, ?_, hfile, htotal⟩
    rw [pairwise_apart hf, pairwise_unclashing, hmap hf]
    exact ⟨hnd, hshape⟩
  · rintro ⟨hcount, hpaths, hapart, hfile, htotal⟩
    choose! f hf using hpaths
    have hall : List.Forall₂ (fun e norm => normalizeStoredPath e.path = .ok norm) m.entries (m.entries.map f) := by
      rw [List.forall₂_map_right_iff, List.forall₂_same]
      exact hf
    rw [pairwise_apart hall, pairwise_unclashing, hmap hall] at hapart
    exact ⟨hcount, _, hall, hapart.1, hfile, htotal, hapart.2⟩

/-- The files of a valid manifest have blob ids. -/
theorem fileId_of_valid {m : ManifestV2} {alg : AeadAlg} (h : validateManifestV2 m alg = .ok ()) {e : EntryV2}
    (he : e ∈ m.entries) (hk : e.kind = .file) : ∃ id, e.fileId = some id ∧ validateBlobId id = .ok () := by
  obtain ⟨-, _, -, -, hfile, -⟩ := validateManifestV2_eq_ok.1 h
  exact (hfile e he hk).fileId

end FileSec
