import FileSec.Fsec.Layout

/-!
# Before an extraction

`preflight_extraction` refuses to extract entries that would meet on a destination that folds case and normalises
Unicode (`vault.rs`).  It compares the listed paths with each other.  A directory that is only implied, as an ancestor of
a listed path, is not compared with anything: `preflight_complete_iff` says when that does not matter.
-/

namespace FileSec

open SepPath

/-- What the code uses of Unicode: the canonical decomposition and composition, and lower case. -/
structure Folding where
  nfd : Str → Str
  toLowercase : Str → Str
  nfc : Str → Str

/-- `portable_collision_key` -/
def Folding.portableCollisionKey (u : Folding) (normalized : Str) : Str := u.nfc (u.toLowercase (u.nfd normalized))

/-- `MAX_REPORTED_CONFLICTS` -/
def maxReportedConflicts : Nat := 8

section Code

variable (u : Folding) (metadata : Str → Option Bool)

/-- What one round of `preflight_extraction` notes about a normalised path: `seen` has the first path of each
`portable_collision_key`, and `symlink_metadata` says whether what stands at the destination is a directory. -/
def noteEntry (norm : Str) (kind : EntryKind) (seen : List (Str × Str)) (conflicts : List Str) :
    List (Str × Str) × List Str :=
  match seen.lookup (u.portableCollisionKey norm) with
  | some first =>
    if first ≠ norm then
      (seen, conflicts ++ ["\"".toList ++ first ++ "\" and \"".toList ++ norm ++ "\" name the same file".toList])
    else (seen, conflicts)
  | none =>
    let conflicts :=
      if kind = .file ∧ metadata norm = some false then
        conflicts ++ ["\"".toList ++ norm ++ "\" already exists at the destination".toList]
      else conflicts
    ((u.portableCollisionKey norm, norm) :: seen, conflicts)

/-- The loop of `preflight_extraction`. -/
def preflightLoop : List (Str × EntryKind) → List (Str × Str) → List Str → Result (List Str)
  | [], _, conflicts => .ok conflicts
  | (path, kind) :: rest, seen, conflicts =>
    match normalizePath path with
    | .error e => .error e
    | .ok norm =>
      let noted := noteEntry u metadata norm kind seen conflicts
      if noted.2.length ≥ maxReportedConflicts then .ok noted.2 else preflightLoop rest noted.1 noted.2

/-- `preflight_extraction` -/
def preflightExtraction (entries : List (Str × EntryKind)) : Result Unit := do
  let conflicts ← preflightLoop u metadata entries [] []
  if conflicts = [] then .ok () else .error (.extractionConflict ("; ".toList.intercalate conflicts))

end Code

/-! ### What a reader holds -/

/-- The entries have these normalised paths, which are distinct, and no file stands above another entry: what opening a
container or a vault checks. -/
structure Held (entries shape : List (Str × EntryKind)) : Prop where
  normalizes : List.Forall₂ (fun e x => normalizeStoredPath e.1 = .ok x.1 ∧ x.2 = e.2) entries shape
  nodup : (shape.map (·.1)).Nodup
  tree : ∀ x ∈ shape, ∀ y ∈ shape, x.2 = .file → ¬ Below '/' x.1 y.1

/-- The entries of a container that opens. -/
theorem Fsec.Shaped.held {es : List Entry} {shape : List (Str × EntryKind)} (h : Fsec.Shaped es shape) :
    Held (es.map fun e => (e.path, e.kind)) shape := by
  refine ⟨?_, h.nodup, h.tree⟩
  rw [List.forall₂_map_left_iff]
  exact h.normalizes.imp fun e x hx => ⟨normalizeStoredPath_of_normalizePath hx.1, hx.2⟩

/-- The entries of a vault that opens. -/
theorem ValidEntries.held {alg : AeadAlg} {es : List EntryV2} (h : ValidEntries alg es) :
    ∃ shape, Held (es.map fun e => (e.path, e.kind)) shape := by
  have hpaths := h.paths
  choose! f hf using hpaths
  have hpair : (es.map fun e => (f e, e.kind)).Pairwise Unclashing := by
    have := h.apart
    rw [List.pairwise_map] at this ⊢
    refine this.imp_of_mem fun {x y} hx hy hxy => hxy _ _ (hf x hx) (hf y hy)
  refine ⟨es.map fun e => (f e, e.kind), ?_, ?_, ?_⟩
  · rw [List.forall₂_map_left_iff, List.forall₂_map_right_iff, List.forall₂_same]
    exact fun e he => ⟨hf e he, rfl⟩
  · rw [List.Nodup, List.pairwise_map]
    exact hpair.imp fun h => h.1
  · intro x hx y hy hfile
    have hall := List.Pairwise.forall_of_forall_of_flip (fun x _ _ => not_below_self x.1) (hpair.imp fun h => h.2.1)
      (hpair.imp fun h => h.2.2)
    exact hall hx hy hfile

/-! ### What preflight compares -/

variable {u : Folding} {metadata : Str → Option Bool} {entries shape : List (Str × EntryKind)}

/-- Once there is a conflict, the extraction is refused. -/
private theorem preflightLoop_conflict {seen : List (Str × Str)} {conflicts : List Str} (h : conflicts ≠ []) :
    preflightLoop u metadata entries seen conflicts ≠ .ok [] := by
  induction entries generalizing seen conflicts with
  | nil => simpa [preflightLoop] using h
  | cons e entries ih =>
    unfold preflightLoop
    cases hn : normalizePath e.1 with
    | error err => simp
    | ok norm =>
      have hgrown : (noteEntry u metadata norm e.2 seen conflicts).2 ≠ [] := by
        unfold noteEntry
        split
        · split <;> simp [h]
        · dsimp only
          split <;> simp [h]
      dsimp only
      split
      · simpa using hgrown
      · exact ih hgrown

/-- What the loop accepts of entries with distinct normalised paths: clean paths whose keys are new and distinct, with no
file where one of theirs is to be written. -/
private theorem preflightLoop_eq_ok {seen : List (Str × Str)}
    (h : List.Forall₂ (fun e x => normalizeStoredPath e.1 = .ok x.1 ∧ x.2 = e.2) entries shape)
    (hnodup : (shape.map (·.1)).Nodup) (hnew : ∀ x ∈ shape, x.1 ∉ seen.map (·.2)) :
    preflightLoop u metadata entries seen [] = .ok [] ↔
      (∀ x ∈ shape, x.1.any isSpoofingFormatChar = false) ∧ (shape.map fun x => u.portableCollisionKey x.1).Nodup ∧
        (∀ x ∈ shape, u.portableCollisionKey x.1 ∉ seen.map (·.1)) ∧ ∀ x ∈ shape, x.2 = .file → metadata x.1 ≠ some false := by
  induction h generalizing seen with
  | nil => simp [preflightLoop]
  | @cons e x entries shape hx _ ih =>
    rw [List.map_cons, List.nodup_cons] at hnodup
    obtain ⟨hstored, hkind⟩ := hx
    unfold preflightLoop
    cases hspoof : x.1.any isSpoofingFormatChar with
    | true =>
      have hn : ∃ err, normalizePath e.1 = .error err := by simp [normalizePath, hstored, hspoof, bind, Except.bind]
      obtain ⟨err, hn⟩ := hn
      rw [hn]
      refine iff_of_false (by simp) fun hall => ?_
      have hclean := hall.1 x (by simp)
      simp [hspoof] at hclean
    | false =>
      have hn : normalizePath e.1 = .ok x.1 := by simp [normalizePath, hstored, hspoof, bind, Except.bind]
      rw [hn]
      dsimp only
      rw [← hkind]
      cases hseen : seen.lookup (u.portableCollisionKey x.1) with
      | some first =>
        -- another path has the key
        have hmem : (u.portableCollisionKey x.1, first) ∈ seen := by
          obtain ⟨a, b, hab, -⟩ := List.lookup_eq_some_iff.1 hseen
          simp [hab]
        have hne : first ≠ x.1 := fun heq => hnew x (by simp) (heq ▸ List.mem_map_of_mem hmem)
        have hnote : (noteEntry u metadata x.1 x.2 seen []).2 ≠ [] := by simp [noteEntry, hseen, hne]
        refine iff_of_false ?_ fun hall => hall.2.2.1 x (by simp) (List.mem_map_of_mem hmem)
        split
        · simpa using hnote
        · exact preflightLoop_conflict hnote
      | none =>
        have hfree : u.portableCollisionKey x.1 ∉ seen.map (·.1) := by
          intro hmem
          obtain ⟨p, hp, hpk⟩ := List.mem_map.1 hmem
          have := List.lookup_eq_none_iff.1 hseen p hp
          simp [hpk] at this
        by_cases hfile : x.2 = .file ∧ metadata x.1 = some false
        · have hnote : (noteEntry u metadata x.1 x.2 seen []).2 ≠ [] := by simp [noteEntry, hseen, hfile]
          refine iff_of_false ?_ fun hall => hall.2.2.2 x (by simp) hfile.1 hfile.2
          split
          · simpa using hnote
          · exact preflightLoop_conflict hnote
        · have hnote : noteEntry u metadata x.1 x.2 seen [] = ((u.portableCollisionKey x.1, x.1) :: seen, []) := by
            simp only [noteEntry, hseen, if_neg hfile]
          have hrest : ∀ y ∈ shape, y.1 ∉ ((u.portableCollisionKey x.1, x.1) :: seen).map (·.2) := by
            intro y hy hmem
            rw [List.map_cons, List.mem_cons] at hmem
            rcases hmem with heq | hmem
            · exact hnodup.1 (List.mem_map.2 ⟨y, hy, heq⟩)
            · exact hnew y (by simp [hy]) hmem
          have hfew : ¬ ([] : List Str).length ≥ maxReportedConflicts := by decide
          rw [hnote, if_neg hfew, ih hnodup.2 hrest]
          simp only [List.forall_mem_cons, List.map_cons, List.nodup_cons, hspoof, hfree, not_false_eq_true, true_and,
            ne_eq]
          simp only [List.mem_cons, not_or]
          rw [not_and] at hfile
          constructor
          · rintro ⟨h1, h2, h3, h4⟩
            refine ⟨h1, ⟨fun hmem => ?_, h2⟩, fun y hy => (h3 y hy).2, hfile, h4⟩
            obtain ⟨y, hy, heq⟩ := List.mem_map.1 hmem
            exact (h3 y hy).1 heq
          · rintro ⟨h1, ⟨h2, h3⟩, h4, -, h5⟩
            exact ⟨h1, h3, fun y hy => ⟨fun heq => h2 (heq ▸ List.mem_map_of_mem hy), h4 y hy⟩, h5⟩

/-- What preflight looks for: a path with invisible characters, two paths with one key, or a file where one of the
entries' files is to be written. -/
def Refused (key : Str → Str) (metadata : Str → Option Bool) (shape : List (Str × EntryKind)) : Prop :=
  (∃ x ∈ shape, x.1.any isSpoofingFormatChar = true) ∨ ¬ (shape.map fun x => key x.1).Nodup ∨
    ∃ x ∈ shape, x.2 = .file ∧ metadata x.1 = some false

/-- What preflight accepts. -/
theorem preflightExtraction_eq_ok (h : Held entries shape) :
    preflightExtraction u metadata entries = .ok () ↔ ¬ Refused u.portableCollisionKey metadata shape := by
  have hloop : preflightLoop u metadata entries [] [] = .ok [] ↔ _ :=
    preflightLoop_eq_ok h.normalizes h.nodup (by simp)
  have hdone : preflightExtraction u metadata entries = .ok () ↔ preflightLoop u metadata entries [] [] = .ok [] := by
    unfold preflightExtraction
    cases preflightLoop u metadata entries [] [] with
    | error e => simp [bind, Except.bind]
    | ok conflicts =>
      simp only [bind, Except.bind]
      split <;> simp_all
  rw [hdone, hloop]
  unfold Refused
  simp only [List.map_nil, List.not_mem_nil, not_false_eq_true, implies_true, true_and, not_or, not_not, not_exists,
    not_and, Bool.not_eq_true, ne_eq]

/-! ### What can meet -/

/-- Nothing meets on the destination: distinct entries have distinct keys, and no file has the key of a directory above
another entry. -/
structure NoneMeet (key : Str → Str) (shape : List (Str × EntryKind)) : Prop where
  entries : ∀ x ∈ shape, ∀ y ∈ shape, x ≠ y → key x.1 ≠ key y.1
  above : ∀ x ∈ shape, x.2 = .file → ∀ y ∈ shape, y ≠ x → ∀ a, Below '/' a y.1 → key x.1 ≠ key a

/-- No file has the key of a directory that only the paths below it imply. -/
def ImpliedClear (key : Str → Str) (shape : List (Str × EntryKind)) : Prop :=
  ∀ x ∈ shape, x.2 = .file → ∀ y ∈ shape, y ≠ x → ∀ a, Below '/' a y.1 → a ∉ shape.map (·.1) → key x.1 ≠ key a

variable {key : Str → Str}

private theorem nodup_keys_iff (hnodup : (shape.map (·.1)).Nodup) :
    (shape.map fun x => key x.1).Nodup ↔ ∀ x ∈ shape, ∀ y ∈ shape, x ≠ y → key x.1 ≠ key y.1 := by
  have hshape : shape.Nodup := hnodup.of_map
  rw [List.nodup_map_iff_inj_on hshape]
  refine forall₂_congr fun x _ => forall₂_congr fun y _ => ?_
  exact ⟨fun h hne heq => hne (h heq), fun h heq => by_contra fun hne => h hne heq⟩

/-- Where keys are distinct, only implied directories can still meet a file. -/
theorem noneMeet_iff (h : Held entries shape) :
    NoneMeet key shape ↔ (shape.map fun x => key x.1).Nodup ∧ ImpliedClear key shape := by
  rw [nodup_keys_iff h.nodup]
  constructor
  · exact fun hmeet => ⟨hmeet.entries, fun x hx hfile y hy hne a hb _ => hmeet.above x hx hfile y hy hne a hb⟩
  · rintro ⟨hentries, hclear⟩
    refine ⟨hentries, fun x hx hfile y hy hne a hb => ?_⟩
    by_cases ha : a ∈ shape.map (·.1)
    · -- a listed directory has its own key
      obtain ⟨d, hd, rfl⟩ := List.mem_map.1 ha
      refine hentries x hx d hd ?_
      rintro rfl
      exact h.tree x hx y hy hfile hb
    · exact hclear x hx hfile y hy hne a hb ha

/-- Preflight is complete for what a reader holds, exactly if it refuses anyway or no file has the key of a directory
that is only implied. -/
theorem preflight_complete_iff (h : Held entries shape) :
    (preflightExtraction u metadata entries = .ok () → NoneMeet u.portableCollisionKey shape) ↔
      Refused u.portableCollisionKey metadata shape ∨ ImpliedClear u.portableCollisionKey shape := by
  rw [preflightExtraction_eq_ok h, noneMeet_iff h, ← or_iff_not_imp_left]
  refine or_congr_right' fun hok => and_iff_right ?_
  exact by_contra fun hdup => hok (Or.inr (Or.inl hdup))

/-! ### Runs on fixed entries -/

/-- ASCII letters fold, and nothing is composed of others. -/
private def asciiFolding : Folding := ⟨id, List.map Char.toLower, id⟩

/-- A file, and another one below a directory that is not listed. -/
private def besideAndBelow : List (Str × EntryKind) := [("A".toList, .file), ("a/b".toList, .file)]

private theorem besideAndBelow_held : Held besideAndBelow besideAndBelow := by
  have hshape : checkTreeShape besideAndBelow = .ok () := by decide
  refine ⟨?_, by decide, checkTreeShape_eq_ok.1 hshape⟩
  exact .cons ⟨by decide, rfl⟩ (.cons ⟨by decide, rfl⟩ .nil)

theorem preflight_complete_iff_beside :
    Held besideAndBelow besideAndBelow ∧
      ((preflightExtraction asciiFolding (fun _ => none) besideAndBelow = .ok () →
          NoneMeet asciiFolding.portableCollisionKey besideAndBelow) ↔
        Refused asciiFolding.portableCollisionKey (fun _ => none) besideAndBelow ∨
          ImpliedClear asciiFolding.portableCollisionKey besideAndBelow) :=
  ⟨besideAndBelow_held, preflight_complete_iff besideAndBelow_held⟩

/-- Preflight accepts a file `A` together with a file `a/b`, although where case folds the directory `a` is `A`. -/
theorem preflight_incomplete :
    Held besideAndBelow besideAndBelow ∧
      preflightExtraction asciiFolding (fun _ => none) besideAndBelow = .ok () ∧
      ¬ NoneMeet asciiFolding.portableCollisionKey besideAndBelow := by
  refine ⟨besideAndBelow_held, by decide, fun hmeet => ?_⟩
  have hbelow : Below '/' "a".toList "a/b".toList := mem_parents.1 (by decide)
  exact hmeet.above _ (List.mem_cons_self ..) rfl _ (List.mem_cons_of_mem _ (List.mem_cons_self ..)) (by decide) _ hbelow
    (by decide)

end FileSec
