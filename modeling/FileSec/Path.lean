import FileSec.Text
import FileSec.Lib.SepPath

/-!
# Vault paths

Normalisation of vault paths and the tree-shape check (`vault.rs`), with the characterisation of the paths that
normalisation returns: `normalizeStoredPath` answers with exactly the paths that satisfy `NormalPath`, its fixed
points.
-/

namespace FileSec

open SepPath

/-- `MAX_PATH_DEPTH` -/
def maxPathDepth : Nat := 64

/-- `MAX_PATH_LEN` -/
def maxPathLen : Nat := 4096

/-- `EntryKind` -/
inductive EntryKind where
  | file
  | dir
  deriving DecidableEq, Repr

/-- `util::is_spoofing_format_char` -/
def isSpoofingFormatChar (c : Char) : Bool :=
  let n := c.toNat
  n == 0xAD || n == 0x61C || n == 0x180E || (0x200B ≤ n && n ≤ 0x200F) || (0x202A ≤ n && n ≤ 0x202E) ||
    (0x2060 ≤ n && n ≤ 0x2064) || (0x2066 ≤ n && n ≤ 0x206F) || n == 0xFEFF || (0xFFF9 ≤ n && n ≤ 0xFFFB) ||
    n == 0xE0001 || (0xE0020 ≤ n && n ≤ 0xE007F)

/-- `str::to_uppercase`, as far as `isDeviceName` can see it: no character outside ASCII has an uppercase form made
of the letters of a device name. -/
def toUppercase (s : Str) : Str := s.map Char.toUpper

/-- What may follow `COM` or `LPT` in a reserved device name. -/
def devicePorts : List Str :=
  [['1'], ['2'], ['3'], ['4'], ['5'], ['6'], ['7'], ['8'], ['9'], ['¹'], ['²'], ['³']]

/-- The reserved device names, on the uppercased stem of a component. -/
def isDeviceName (stem : Str) : Bool :=
  ["CON".toList, "PRN".toList, "AUX".toList, "NUL".toList].contains stem ||
    ["COM".toList, "LPT".toList].any fun port =>
      match port.isPrefixOf? stem with
      | some n => devicePorts.contains n
      | none => false

/-- The characters no component may contain on any system. -/
def isNonPortableChar (c : Char) : Bool := [':', '<', '>', '"', '|', '?', '*'].contains c

/-- The checks on one component that is neither empty nor `.` nor `..`. -/
def checkComponent (comp : Str) : Result Unit :=
  if comp.any fun c => c.toNat < 0x20 || c.toNat == 0x7f then
    .error (.vault "control characters in path".toList)
  else if comp.any isNonPortableChar || comp.getLast? == some '.' || comp.getLast? == some ' ' then
    .error (.vault "non-portable path component".toList)
  else if isDeviceName (toUppercase (comp.takeWhile (· != '.'))) then
    .error (.vault "reserved device name in path".toList)
  else .ok ()

/-- The loop of `normalize_stored_path` over the components. -/
def normalizeComponents : List Str → Result (List Str)
  | [] => .ok []
  | comp :: rest =>
    if comp = [] ∨ comp = ['.'] then normalizeComponents rest
    else if comp = ['.', '.'] then .error (.vault "path traversal ('..') is not allowed".toList)
    else do
      checkComponent comp
      let components ← normalizeComponents rest
      .ok (comp :: components)

/-- A Windows drive prefix: `C:` as the first two bytes. -/
def hasDrivePrefix : Str → Bool
  | c :: ':' :: _ => c.isAlpha
  | _ => false

/-- `normalize_stored_path` -/
def normalizeStoredPath (path : Str) : Result Str :=
  if path = [] ∨ byteLen path > maxPathLen then .error (.vault "invalid path length".toList)
  else
    -- both separators count, so neither system can be tricked
    let unified := path.map fun c => if c = '\\' then '/' else c
    if unified.head? = some '/' then .error (.vault "absolute paths are not allowed".toList)
    else if hasDrivePrefix unified then .error (.vault "drive-letter paths are not allowed".toList)
    else do
      let components ← normalizeComponents (unified.splitOn '/')
      if components = [] then .error (.vault "path resolves to nothing".toList)
      else if components.length > maxPathDepth then .error (.vault "path is too deep".toList)
      else .ok (['/'].intercalate components)

/-- `normalize_path` -/
def normalizePath (path : Str) : Result Str := do
  let norm ← normalizeStoredPath path
  if norm.any isSpoofingFormatChar then
    .error (.vault "invisible or bidirectional formatting characters in path".toList)
  else .ok norm

/-- `check_tree_shape`.  The strings that `rsplit_once('/')` yields in turn are the `parents` of the path. -/
def checkTreeShape (entries : List (Str × EntryKind)) : Result Unit :=
  let files := (entries.filter (·.2 = .file)).map (·.1)
  if entries.any fun e => (parents '/' e.1).any files.contains then
    .error (.format "a file entry is used as a directory".toList)
  else .ok ()

/-! ### The paths normalisation returns -/

/-- A component that normalisation keeps as it is. -/
def GoodComponent (comp : Str) : Prop :=
  comp ≠ [] ∧ comp ≠ ['.'] ∧ comp ≠ ['.', '.'] ∧ '/' ∉ comp ∧ '\\' ∉ comp ∧ checkComponent comp = .ok ()

/-- A path in normal form. -/
def NormalPath (path : Str) : Prop :=
  (∀ comp ∈ path.splitOn '/', GoodComponent comp) ∧ (path.splitOn '/').length ≤ maxPathDepth ∧
    byteLen path ≤ maxPathLen

private theorem normalizeComponents_ok {comps out : List Str} (h : normalizeComponents comps = .ok out) :
    out.Sublist comps ∧ (['/'].intercalate out).Sublist (['/'].intercalate comps) ∧
      ∀ c ∈ out, c ≠ [] ∧ c ≠ ['.'] ∧ c ≠ ['.', '.'] ∧ checkComponent c = .ok () := by
  induction comps generalizing out with
  | nil =>
    simp only [normalizeComponents, Except.ok.injEq] at h
    subst h
    simp
  | cons comp rest ih =>
    have hrest : (['/'].intercalate rest).Sublist (['/'].intercalate (comp :: rest)) := by
      cases rest with
      | nil => simp
      | cons c rest =>
        rw [List.intercalate_cons_cons]
        exact List.sublist_append_right _ _
    unfold normalizeComponents at h
    split at h
    · obtain ⟨h1, h2, h3⟩ := ih h
      exact ⟨h1.cons _, h2.trans hrest, h3⟩
    · rename_i hskip
      rw [not_or] at hskip
      split at h
      · simp at h
      · rename_i hdots
        cases hc : checkComponent comp with
        | error e => simp [hc, bind, Except.bind] at h
        | ok u =>
          cases hr : normalizeComponents rest with
          | error e => simp [hc, hr, bind, Except.bind] at h
          | ok out' =>
            simp only [hc, hr, bind, Except.bind, Except.ok.injEq] at h
            subst h
            obtain ⟨h1, h2, h3⟩ := ih hr
            refine ⟨h1.cons_cons _, ?_, ?_⟩
            · cases out' with
              | nil =>
                rw [List.intercalate_singleton]
                cases rest with
                | nil => simp
                | cons c rest =>
                  rw [List.intercalate_cons_cons, List.append_assoc]
                  exact List.sublist_append_left _ _
              | cons d out' =>
                cases rest with
                | nil => simp at h1
                | cons c rest =>
                  rw [List.intercalate_cons_cons, List.intercalate_cons_cons, List.append_assoc,
                    List.append_assoc]
                  exact (List.Sublist.refl _).append ((List.Sublist.refl _).append h2)
            · intro c hcm
              rcases List.mem_cons.1 hcm with rfl | hcm
              · exact ⟨hskip.1, hskip.2, hdots, hc⟩
              · exact h3 c hcm

private theorem normalizeComponents_of_good {comps : List Str} (h : ∀ c ∈ comps, GoodComponent c) :
    normalizeComponents comps = .ok comps := by
  induction comps with
  | nil => rfl
  | cons comp rest ih =>
    obtain ⟨h1, h2, h3, -, -, hcheck⟩ := h comp (by simp)
    have hrest := ih fun c hc => h c (by simp [hc])
    simp [normalizeComponents, h1, h2, h3, hcheck, hrest, bind, Except.bind]

private theorem byteLen_unify (path : Str) :
    byteLen (path.map fun c => if c = '\\' then '/' else c) = byteLen path := by
  induction path with
  | nil => rfl
  | cons c path ih =>
    simp only [List.map_cons, byteLen_cons, ih]
    split
    · rename_i hc
      subst hc
      rfl
    · rfl

private theorem no_backslash_of_mem_unify {path c : Str}
    (h : c ∈ (path.map fun c => if c = '\\' then '/' else c).splitOn '/') : '\\' ∉ c := by
  intro hm
  obtain ⟨d, -, hd⟩ := List.mem_map.1 (mem_of_mem_splitOn h hm)
  split at hd
  · simp at hd
  · rename_i hne
    exact hne hd

/-- What normalisation returns is in normal form. -/
theorem normalPath_of_normalizeStoredPath {path norm : Str} (h : normalizeStoredPath path = .ok norm) :
    NormalPath norm := by
  unfold normalizeStoredPath at h
  split at h
  · simp at h
  · rename_i hlen
    rw [not_or, not_lt] at hlen
    simp only at h
    split at h
    · simp at h
    · split at h
      · simp at h
      · cases hc : normalizeComponents ((path.map fun c => if c = '\\' then '/' else c).splitOn '/') with
        | error e => simp [hc, bind, Except.bind] at h
        | ok comps =>
          simp only [hc, bind, Except.bind] at h
          split at h
          · simp at h
          · rename_i hne
            split at h
            · simp at h
            · rename_i hdepth
              rw [Except.ok.injEq] at h
              subst h
              obtain ⟨hsub, hbytes, hgood⟩ := normalizeComponents_ok hc
              have hslash : ∀ c ∈ comps, '/' ∉ c := fun c hcm => not_mem_of_mem_splitOn (hsub.subset hcm)
              have hsplit := List.splitOn_intercalate '/' hslash hne
              unfold NormalPath
              rw [hsplit]
              refine ⟨?_, by omega, ?_⟩
              · intro c hcm
                obtain ⟨h1, h2, h3, h4⟩ := hgood c hcm
                exact ⟨h1, h2, h3, hslash c hcm, no_backslash_of_mem_unify (hsub.subset hcm), h4⟩
              · have := byteLen_le_of_sublist hbytes
                rw [List.intercalate_splitOn, byteLen_unify] at this
                omega

theorem NormalPath.ne_nil {path : Str} (h : NormalPath path) : path ≠ [] := by
  rintro rfl
  exact (h.1 [] (by simp)).1 rfl

theorem NormalPath.no_backslash {path : Str} (h : NormalPath path) : '\\' ∉ path := by
  intro hm
  obtain ⟨c, hc, hx⟩ := exists_mem_splitOn_of_mem hm (show '\\' ≠ '/' by decide)
  exact (h.1 c hc).2.2.2.2.1 hx

theorem checkComponent_no_colon {comp : Str} (h : checkComponent comp = .ok ()) : ':' ∉ comp := by
  intro hm
  unfold checkComponent at h
  split at h
  · simp at h
  · split at h
    · simp at h
    · rename_i hport
      have : comp.any isNonPortableChar = true := List.any_eq_true.2 ⟨':', hm, by decide⟩
      simp [this] at hport

theorem NormalPath.not_drive {path : Str} (h : NormalPath path) : hasDrivePrefix path = false := by
  unfold hasDrivePrefix
  split
  · rename_i c rest
    obtain ⟨comp, hc, hx⟩ := exists_mem_splitOn_of_mem (show ':' ∈ c :: ':' :: rest by simp)
      (show ':' ≠ '/' by decide)
    exact absurd hx (checkComponent_no_colon (h.1 comp hc).2.2.2.2.2)
  · rfl

theorem NormalPath.head_ne {path : Str} (h : NormalPath path) : path.head? ≠ some '/' := by
  cases path with
  | nil => simp
  | cons c path =>
    rintro hc
    simp only [List.head?_cons, Option.some.injEq] at hc
    subst hc
    refine (h.1 [] ?_).1 rfl
    rw [List.splitOn_cons_eq_if_modifyHead]
    simp

/-- A path in normal form is a fixed point of normalisation. -/
theorem NormalPath.normalizeStoredPath {path : Str} (h : NormalPath path) : normalizeStoredPath path = .ok path := by
  have hmap : (path.map fun c => if c = '\\' then '/' else c) = path := by
    conv => rhs; rw [← List.map_id path]
    apply List.map_congr_left
    intro c hc
    have : c ≠ '\\' := fun e => h.no_backslash (e ▸ hc)
    simp [this]
  have hlen := h.2.2
  have hdepth := h.2.1
  have hne : path.splitOn '/' ≠ [] := List.splitOn_ne_nil _ _
  unfold FileSec.normalizeStoredPath
  rw [if_neg (by rw [not_or, not_lt]; exact ⟨h.ne_nil, hlen⟩)]
  simp only [hmap]
  rw [if_neg h.head_ne, h.not_drive, normalizeComponents_of_good h.1]
  simp only [Bool.false_eq_true, ↓reduceIte, bind, Except.bind, if_neg hne, if_neg (not_lt.2 hdepth)]
  rw [List.intercalate_splitOn]

theorem normalPath_iff {path : Str} : NormalPath path ↔ normalizeStoredPath path = .ok path :=
  ⟨NormalPath.normalizeStoredPath, normalPath_of_normalizeStoredPath⟩

instance (path : Str) : Decidable (NormalPath path) := decidable_of_iff _ normalPath_iff.symm

/-- The strict rule only refuses more. -/
theorem normalizeStoredPath_of_normalizePath {path norm : Str} (h : normalizePath path = .ok norm) :
    normalizeStoredPath path = .ok norm := by
  unfold normalizePath at h
  cases hn : normalizeStoredPath path with
  | error e => simp [hn, bind, Except.bind] at h
  | ok n =>
    simp only [hn, bind, Except.bind] at h
    split at h
    · simp at h
    · exact h

theorem normalPath_of_normalizePath {path norm : Str} (h : normalizePath path = .ok norm) : NormalPath norm :=
  normalPath_of_normalizeStoredPath (normalizeStoredPath_of_normalizePath h)

/-! ### Normal paths in the tree -/

/-- The paths above a path in normal form are in normal form. -/
theorem NormalPath.of_below {p q : Str} (h : NormalPath q) (hb : Below '/' p q) : NormalPath p := by
  obtain ⟨t, rfl⟩ := below_iff.1 hb
  obtain ⟨h1, h2, h3⟩ := h
  rw [List.splitOn_append_cons_self] at h1 h2
  rw [byteLen_append] at h3
  rw [List.length_append] at h2
  exact ⟨fun c hc => h1 c (List.mem_append_left _ hc), by omega, by omega⟩

/-- The depth of a path: the number of its components. -/
def depth (path : Str) : Nat := (path.splitOn '/').length

/-- Carrying a path over to another root keeps its components good, so only the length and the depth can go wrong. -/
theorem normalPath_reroot_iff {p q r : Str} (hq : NormalPath q) (hr : NormalPath r) (h : AtOrBelow '/' p r) :
    NormalPath (reroot p q r) ↔ depth (reroot p q r) ≤ maxPathDepth ∧ byteLen (reroot p q r) ≤ maxPathLen := by
  unfold depth
  refine ⟨fun h' => h'.2, fun h' => ⟨?_, h'⟩⟩
  rcases h with rfl | h
  · simpa using hq.1
  · obtain ⟨t, rfl⟩ := below_iff.1 h
    rw [reroot_append, List.splitOn_append_cons_self]
    intro c hc
    rcases List.mem_append.1 hc with hc | hc
    · exact hq.1 c hc
    · refine hr.1 c ?_
      rw [List.splitOn_append_cons_self]
      exact List.mem_append_right _ hc

/-! ### Normalising below a path in normal form -/

private theorem normalizeComponents_append {comps rest : List Str} (h : ∀ c ∈ comps, GoodComponent c) :
    normalizeComponents (comps ++ rest) = (normalizeComponents rest).map (comps ++ ·) := by
  induction comps with
  | nil =>
    rw [List.nil_append]
    cases normalizeComponents rest <;> rfl
  | cons comp comps ih =>
    obtain ⟨h1, h2, h3, -, -, hcheck⟩ := h comp (by simp)
    have hrest := ih fun c hc => h c (by simp [hc])
    simp only [List.cons_append, normalizeComponents, h1, h2, h3, or_self, ↓reduceIte, hcheck, hrest, bind, Except.bind]
    cases normalizeComponents rest <;> rfl

/-- The components below a path in normal form are normalised on their own. -/
private theorem normalize_below {p rest n : Str} (hp : NormalPath p)
    (h : normalizeStoredPath (p ++ '/' :: rest) = .ok n) :
    ∃ comps, normalizeComponents ((rest.map fun c => if c = '\\' then '/' else c).splitOn '/') = .ok comps ∧
      n = ['/'].intercalate (p.splitOn '/' ++ comps) := by
  have hmap : (p ++ '/' :: rest).map (fun c => if c = '\\' then '/' else c) =
      p ++ '/' :: rest.map fun c => if c = '\\' then '/' else c := by
    rw [List.map_append, List.map_cons]
    congr 1
    conv => rhs; rw [← List.map_id p]
    refine List.map_congr_left fun c hc => ?_
    have hne : c ≠ '\\' := fun e => hp.no_backslash (e ▸ hc)
    simp [hne]
  unfold normalizeStoredPath at h
  split at h
  · simp at h
  · simp only [hmap] at h
    split at h
    · simp at h
    · split at h
      · simp at h
      · rw [List.splitOn_append_cons_self, normalizeComponents_append hp.1] at h
        cases hc : normalizeComponents ((rest.map fun c => if c = '\\' then '/' else c).splitOn '/') with
        | error e => simp [hc, Except.map, bind, Except.bind] at h
        | ok comps =>
          simp only [hc, Except.map, bind, Except.bind] at h
          split at h
          · simp at h
          · split at h
            · simp at h
            · rw [Except.ok.injEq] at h
              exact ⟨comps, rfl, h.symm⟩

/-- Carrying a path over to another root carries over what it normalises to. -/
theorem normalize_reroot {p q r n n' : Str} (hp : NormalPath p) (hq : NormalPath q) (h : AtOrBelow '/' p r)
    (hn : normalizeStoredPath r = .ok n) (hn' : normalizeStoredPath (reroot p q r) = .ok n') :
    AtOrBelow '/' p n ∧ n' = reroot p q n := by
  rcases h with rfl | h
  · rw [hp.normalizeStoredPath, Except.ok.injEq] at hn
    rw [reroot_self, hq.normalizeStoredPath, Except.ok.injEq] at hn'
    subst hn hn'
    exact ⟨.refl _, (reroot_self _ _).symm⟩
  · obtain ⟨t, rfl⟩ := below_iff.1 h
    rw [reroot_append] at hn'
    obtain ⟨comps, hc, rfl⟩ := normalize_below hp hn
    obtain ⟨comps', hc', rfl⟩ := normalize_below hq hn'
    rw [hc, Except.ok.injEq] at hc'
    subst hc'
    by_cases he : comps = []
    · subst he
      simp only [List.append_nil, List.intercalate_splitOn]
      exact ⟨.refl _, (reroot_self _ _).symm⟩
    · rw [intercalate_append (List.splitOn_ne_nil _ _) he, intercalate_append (List.splitOn_ne_nil _ _) he,
        List.intercalate_splitOn, List.intercalate_splitOn]
      exact ⟨Or.inr (below_append _ _), (reroot_append _ _ _).symm⟩

/-! ### A name in a directory -/

/-- The path of a name in the folder `into`; the root is the empty path. -/
def under (into name : Str) : Str := if into = [] then name else into ++ '/' :: name

/-- Normalisation that accepts a plain name in a normal directory keeps it. -/
theorem normalize_under {dir name n : Str} (hdir : dir = [] ∨ NormalPath dir) (hslash : '/' ∉ name) (hback : '\\' ∉ name)
    (hne : name ≠ [] ∧ name ≠ ['.'] ∧ name ≠ ['.', '.']) (h : normalizeStoredPath (under dir name) = .ok n) :
    n = under dir name := by
  have hmap : (name.map fun c => if c = '\\' then '/' else c) = name := by
    conv => rhs; rw [← List.map_id name]
    refine List.map_congr_left fun c hc => ?_
    have hne : c ≠ '\\' := fun e => hback (e ▸ hc)
    simp [hne]
  have hsplit : name.splitOn '/' = [name] := by
    have := List.splitOn_intercalate '/' (show ∀ l ∈ [name], '/' ∉ l by simpa using hslash) (by simp)
    rwa [List.intercalate_singleton] at this
  have hcomps : ∀ comps, normalizeComponents [name] = .ok comps → comps = [name] := by
    intro comps hc
    unfold normalizeComponents at hc
    rw [if_neg (by simp [hne.1, hne.2.1]), if_neg hne.2.2] at hc
    cases hcheck : checkComponent name with
    | error e => simp [hcheck, bind, Except.bind] at hc
    | ok u => simpa [hcheck, normalizeComponents, bind, Except.bind, eq_comm] using hc
  unfold under at h ⊢
  rcases hdir with rfl | hdir
  · rw [if_pos rfl] at h ⊢
    unfold normalizeStoredPath at h
    split at h
    · simp at h
    · simp only [hmap, hsplit] at h
      split at h
      · simp at h
      · split at h
        · simp at h
        · cases hc : normalizeComponents [name] with
          | error e => simp [hc, bind, Except.bind] at h
          | ok comps =>
            obtain rfl := hcomps comps hc
            simp only [hc, bind, Except.bind] at h
            split at h
            · simp at h
            · split at h
              · simp at h
              · rw [Except.ok.injEq, List.intercalate_singleton] at h
                exact h.symm
  · rw [if_neg hdir.ne_nil] at h ⊢
    obtain ⟨comps, hc, rfl⟩ := normalize_below hdir h
    rw [hmap, hsplit] at hc
    rw [hcomps comps hc, intercalate_append (List.splitOn_ne_nil _ _) (by simp), List.intercalate_splitOn,
      List.intercalate_singleton]

end FileSec
