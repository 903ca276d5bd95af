import FileSec.Path

/-!
# What normalisation promises

`normalize_path` is canonical: what it returns is the same text under every further normalisation, depends on nothing
but the components of what went in, and joined to a directory stays below it.  The lenient `normalize_stored_path` is
a fixed point of itself and stays below as well.
-/

namespace FileSec

open SepPath

/-! ### Joining a path to a directory -/

/-- `Path::join` on the text of a directory: an absolute path takes its place. -/
def joinPath (dir path : Str) : Str :=
  if path.head? = some '/' ∨ dir = [] then path
  else if dir.getLast? = some '/' then dir ++ path
  else dir ++ '/' :: path

/-- Where one component leads from a place in the file system: `.` and nothing stay there, `..` goes up. -/
def enter (place : List Str) (comp : Str) : List Str :=
  if comp = [] ∨ comp = ['.'] then place else if comp = ['.', '.'] then place.dropLast else place ++ [comp]

/-- Where a text leads from a place in the file system. -/
def walk (place : List Str) (path : Str) : List Str := (path.splitOn '/').foldl enter place

/-- Where good components lead. -/
private theorem foldl_enter {comps : List Str} (h : ∀ c ∈ comps, c ≠ [] ∧ c ≠ ['.'] ∧ c ≠ ['.', '.'])
    (place : List Str) : comps.foldl enter place = place ++ comps := by
  induction comps generalizing place with
  | nil => simp
  | cons c comps ih =>
    obtain ⟨h1, h2, h3⟩ := h c (by simp)
    have henter : enter place c = place ++ [c] := by simp [enter, h1, h2, h3]
    rw [List.foldl_cons, henter, ih fun d hd => h d (by simp [hd])]
    simp

theorem walk_append (place : List Str) (dir path : Str) :
    walk place (dir ++ '/' :: path) = walk (walk place dir) path := by
  unfold walk
  rw [List.splitOn_append_cons_self, List.foldl_append]

/-- A path in normal form that is joined to a directory leads to its own components below that directory. -/
theorem NormalPath.walk_joinPath {path : Str} (h : NormalPath path) (place : List Str) (dir : Str) :
    walk place (joinPath dir path) = walk place dir ++ path.splitOn '/' := by
  have hdown : ∀ place, walk place path = place ++ path.splitOn '/' :=
    foldl_enter fun c hc => ⟨(h.1 c hc).1, (h.1 c hc).2.1, (h.1 c hc).2.2.1⟩
  unfold joinPath
  by_cases hdir : dir = []
  · subst hdir
    rw [if_pos (Or.inr rfl), hdown]
    simp [walk, enter]
  rw [if_neg (by rw [not_or]; exact ⟨h.head_ne, hdir⟩)]
  by_cases hlast : dir.getLast? = some '/'
  · -- the directory's own separator counts
    obtain ⟨up, rfl⟩ := List.getLast?_eq_some_iff.1 hlast
    have hsame : walk place (up ++ ['/']) = walk place up := by
      rw [walk_append]
      simp [walk, enter]
    rw [if_pos hlast, List.append_assoc, List.singleton_append, walk_append, hdown, hsame]
  · rw [if_neg hlast, walk_append, hdown]

/-! ### What comes out -/

/-- The stem of a component: what stands before its first dot. -/
def stem (comp : Str) : Str := comp.takeWhile (· != '.')

/-- Joined to any directory, the path and every path above it lead to their own components below that directory. -/
def StaysBelow (path : Str) : Prop :=
  ∀ (place : List Str) (dir above : Str), AtOrBelow '/' above path →
    above.splitOn '/' ≠ [] ∧ walk place (joinPath dir above) = walk place dir ++ above.splitOn '/'

/-- What the strict normalisation promises of its results. -/
structure Canonical (path : Str) : Prop where
  ne_nil : path ≠ []
  components : ∀ comp ∈ path.splitOn '/', comp ≠ [] ∧ comp ≠ ['.'] ∧ comp ≠ ['.', '.']
  chars : ∀ c ∈ path, c ≠ '\\' ∧ c ≠ ':' ∧ ¬ c.toNat < 0x20 ∧ c.toNat ≠ 0x7f ∧ isSpoofingFormatChar c = false
  endings : ∀ comp ∈ path.splitOn '/', comp.getLast? ≠ some '.' ∧ comp.getLast? ≠ some ' '
  devices : ∀ comp ∈ path.splitOn '/', isDeviceName (toUppercase (stem comp)) = false
  limits : depth path ≤ maxPathDepth ∧ byteLen path ≤ maxPathLen
  fixed : normalizePath path = .ok path ∧ normalizeStoredPath path = .ok path
  below : StaysBelow path

/-- What the lenient normalisation promises of its results: they are relative, do not climb, and are its fixed
points. -/
structure Contained (path : Str) : Prop where
  relative : path.head? ≠ some '/' ∧ path.head? ≠ some '\\' ∧ hasDrivePrefix path = false
  traversal : ∀ comp ∈ path.splitOn '/', comp ≠ ['.', '.']
  fixed : normalizeStoredPath path = .ok path
  below : StaysBelow path

/-- The components that count: neither empty nor `.`, with both separators taken as one. -/
def keptComponents (path : Str) : List Str :=
  ((path.map fun c => if c = '\\' then '/' else c).splitOn '/').filter fun c => c ≠ [] ∧ c ≠ ['.']

/-- What the checks on a component leave. -/
theorem checkComponent_eq_ok {comp : Str} (h : checkComponent comp = .ok ()) :
    (∀ c ∈ comp, ¬ c.toNat < 0x20 ∧ c.toNat ≠ 0x7f) ∧ comp.getLast? ≠ some '.' ∧ comp.getLast? ≠ some ' ' ∧
      isDeviceName (toUppercase (stem comp)) = false := by
  unfold checkComponent at h
  split at h
  · cases h
  · rename_i hcontrol
    split at h
    · cases h
    · rename_i hends
      split at h
      · cases h
      · rename_i hdevice
        rw [Bool.or_eq_true, Bool.or_eq_true, not_or, not_or] at hends
        refine ⟨fun c hc => ?_, by simpa using hends.1.2, by simpa using hends.2, by simpa [stem] using hdevice⟩
        have hno : ¬ (c.toNat < 0x20 || c.toNat == 0x7f) = true :=
          fun htrue => hcontrol (List.any_eq_true.2 ⟨c, hc, htrue⟩)
        simpa using hno

private theorem NormalPath.staysBelow {path : Str} (h : NormalPath path) : StaysBelow path := by
  intro place dir above habove
  have hnormal : NormalPath above := by
    rcases habove with rfl | habove
    · exact h
    · exact h.of_below habove
  exact ⟨List.splitOn_ne_nil _ _, hnormal.walk_joinPath place dir⟩

theorem NormalPath.contained {path : Str} (h : NormalPath path) : Contained path := by
  refine ⟨⟨h.head_ne, fun hhead => ?_, h.not_drive⟩, fun c hc => (h.1 c hc).2.2.1, h.normalizeStoredPath, h.staysBelow⟩
  obtain ⟨rest, rfl⟩ := List.head?_eq_some_iff.1 hhead
  exact h.no_backslash (by simp)

theorem NormalPath.canonical {path : Str} (h : NormalPath path) (hshown : path.any isSpoofingFormatChar = false) :
    Canonical path := by
  have hcheck : ∀ comp ∈ path.splitOn '/', checkComponent comp = .ok () := fun comp hc => (h.1 comp hc).2.2.2.2.2
  have hfixed := h.normalizeStoredPath
  constructor
  · exact h.ne_nil
  · exact fun c hc => ⟨(h.1 c hc).1, (h.1 c hc).2.1, (h.1 c hc).2.2.1⟩
  · intro c hc
    have hspoof : isSpoofingFormatChar c = false := by
      rw [Bool.eq_false_iff]
      exact fun htrue => absurd (List.any_eq_true.2 ⟨c, hc, htrue⟩) (by rw [hshown]; exact Bool.false_ne_true)
    by_cases hsep : c = '/'
    · subst hsep
      decide
    · obtain ⟨comp, hcomp, hin⟩ := exists_mem_splitOn_of_mem hc hsep
      obtain ⟨hcontrol, -⟩ := checkComponent_eq_ok (hcheck comp hcomp)
      refine ⟨?_, ?_, (hcontrol c hin).1, (hcontrol c hin).2, hspoof⟩
      · rintro rfl
        exact h.no_backslash hc
      · rintro rfl
        exact checkComponent_no_colon (hcheck comp hcomp) hin
  · exact fun comp hc => ⟨(checkComponent_eq_ok (hcheck comp hc)).2.1, (checkComponent_eq_ok (hcheck comp hc)).2.2.1⟩
  · exact fun comp hc => (checkComponent_eq_ok (hcheck comp hc)).2.2.2
  · exact ⟨h.2.1, h.2.2⟩
  · refine ⟨?_, hfixed⟩
    unfold normalizePath
    simp [hfixed, hshown, bind, Except.bind]
  · exact h.staysBelow

/-- What the loop over the components keeps. -/
private theorem normalizeComponents_kept {comps out : List Str} (h : normalizeComponents comps = .ok out) :
    out = comps.filter fun c => c ≠ [] ∧ c ≠ ['.'] := by
  induction comps generalizing out with
  | nil => exact (Except.ok.inj h).symm
  | cons comp rest ih =>
    unfold normalizeComponents at h
    by_cases hskip : comp = [] ∨ comp = ['.']
    · rw [if_pos hskip] at h
      rw [List.filter_cons_of_neg (by simpa [or_iff_not_imp_left] using hskip)]
      exact ih h
    · rw [if_neg hskip] at h
      by_cases hdots : comp = ['.', '.']
      · rw [if_pos hdots] at h
        cases h
      · rw [if_neg hdots] at h
        cases hc : checkComponent comp with
        | error e => simp [hc, bind, Except.bind] at h
        | ok u =>
          cases hr : normalizeComponents rest with
          | error e => simp [hc, hr, bind, Except.bind] at h
          | ok out' =>
            simp only [hc, hr, bind, Except.bind, Except.ok.injEq] at h
            rw [← h, List.filter_cons_of_pos (by simpa [not_or] using hskip), ih hr]

/-- Normalisation joins the components that count. -/
theorem normalizeStoredPath_kept {path norm : Str} (h : normalizeStoredPath path = .ok norm) :
    norm = ['/'].intercalate (keptComponents path) := by
  unfold normalizeStoredPath at h
  split at h
  · cases h
  · simp only at h
    split at h
    · cases h
    · split at h
      · cases h
      · cases hc : normalizeComponents ((path.map fun c => if c = '\\' then '/' else c).splitOn '/') with
        | error e => simp [hc, bind, Except.bind] at h
        | ok comps =>
          simp only [hc, bind, Except.bind] at h
          split at h
          · cases h
          · split at h
            · cases h
            · rw [← Except.ok.inj h, normalizeComponents_kept hc]
              rfl

theorem canonical_of_normalizePath {path norm : Str} (h : normalizePath path = .ok norm) : Canonical norm := by
  have hnormal := normalPath_of_normalizePath h
  refine hnormal.canonical ?_
  have hstored := normalizeStoredPath_of_normalizePath h
  unfold normalizePath at h
  simp only [hstored, bind, Except.bind] at h
  split at h
  · cases h
  · rename_i hshown
    simpa using hshown

/-- Every path that normalisation accepts becomes canonical, what it becomes is determined by the components that
count, and what the lenient normalisation returns is contained as well. -/
theorem normalizePath_canonical :
    (∀ path norm, normalizePath path = .ok norm → Canonical norm) ∧
    (∀ path path' norm norm', normalizePath path = .ok norm → normalizePath path' = .ok norm' →
      keptComponents path = keptComponents path' → norm = norm') ∧
    ∀ path norm, normalizeStoredPath path = .ok norm → Contained norm := by
  refine ⟨fun _ _ => canonical_of_normalizePath, fun path path' norm norm' h h' hkept => ?_, fun _ _ h =>
    (normalPath_of_normalizeStoredPath h).contained⟩
  rw [normalizeStoredPath_kept (normalizeStoredPath_of_normalizePath h), hkept,
    ← normalizeStoredPath_kept (normalizeStoredPath_of_normalizePath h')]

/-- Two spellings of one path. -/
theorem normalizePath_canonical_spellings :
    Canonical "a/b".toList ∧ Contained "a/b".toList ∧
      ∀ norm norm', normalizePath "a//.\\b".toList = .ok norm → normalizePath "a/b/".toList = .ok norm' → norm = norm' := by
  obtain ⟨hcanonical, hsame, hcontained⟩ := normalizePath_canonical
  exact ⟨hcanonical "a//.\\b".toList _ (by decide), hcontained "a//.\\b".toList _ (by decide),
    fun norm norm' h h' => hsame _ _ _ _ h h' (by decide)⟩

end FileSec
