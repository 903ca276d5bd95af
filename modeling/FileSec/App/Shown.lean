import FileSec.App.Trash
import FileSec.Reopening
import Mathlib.Algebra.Group.Prod

/-!
# What the app shows

The browser lists the live entries folder by folder, the trash panel those top-level trash entries whose names it can
read.  A file is shown if it is live or lies at or below such an entry; in a closed tree the app hides nothing exactly if
every file is shown (`nothingHidden_iff`).
-/

namespace FileSec

open SepPath Prog

/-- The file at this path is live, or at or below a top-level trash entry whose name can be read. -/
def Shown (path : Str) : Prop :=
  isTrashed path = true → ∃ top, AtOrBelow '/' top path ∧ parentDir top = trashDir ∧ parseTrashToken top ≠ none

/-- All files are shown. -/
def AllShown (es : List EntryV2) : Prop := ∀ e ∈ es, e.kind = .file → Shown e.path

/-- The folders that the browser can be brought to show, from the root. -/
inductive Opens (F : Casing) (es : List EntryV2) (sort : SortMode) : Str → Prop
  | root : Opens F es sort []
  | enter {dir : Str} {row : Row} (h : Opens F es sort dir) (hrow : row ∈ visibleRows F es dir [] sort)
      (hkind : row.kind = .dir) : Opens F es sort row.path

/-- The entry is listed in a folder that the browser can be brought to show. -/
def Browsable (F : Casing) (es : List EntryV2) (sort : SortMode) (path : Str) : Prop :=
  ∃ dir, Opens F es sort dir ∧ ∃ row ∈ visibleRows F es dir [] sort, row.path = path

/-- The number of files among the entries and their total size. -/
def filesOf (es : List EntryV2) : Nat × Nat :=
  ((es.filter fun e => e.kind = .file).length, ((es.filter fun e => e.kind = .file).map (·.size)).sum)

/-- The files at or below an item, counted with it. -/
def TrashItem.count (item : TrashItem) : Nat := if item.kind = .file then 1 else item.files

/-- Every file can be browsed to, or lies at or below exactly one trash item; the items count and add up what is below
them, so with the live files they account for all files; and what Empty Trash destroys was listed as trash. -/
structure NothingHidden (F : Casing) (sort : SortMode) (es : List EntryV2) : Prop where
  files : ∀ e ∈ es, e.kind = .file → Browsable F es sort e.path ∨
    ∃ item, (trashedItems es).filter (fun i => AtOrBelow '/' i.trashedPath e.path) = [item]
  totals : ∀ item ∈ trashedItems es,
    (item.count, item.size) = filesOf (es.filter fun e => AtOrBelow '/' item.trashedPath e.path)
  accounts : filesOf (es.filter fun e => !isTrashed e.path) +
    (((trashedItems es).map (·.count)).sum, ((trashedItems es).map (·.size)).sum) = filesOf es
  emptied : ∀ e ∈ es, e.kind = .file → e ∉ (Change.remove trashDir).apply es →
    ∃ item ∈ trashedItems es, AtOrBelow '/' item.trashedPath e.path

variable {F : Casing} {sort : SortMode} {es : List EntryV2} {path top : Str}

/-! ### Paths of the trash -/

theorem isTrashed_iff : isTrashed path = true ↔ AtOrBelow '/' trashDir path := by
  unfold isTrashed AtOrBelow Below
  rw [Bool.or_eq_true, decide_eq_true_iff, List.isPrefixOf_iff_prefix]
  rfl

theorem rsplitOnce_eq_some {c : Char} {s l r : Str} : rsplitOnce c s = some (l, r) ↔ s = l ++ c :: r ∧ c ∉ r := by
  constructor
  · intro h
    refine ⟨rsplitOnce_eq h, ?_⟩
    induction s generalizing l with
    | nil => cases h
    | cons a s ih =>
      unfold rsplitOnce at h
      cases hs : rsplitOnce c s with
      | some p =>
        rw [hs] at h
        obtain ⟨rfl, rfl⟩ := Prod.mk.inj (Option.some.inj h)
        exact ih hs
      | none =>
        rw [hs] at h
        dsimp only at h
        split at h
        · obtain ⟨rfl, rfl⟩ := Prod.mk.inj (Option.some.inj h)
          exact rsplitOnce_eq_none.1 hs
        · cases h
  · rintro ⟨rfl, hr⟩
    have hlast : rsplitOnce c (c :: r) = some ([], r) := by
      rw [rsplitOnce, rsplitOnce_eq_none.2 hr]
      simp
    have := rsplitOnce_append l hlast
    rwa [List.append_nil] at this

/-- The folder of an entry is above it, or it is the root. -/
theorem below_parentDir (path : Str) : parentDir path = [] ∨ Below '/' (parentDir path) path := by
  unfold parentDir
  cases h : rsplitOnce '/' path with
  | none => exact Or.inl rfl
  | some p => exact Or.inr (below_iff.2 ⟨p.2, rsplitOnce_eq h⟩)

/-- What is above an entry is its folder, or above that. -/
theorem below_atOrBelow_parentDir {a : Str} (h : Below '/' a path) : AtOrBelow '/' a (parentDir path) := by
  obtain ⟨t, rfl⟩ := below_iff.1 h
  unfold parentDir
  cases ht : rsplitOnce '/' t with
  | none =>
    rw [rsplitOnce_eq_some.2 ⟨rfl, rsplitOnce_eq_none.1 ht⟩]
    exact .refl a
  | some p =>
    obtain ⟨l, r⟩ := p
    obtain ⟨rfl, hr⟩ := rsplitOnce_eq_some.1 ht
    have hsplit : rsplitOnce '/' (a ++ '/' :: (l ++ '/' :: r)) = some (a ++ '/' :: l, r) :=
      rsplitOnce_eq_some.2 ⟨by simp, hr⟩
    rw [hsplit]
    exact Or.inr (below_append a l)

/-- The top-level trash entries are those one name below `.trash`. -/
theorem parentDir_eq_trashDir : parentDir top = trashDir ↔ ∃ token, '/' ∉ token ∧ top = trashDir ++ '/' :: token := by
  unfold parentDir
  cases h : rsplitOnce '/' top with
  | none =>
    refine iff_of_false (by simp [trashDir]) ?_
    rintro ⟨token, -, rfl⟩
    exact rsplitOnce_eq_none.1 h (by simp)
  | some p =>
    obtain ⟨l, r⟩ := p
    obtain ⟨rfl, hr⟩ := rsplitOnce_eq_some.1 h
    constructor
    · rintro rfl
      exact ⟨r, hr, rfl⟩
    · rintro ⟨token, htoken, heq⟩
      have := rsplitOnce_eq_some.2 ⟨heq, htoken⟩
      rw [h, Option.some.injEq, Prod.mk.injEq] at this
      exact this.1

theorem splitOnce_eq_some {c : Char} {s l r : Str} : splitOnce c s = some (l, r) ↔ s = l ++ c :: r ∧ c ∉ l := by
  constructor
  · intro h
    induction s generalizing l with
    | nil => cases h
    | cons a s ih =>
      unfold splitOnce at h
      split at h
      · rename_i hac
        subst hac
        obtain ⟨rfl, rfl⟩ := Prod.mk.inj (Option.some.inj h)
        simp
      · rename_i hac
        obtain ⟨⟨l', r'⟩, hs, heq⟩ := Option.map_eq_some_iff.1 h
        obtain ⟨rfl, rfl⟩ := Prod.mk.inj heq
        obtain ⟨rfl, hl⟩ := ih hs
        exact ⟨rfl, by simp [hl, Ne.symm hac]⟩
  · rintro ⟨rfl, hl⟩
    exact splitOnce_append r hl

/-- Two top-level entries that a path is at or below are the same. -/
theorem top_unique {top' : Str} (h : parentDir top = trashDir) (h' : parentDir top' = trashDir)
    (hb : AtOrBelow '/' top path) (hb' : AtOrBelow '/' top' path) : top = top' := by
  obtain ⟨token, hslash, rfl⟩ := parentDir_eq_trashDir.1 h
  obtain ⟨token', hslash', rfl⟩ := parentDir_eq_trashDir.1 h'
  -- neither is below the other, since there is no further separator
  have hnot : ∀ {t t' : Str}, '/' ∉ t' → ¬ Below '/' (trashDir ++ '/' :: t) (trashDir ++ '/' :: t') := by
    intro t t' ht' hbelow
    obtain ⟨rest, heq⟩ := below_iff.1 hbelow
    rw [List.append_assoc, List.append_cancel_left_eq, List.cons_append, List.cons.injEq] at heq
    exact ht' (heq.2 ▸ by simp)
  rcases hb with rfl | hb
  · rcases hb' with heq | hb'
    · exact heq
    · exact absurd hb' (hnot hslash)
  · rcases hb' with rfl | hb'
    · exact absurd hb (hnot hslash')
    · rcases hb.comparable hb' with heq | hbelow | hbelow
      · exact heq
      · exact absurd hbelow (hnot hslash')
      · exact absurd hbelow (hnot hslash)

theorem trashTop_eq_some : trashTop path = some top ↔ parentDir top = trashDir ∧ Below '/' top path := by
  rw [parentDir_eq_trashDir]
  have hslash : ".trash/".toList = trashDir ++ ['/'] := rfl
  unfold trashTop
  cases hp : ".trash/".toList.isPrefixOf? path with
  | none =>
    refine iff_of_false (by simp) ?_
    rintro ⟨⟨token, -, rfl⟩, hb⟩
    obtain ⟨rest, rfl⟩ := below_iff.1 hb
    have hsome : ".trash/".toList.isPrefixOf? (trashDir ++ '/' :: token ++ '/' :: rest) = some (token ++ '/' :: rest) :=
      List.isPrefixOf?_eq_some_iff_append_eq.2 (by simp [hslash])
    rw [hp] at hsome
    cases hsome
  | some rest =>
    have hpath := List.isPrefixOf?_eq_some_iff_append_eq.1 hp
    dsimp only
    cases hs : splitOnce '/' rest with
    | none =>
      refine iff_of_false (by simp) ?_
      rintro ⟨⟨token, htoken, rfl⟩, hb⟩
      obtain ⟨rest', heq⟩ := below_iff.1 hb
      rw [← hpath, hslash, List.append_assoc, List.append_assoc, List.append_cancel_left_eq, List.singleton_append,
        List.cons_append, List.cons.injEq] at heq
      have := splitOnce_eq_some.2 ⟨heq.2, htoken⟩
      rw [hs] at this
      cases this
    | some p =>
      obtain ⟨token, rest'⟩ := p
      obtain ⟨rfl, htoken⟩ := splitOnce_eq_some.1 hs
      have htake : path.take (".trash/".toList.length + token.length) = trashDir ++ '/' :: token := by
        rw [← hpath, ← List.length_append, ← List.append_assoc, List.take_left, hslash, List.append_assoc]
        rfl
      have hpath' : path = (trashDir ++ '/' :: token) ++ '/' :: rest' := by
        rw [← hpath, hslash]
        simp
      dsimp only
      rw [htake, Option.some.injEq]
      constructor
      · rintro rfl
        exact ⟨⟨token, htoken, rfl⟩, below_iff.2 ⟨rest', hpath'⟩⟩
      · rintro ⟨htop, hb⟩
        have hpath : AtOrBelow '/' (trashDir ++ '/' :: token) path := Or.inr (below_iff.2 ⟨rest', hpath'⟩)
        exact top_unique (parentDir_eq_trashDir.2 ⟨token, htoken, rfl⟩) (parentDir_eq_trashDir.2 htop) hpath (Or.inr hb)

/-! ### What the trash panel lists -/

theorem filesOf_cons (e : EntryV2) (es : List EntryV2) :
    filesOf (e :: es) = (if e.kind = .file then (1, e.size) else 0) + filesOf es := by
  unfold filesOf
  rw [List.filter_cons]
  cases hk : e.kind with
  | file => simp [Nat.add_comm]
  | dir => simp

/-- The totals count and add up the files below each top-level entry. -/
theorem trashedSubtreeTotals_eq (es : List EntryV2) (top : Str) :
    (trashedSubtreeTotals es top).getD (0, 0) = filesOf (es.filter fun e => trashTop e.path = some top) := by
  have hfold : ∀ totals : Str → Option (Nat × Nat), (es.foldl addTrashed totals top).getD (0, 0) =
      (totals top).getD (0, 0) + filesOf (es.filter fun e => trashTop e.path = some top) := by
    induction es with
    | nil =>
      intro totals
      exact (add_zero _).symm
    | cons e es ih =>
      intro totals
      have hstep : (addTrashed totals e top).getD (0, 0) = (totals top).getD (0, 0) +
          (if trashTop e.path = some top then (if e.kind = .file then (1, e.size) else 0) else 0) := by
        unfold addTrashed
        by_cases hk : e.kind = .file
        · rw [if_pos hk, if_pos hk]
          cases ht : trashTop e.path with
          | none => simp
          | some top' =>
            dsimp only
            by_cases heq : top = top'
            · subst heq
              rw [Function.update_self, if_pos rfl]
              rfl
            · rw [Function.update_of_ne heq, if_neg (by simpa using Ne.symm heq), add_zero]
        · rw [if_neg hk, if_neg hk, ite_self, add_zero]
      rw [List.foldl_cons, ih, hstep, List.filter_cons, add_assoc]
      congr 1
      by_cases ht : trashTop e.path = some top
      · simp only [ht, decide_true, if_true, filesOf_cons]
      · simp only [ht, decide_false, if_false, Bool.false_eq_true, zero_add]
  have := hfold fun _ => none
  rwa [Option.getD_none, show ((0, 0) : Nat × Nat) = 0 from rfl, zero_add] at this

theorem mem_trashedItems {item : TrashItem} :
    item ∈ trashedItems es ↔
      ∃ e ∈ es, parentDir e.path = trashDir ∧ trashItem (trashedSubtreeTotals es) e = some item := by
  unfold trashedItems
  rw [List.mem_mergeSort, List.mem_filterMap]
  constructor
  · rintro ⟨e, he, hitem⟩
    obtain ⟨he, hp⟩ := List.mem_filter.1 he
    exact ⟨e, he, by simpa using hp, hitem⟩
  · rintro ⟨e, he, hp, hitem⟩
    exact ⟨e, List.mem_filter.2 ⟨he, by simpa using hp⟩, hitem⟩

/-- What the item of an entry says. -/
theorem trashItem_eq_some {totals : Str → Option (Nat × Nat)} {e : EntryV2} {item : TrashItem} :
    trashItem totals e = some item ↔ ∃ deletedAt origPath, parseTrashToken e.path = some (deletedAt, origPath) ∧
      item = ⟨e.path, origPath, deletedAt, e.kind, if e.kind = .dir then ((totals e.path).getD (0, 0)).2 else e.size,
        if e.kind = .dir then ((totals e.path).getD (0, 0)).1 else 0⟩ := by
  unfold trashItem
  cases hparse : parseTrashToken e.path with
  | none => simp
  | some p =>
    obtain ⟨deletedAt, origPath⟩ := p
    simp only [Option.bind_eq_bind, Option.bind_some, Option.some.injEq, Prod.mk.injEq]
    cases hk : e.kind with
    | file => simp [eq_comm]
    | dir => simp [eq_comm]

private theorem paths_filterMap (totals : Str → Option (Nat × Nat)) (es : List EntryV2) :
    ((es.filterMap (trashItem totals)).map (·.trashedPath)).Sublist (pathsOf es) := by
  induction es with
  | nil => exact List.Sublist.refl _
  | cons e es ih =>
    rw [List.filterMap_cons]
    cases hitem : trashItem totals e with
    | none => exact ih.cons _
    | some item =>
      obtain ⟨deletedAt, origPath, -, rfl⟩ := trashItem_eq_some.1 hitem
      exact ih.cons_cons _

theorem trashedItems_nodup (h : (pathsOf es).Nodup) : (trashedItems es).Nodup := by
  refine List.Nodup.of_map (·.trashedPath) ?_
  have hperm := (List.mergeSort_perm ((es.filter fun e => parentDir e.path = trashDir).filterMap
    (trashItem (trashedSubtreeTotals es))) TrashItem.before).map (·.trashedPath)
  exact hperm.nodup_iff.2 (((paths_filterMap _ _).trans (List.filter_sublist.map _)).nodup h)

/-- Items that a path is at or below are the same. -/
theorem item_unique (hnd : (pathsOf es).Nodup) {a b : TrashItem} (ha : a ∈ trashedItems es)
    (hb : b ∈ trashedItems es) (hpa : AtOrBelow '/' a.trashedPath path) (hpb : AtOrBelow '/' b.trashedPath path) :
    a = b := by
  obtain ⟨d, hd, hdp, hda⟩ := mem_trashedItems.1 ha
  obtain ⟨e, he, hep, heb⟩ := mem_trashedItems.1 hb
  have hpath : d.path = e.path := by
    obtain ⟨time, orig, _, rfl⟩ := trashItem_eq_some.1 hda
    obtain ⟨time', orig', _, rfl⟩ := trashItem_eq_some.1 heb
    exact top_unique hdp hep hpa hpb
  obtain rfl := List.inj_on_of_nodup_map hnd hd he hpath
  rw [hda, Option.some.injEq] at heb
  exact heb

/-- A shown file of the trash lies at or below an item. -/
private theorem exists_item (hcl : ClosedEntries es) (hnd : (pathsOf es).Nodup) {e : EntryV2} (he : e ∈ es)
    (hshown : Shown e.path) (ht : isTrashed e.path = true) :
    ∃ item ∈ trashedItems es, AtOrBelow '/' item.trashedPath e.path := by
  obtain ⟨top, hat, htop, hparse⟩ := hshown ht
  obtain ⟨d, hd, rfl⟩ : ∃ d ∈ es, d.path = top := by
    rcases hat with rfl | hb
    · exact ⟨e, he, rfl⟩
    · obtain ⟨d, hd, -⟩ := hcl top e.path e hb ((Keyed.lookup_eq_some_iff hnd).2 ⟨he, rfl⟩)
      obtain ⟨hmem, hpath⟩ := Keyed.lookup_mem hd
      exact ⟨d, hmem, hpath⟩
  obtain ⟨⟨deletedAt, origPath⟩, hp⟩ := Option.ne_none_iff_exists'.1 hparse
  exact ⟨_, mem_trashedItems.2 ⟨d, hd, htop, trashItem_eq_some.2 ⟨deletedAt, origPath, hp, rfl⟩⟩, hat⟩

theorem eq_singleton {α : Type*} {l : List α} {a : α} (hnd : l.Nodup) (ha : a ∈ l) (hall : ∀ b ∈ l, b = a) :
    l = [a] := by
  cases l with
  | nil => cases ha
  | cons b l =>
    obtain rfl := hall b List.mem_cons_self
    rw [List.nodup_cons] at hnd
    have hnil : l = [] := by
      refine List.eq_nil_iff_forall_not_mem.2 fun c hc => hnd.1 ?_
      exact hall c (List.mem_cons_of_mem _ hc) ▸ hc
    rw [hnil]

theorem filesOf_congr {p q : EntryV2 → Bool} (h : ∀ e ∈ es, e.kind = .file → p e = q e) :
    filesOf (es.filter p) = filesOf (es.filter q) := by
  have heq : (es.filter p).filter (fun e => e.kind = .file) = (es.filter q).filter fun e => e.kind = .file := by
    rw [List.filter_filter, List.filter_filter]
    refine List.filter_congr fun e he => ?_
    by_cases hk : e.kind = .file
    · rw [h e he hk]
    · simp [hk]
  unfold filesOf
  rw [heq]

/-- An item counts and adds up the files at or below it, if nothing lies below a file. -/
theorem item_totals (hnd : (pathsOf es).Nodup) {item : TrashItem}
    (hfile : ∀ d ∈ es, d.path = item.trashedPath → d.kind = .file → ∀ e ∈ es, ¬ Below '/' d.path e.path)
    (h : item ∈ trashedItems es) :
    (item.count, item.size) = filesOf (es.filter fun e => AtOrBelow '/' item.trashedPath e.path) := by
  obtain ⟨d, hd, hdp, hitem⟩ := mem_trashedItems.1 h
  obtain ⟨deletedAt, origPath, -, rfl⟩ := trashItem_eq_some.1 hitem
  have hself : ∀ e ∈ es, e.path = d.path → e = d := fun e he hpath => List.inj_on_of_nodup_map hnd he hd hpath
  unfold TrashItem.count
  dsimp only
  cases hk : d.kind with
  | file =>
    -- nothing lies below a file
    have hcongr : filesOf (es.filter fun e => AtOrBelow '/' d.path e.path) = filesOf (es.filter fun e => e.path = d.path) := by
      refine filesOf_congr fun e he _ => decide_eq_decide.2 ⟨?_, fun heq => Or.inl heq⟩
      rintro (heq | hb)
      · exact heq
      · exact absurd hb (hfile d hd rfl hk e he)
    have hone : es.filter (fun e => e.path = d.path) = [d] := by
      refine eq_singleton ((List.Nodup.of_map _ hnd).filter _) (List.mem_filter.2 ⟨hd, by simp⟩) fun e he => ?_
      obtain ⟨he, hpath⟩ := List.mem_filter.1 he
      exact hself e he (by simpa using hpath)
    rw [hcongr, hone]
    simp [filesOf, hk]
  | dir =>
    have hcongr : filesOf (es.filter fun e => AtOrBelow '/' d.path e.path) =
        filesOf (es.filter fun e => trashTop e.path = some d.path) := by
      refine filesOf_congr fun e he hke => decide_eq_decide.2 ?_
      rw [trashTop_eq_some, and_iff_right hdp]
      constructor
      · rintro (heq | hb)
        · rw [hself e he heq, hk] at hke
          cases hke
        · exact hb
      · exact Or.inr
    rw [hcongr, ← trashedSubtreeTotals_eq]
    rfl

/-! ### What the browser lists -/

theorem mem_visibleRows {dir : Str} {row : Row} (h : row ∈ visibleRows F es dir [] sort) :
    ∃ e ∈ es, isTrashed e.path = false ∧ parentDir e.path = dir ∧ row.path = e.path ∧ row.kind = e.kind := by
  unfold visibleRows at h
  rw [List.mem_mergeSort] at h
  obtain ⟨e, he, rfl⟩ := List.mem_map.1 h
  obtain ⟨he, hvisible⟩ := List.mem_filter.1 he
  have hq : F.lower (F.trim []) = [] := F.lower_nil
  unfold isVisible at hvisible
  split at hvisible
  · cases hvisible
  · rename_i hlive
    dsimp only at hvisible
    rw [if_pos hq, decide_eq_true_iff] at hvisible
    exact ⟨e, he, by simpa using hlive, hvisible, rfl, rfl⟩

theorem exists_row (F : Casing) (sort : SortMode) {e : EntryV2} (he : e ∈ es) (hlive : isTrashed e.path = false) :
    ∃ row ∈ visibleRows F es (parentDir e.path) [] sort, row.path = e.path ∧ row.kind = e.kind := by
  have hq : F.lower (F.trim []) = [] := F.lower_nil
  have hvisible : isVisible F (parentDir e.path) [] e.path = true := by
    unfold isVisible
    rw [if_neg (by simp [hlive])]
    dsimp only
    rw [if_pos hq, decide_eq_true_iff]
  unfold visibleRows
  exact ⟨_, List.mem_mergeSort.2 (List.mem_map_of_mem (List.mem_filter.2 ⟨he, hvisible⟩)), rfl, rfl⟩

/-- In a closed tree the browser comes to the folder of every live entry. -/
private theorem opens_parentDir (F : Casing) (sort : SortMode) (hcl : ClosedEntries es) (hnd : (pathsOf es).Nodup)
    {e : EntryV2} (he : e ∈ es) (hlive : isTrashed e.path = false) : Opens F es sort (parentDir e.path) := by
  induction hn : e.path.length using Nat.strong_induction_on generalizing e with
  | _ n ih =>
    rcases below_parentDir e.path with hroot | hb
    · rw [hroot]
      exact .root
    · obtain ⟨d, hd, hdir⟩ := hcl _ e.path e hb ((Keyed.lookup_eq_some_iff hnd).2 ⟨he, rfl⟩)
      obtain ⟨hmem, hpath⟩ := Keyed.lookup_mem hd
      -- what is above a live entry is live
      have hlive' : isTrashed d.path = false := by
        rw [Bool.eq_false_iff, Ne, isTrashed_iff, hpath]
        intro hat
        have := isTrashed_iff.2 (Or.inr (hat.trans_below hb))
        rw [hlive] at this
        cases this
      have hlt : d.path.length < n := by
        rw [hpath, ← hn]
        exact hb.length_lt
      obtain ⟨row, hrow, hrpath, hrkind⟩ := exists_row F sort hmem hlive'
      have hopens := (ih _ hlt hmem hlive' rfl).enter hrow (hrkind.trans hdir)
      rwa [hrpath, hpath] at hopens

/-! ### Nothing is hidden -/

/-- Sums over what several things cover, counted by what is covered. -/
private theorem sum_covered {α β M : Type*} [AddCommMonoid M] (bs : List β) (xs : List α) (covers : β → α → Bool)
    (w : α → M) : (bs.map fun b => ((xs.filter (covers b)).map w).sum).sum =
      (xs.map fun x => (bs.filter (covers · x)).length • w x).sum := by
  induction bs with
  | nil => simp
  | cons b bs ih =>
    have hfilter : ((xs.filter (covers b)).map w).sum = (xs.map fun x => if covers b x then w x else 0).sum := by
      clear ih
      induction xs with
      | nil => rfl
      | cons x xs ih =>
        rw [List.filter_cons]
        by_cases hc : covers b x = true
        · rw [if_pos hc, List.map_cons, List.sum_cons, List.map_cons, List.sum_cons, if_pos hc, ih]
        · rw [if_neg hc, List.map_cons, List.sum_cons, if_neg hc, zero_add, ih]
    rw [List.map_cons, List.sum_cons, ih, hfilter, ← List.sum_map_add]
    congr 1
    refine List.map_congr_left fun x _ => ?_
    rw [List.filter_cons]
    by_cases hc : covers b x = true
    · rw [if_pos hc, if_pos hc, List.length_cons, succ_nsmul, add_comm]
    · rw [if_neg hc, if_neg hc, zero_add]

private theorem filesOf_eq_sum (es : List EntryV2) :
    filesOf es = (es.map fun e => if e.kind = .file then ((1, e.size) : Nat × Nat) else 0).sum := by
  induction es with
  | nil => rfl
  | cons e es ih => rw [filesOf_cons, ih, List.map_cons, List.sum_cons]

private theorem sum_pairs {α : Type*} (l : List α) (f g : α → Nat) :
    ((l.map f).sum, (l.map g).sum) = (l.map fun a => (f a, g a)).sum := by
  induction l with
  | nil => rfl
  | cons a l ih =>
    rw [List.map_cons, List.sum_cons, List.map_cons, List.sum_cons, List.map_cons, List.sum_cons, ← ih]
    rfl

theorem filesOf_partition (p : EntryV2 → Bool) (es : List EntryV2) :
    filesOf (es.filter fun e => !p e) + filesOf (es.filter p) = filesOf es := by
  induction es with
  | nil => rfl
  | cons e es ih =>
    rw [List.filter_cons, List.filter_cons, filesOf_cons, ← ih]
    cases p e with
    | true =>
      simp only [Bool.not_true, Bool.false_eq_true, if_false, if_true, filesOf_cons]
      exact add_left_comm _ _ _
    | false =>
      simp only [Bool.not_false, Bool.false_eq_true, if_false, if_true, filesOf_cons]
      exact add_assoc _ _ _

/-- What is shown nowhere is not accounted for: every file that the browser or the trash panel lists is shown. -/
theorem NothingHidden.shown (h : NothingHidden F sort es) : AllShown es := by
  intro e he hk ht
  rcases h.files e he hk with ⟨dir, -, row, hrow, hpath⟩ | ⟨item, hitem⟩
  · obtain ⟨e', -, hlive, -, hpath', -⟩ := mem_visibleRows hrow
    rw [← hpath', hpath, ht] at hlive
    cases hlive
  · have hmem : item ∈ (trashedItems es).filter fun i => AtOrBelow '/' i.trashedPath e.path := by
      rw [hitem]
      exact List.mem_singleton_self _
    obtain ⟨hmem, hat⟩ := List.mem_filter.1 hmem
    obtain ⟨d, -, hdp, hd⟩ := mem_trashedItems.1 hmem
    obtain ⟨deletedAt, origPath, hparse, rfl⟩ := trashItem_eq_some.1 hd
    exact ⟨d.path, by simpa using hat, hdp, by simp [hparse]⟩

/-- In a closed tree the app hides nothing exactly if every file is shown. -/
theorem nothingHidden_iff (F : Casing) (sort : SortMode) (hcl : ClosedEntries es) (hnd : (pathsOf es).Nodup) :
    NothingHidden F sort es ↔ AllShown es := by
  refine ⟨NothingHidden.shown, fun hshown => ?_⟩
  have hitems := trashedItems_nodup hnd
  have htotals : ∀ item ∈ trashedItems es,
      (item.count, item.size) = filesOf (es.filter fun e => AtOrBelow '/' item.trashedPath e.path) := by
    refine fun item hitem => item_totals hnd (fun d hd _ hk e he hb => ?_) hitem
    obtain ⟨d', hd', hdir⟩ := hcl d.path e.path e hb ((Keyed.lookup_eq_some_iff hnd).2 ⟨he, rfl⟩)
    obtain ⟨hmem, hpath⟩ := Keyed.lookup_mem hd'
    rw [List.inj_on_of_nodup_map hnd hmem hd hpath, hk] at hdir
    cases hdir
  have hone : ∀ e ∈ es, e.kind = .file → isTrashed e.path = true →
      ∃ item, (trashedItems es).filter (fun i => AtOrBelow '/' i.trashedPath e.path) = [item] := by
    intro e he hk ht
    obtain ⟨item, hitem, hat⟩ := exists_item hcl hnd he (hshown e he hk) ht
    refine ⟨item, eq_singleton (hitems.filter _) (List.mem_filter.2 ⟨hitem, by simpa using hat⟩) fun b hb => ?_⟩
    obtain ⟨hb, hatb⟩ := List.mem_filter.1 hb
    exact item_unique hnd hb hitem (by simpa using hatb) hat
  refine ⟨fun e he hk => ?_, htotals, ?_, fun e he hk hgone => ?_⟩
  · cases ht : isTrashed e.path with
    | true => exact Or.inr (hone e he hk ht)
    | false =>
      obtain ⟨row, hrow, hpath, -⟩ := exists_row F sort he ht
      exact Or.inl ⟨_, opens_parentDir F sort hcl hnd he ht, row, hrow, hpath⟩
  · -- each file of the trash is counted with one item
    rw [sum_pairs, ← filesOf_partition (fun e => isTrashed e.path) es]
    congr 1
    have hsums : ((trashedItems es).map fun i => (i.count, i.size)) = (trashedItems es).map fun i =>
        ((es.filter fun e => AtOrBelow '/' i.trashedPath e.path).map fun e =>
          if e.kind = .file then ((1, e.size) : Nat × Nat) else 0).sum := by
      refine List.map_congr_left fun i hi => ?_
      rw [htotals i hi, filesOf_eq_sum]
    rw [hsums, sum_covered (trashedItems es) es (fun i e => AtOrBelow '/' i.trashedPath e.path), filesOf_eq_sum]
    have hfilter : ∀ l : List EntryV2, (∀ e ∈ l, e ∈ es) →
        (l.map fun e => ((trashedItems es).filter fun i => AtOrBelow '/' i.trashedPath e.path).length •
          (if e.kind = .file then ((1, e.size) : Nat × Nat) else 0)).sum =
        ((l.filter fun e => isTrashed e.path).map fun e =>
          if e.kind = .file then ((1, e.size) : Nat × Nat) else 0).sum := by
      intro l hl
      induction l with
      | nil => rfl
      | cons e l ih =>
        rw [List.map_cons, List.sum_cons, ih fun e' he' => hl e' (List.mem_cons_of_mem _ he'), List.filter_cons]
        by_cases hk : e.kind = .file
        · cases ht : isTrashed e.path with
          | true =>
            obtain ⟨item, hitem⟩ := hone e (hl e List.mem_cons_self) hk ht
            rw [hitem, List.length_singleton, one_nsmul, if_pos rfl, List.map_cons, List.sum_cons]
          | false =>
            have hnone : (trashedItems es).filter (fun i => AtOrBelow '/' i.trashedPath e.path) = [] := by
              rw [List.filter_eq_nil_iff]
              intro i hi hat
              obtain ⟨d, -, hdp, hd⟩ := mem_trashedItems.1 hi
              obtain ⟨time, orig, _, rfl⟩ := trashItem_eq_some.1 hd
              obtain ⟨token, -, htop⟩ := parentDir_eq_trashDir.1 hdp
              have habove : Below '/' trashDir d.path := below_iff.2 ⟨token, htop⟩
              have hat : AtOrBelow '/' d.path e.path := by simpa using hat
              have := isTrashed_iff.2 (Or.inr (habove.trans_atOrBelow hat))
              rw [ht] at this
              cases this
            rw [hnone, List.length_nil, zero_nsmul, zero_add, if_neg (by simp)]
        · rw [if_neg hk, nsmul_zero, zero_add]
          split
          · rw [List.map_cons, List.sum_cons, if_neg hk, zero_add]
          · rfl
    exact hfilter es fun e he => he
  · have hat : AtOrBelow '/' trashDir e.path := by
      by_contra hnot
      exact hgone (List.mem_filter.2 ⟨he, by simpa using hnot⟩)
    exact exists_item hcl hnd he (hshown e he hk) (isTrashed_iff.2 hat)

end FileSec
