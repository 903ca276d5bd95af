import FileSec.App.Shown
import FileSec.Subtree

/-!
# Names for what is deleted and restored

The path a deleted entry goes to is in normal form, so that it is where the trash panel looks for it
(`normalize_trashDest`).  The path an entry is restored to is its own or that of a sibling, is not taken
(`dedupPath_not_mem`) and is in normal form (`normalize_dedupPath`).
-/

namespace FileSec

open SepPath

/-- The tag of a trash name is written in hexadecimal. -/
def IsHex (tag : Str) : Prop := ∀ c ∈ tag, c ∈ "0123456789abcdefABCDEF".toList

instance (tag : Str) : Decidable (IsHex tag) := List.decidableBAll _ tag

variable {t : Int} {tag p n x : Str} {taken : List Str}

theorem IsHex.not_mem (h : IsHex tag) {c : Char} (hc : c ∉ "0123456789abcdefABCDEF".toList) : c ∉ tag :=
  fun hmem => hc (h c hmem)

/-! ### What normalisation keeps -/

/-- The characters of a path that normalisation counts: all but separators and dots. -/
private def weight (s : Str) : Nat := s.countP fun c => c ≠ '/' ∧ c ≠ '\\' ∧ c ≠ '.'

private theorem weight_append (s t : Str) : weight (s ++ t) = weight s + weight t := List.countP_append

private theorem weight_cons (c : Char) (s : Str) :
    weight (c :: s) = weight s + if c ≠ '/' ∧ c ≠ '\\' ∧ c ≠ '.' then 1 else 0 := by
  unfold weight
  rw [List.countP_cons]
  simp only [decide_eq_true_eq]

private theorem weight_intercalate (ls : List Str) : weight (['/'].intercalate ls) = (ls.map weight).sum := by
  induction ls with
  | nil => rfl
  | cons l ls ih =>
    cases ls with
    | nil => simp
    | cons l' ls =>
      have hslash : weight ['/'] = 0 := by decide
      rw [List.intercalate_cons_cons, weight_append, weight_append, ih, hslash]
      simp

private theorem weight_components {comps out : List Str} (h : normalizeComponents comps = .ok out) :
    (out.map weight).sum = (comps.map weight).sum := by
  induction comps generalizing out with
  | nil =>
    simp only [normalizeComponents, Except.ok.injEq] at h
    rw [← h]
  | cons comp rest ih =>
    unfold normalizeComponents at h
    split at h
    · rename_i hskip
      have hzero : weight comp = 0 := by
        rcases hskip with rfl | rfl
        · decide
        · decide
      rw [ih h, List.map_cons, List.sum_cons, hzero, Nat.zero_add]
    · split at h
      · cases h
      · cases hc : checkComponent comp with
        | error e => simp [hc, bind, Except.bind] at h
        | ok u =>
          cases hr : normalizeComponents rest with
          | error e => simp [hc, hr, bind, Except.bind] at h
          | ok out' =>
            simp only [hc, hr, bind, Except.bind, Except.ok.injEq] at h
            rw [← h, List.map_cons, List.map_cons, List.sum_cons, List.sum_cons, ih hr]

/-- Normalisation drops separators and dots only. -/
private theorem weight_normalize {path n : Str} (h : normalizeStoredPath path = .ok n) : weight n = weight path := by
  have hunify : ∀ path : Str, weight (path.map fun c => if c = '\\' then '/' else c) = weight path := by
    intro path
    induction path with
    | nil => rfl
    | cons c path ih =>
      rw [List.map_cons, weight_cons, weight_cons, ih]
      by_cases hc : c = '\\'
      · subst hc
        rfl
      · rw [if_neg hc]
  unfold normalizeStoredPath at h
  split at h
  · cases h
  · simp only at h
    split at h
    · cases h
    · split at h
      · cases h
      · cases hc : normalizeComponents ((path.map fun c => if c = '\\' then '/' else c).splitOn '/') with
        | error e => simp [hc, bind, Except.bind] at h
        | ok comps =>
          simp only [hc, bind, Except.bind] at h
          split at h
          · cases h
          · split at h
            · cases h
            · obtain rfl := Except.ok.inj h
              rw [weight_intercalate, weight_components hc, ← weight_intercalate, List.intercalate_splitOn, hunify]

private theorem weight_le_pctEncodeSeg (s : Str) : weight s ≤ weight (pctEncodeSeg s) := by
  induction s with
  | nil => exact Nat.le_refl _
  | cons c s ih =>
    have hcons : pctEncodeSeg (c :: s) = (if c = '%' then "%25".toList else if c = '/' then "%2F".toList else [c]) ++
        pctEncodeSeg s := rfl
    rw [hcons, weight_append, weight_cons]
    have hone : (if c ≠ '/' ∧ c ≠ '\\' ∧ c ≠ '.' then 1 else 0) ≤
        weight (if c = '%' then "%25".toList else if c = '/' then "%2F".toList else [c]) := by
      by_cases hp : c = '%'
      · subst hp
        decide
      · by_cases hs : c = '/'
        · subst hs
          decide
        · rw [if_neg hp, if_neg hs, weight_cons]
          exact Nat.le_add_left _ _
    omega

/-- A deleted entry goes to another place than its own, however its path is written. -/
theorem normalize_trashDest_ne (h : normalizeStoredPath p = .ok n) :
    normalizeStoredPath (trashDest t tag p) ≠ .ok n := by
  intro h'
  have hw := (weight_normalize h).symm.trans (weight_normalize h')
  have hle := weight_le_pctEncodeSeg p
  have hdir : weight trashDir = 5 := by decide
  unfold trashDest at hw
  rw [weight_append, hdir, weight_cons, weight_append, weight_cons, weight_append, weight_cons] at hw
  omega

/-! ### The place in the trash -/

private theorem not_mem_pctEncodeSeg {c : Char} (hc : c ∉ "%25".toList ∧ c ∉ "%2F".toList) (h : c = '/' ∨ c ∉ p) :
    c ∉ pctEncodeSeg p := by
  intro hmem
  obtain ⟨d, hd, hmem⟩ := List.mem_flatMap.1 hmem
  split at hmem
  · exact hc.1 hmem
  · split at hmem
    · exact hc.2 hmem
    · rename_i hslash
      obtain rfl := List.mem_singleton.1 hmem
      rcases h with rfl | h
      · exact hslash rfl
      · exact h hd

/-- Where an entry with a normal path is moved to. -/
theorem normalize_trashDest (ht : 0 ≤ t) (htag : IsHex tag) (hp : NormalPath p)
    (h : normalizeStoredPath (trashDest t tag p) = .ok n) : n = trashDest t tag p := by
  have hplain : ∀ c : Char, c.isDigit = false → c ∉ "0123456789abcdefABCDEF".toList → c ≠ '-' →
      c ∉ pctEncodeSeg p → c ∉ (toString t).toList ++ '-' :: (tag ++ '-' :: pctEncodeSeg p) := by
    intro c h1 h2 h3 h4
    simp only [List.mem_append, List.mem_cons, not_or]
    exact ⟨not_mem_time ht h1, h3, htag.not_mem h2, h3, h4⟩
  have hslash := hplain '/' (by decide) (by decide) (by decide) (not_mem_pctEncodeSeg (by decide) (Or.inl rfl))
  have hback := hplain '\\' (by decide) (by decide) (by decide) (not_mem_pctEncodeSeg (by decide) (Or.inr hp.no_backslash))
  have hdash : '-' ∈ (toString t).toList ++ '-' :: (tag ++ '-' :: pctEncodeSeg p) := by simp
  have hne : ∀ s : Str, '-' ∉ s → (toString t).toList ++ '-' :: (tag ++ '-' :: pctEncodeSeg p) ≠ s :=
    fun s hs heq => hs (heq ▸ hdash)
  exact normalize_under (show trashDir = [] ∨ NormalPath trashDir from Or.inr (by decide)) hslash hback
    ⟨hne _ (by decide), hne _ (by decide), hne _ (by decide)⟩ h

theorem parentDir_trashDest (ht : 0 ≤ t) (htag : IsHex tag) : parentDir (trashDest t tag p) = trashDir := by
  refine parentDir_eq_trashDir.2 ⟨_, ?_, rfl⟩
  simp only [List.mem_append, List.mem_cons, not_or]
  exact ⟨not_mem_time ht (by decide), by decide, htag.not_mem (by decide), by decide,
    not_mem_pctEncodeSeg (by decide) (Or.inl rfl)⟩

/-- A live path has nothing to do with a top-level entry of the trash. -/
theorem aside_top {top : Str} (hdir : parentDir top = trashDir) (hlive : isTrashed x = false) : Aside top x := by
  have hbelow : Below '/' trashDir top := by
    obtain ⟨token, -, rfl⟩ := parentDir_eq_trashDir.1 hdir
    exact below_append _ _
  have hnot : ¬ AtOrBelow '/' trashDir x := by
    rw [← isTrashed_iff, hlive]
    exact Bool.false_ne_true
  refine ⟨fun h => hnot (Or.inr (hbelow.trans_atOrBelow h)), ?_⟩
  rintro (heq | hb)
  · exact hnot (heq ▸ Or.inr hbelow)
  · have habove := below_atOrBelow_parentDir hb
    rw [hdir] at habove
    rcases habove with heq | hb
    · exact hnot (heq ▸ .refl _)
    · have hmem := mem_parents.2 hb
      rw [parents_of_not_mem (by decide)] at hmem
      cases hmem

/-! ### The place to restore to -/

/-- What is put between stem and extension the `n`-th time. -/
private def suffix (n : Nat) : Str :=
  if n ≤ 1 then " (restored)".toList else " (restored ".toList ++ (toString n).toList ++ ")".toList

private theorem restoredName_eq (p : Str) : ∃ stem ext, leafName p = stem ++ ext ∧
    ∀ n, restoredName p n = under (parentDir p) (stem ++ suffix n ++ ext) := by
  have hleaf : leafName p = (splitExt (leafName p)).1 ++ (splitExt (leafName p)).2 := by
    generalize leafName p = leaf
    unfold splitExt
    cases hs : rsplitOnce '.' leaf with
    | none => simp
    | some q =>
      obtain ⟨stem, ext⟩ := q
      dsimp only
      split
      · simp
      · exact rsplitOnce_eq hs
  exact ⟨_, _, hleaf, fun _ => rfl⟩

private theorem suffix_injective {m n : Nat} (hm : 1 ≤ m) (hn : 1 ≤ n) (h : suffix m = suffix n) : m = n := by
  have hnum : ∀ k : Nat, (toString k).toList = Nat.toDigits 10 k := fun k => by
    rw [Nat.toString_eq_repr, Nat.toList_repr]
  have hne : ∀ k : Nat, " (restored)".toList ≠ " (restored ".toList ++ (toString k).toList ++ ")".toList := by
    intro k heq
    rw [List.append_assoc] at heq
    cases heq
  unfold suffix at h
  split at h
  · split at h
    · omega
    · exact absurd h (hne n)
  · split at h
    · exact absurd h.symm (hne m)
    · rw [List.append_cancel_right_eq, List.append_cancel_left_eq, hnum, hnum] at h
      have := congrArg (Nat.ofDigitChars 10 · 0) h
      simpa only [Nat.ofDigitChars_toDigits (show 1 < 10 by decide) (show 10 ≤ 10 by decide)] using this

private theorem restoredName_injective {m n : Nat} (hm : 1 ≤ m) (hn : 1 ≤ n)
    (h : restoredName p m = restoredName p n) : m = n := by
  obtain ⟨stem, ext, -, heq⟩ := restoredName_eq p
  rw [heq, heq] at h
  unfold under at h
  refine suffix_injective hm hn ?_
  split at h
  · rwa [List.append_cancel_right_eq, List.append_cancel_left_eq] at h
  · rwa [List.append_cancel_left_eq, List.cons.injEq, and_iff_right rfl, List.append_cancel_right_eq,
      List.append_cancel_left_eq] at h

/-- The loop ends with a name that is not taken, or with the last after all others were taken. -/
private theorem dedupLoop_spec (taken : List Str) (p : Str) (fuel n : Nat) :
    ∃ i ≤ fuel, dedupLoop taken p fuel n = restoredName p (n + i) ∧
      (∀ j < i, restoredName p (n + j) ∈ taken) ∧ (i < fuel → restoredName p (n + i) ∉ taken) := by
  induction fuel generalizing n with
  | zero => exact ⟨0, Nat.le_refl _, rfl, by omega, by omega⟩
  | succ fuel ih =>
    unfold dedupLoop
    split
    · rename_i hmem
      obtain ⟨i, hi, heq, htaken, hfree⟩ := ih (n + 1)
      have hshift : ∀ j, n + (j + 1) = n + 1 + j := by omega
      refine ⟨i + 1, by omega, by rw [heq, hshift i], fun j hj => ?_, fun hlt => ?_⟩
      · cases j with
        | zero => exact hmem
        | succ j =>
          rw [hshift j]
          exact htaken j (by omega)
      · rw [hshift i]
        exact hfree (by omega)
    · rename_i hmem
      exact ⟨0, Nat.zero_le _, rfl, by omega, fun _ => hmem⟩

theorem dedupPath_eq (taken : List Str) (p : Str) :
    p ∉ taken ∧ dedupPath taken p = p ∨ p ∈ taken ∧ ∃ n, dedupPath taken p = restoredName p n := by
  unfold dedupPath
  split
  · rename_i hmem
    obtain ⟨i, -, heq, -⟩ := dedupLoop_spec taken p taken.length 1
    exact Or.inr ⟨hmem, _, heq⟩
  · rename_i hmem
    exact Or.inl ⟨hmem, rfl⟩

/-- Nothing is at the path that an entry is restored to. -/
theorem dedupPath_not_mem (taken : List Str) (p : Str) : dedupPath taken p ∉ taken := by
  unfold dedupPath
  split
  · obtain ⟨i, hi, heq, htaken, hfree⟩ := dedupLoop_spec taken p taken.length 1
    rw [heq]
    intro hmem
    rcases Nat.lt_or_ge i taken.length with hlt | hge
    · exact hfree hlt hmem
    · -- more names would be taken than there are
      have hnd : ((List.range (taken.length + 1)).map fun j => restoredName p (1 + j)).Nodup := by
        refine List.Nodup.map_on (fun j _ k _ h => ?_) List.nodup_range
        have := restoredName_injective (by omega) (by omega) h
        omega
      have hsub : ((List.range (taken.length + 1)).map fun j => restoredName p (1 + j)) ⊆ taken := by
        intro name hname
        obtain ⟨j, hj, rfl⟩ := List.mem_map.1 hname
        rw [List.mem_range] at hj
        by_cases hji : j < i
        · exact htaken j hji
        · obtain rfl : j = i := by omega
          exact hmem
      have hlen := (List.subperm_of_subset hnd hsub).length_le
      rw [List.length_map, List.length_range] at hlen
      omega
  · rename_i hmem
    exact hmem

/-- A name that is tried is a plain component in the folder of the path. -/
private theorem restoredName_under (hp : NormalPath p) (i : Nat) : ∃ name, restoredName p i = under (parentDir p) name ∧
    '/' ∉ name ∧ '\\' ∉ name ∧ '(' ∈ name := by
  obtain ⟨stem, ext, hleaf, heq⟩ := restoredName_eq p
  have hparts : '/' ∉ stem ++ ext ∧ '\\' ∉ stem ++ ext := by
    rw [← hleaf]
    have hback := hp.no_backslash
    unfold leafName
    cases hs : rsplitOnce '/' p with
    | none => exact ⟨rsplitOnce_eq_none.1 hs, hback⟩
    | some q =>
      obtain ⟨dir, leaf⟩ := q
      obtain ⟨rfl, hslash⟩ := rsplitOnce_eq_some.1 hs
      exact ⟨hslash, fun h => hback (by simp [h])⟩
  have hnum : ∀ c : Char, c.isDigit = false → c ∉ " (restored)".toList → c ∉ suffix i := by
    intro c hdigit hc
    have htime : c ∉ (toString i).toList := not_mem_time (t := (i : Int)) (Int.natCast_nonneg i) hdigit
    unfold suffix
    split
    · exact hc
    · simp only [List.mem_append, not_or]
      have hsub : " (restored ".toList ⊆ " (restored)".toList := by decide
      have hclose : ")".toList ⊆ " (restored)".toList := by decide
      exact ⟨⟨fun h => hc (hsub h), htime⟩, fun h => hc (hclose h)⟩
  have hparen : '(' ∈ suffix i := by
    unfold suffix
    split
    · decide
    · exact List.mem_append_left _ (List.mem_append_left _ (by decide))
  simp only [List.mem_append, not_or] at hparts
  refine ⟨_, heq i, ?_, ?_, by simp [hparen]⟩
  · simp only [List.mem_append, not_or]
    exact ⟨⟨hparts.1.1, hnum _ (by decide) (by decide)⟩, hparts.1.2⟩
  · simp only [List.mem_append, not_or]
    exact ⟨⟨hparts.2.1, hnum _ (by decide) (by decide)⟩, hparts.2.2⟩

private theorem normal_parentDir (hp : NormalPath p) : parentDir p = [] ∨ NormalPath (parentDir p) :=
  (below_parentDir p).imp_right hp.of_below

/-- The path to restore to is in the same folder. -/
theorem parentDir_dedupPath (hp : NormalPath p) (taken : List Str) : parentDir (dedupPath taken p) = parentDir p := by
  rcases dedupPath_eq taken p with ⟨-, heq⟩ | ⟨-, i, heq⟩
  · rw [heq]
  · obtain ⟨name, hname, hslash, -⟩ := restoredName_under hp i
    rw [heq, hname]
    generalize parentDir p = dir
    unfold under parentDir
    by_cases hdir : dir = []
    · rw [if_pos hdir, rsplitOnce_eq_none.2 hslash, hdir]
    · rw [if_neg hdir, rsplitOnce_eq_some.2 ⟨rfl, hslash⟩]

/-- Normalisation that accepts the path to restore to keeps it. -/
theorem normalize_dedupPath (hp : NormalPath p) (h : normalizeStoredPath (dedupPath taken p) = .ok n) :
    n = dedupPath taken p := by
  rcases dedupPath_eq taken p with ⟨-, heq⟩ | ⟨-, i, heq⟩
  · rw [heq, hp.normalizeStoredPath, Except.ok.injEq] at h
    rw [heq, h]
  · obtain ⟨name, hname, hslash, hback, hparen⟩ := restoredName_under hp i
    have hne : ∀ s : Str, '(' ∉ s → name ≠ s := fun s hs heq => hs (heq ▸ hparen)
    rw [heq, hname] at h ⊢
    exact normalize_under (normal_parentDir hp) hslash hback ⟨hne _ (by decide), hne _ (by decide), hne _ (by decide)⟩ h

/-- A live entry is restored to a live place. -/
theorem isTrashed_dedupPath (hp : NormalPath p) (hlive : isTrashed p = false) (taken : List Str) :
    isTrashed (dedupPath taken p) = false := by
  have hnot : ¬ AtOrBelow '/' trashDir p := by
    rw [← isTrashed_iff, hlive]
    exact Bool.false_ne_true
  rw [Bool.eq_false_iff, Ne, isTrashed_iff]
  rintro (heq | hb)
  · rcases dedupPath_eq taken p with ⟨-, h⟩ | ⟨-, i, h⟩
    · exact hnot (h ▸ heq ▸ .refl _)
    · obtain ⟨name, hname, -, -, hparen⟩ := restoredName_under hp i
      have hmem : '(' ∈ dedupPath taken p := by
        rw [h, hname]
        unfold under
        split
        · exact hparen
        · simp [hparen]
      rw [heq] at hmem
      exact absurd hmem (by decide)
  · have hat := below_atOrBelow_parentDir hb
    rw [parentDir_dedupPath hp taken] at hat
    rcases below_parentDir p with hroot | hbelow
    · rw [hroot] at hat
      rcases hat with h | h
      · cases h
      · exact absurd h.length_lt (by simp)
    · exact hnot (Or.inr (by
        rcases hat with h | h
        · exact h ▸ hbelow
        · exact h.trans hbelow))

end FileSec
