import Mathlib.Data.List.Infix

/-!
# Separator-delimited paths

Paths are lists over an alphabet with one distinguished separator.  A path lies strictly *below* another when it
continues it after a separator; the paths a path lies below are its `parents`.  The second half of the file is about
`reroot`, which carries the subtree at one path over to another path.
-/

namespace SepPath

variable {α : Type*} {sep : α} {a p q r : List α}

/-- `q` lies strictly below `p`: it continues `p` after a separator. -/
def Below (sep : α) (p q : List α) : Prop := p ++ [sep] <+: q

/-- `q` is `p` or lies strictly below it. -/
def AtOrBelow (sep : α) (p q : List α) : Prop := q = p ∨ Below sep p q

instance [DecidableEq α] (sep : α) (p q : List α) : Decidable (Below sep p q) :=
  inferInstanceAs (Decidable (p ++ [sep] <+: q))

instance [DecidableEq α] (sep : α) (p q : List α) : Decidable (AtOrBelow sep p q) :=
  inferInstanceAs (Decidable (q = p ∨ Below sep p q))

/-- The prefixes of a path that end right before a separator, shortest first. -/
def parents [DecidableEq α] (sep : α) : List α → List (List α)
  | [] => []
  | c :: s => if c = sep then [] :: (parents sep s).map (c :: ·) else (parents sep s).map (c :: ·)

/-! ### The order -/

theorem below_iff : Below sep p q ↔ ∃ t, q = p ++ sep :: t := by
  unfold Below
  constructor
  · rintro ⟨t, rfl⟩
    exact ⟨t, by simp⟩
  · rintro ⟨t, rfl⟩
    exact ⟨t, by simp⟩

theorem below_append (p t : List α) : Below sep p (p ++ sep :: t) := below_iff.2 ⟨t, rfl⟩

theorem Below.prefix (h : Below sep p q) : p <+: q := (List.prefix_append p [sep]).trans h

theorem Below.length_lt (h : Below sep p q) : p.length < q.length := by
  have := List.IsPrefix.length_le h
  simp at this
  omega

theorem Below.ne (h : Below sep p q) : p ≠ q := by
  rintro rfl
  exact lt_irrefl _ h.length_lt

theorem not_below_self (p : List α) : ¬ Below sep p p := fun h => h.ne rfl

theorem Below.trans (h : Below sep p q) (h' : Below sep q r) : Below sep p r :=
  List.IsPrefix.trans h h'.prefix

theorem Below.asymm (h : Below sep p q) : ¬ Below sep q p := fun h' => not_below_self p (h.trans h')

theorem Below.trans_atOrBelow (h : Below sep p q) (h' : AtOrBelow sep q r) : Below sep p r := by
  rcases h' with rfl | h'
  · exact h
  · exact h.trans h'

theorem AtOrBelow.trans_below (h : AtOrBelow sep p q) (h' : Below sep q r) : Below sep p r := by
  rcases h with rfl | h
  · exact h'
  · exact h.trans h'

theorem AtOrBelow.trans (h : AtOrBelow sep p q) (h' : AtOrBelow sep q r) : AtOrBelow sep p r := by
  rcases h' with rfl | h'
  · exact h
  · exact Or.inr (h.trans_below h')

theorem AtOrBelow.refl (p : List α) : AtOrBelow sep p p := Or.inl rfl

/-- Two paths that a third one lies below are comparable. -/
theorem Below.comparable (hp : Below sep p r) (hq : Below sep q r) :
    p = q ∨ Below sep p q ∨ Below sep q p := by
  rcases lt_trichotomy p.length q.length with h | h | h
  · right; left
    exact List.prefix_of_prefix_length_le hp hq.prefix (by simp; omega)
  · left
    exact (List.prefix_of_prefix_length_le hp.prefix hq.prefix (by omega)).eq_of_length h
  · right; right
    exact List.prefix_of_prefix_length_le hq hp.prefix (by simp; omega)

/-! ### Parents -/

section Parents

variable [DecidableEq α]

theorem mem_parents : p ∈ parents sep q ↔ Below sep p q := by
  induction q generalizing p with
  | nil => simp [parents, Below]
  | cons c s ih =>
    unfold parents
    cases p with
    | nil =>
      by_cases hc : c = sep
      · simp [hc, Below]
      · simp [hc, Below, Ne.symm hc]
    | cons d p =>
      have hb : Below sep (d :: p) (c :: s) ↔ d = c ∧ Below sep p s := by
        unfold Below
        rw [List.cons_append, List.cons_prefix_cons]
      rw [hb, ← ih]
      by_cases hc : c = sep
      · simp [hc, and_comm, eq_comm]
      · simp [hc, and_comm, eq_comm]

/-- The parents of a path are listed from the root down. -/
theorem parents_pairwise (q : List α) : (parents sep q).Pairwise (Below sep) := by
  induction q with
  | nil => simp [parents]
  | cons c s ih =>
    have hmap : ((parents sep s).map (c :: ·)).Pairwise (Below sep) := by
      rw [List.pairwise_map]
      refine ih.imp fun h => ?_
      unfold Below at h ⊢
      rw [List.cons_append, List.cons_prefix_cons]
      exact ⟨rfl, h⟩
    unfold parents
    split
    · rename_i hc
      rw [List.pairwise_cons]
      refine ⟨?_, hmap⟩
      intro x hx
      obtain ⟨y, -, rfl⟩ := List.mem_map.1 hx
      simp [Below, hc]
    · exact hmap

theorem parents_of_not_mem (h : sep ∉ q) : parents sep q = [] := by
  rw [List.eq_nil_iff_forall_not_mem]
  intro a ha
  exact h ((mem_parents.1 ha).subset (by simp))

/-- The parents of a path that continues another: those of the first part, that part, and those that continue it. -/
theorem parents_append (p t : List α) :
    parents sep (p ++ sep :: t) = parents sep p ++ p :: (parents sep t).map (p ++ sep :: ·) := by
  induction p with
  | nil => simp [parents]
  | cons c p ih =>
    rw [List.cons_append, parents, ih, parents]
    split <;> simp

theorem parents_append_cons (h : sep ∉ p) (t : List α) :
    parents sep (p ++ sep :: t) = p :: (parents sep t).map (p ++ sep :: ·) := by
  rw [parents_append, parents_of_not_mem h, List.nil_append]

theorem parents_nodup (q : List α) : (parents sep q).Nodup :=
  (parents_pairwise q).imp fun h => h.ne

end Parents

/-! ### Components -/

section Components

theorem mem_intercalate {x : α} {ls : List (List α)} (h : x ∈ [sep].intercalate ls) :
    x = sep ∨ ∃ l ∈ ls, x ∈ l := by
  induction ls with
  | nil => simp at h
  | cons l ls ih =>
    cases ls with
    | nil =>
      rw [List.intercalate_singleton] at h
      exact Or.inr ⟨l, by simp, h⟩
    | cons m ls =>
      rw [List.intercalate_cons_cons, List.mem_append, List.mem_append, List.mem_singleton] at h
      rcases h with (h | h) | h
      · exact Or.inr ⟨l, by simp, h⟩
      · exact Or.inl h
      · rcases ih h with h | ⟨k, hk, hx⟩
        · exact Or.inl h
        · exact Or.inr ⟨k, by simp [hk], hx⟩

theorem mem_intercalate_of_mem {x : α} {l : List α} {ls : List (List α)} (hl : l ∈ ls) (hx : x ∈ l) :
    x ∈ [sep].intercalate ls := by
  induction ls with
  | nil => simp at hl
  | cons k ls ih =>
    cases ls with
    | nil =>
      rw [List.intercalate_singleton]
      rw [List.mem_singleton] at hl
      exact hl ▸ hx
    | cons m ls =>
      rw [List.intercalate_cons_cons, List.mem_append, List.mem_append]
      rcases List.mem_cons.1 hl with rfl | hl
      · exact Or.inl (Or.inl hx)
      · exact Or.inr (ih hl)

theorem intercalate_append {ls ms : List (List α)} (hl : ls ≠ []) (hm : ms ≠ []) :
    [sep].intercalate (ls ++ ms) = [sep].intercalate ls ++ sep :: [sep].intercalate ms := by
  induction ls with
  | nil => exact absurd rfl hl
  | cons l ls ih =>
    cases ls with
    | nil =>
      rw [List.singleton_append, List.intercalate_cons_of_ne_nil hm, List.intercalate_singleton]
      simp
    | cons k ls =>
      rw [List.cons_append, List.intercalate_cons_of_ne_nil (by simp), ih (by simp), List.intercalate_cons_cons]
      simp

variable [BEq α] [LawfulBEq α]

theorem not_mem_of_mem_splitOn {c : List α} (h : c ∈ p.splitOn sep) : sep ∉ c := by
  induction p generalizing c with
  | nil =>
    simp only [List.splitOn_nil, List.mem_singleton] at h
    simp [h]
  | cons d p ih =>
    rw [List.splitOn_cons_eq_if_modifyHead] at h
    split at h
    · rcases List.mem_cons.1 h with rfl | h
      · simp
      · exact ih h
    · rename_i hd
      cases hs : p.splitOn sep with
      | nil => exact absurd hs (List.splitOn_ne_nil _ _)
      | cons c' cs =>
        rw [hs] at h ih
        simp only [List.modifyHead_cons, List.mem_cons] at h
        rcases h with rfl | h
        · have hc' : sep ∉ c' := ih (by simp)
          have hd' : d ≠ sep := by simpa using hd
          simp [hc', Ne.symm hd']
        · exact ih (by simp [h])

theorem exists_mem_splitOn_of_mem {x : α} (h : x ∈ p) (hx : x ≠ sep) : ∃ c ∈ p.splitOn sep, x ∈ c := by
  have e : [sep].intercalate (p.splitOn sep) = p := List.intercalate_splitOn sep
  rw [← e] at h
  rcases mem_intercalate h with h | h
  · exact absurd h hx
  · exact h

theorem mem_of_mem_splitOn {x : α} {c : List α} (h : c ∈ p.splitOn sep) (hx : x ∈ c) : x ∈ p := by
  have e : [sep].intercalate (p.splitOn sep) = p := List.intercalate_splitOn sep
  rw [← e]
  exact mem_intercalate_of_mem h hx

end Components

/-! ### Carrying a subtree over -/

/-- The path at or below `q` that corresponds to the path `r` at or below `p`. -/
def reroot (p q r : List α) : List α := q ++ r.drop p.length

@[simp] theorem reroot_self (p q : List α) : reroot p q p = q := by simp [reroot]

@[simp] theorem reroot_append (p q t : List α) : reroot p q (p ++ t) = q ++ t := by simp [reroot]

theorem AtOrBelow.exists_eq (h : AtOrBelow sep p r) : ∃ t, r = p ++ t := by
  rcases h with rfl | h
  · exact ⟨[], by simp⟩
  · obtain ⟨t, rfl⟩ := below_iff.1 h
    exact ⟨sep :: t, rfl⟩

theorem AtOrBelow.reroot (h : AtOrBelow sep p r) (q : List α) : AtOrBelow sep q (reroot p q r) := by
  rcases h with rfl | h
  · simp [AtOrBelow]
  · obtain ⟨t, rfl⟩ := below_iff.1 h
    rw [reroot_append]
    exact Or.inr (below_append q t)

theorem AtOrBelow.reroot_reroot (h : AtOrBelow sep p r) (q : List α) :
    SepPath.reroot q p (SepPath.reroot p q r) = r := by
  obtain ⟨t, rfl⟩ := h.exists_eq
  simp

theorem reroot_injOn {r' : List α} (h : AtOrBelow sep p r) (h' : AtOrBelow sep p r')
    (e : reroot p q r = reroot p q r') : r = r' := by
  rw [← h.reroot_reroot q, e, h'.reroot_reroot q]

theorem Below.reroot (h : AtOrBelow sep p a) (hb : Below sep a r) (q : List α) :
    Below sep (SepPath.reroot p q a) (SepPath.reroot p q r) := by
  obtain ⟨t, rfl⟩ := h.exists_eq
  obtain ⟨s, rfl⟩ := below_iff.1 hb
  rw [List.append_assoc, reroot_append, reroot_append, ← List.append_assoc]
  exact below_append _ s

/-- What a carried-over path lies below: what its new root lies below, and what corresponds to something it lay below
before. -/
theorem below_reroot_iff (h : AtOrBelow sep p r) :
    Below sep a (reroot p q r) ↔
      Below sep a q ∨ (AtOrBelow sep q a ∧ Below sep (reroot q p a) r) := by
  have hr := h.reroot q
  constructor
  · intro hb
    have hcmp : Below sep a q ∨ AtOrBelow sep q a := by
      rcases hr with e | hr
      · rw [e] at hb
        exact Or.inl hb
      · rcases hb.comparable hr with rfl | h' | h'
        · exact Or.inr (AtOrBelow.refl _)
        · exact Or.inl h'
        · exact Or.inr (Or.inr h')
    rcases hcmp with h' | h'
    · exact Or.inl h'
    · right
      refine ⟨h', ?_⟩
      have := Below.reroot h' hb p
      rwa [h.reroot_reroot q] at this
  · rintro (h' | ⟨ha, hb⟩)
    · exact h'.trans_atOrBelow hr
    · have := Below.reroot (ha.reroot p) hb q
      rwa [ha.reroot_reroot p] at this

end SepPath
