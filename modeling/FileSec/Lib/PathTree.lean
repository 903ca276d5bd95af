import FileSec.Lib.SepPath
import Mathlib.Logic.Function.Basic

/-!
# Trees as finite maps from paths

A tree assigns a node to each of its paths.  It is *closed* when the paths above a node hold directories.  The
operations are those of a file tree: `plant` a node together with the directories it needs, `prune` a subtree, `move`
a subtree to another path.  Each keeps a closed tree closed.
-/

namespace PathTree

open SepPath

variable {α β : Type*} {sep : α} {isDir : β → Prop} {fresh n : β}

/-- The nodes of a tree, by path. -/
abbrev Tree (α β : Type*) := List α → Option β

/-- Whatever lies above a node of the tree is a directory of the tree. -/
def Closed (sep : α) (isDir : β → Prop) (t : Tree α β) : Prop :=
  ∀ p q n, Below sep p q → t q = some n → ∃ d, t p = some d ∧ isDir d

variable {t : Tree α β} {p q r : List α}

theorem Closed.eq_none_of_below (h : Closed sep isDir t) (hp : t p = none) (hb : Below sep p q) : t q = none := by
  cases hq : t q with
  | none => rfl
  | some n =>
    obtain ⟨d, hd, -⟩ := h p q n hb hq
    rw [hp] at hd
    exact absurd hd (by simp)

theorem Closed.eq_none_of_file (h : Closed sep isDir t) (hp : t p = some n) (hn : ¬ isDir n)
    (hb : Below sep p q) : t q = none := by
  cases hq : t q with
  | none => rfl
  | some m =>
    obtain ⟨d, hd, hdir⟩ := h p q m hb hq
    rw [hp, Option.some.injEq] at hd
    exact absurd (hd ▸ hdir) hn

/-! ### The operations -/

variable [DecidableEq α]

/-- Add the directories missing above `p`. -/
def ensure (sep : α) (fresh : β) (t : Tree α β) (p : List α) : Tree α β :=
  fun r => if Below sep r p ∧ t r = none then some fresh else t r

/-- Put the node `n` at `p`, adding the directories missing above it. -/
def plant (sep : α) (fresh : β) (t : Tree α β) (p : List α) (n : β) : Tree α β :=
  Function.update (ensure sep fresh t p) p (some n)

/-- Remove the subtree at `p`. -/
def prune (sep : α) (t : Tree α β) (p : List α) : Tree α β :=
  fun r => if AtOrBelow sep p r then none else t r

/-- Carry the subtree at `p` over to `q`, adding the directories missing above `q`. -/
def move (sep : α) (fresh : β) (t : Tree α β) (p q : List α) : Tree α β :=
  fun r => if AtOrBelow sep q r then t (reroot q p r)
    else if AtOrBelow sep p r then none else ensure sep fresh t q r

theorem ensure_of_some (hr : t r = some n) : ensure sep fresh t p r = some n := by
  simp [ensure, hr]

theorem ensure_of_not_below (hr : ¬ Below sep r p) : ensure sep fresh t p r = t r := by
  simp [ensure, hr]

theorem ensure_of_below (fresh : β) (t : Tree α β) (hr : Below sep r p) : ∃ d, ensure sep fresh t p r = some d := by
  unfold ensure
  cases h : t r with
  | none => exact ⟨fresh, by simp [hr]⟩
  | some d => exact ⟨d, by simp⟩

/-! ### The operations keep a tree closed -/

theorem Closed.ensure (h : Closed sep isDir t) (hfresh : isDir fresh)
    (hdir : ∀ a d, Below sep a p → t a = some d → isDir d) : Closed sep isDir (ensure sep fresh t p) := by
  intro a b m hab hb
  by_cases ha : t a = none
  · have hbn := h.eq_none_of_below ha hab
    unfold PathTree.ensure at hb
    simp only [hbn, and_true] at hb
    split at hb
    · rename_i hbp
      exact ⟨fresh, by simp [PathTree.ensure, ha, hab.trans hbp], hfresh⟩
    · simp at hb
  · obtain ⟨d, hd⟩ := Option.ne_none_iff_exists'.1 ha
    refine ⟨d, ensure_of_some hd, ?_⟩
    by_cases hbn : t b = none
    · unfold PathTree.ensure at hb
      simp only [hbn, and_true] at hb
      split at hb
      · rename_i hbp
        exact hdir a d (hab.trans hbp) hd
      · simp at hb
    · obtain ⟨e, he⟩ := Option.ne_none_iff_exists'.1 hbn
      obtain ⟨d', hd', hdd⟩ := h a b e hab he
      rw [hd, Option.some.injEq] at hd'
      exact hd' ▸ hdd

theorem Closed.plant (h : Closed sep isDir t) (hfresh : isDir fresh)
    (hdir : ∀ a d, Below sep a p → t a = some d → isDir d)
    (hbelow : ¬ isDir n → ∀ b, Below sep p b → t b = none) : Closed sep isDir (plant sep fresh t p n) := by
  have he := h.ensure hfresh hdir
  intro a b m hab hb
  unfold PathTree.plant at hb ⊢
  by_cases hbp : b = p
  · subst hbp
    rw [Function.update_of_ne hab.ne]
    obtain ⟨d, hd⟩ := ensure_of_below fresh t hab
    refine ⟨d, hd, ?_⟩
    unfold PathTree.ensure at hd
    split at hd
    · rw [Option.some.injEq] at hd
      exact hd ▸ hfresh
    · exact hdir a d hab hd
  · rw [Function.update_of_ne hbp] at hb
    by_cases hap : a = p
    · subst hap
      rw [Function.update_self]
      refine ⟨n, rfl, ?_⟩
      by_contra hn
      have := hbelow hn b hab
      rw [ensure_of_not_below hab.asymm, this] at hb
      simp at hb
    · rw [Function.update_of_ne hap]
      exact he a b m hab hb

theorem Closed.prune (h : Closed sep isDir t) (p : List α) : Closed sep isDir (prune sep t p) := by
  intro a b m hab hb
  unfold PathTree.prune at hb ⊢
  split at hb
  · simp at hb
  · rename_i hpb
    have : ¬ AtOrBelow sep p a := fun ha => hpb (Or.inr (ha.trans_below hab))
    rw [if_neg this]
    exact h a b m hab hb

theorem Closed.move (h : Closed sep isDir t) (hfresh : isDir fresh)
    (hdir : ∀ a d, Below sep a q → t a = some d → isDir d) (hp : t p ≠ none) (hq : t q = none)
    (hpq : ¬ Below sep p q) : Closed sep isDir (move sep fresh t p q) := by
  have hne : p ≠ q := fun e => hp (e ▸ hq)
  have hqp : ¬ Below sep q p := fun hb => hp (h.eq_none_of_below hq hb)
  have hep := h.ensure hfresh hdir
  intro a b m hab hb
  unfold PathTree.move at hb ⊢
  by_cases hqb : AtOrBelow sep q b
  · rw [if_pos hqb] at hb
    have hpb := hqb.reroot p
    by_cases hqa : AtOrBelow sep q a
    · rw [if_pos hqa]
      exact h _ _ m (hab.reroot hqa p) hb
    · have haq : Below sep a q := by
        rcases hqb with rfl | hqb
        · exact hab
        · rcases hab.comparable hqb with rfl | h' | h'
          · exact absurd (AtOrBelow.refl a) hqa
          · exact h'
          · exact absurd (Or.inr h') hqa
      have hpa : ¬ AtOrBelow sep p a := by
        rintro (rfl | hpa)
        · exact hpq haq
        · exact hpq (hpa.trans haq)
      rw [if_neg hqa, if_neg hpa]
      obtain ⟨d, hd⟩ := ensure_of_below fresh t haq
      refine ⟨d, hd, ?_⟩
      unfold PathTree.ensure at hd
      split at hd
      · rw [Option.some.injEq] at hd
        exact hd ▸ hfresh
      · exact hdir a d haq hd
  · rw [if_neg hqb] at hb
    split at hb
    · simp at hb
    · rename_i hpb
      have hqa : ¬ AtOrBelow sep q a := fun ha => hqb (Or.inr (ha.trans_below hab))
      have hpa : ¬ AtOrBelow sep p a := fun ha => hpb (Or.inr (ha.trans_below hab))
      rw [if_neg hqa, if_neg hpa]
      exact hep a b m hab hb

/-- Another node of the same sort in the place of a node. -/
theorem Closed.update (h : Closed sep isDir t) {m : β} (hp : t p = some m) (hn : isDir m → isDir n) :
    Closed sep isDir (Function.update t p (some n)) := by
  intro a b k hab hb
  have hb' : ∃ k', t b = some k' := by
    by_cases e : b = p
    · exact ⟨m, e ▸ hp⟩
    · exact ⟨k, by rwa [Function.update_of_ne e] at hb⟩
  obtain ⟨k', hk'⟩ := hb'
  obtain ⟨d, hd, hdir⟩ := h a b k' hab hk'
  by_cases e : a = p
  · subst e
    rw [hp, Option.some.injEq] at hd
    exact ⟨n, Function.update_self .., hn (hd ▸ hdir)⟩
  · exact ⟨d, by rw [Function.update_of_ne e, hd], hdir⟩

/-- Above a node of a closed tree nothing is missing. -/
theorem Closed.ensure_eq (h : Closed sep isDir t) (hp : t p = some n) : PathTree.ensure sep fresh t p = t := by
  funext r
  unfold PathTree.ensure
  split
  · rename_i hr
    obtain ⟨d, hd, -⟩ := h r p n hr.1 hp
    rw [hr.2] at hd
    exact absurd hd (by simp)
  · rfl

/-! ### What the operations leave alone -/

theorem plant_of_ne (hr : r ≠ p) (hb : ¬ Below sep r p) : plant sep fresh t p n r = t r := by
  unfold plant
  rw [Function.update_of_ne hr, ensure_of_not_below hb]

theorem prune_of_not (hr : ¬ AtOrBelow sep p r) : prune sep t p r = t r := if_neg hr

theorem move_of_not (hp : ¬ AtOrBelow sep p r) (hq : ¬ AtOrBelow sep q r) (hb : ¬ Below sep r q) :
    move sep fresh t p q r = t r := by
  unfold move
  rw [if_neg hq, if_neg hp, ensure_of_not_below hb]

theorem move_reroot (hr : AtOrBelow sep p r) : move sep fresh t p q (reroot p q r) = t r := by
  unfold move
  rw [if_pos (hr.reroot q), hr.reroot_reroot q]

/-! ### Two trees side by side -/

section Related

variable {γ : Type*} {R R' : β → γ → Prop} {u : Tree α γ} {m : γ} {fresh' : γ}

/-- The two trees have the same paths, and the nodes at each are related. -/
def Related (R : β → γ → Prop) (t : Tree α β) (u : Tree α γ) : Prop := ∀ p, Option.Rel R (t p) (u p)

omit [DecidableEq α] in
theorem Related.of_none (ht : ∀ p, t p = none) (hu : ∀ p, u p = none) : Related R t u := by
  intro p
  rw [ht, hu]
  exact .none

omit [DecidableEq α] in
theorem Related.eq_none_iff (h : Related R t u) : t p = none ↔ u p = none := by
  have hp := h p
  generalize t p = x at hp
  generalize u p = y at hp
  cases hp with
  | none => simp
  | some _ => simp

omit [DecidableEq α] in
theorem Related.exists_left (h : Related R t u) (hu : u p = some m) : ∃ n, t p = some n ∧ R n m := by
  have hp := h p
  rw [hu] at hp
  generalize t p = x at hp
  cases hp with
  | some hr => exact ⟨_, rfl, hr⟩

omit [DecidableEq α] in
theorem Related.imp (h : Related R t u) (hR : ∀ p n m, t p = some n → R n m → R' n m) : Related R' t u := by
  intro p
  have hp := h p
  have hn := hR p
  generalize t p = x at hp hn
  generalize u p = y at hp
  cases hp with
  | none => exact .none
  | some hr => exact .some (hn _ _ rfl hr)

theorem Related.ensure (h : Related R t u) (hfresh : R fresh fresh') :
    Related R (ensure sep fresh t p) (ensure sep fresh' u p) := by
  intro r
  unfold PathTree.ensure
  have e : (Below sep r p ∧ t r = none) ↔ Below sep r p ∧ u r = none := by rw [h.eq_none_iff]
  by_cases hr : Below sep r p ∧ t r = none
  · rw [if_pos hr, if_pos (e.1 hr)]
    exact .some hfresh
  · rw [if_neg hr, if_neg (mt e.2 hr)]
    exact h r

theorem Related.update (h : Related R t u) {x : Option β} {y : Option γ} (hxy : Option.Rel R x y) :
    Related R (Function.update t p x) (Function.update u p y) := by
  intro r
  by_cases hr : r = p
  · subst hr
    rwa [Function.update_self, Function.update_self]
  · rw [Function.update_of_ne hr, Function.update_of_ne hr]
    exact h r

theorem Related.plant (h : Related R t u) (hfresh : R fresh fresh') (hn : R n m) :
    Related R (plant sep fresh t p n) (plant sep fresh' u p m) := (h.ensure hfresh).update (.some hn)

theorem Related.prune (h : Related R t u) (p : List α) : Related R (prune sep t p) (prune sep u p) := by
  intro r
  unfold PathTree.prune
  split
  · exact .none
  · exact h r

theorem Related.move (h : Related R t u) (hfresh : R fresh fresh') :
    Related R (move sep fresh t p q) (move sep fresh' u p q) := by
  intro r
  unfold PathTree.move
  split
  · exact h _
  · split
    · exact .none
    · exact h.ensure hfresh r

end Related

end PathTree
