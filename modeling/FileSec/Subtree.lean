import FileSec.Reopening

/-!
# Subtrees

What lies at and below a path, as the paths from there and the attributes.  A rename carries it over as it is
(`subtreeOf_rename`), and an operation whose arguments lie aside leaves it alone (`Op.run_aside`).
-/

namespace FileSec

open SepPath Prog

variable {P : Prims}

/-- The entries at and below a path, in order, by their paths from there. -/
def subtreeOf (es : List EntryV2) (d : Str) : List (Str × EntryAttrs) :=
  (es.filter fun e => AtOrBelow '/' d e.path).map fun e => (e.path.drop d.length, e.toEntryAttrs)

/-- The other entries. -/
def restOf (es : List EntryV2) (d : Str) : List EntryV2 := es.filter fun e => ¬ AtOrBelow '/' d e.path

/-- Neither path lies at or below the other. -/
def Aside (d x : Str) : Prop := ¬ AtOrBelow '/' d x ∧ ¬ AtOrBelow '/' x d

/-- The paths a change is about. -/
def Change.paths : Change → List Str
  | .put p _ _ | .mkdir p | .remove p | .setAttr p _ _ => [p]
  | .rename p q => [p, q]

/-- The paths in the arguments of an operation, normalised as it does. -/
def Op.touches : Op → List Str
  | .putFile path _ _ _ _ _ | .putBytes path _ _ _ _ | .mkdir path => (normalizePath path).toOption.toList
  | .addDirTrusted path | .putStreamTrusted path _ _ _ _ _ _ | .remove path | .setAttr path _ _ =>
    (normalizeStoredPath path).toOption.toList
  | .rename vaultFrom vaultTo => (normalizeStoredPath vaultFrom).toOption.toList ++ (normalizePath vaultTo).toOption.toList

/-- The operation is about paths aside. -/
def Op.Aside (d : Str) (op : Op) : Prop := ∀ x ∈ op.touches, FileSec.Aside d x

variable {es es' : List EntryV2} {d p q x y : Str} {c : Change} {op : Op}

theorem Aside.not_atOrBelow (h : Aside d x) (hx : AtOrBelow '/' x y) : ¬ AtOrBelow '/' d y := by
  intro hd
  rcases hx with rfl | hx
  · exact h.1 hd
  · rcases hd with rfl | hd
    · exact h.2 (Or.inr hx)
    · rcases hx.comparable hd with rfl | hb | hb
      · exact h.1 (.refl _)
      · exact h.2 (Or.inr hb)
      · exact h.1 (Or.inr hb)

theorem Aside.symm (h : Aside d x) : Aside x d := ⟨h.2, h.1⟩

/-! ### What leaves a subtree alone -/

theorem subtreeOf_append : subtreeOf (es ++ es') d = subtreeOf es d ++ subtreeOf es' d := by
  unfold subtreeOf
  rw [List.filter_append, List.map_append]

theorem subtreeOf_eq_nil (h : ∀ e ∈ es, ¬ AtOrBelow '/' d e.path) : subtreeOf es d = [] := by
  unfold subtreeOf
  rw [List.filter_eq_nil_iff.2 fun e he => by simpa using h e he]
  rfl

/-- Directories above a path that lies elsewhere. -/
theorem subtreeOf_dirs {ps : List Str} (h : ∀ a ∈ ps, Below '/' a q) (hq : ¬ AtOrBelow '/' d q) :
    subtreeOf (ps.map dirEntry) d = [] := by
  refine subtreeOf_eq_nil fun e he hd => ?_
  obtain ⟨a, ha, rfl⟩ := List.mem_map.1 he
  exact hq (Or.inr (hd.trans_below (h a ha)))

theorem subtreeOf_withParents (hq : ¬ AtOrBelow '/' d q) : subtreeOf (withParents es q) d = subtreeOf es d := by
  unfold withParents
  rw [subtreeOf_append, subtreeOf_dirs (fun a ha => (mem_missingParents.1 ha).1) hq, List.append_nil]

theorem subtreeOf_set {i : Nat} {e : EntryV2} (hold : ∀ e', es[i]? = some e' → ¬ AtOrBelow '/' d e'.path)
    (hnew : ¬ AtOrBelow '/' d e.path) : subtreeOf (es.set i e) d = subtreeOf es d := by
  induction es generalizing i with
  | nil => rfl
  | cons e' es ih =>
    cases i with
    | zero =>
      have hold : ¬ AtOrBelow '/' d e'.path := hold e' rfl
      simp only [List.set_cons_zero, subtreeOf, List.filter_cons, hold, hnew, decide_false]
      rfl
    | succ i =>
      have ih := ih fun e' he' => hold e' he'
      rw [List.set_cons_succ, ← List.singleton_append, subtreeOf_append, ih, ← subtreeOf_append, List.singleton_append]

/-- A rename of something aside to a place aside. -/
theorem subtreeOf_move (hp : Aside d p) (hq : Aside d q) : subtreeOf (es.map (moveEntry p q)) d = subtreeOf es d := by
  have hpath : ∀ e : EntryV2, AtOrBelow '/' d (moveEntry p q e).path ↔ AtOrBelow '/' d e.path := by
    intro e
    rw [moveEntry_path]
    split
    · rename_i hat
      exact iff_of_false (hq.not_atOrBelow (hat.reroot q)) (hp.not_atOrBelow hat)
    · rfl
  unfold subtreeOf
  rw [List.filter_map, List.map_map]
  have hfilter : es.filter ((fun e => decide (AtOrBelow '/' d e.path)) ∘ moveEntry p q) =
      es.filter fun e => AtOrBelow '/' d e.path :=
    List.filter_congr fun e _ => decide_eq_decide.2 (hpath e)
  rw [hfilter]
  refine List.map_congr_left fun e he => ?_
  have hat : AtOrBelow '/' d e.path := by simpa using (List.mem_filter.1 he).2
  have hnot : ¬ AtOrBelow '/' p e.path := fun h => hp.not_atOrBelow h hat
  show ((moveEntry p q e).path.drop d.length, e.toEntryAttrs) = _
  rw [moveEntry_path, if_neg hnot]

/-- A change about paths aside. -/
theorem subtreeOf_apply (hnd : (pathsOf es).Nodup) (h : ∀ x ∈ c.paths, Aside d x) :
    subtreeOf (c.apply es) d = subtreeOf es d := by
  have hat : ∀ {p : Str} {i : Nat}, Aside d p → Keyed.index EntryV2.path es p = some i →
      ∀ e, es[i]? = some e → ¬ AtOrBelow '/' d e.path := by
    intro p i hp hi e he
    obtain ⟨e', he', hpath⟩ := (Keyed.index_eq_some_iff hnd).1 hi
    rw [he, Option.some.injEq] at he'
    rw [he', hpath]
    exact hp.1
  cases c with
  | put p a bytes =>
    have hp := h p (List.mem_singleton_self p)
    by_cases hnone : entryAt es p = none
    · rw [apply_put_of_none hnone, subtreeOf_append, subtreeOf_withParents hp.1]
      have hone : subtreeOf [{ a with path := p }] d = [] := subtreeOf_eq_nil fun e he => List.mem_singleton.1 he ▸ hp.1
      rw [hone, List.append_nil]
    · obtain ⟨i, hi⟩ := exists_index hnone
      rw [apply_put_of_some hi]
      exact subtreeOf_set (hat hp hi) hp.1
  | mkdir p =>
    have hp := h p (List.mem_singleton_self p)
    by_cases hnone : entryAt es p = none
    · rw [apply_mkdir_of_none hnone, subtreeOf_append, subtreeOf_withParents hp.1]
      have hone : subtreeOf [dirEntry p] d = [] := subtreeOf_eq_nil fun e he => List.mem_singleton.1 he ▸ hp.1
      rw [hone, List.append_nil]
    · rw [apply_mkdir_of_some hnone]
  | remove p =>
    have hp := h p (List.mem_singleton_self p)
    unfold subtreeOf
    simp only [Change.apply]
    rw [List.filter_filter]
    refine congrArg _ (List.filter_congr fun e _ => ?_)
    by_cases hd : AtOrBelow '/' d e.path
    · have hnot : ¬ AtOrBelow '/' p e.path := fun h => hp.not_atOrBelow h hd
      simp [hd, hnot]
    · simp [hd]
  | rename p q =>
    have hp := h p List.mem_cons_self
    have hq := h q (List.mem_cons_of_mem _ (List.mem_singleton_self q))
    by_cases hpq : p = q
    · subst hpq
      rw [apply_rename_self]
    · rw [apply_rename_of_ne hpq, subtreeOf_move hp hq, subtreeOf_withParents hq.1]
  | setAttr p mtime mode =>
    have hp := h p (List.mem_singleton_self p)
    simp only [Change.apply]
    split
    · rename_i i hi
      rw [List.modify_eq_set_getElem?]
      cases he : es[i]? with
      | none => rfl
      | some e => exact subtreeOf_set (hat hp hi) (hat hp hi e he)
    · rfl

theorem Op.Makes.paths (h : op.Makes P c) : c.paths = op.touches := by
  cases h with
  | putFile blob hp => simp [Change.paths, Op.touches, hp, Except.toOption]
  | putBytes blob hp => simp [Change.paths, Op.touches, hp, Except.toOption]
  | putStreamTrusted blob hp => simp [Change.paths, Op.touches, hp, Except.toOption]
  | mkdir hp => simp [Change.paths, Op.touches, hp, Except.toOption]
  | addDirTrusted hp => simp [Change.paths, Op.touches, hp, Except.toOption]
  | remove hp => simp [Change.paths, Op.touches, hp, Except.toOption]
  | rename hp hq => simp [Change.paths, Op.touches, hp, hq, Except.toOption]
  | setAttr hp => simp [Change.paths, Op.touches, hp, Except.toOption]

theorem Op.target_mem_touches (h : op.target = some p) : p ∈ op.touches := by
  cases op with
  | putFile | putBytes | mkdir | addDirTrusted | putStreamTrusted => exact Option.mem_toList.2 h
  | remove | setAttr => cases h
  | rename vaultFrom vaultTo =>
    simp only [Op.target] at h
    split at h
    · cases h
    · exact List.mem_append_right _ (Option.mem_toList.2 h)

/-- An operation about paths aside leaves the subtree alone, whatever becomes of it. -/
theorem Op.run_aside {b : VaultBatch P} (hb : b.Indexed) (hop : op.Aside d) :
    wp (op.run P) (fun _ b' => subtreeOf b'.manifest.entries d = subtreeOf b.manifest.entries d) b := by
  refine wp_mono (Op.run_spec hb op) ?_
  intro r b' hr
  cases r with
  | ok u =>
    obtain ⟨c, hdid⟩ := hr
    rw [hdid.manifest]
    exact subtreeOf_apply hb.nodup fun x hx => hop x (hdid.makes.paths ▸ hx)
  | error e =>
    obtain ⟨ps, hstuck⟩ := hr
    rw [hstuck.manifest]
    by_cases hps : ps = []
    · subst hps
      rw [List.map_nil, List.append_nil]
    · obtain ⟨p, f, -, ht, hf, -, -, habove⟩ := hstuck.above hps
      have hp := hop p (Op.target_mem_touches ht)
      show subtreeOf (b.manifest.entries ++ ps.map dirEntry) d = _
      rw [subtreeOf_append, subtreeOf_dirs (fun a ha => (habove a ha).trans hf) hp.1, List.append_nil]

/-- A closure of legal calls about paths aside. -/
theorem Edits.run_aside {b : VaultBatch P} (hb : b.Valid) {edits : Edits}
    (hl : edits.Along (fun b op => op.Legal P b.manifest.entries) b) (h : edits.Along (fun _ op => op.Aside d) b) :
    wp (edits.run P) (fun _ b' => subtreeOf b'.manifest.entries d = subtreeOf b.manifest.entries d) b := by
  induction edits generalizing b with
  | done r =>
    simp only [Edits.run, wp_liftM]
  | call op next ih =>
    simp only [Edits.run, wp_bind, wp_attempt]
    have hsame : subtreeOf (exec (op.run P) b).2.manifest.entries d = subtreeOf b.manifest.entries d :=
      Op.run_aside hb.indexed h.1
    have hrest := wp_mono (ih _ (Op.run_valid hb hl.1).1 hl.2 h.2) fun _ _ h => Eq.trans h hsame
    exact hrest

/-! ### Renaming -/

section Rename

variable (hne : p ≠ q) (hinto : ¬ Below '/' p q)
include hne hinto

/-- What a rename leaves at and below the new path, in terms of the entries before. -/
private theorem filter_rename : ((Change.rename p q).apply es).filter (fun e => AtOrBelow '/' q e.path) =
    (es.filter fun e => AtOrBelow '/' p e.path ∨ AtOrBelow '/' q e.path).map (moveEntry p q) := by
  rw [apply_rename_of_ne hne, withParents, List.filter_map, List.filter_append]
  have hdirs : ((missingParents es q).map dirEntry).filter ((fun e => decide (AtOrBelow '/' q e.path)) ∘ moveEntry p q) =
      [] := by
    rw [List.filter_eq_nil_iff]
    intro e he hat
    obtain ⟨a, ha, rfl⟩ := List.mem_map.1 he
    have hb := (mem_missingParents.1 ha).1
    have hnot : ¬ AtOrBelow '/' p (dirEntry a).path := fun h => hinto (h.trans_below hb)
    have hat : AtOrBelow '/' q (moveEntry p q (dirEntry a)).path := of_decide_eq_true hat
    rw [moveEntry_path, if_neg hnot] at hat
    exact not_below_self q (hat.trans_below hb)
  rw [hdirs, List.append_nil]
  refine congrArg _ (List.filter_congr fun e _ => ?_)
  refine decide_eq_decide.2 ?_
  rw [moveEntry_path]
  split
  · rename_i hat
    exact iff_of_true (hat.reroot q) (Or.inl hat)
  · rename_i hat
    rw [or_iff_right hat]

/-- A rename carries the subtree over as it is, exactly if nothing else was at or below the new path. -/
theorem subtreeOf_rename : subtreeOf ((Change.rename p q).apply es) q = subtreeOf es p ↔
    ∀ e ∈ es, AtOrBelow '/' q e.path → AtOrBelow '/' p e.path := by
  constructor
  · intro h e he hq
    have hlen := congrArg List.length h
    unfold subtreeOf at hlen
    rw [filter_rename hne hinto, List.length_map, List.length_map, List.length_map] at hlen
    have hsub : (es.filter fun e => AtOrBelow '/' p e.path).Sublist
        (es.filter fun e => AtOrBelow '/' p e.path ∨ AtOrBelow '/' q e.path) :=
      List.monotone_filter_right es fun e he => by simpa using Or.inl (of_decide_eq_true he)
    have hmem : e ∈ es.filter fun e => AtOrBelow '/' p e.path ∨ AtOrBelow '/' q e.path :=
      List.mem_filter.2 ⟨he, by simpa using Or.inr hq⟩
    rw [← hsub.eq_of_length hlen.symm] at hmem
    simpa using (List.mem_filter.1 hmem).2
  · intro h
    unfold subtreeOf
    rw [filter_rename hne hinto, List.map_map]
    have hfilter : es.filter (fun e => AtOrBelow '/' p e.path ∨ AtOrBelow '/' q e.path) =
        es.filter fun e => AtOrBelow '/' p e.path :=
      List.filter_congr fun e he => decide_eq_decide.2 (or_iff_left_of_imp (h e he))
    rw [hfilter]
    refine List.map_congr_left fun e he => ?_
    have hat : AtOrBelow '/' p e.path := by simpa using (List.mem_filter.1 he).2
    show ((moveEntry p q e).path.drop q.length, e.toEntryAttrs) = _
    rw [moveEntry_path, if_pos hat, reroot, List.drop_left]

/-- A rename keeps all other entries and adds the parents that were missing. -/
theorem restOf_rename (hfree : ∀ e ∈ es, AtOrBelow '/' q e.path → AtOrBelow '/' p e.path) :
    restOf ((Change.rename p q).apply es) q = restOf es p ++ (missingParents es q).map dirEntry := by
  unfold restOf
  rw [apply_rename_of_ne hne, withParents, List.filter_map, List.filter_append, List.map_append]
  congr 1
  · have hfilter : es.filter ((fun e => decide (¬ AtOrBelow '/' q e.path)) ∘ moveEntry p q) =
        es.filter fun e => ¬ AtOrBelow '/' p e.path := by
      refine List.filter_congr fun e he => decide_eq_decide.2 (not_congr ?_)
      rw [moveEntry_path]
      split
      · rename_i hat
        exact iff_of_true (hat.reroot q) hat
      · rename_i hat
        exact iff_of_false (fun h => hat (hfree e he h)) hat
    rw [hfilter]
    conv_rhs => rw [← List.map_id (es.filter _)]
    refine List.map_congr_left fun e he => ?_
    have hat : ¬ AtOrBelow '/' p e.path := by simpa using (List.mem_filter.1 he).2
    unfold moveEntry
    rw [renamePath_eq, if_neg hat]
    rfl
  · have hnot : ∀ a ∈ missingParents es q, ¬ AtOrBelow '/' p a := fun a ha h =>
      hinto (h.trans_below (mem_missingParents.1 ha).1)
    have hsame : ∀ a ∈ missingParents es q, moveEntry p q (dirEntry a) = dirEntry a := by
      intro a ha
      unfold moveEntry
      rw [renamePath_eq, if_neg (show ¬ AtOrBelow '/' p (dirEntry a).path from hnot a ha)]
    have hfilter : ((missingParents es q).map dirEntry).filter
        ((fun e => decide (¬ AtOrBelow '/' q e.path)) ∘ moveEntry p q) = (missingParents es q).map dirEntry := by
      rw [List.filter_eq_self]
      intro e he
      obtain ⟨a, ha, rfl⟩ := List.mem_map.1 he
      have hb := (mem_missingParents.1 ha).1
      have hnotq : ¬ AtOrBelow '/' q a := fun h => not_below_self q (h.trans_below hb)
      rw [Function.comp_apply, hsame a ha]
      exact decide_eq_true hnotq
    rw [hfilter, List.map_map]
    exact List.map_congr_left fun a ha => hsame a ha

end Rename

end FileSec
