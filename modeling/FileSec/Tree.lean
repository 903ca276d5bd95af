import FileSec.Change
import Mathlib.Data.List.Perm.Basic

/-!
# Entries as a tree

The entries of a manifest are a map from paths to attributes, `treeOf`.  Each change of the entries is an operation on
this tree (`treeOf_apply`); it keeps the paths distinct, the tree closed and every path in normal form, and it moves
the blobs it no longer refers to into the list of superseded ones (`fileIds_apply`).
-/

namespace FileSec

open SepPath PathTree

/-- The node of a directory. -/
def IsDir (a : EntryAttrs) : Prop := a.kind = .dir

/-- The entries as a tree. -/
def treeOf (es : List EntryV2) : Tree Char EntryAttrs := fun p => (entryAt es p).map (·.toEntryAttrs)

/-- The tree after a change. -/
def Change.tree (t : Tree Char EntryAttrs) : Change → Tree Char EntryAttrs
  | .put p a _ => plant '/' dirAttrs t p a
  | .mkdir p => if (t p).isSome then t else plant '/' dirAttrs t p dirAttrs
  | .remove p => prune '/' t p
  | .rename p q => if p = q then t else move '/' dirAttrs t p q
  | .setAttr p mtime mode => Function.update t p ((t p).map fun a => { a with mtime := mtime, mode := mode })

/-- The blobs the entries refer to. -/
abbrev fileIds (es : List EntryV2) : List Str := es.filterMap (·.fileId)

/-- The blob a change brings in. -/
def Change.fresh : Change → List Str
  | .put _ a _ => a.fileId.toList
  | _ => []

variable {es : List EntryV2} {p q r : Str} {a : EntryAttrs}

theorem mk_path_attrs (e : EntryV2) : ({ e.toEntryAttrs with path := e.path } : EntryV2) = e := rfl

theorem treeOf_eq_none : treeOf es p = none ↔ entryAt es p = none := by simp [treeOf]

theorem treeOf_eq_none_iff : treeOf es p = none ↔ p ∉ pathsOf es := by
  rw [treeOf_eq_none, Keyed.lookup_eq_none_iff]

theorem treeOf_eq_some_iff (h : (pathsOf es).Nodup) :
    treeOf es p = some a ↔ ({ a with path := p } : EntryV2) ∈ es := by
  unfold treeOf
  rw [Option.map_eq_some_iff]
  constructor
  · rintro ⟨e, he, rfl⟩
    obtain ⟨hm, rfl⟩ := Keyed.lookup_mem he
    exact hm
  · intro hm
    exact ⟨_, (Keyed.lookup_eq_some_iff h).2 ⟨hm, rfl⟩, rfl⟩

theorem treeOf_of_mem (h : (pathsOf es).Nodup) {e : EntryV2} (he : e ∈ es) : treeOf es e.path = some e.toEntryAttrs :=
  (treeOf_eq_some_iff h).2 he

theorem closedEntries_iff : ClosedEntries es ↔ Closed '/' IsDir (treeOf es) := by
  unfold ClosedEntries Closed treeOf IsDir
  constructor
  · intro h a p n hb hn
    obtain ⟨e, he, rfl⟩ := Option.map_eq_some_iff.1 hn
    obtain ⟨d, hd, hdir⟩ := h a p e hb he
    exact ⟨d.toEntryAttrs, by simp [hd], hdir⟩
  · intro h a p e hb he
    obtain ⟨d, hd, hdir⟩ := h a p e.toEntryAttrs hb (by simp [he])
    obtain ⟨d', hd', rfl⟩ := Option.map_eq_some_iff.1 hd
    exact ⟨d', hd', hdir⟩

theorem noFileAbove_iff : NoFileAbove es p ↔ ∀ a d, Below '/' a p → treeOf es a = some d → IsDir d := by
  unfold NoFileAbove treeOf IsDir
  constructor
  · intro h a d hb hd
    obtain ⟨e, he, rfl⟩ := Option.map_eq_some_iff.1 hd
    exact h a e hb he
  · intro h a d hb hd
    exact h a d.toEntryAttrs hb (by simp [hd])

/-! ### Adding parents -/

theorem mem_missingParents : r ∈ missingParents es p ↔ Below '/' r p ∧ entryAt es r = none := by
  simp [missingParents, mem_parents]

@[simp] theorem entryAt_dirs (ps : List Str) : entryAt (ps.map dirEntry) r = if r ∈ ps then some (dirEntry r) else none := by
  induction ps with
  | nil => rfl
  | cons x ps ih =>
    unfold entryAt Keyed.lookup at ih ⊢
    by_cases hx : x = r
    · subst hx
      simp [dirEntry]
    · rw [List.map_cons, List.find?_cons_of_neg (by simp [dirEntry, hx]), ih]
      simp [Ne.symm hx]

theorem treeOf_withParents (es : List EntryV2) (p : Str) :
    treeOf (withParents es p) = ensure '/' dirAttrs (treeOf es) p := by
  funext r
  unfold treeOf withParents ensure
  rw [entryAt, Keyed.lookup_append]
  cases h : entryAt es r with
  | some e => simp [h]
  | none =>
    have hl : Keyed.lookup EntryV2.path es r = none := h
    rw [hl, Option.none_or, ← entryAt, entryAt_dirs]
    simp only [mem_missingParents, h]
    split <;> simp_all [dirEntry]

theorem pathsOf_dirs (ps : List Str) : pathsOf (ps.map dirEntry) = ps := by
  rw [pathsOf, List.map_map]
  exact List.map_id ps

theorem nodup_addDirs {ps : List Str} (h : (pathsOf es).Nodup) (hps : ps.Sublist (missingParents es p)) :
    (pathsOf (es ++ ps.map dirEntry)).Nodup := by
  rw [pathsOf, List.map_append, ← pathsOf, ← pathsOf, pathsOf_dirs, List.nodup_append]
  refine ⟨h, (hps.trans List.filter_sublist).nodup (parents_nodup p), ?_⟩
  rintro x hx y hy rfl
  have := (mem_missingParents.1 (hps.subset hy)).2
  exact Keyed.lookup_eq_none_iff.1 this hx

theorem nodup_withParents (h : (pathsOf es).Nodup) (p : Str) : (pathsOf (withParents es p)).Nodup :=
  nodup_addDirs h (List.Sublist.refl _)

theorem treeOf_concat {e : EntryV2} (h : treeOf es e.path = none) :
    treeOf (es ++ [e]) = Function.update (treeOf es) e.path (some e.toEntryAttrs) := by
  funext r
  unfold treeOf at h ⊢
  rw [entryAt, Keyed.lookup_append]
  by_cases hr : r = e.path
  · subst hr
    rw [Option.map_eq_none_iff] at h
    rw [Function.update_self, ← entryAt, h]
    simp [Keyed.lookup]
  · rw [Function.update_of_ne hr]
    have : Keyed.lookup EntryV2.path [e] r = none := by
      rw [Keyed.lookup_eq_none_iff]
      simpa using hr
    rw [this, Option.or_none]

theorem treeOf_plant_new {e : EntryV2} (h : entryAt es e.path = none) :
    treeOf (withParents es e.path ++ [e]) = plant '/' dirAttrs (treeOf es) e.path e.toEntryAttrs := by
  have hnone : treeOf (withParents es e.path) e.path = none := by
    rw [treeOf_withParents, ensure_of_not_below (not_below_self _), treeOf_eq_none, h]
  rw [treeOf_concat hnone, treeOf_withParents]
  rfl

/-! ### Moving a subtree -/

section Move

variable (hnd : (pathsOf es).Nodup) (hcl : Closed '/' IsDir (treeOf es)) (hpq : ¬ Below '/' p q)
  (hp : entryAt es p ≠ none) (hq : entryAt es q = none)

include hcl hq in
private theorem not_atOrBelow_dst {x : Str} (hx : x ∈ pathsOf (withParents es q)) : ¬ AtOrBelow '/' q x := by
  intro hqx
  have hx' : treeOf (withParents es q) x ≠ none := by rwa [Ne, treeOf_eq_none_iff, not_not]
  have hnb : ¬ Below '/' x q := by
    rcases hqx with rfl | hqx
    · exact not_below_self _
    · exact hqx.asymm
  rw [treeOf_withParents, ensure_of_not_below hnb] at hx'
  have hq' : treeOf es q = none := treeOf_eq_none.2 hq
  rcases hqx with rfl | hqx
  · exact hx' hq'
  · exact hx' (hcl.eq_none_of_below hq' hqx)

include hcl hq in
private theorem move_injOn {x y : Str} (hx : x ∈ pathsOf (withParents es q)) (hy : y ∈ pathsOf (withParents es q))
    (e : renamePath p q x = renamePath p q y) : x = y := by
  rw [renamePath_eq, renamePath_eq] at e
  by_cases h : AtOrBelow '/' p x <;> by_cases h' : AtOrBelow '/' p y
  · rw [if_pos h, if_pos h'] at e
    exact reroot_injOn h h' e
  · rw [if_pos h, if_neg h'] at e
    exact absurd (e ▸ h.reroot q) (not_atOrBelow_dst hcl hq hy)
  · rw [if_neg h, if_pos h'] at e
    exact absurd (e ▸ h'.reroot q) (not_atOrBelow_dst hcl hq hx)
  · rwa [if_neg h, if_neg h'] at e

include hnd hcl hq in
private theorem nodup_move : (pathsOf ((withParents es q).map (moveEntry p q))).Nodup := by
  have e : pathsOf ((withParents es q).map (moveEntry p q)) =
      (pathsOf (withParents es q)).map (renamePath p q) := by
    simp [pathsOf, moveEntry]
  rw [e]
  exact (nodup_withParents hnd q).map_on fun x hx y hy => move_injOn hcl hq hx hy

include hnd hcl hpq hq in
private theorem treeOf_move : treeOf ((withParents es q).map (moveEntry p q)) = move '/' dirAttrs (treeOf es) p q := by
  have hnd' := nodup_withParents hnd q
  funext r
  apply Option.ext
  intro a
  -- the entries at `r` are the carried-over entries of the paths that go to `r`
  have hleft : treeOf ((withParents es q).map (moveEntry p q)) r = some a ↔
      ∃ x, renamePath p q x = r ∧ ensure '/' dirAttrs (treeOf es) q x = some a := by
    rw [treeOf_eq_some_iff (nodup_move hnd hcl hq), List.mem_map]
    simp only [← treeOf_withParents]
    constructor
    · rintro ⟨e, he, heq⟩
      refine ⟨e.path, ?_, ?_⟩
      · exact congrArg EntryV2.path heq
      · rw [treeOf_of_mem hnd' he]
        exact congrArg (fun e : EntryV2 => some e.toEntryAttrs) heq
    · rintro ⟨x, hx, hxa⟩
      exact ⟨_, (treeOf_eq_some_iff hnd').1 hxa, by rw [← hx]; rfl⟩
  rw [hleft]
  have hkey : ∀ x, ensure '/' dirAttrs (treeOf es) q x = some a → x ∈ pathsOf (withParents es q) := by
    intro x hx
    by_contra hn
    rw [← treeOf_eq_none_iff, treeOf_withParents, hx] at hn
    exact absurd hn (by simp)
  unfold move
  by_cases hqr : AtOrBelow '/' q r
  · rw [if_pos hqr]
    have hps := hqr.reroot p
    have hnb : ¬ Below '/' (reroot q p r) q := fun hb => hpq (hps.trans_below hb)
    constructor
    · rintro ⟨x, rfl, hxa⟩
      rw [renamePath_eq] at hqr hps hnb ⊢
      by_cases hx : AtOrBelow '/' p x
      · rw [if_pos hx, hx.reroot_reroot] at hnb
        rw [if_pos hx, hx.reroot_reroot]
        rwa [ensure_of_not_below hnb] at hxa
      · rw [if_neg hx] at hqr
        exact absurd hqr (not_atOrBelow_dst hcl hq (hkey x hxa))
    · intro h
      refine ⟨reroot q p r, ?_, ?_⟩
      · rw [renamePath_eq, if_pos hps, hqr.reroot_reroot]
      · rwa [ensure_of_not_below hnb]
  · rw [if_neg hqr]
    by_cases hpr : AtOrBelow '/' p r
    · rw [if_pos hpr]
      constructor
      · rintro ⟨x, rfl, -⟩
        rw [renamePath_eq] at hqr hpr
        by_cases hx : AtOrBelow '/' p x
        · rw [if_pos hx] at hqr
          exact absurd (hx.reroot q) hqr
        · rw [if_neg hx] at hpr
          exact absurd hpr hx
      · simp
    · rw [if_neg hpr]
      constructor
      · rintro ⟨x, rfl, hxa⟩
        rw [renamePath_eq] at hqr ⊢
        by_cases hx : AtOrBelow '/' p x
        · rw [if_pos hx] at hqr
          exact absurd (hx.reroot q) hqr
        · rwa [if_neg hx]
      · intro h
        exact ⟨r, by rw [renamePath_eq, if_neg hpr], h⟩

end Move

/-! ### Changes of the tree -/

private theorem treeOf_set {i : Nat} (hnd : (pathsOf es).Nodup) (hi : Keyed.index EntryV2.path es p = some i)
    (a : EntryAttrs) : treeOf (es.set i { a with path := p }) = Function.update (treeOf es) p (some a) := by
  funext r
  unfold treeOf
  rw [entryAt, Keyed.lookup_set hnd hi rfl]
  by_cases hr : r = p
  · subst hr
    simp
  · rw [if_neg hr, Function.update_of_ne hr]

private theorem treeOf_modify {i : Nat} (hnd : (pathsOf es).Nodup) (hi : Keyed.index EntryV2.path es p = some i)
    (mtime : Option Int) (mode : Option Nat) :
    treeOf (es.modify i fun e => { e with mtime := mtime, mode := mode }) =
      Function.update (treeOf es) p ((treeOf es p).map fun a => { a with mtime := mtime, mode := mode }) := by
  obtain ⟨e, he, hpath⟩ := (Keyed.index_eq_some_iff hnd).1 hi
  have hset : (es.modify i fun e => { e with mtime := mtime, mode := mode }) =
      es.set i { ({ e.toEntryAttrs with mtime := mtime, mode := mode } : EntryAttrs) with path := p } := by
    obtain ⟨hlt, hei⟩ := List.getElem?_eq_some_iff.1 he
    rw [List.modify_eq_set_getElem?, he, ← hpath]
    rfl
  have hat : treeOf es p = some e.toEntryAttrs := by
    unfold treeOf
    rw [entryAt, Keyed.lookup_eq_getElem hnd hi, he]
    rfl
  rw [hset, treeOf_set hnd hi, hat]
  rfl

/-! The entries after each change, case by case. -/

theorem apply_put_of_some {i : Nat} {bytes : Bytes} (h : Keyed.index EntryV2.path es p = some i) :
    (Change.put p a bytes).apply es = es.set i { a with path := p } := by
  simp only [Change.apply, h]

theorem apply_put_of_none {bytes : Bytes} (h : entryAt es p = none) :
    (Change.put p a bytes).apply es = withParents es p ++ [{ a with path := p }] := by
  simp only [Change.apply, Keyed.index_eq_none_iff_lookup.2 h]

theorem apply_mkdir_of_some (h : entryAt es p ≠ none) : (Change.mkdir p).apply es = es := by
  simp only [Change.apply]
  rw [if_pos (Option.isSome_iff_ne_none.2 h)]

theorem apply_mkdir_of_none (h : entryAt es p = none) :
    (Change.mkdir p).apply es = withParents es p ++ [dirEntry p] := by
  simp [Change.apply, h]

theorem apply_rename_of_ne (h : p ≠ q) :
    (Change.rename p q).apply es = (withParents es q).map (moveEntry p q) := by
  simp only [Change.apply, if_neg h]

@[simp] theorem apply_rename_self : (Change.rename p p).apply es = es := by
  simp only [Change.apply, if_pos]

theorem apply_setAttr_of_some {i : Nat} {mtime : Option Int} {mode : Option Nat}
    (h : Keyed.index EntryV2.path es p = some i) :
    (Change.setAttr p mtime mode).apply es = es.modify i fun e => { e with mtime := mtime, mode := mode } := by
  simp only [Change.apply, h]

theorem exists_index (h : entryAt es p ≠ none) : ∃ i, Keyed.index EntryV2.path es p = some i := by
  rw [← Option.ne_none_iff_exists', Ne, Keyed.index_eq_none_iff_lookup]
  exact h

/-- The operations on the entries are those on the tree. -/
theorem treeOf_apply {c : Change} (hnd : (pathsOf es).Nodup) (hcl : Closed '/' IsDir (treeOf es)) (hpre : c.Pre es) :
    treeOf (c.apply es) = c.tree (treeOf es) := by
  cases c with
  | put p a bytes =>
    show _ = plant '/' dirAttrs (treeOf es) p a
    by_cases h : entryAt es p = none
    · rw [apply_put_of_none h]
      exact @treeOf_plant_new es { a with path := p } h
    · obtain ⟨i, hi⟩ := exists_index h
      obtain ⟨n, hn⟩ := Option.ne_none_iff_exists'.1 (mt treeOf_eq_none.1 h)
      unfold plant
      rw [hcl.ensure_eq hn, apply_put_of_some hi]
      exact treeOf_set hnd hi a
  | mkdir p =>
    show _ = if (treeOf es p).isSome then treeOf es else plant '/' dirAttrs (treeOf es) p dirAttrs
    by_cases h : entryAt es p = none
    · rw [treeOf_eq_none.2 h, apply_mkdir_of_none h]
      exact @treeOf_plant_new es (dirEntry p) h
    · rw [if_pos (Option.isSome_iff_ne_none.2 (mt treeOf_eq_none.1 h)), apply_mkdir_of_some h]
  | remove p =>
    funext r
    have e : (Change.remove p).apply es =
        es.filter fun e => (fun r => decide (¬ AtOrBelow '/' p r)) e.path := rfl
    show treeOf _ r = prune '/' (treeOf es) p r
    unfold treeOf prune
    rw [e, entryAt, @Keyed.lookup_filter _ _ _ EntryV2.path (fun r => decide (¬ AtOrBelow '/' p r)) es r]
    by_cases hr : AtOrBelow '/' p r
    · simp [hr]
    · simp [hr]
  | rename p q =>
    show _ = if p = q then treeOf es else move '/' dirAttrs (treeOf es) p q
    by_cases h : p = q
    · subst h
      rw [if_pos rfl, apply_rename_self]
    · rw [if_neg h, apply_rename_of_ne h]
      rcases hpre with h' | ⟨-, -, -, hpq, -, hq, -⟩
      · exact absurd h' h
      · exact treeOf_move hnd hcl hpq hq
  | setAttr p mtime mode =>
    obtain ⟨i, hi⟩ := exists_index hpre.2
    rw [apply_setAttr_of_some hi]
    exact treeOf_modify hnd hi mtime mode

/-- A new entry with its parents keeps the paths distinct. -/
theorem nodup_insert {e : EntryV2} (hnd : (pathsOf es).Nodup) (he : entryAt es e.path = none) :
    (pathsOf (withParents es e.path ++ [e])).Nodup := by
  rw [pathsOf, List.map_append, List.nodup_append]
  refine ⟨nodup_withParents hnd e.path, by simp, ?_⟩
  rintro x hx y hy rfl
  rw [List.map_singleton, List.mem_singleton] at hy
  subst hy
  have : treeOf (withParents es e.path) e.path = none := by
    rw [treeOf_withParents, ensure_of_not_below (not_below_self _), treeOf_eq_none, he]
  exact treeOf_eq_none_iff.1 this hx

/-- A change keeps the paths distinct. -/
theorem nodup_apply {c : Change} (hnd : (pathsOf es).Nodup) (hcl : Closed '/' IsDir (treeOf es)) (hpre : c.Pre es) :
    (pathsOf (c.apply es)).Nodup := by
  cases c with
  | put p a bytes =>
    by_cases h : entryAt es p = none
    · rw [apply_put_of_none h]
      exact nodup_insert (e := { a with path := p }) hnd h
    · obtain ⟨i, hi⟩ := exists_index h
      rw [apply_put_of_some hi, pathsOf, Keyed.map_key_set hi hnd rfl]
      exact hnd
  | mkdir p =>
    by_cases h : entryAt es p = none
    · rw [apply_mkdir_of_none h]
      exact nodup_insert (e := dirEntry p) hnd h
    · rwa [apply_mkdir_of_some h]
  | remove p => exact hnd.sublist (List.filter_sublist.map _)
  | rename p q =>
    by_cases h : p = q
    · subst h
      rwa [apply_rename_self]
    · rw [apply_rename_of_ne h]
      rcases hpre with h' | ⟨-, -, -, -, -, hq, -⟩
      · exact absurd h' h
      · exact nodup_move hnd hcl hq
  | setAttr p mtime mode =>
    obtain ⟨i, hi⟩ := exists_index hpre.2
    have e : pathsOf (es.modify i fun e => { e with mtime := mtime, mode := mode }) = pathsOf es :=
      Keyed.map_key_modify es i fun _ => rfl
    rwa [apply_setAttr_of_some hi, e]

/-- A change keeps the tree closed. -/
theorem closed_apply {c : Change} (hnd : (pathsOf es).Nodup) (hcl : Closed '/' IsDir (treeOf es)) (hpre : c.Pre es)
    (hfile : ∀ p a bytes, c = .put p a bytes → a.kind = .file) : Closed '/' IsDir (treeOf (c.apply es)) := by
  have hdir : IsDir dirAttrs := rfl
  have hplant : ∀ p n, (entryAt es p = none → NoFileAbove es p) →
      (∀ d, entryAt es p = some d → d.kind = n.kind) → Closed '/' IsDir (plant '/' dirAttrs (treeOf es) p n) := by
    intro p n hno hkind
    cases hat : entryAt es p with
    | none =>
      refine hcl.plant hdir (noFileAbove_iff.1 (hno hat)) ?_
      intro _ b hb
      exact hcl.eq_none_of_below (treeOf_eq_none.2 hat) hb
    | some d =>
      have hd : treeOf es p = some d.toEntryAttrs := by simp [treeOf, hat]
      unfold plant
      rw [hcl.ensure_eq hd]
      refine hcl.update hd fun h => ?_
      have hk : d.kind = n.kind := hkind d hat
      have hdk : d.kind = .dir := h
      exact hk.symm.trans hdk
  rw [treeOf_apply hnd hcl hpre]
  cases c with
  | put p a bytes =>
    refine hplant p a hpre.2.2 fun d hd => ?_
    rw [hpre.2.1 d hd, hfile p a bytes rfl]
  | mkdir p =>
    show Closed '/' IsDir (if (treeOf es p).isSome then treeOf es else plant '/' dirAttrs (treeOf es) p dirAttrs)
    split
    · exact hcl
    · exact hplant p dirAttrs hpre.2.2 fun d hd => hpre.2.1 d hd
  | remove p => exact hcl.prune p
  | rename p q =>
    show Closed '/' IsDir (if p = q then treeOf es else move '/' dirAttrs (treeOf es) p q)
    split
    · exact hcl
    · rename_i hne
      rcases hpre with h | ⟨-, -, -, hpq, hp, hq, hno⟩
      · exact absurd h hne
      · exact hcl.move hdir (noFileAbove_iff.1 hno) (fun h => hp (treeOf_eq_none.1 h)) (treeOf_eq_none.2 hq) hpq
  | setAttr p mtime mode =>
    show Closed '/' IsDir (Function.update (treeOf es) p _)
    cases ht : treeOf es p with
    | none => exact absurd (treeOf_eq_none.1 ht) hpre.2
    | some n => exact hcl.update ht fun h => h

/-! ### The blobs -/

@[simp] theorem fileIds_dirs (ps : List Str) : fileIds (ps.map dirEntry) = [] := by
  induction ps with
  | nil => rfl
  | cons x ps ih => simp [dirEntry, dirAttrs]

theorem fileIds_append (es es' : List EntryV2) : fileIds (es ++ es') = fileIds es ++ fileIds es' :=
  List.filterMap_append

@[simp] theorem fileIds_withParents (es : List EntryV2) (p : Str) : fileIds (withParents es p) = fileIds es := by
  rw [withParents, fileIds_append, fileIds_dirs, List.append_nil]

private theorem fileIds_congr {es' : List EntryV2} (h : es.map (·.fileId) = es'.map (·.fileId)) :
    fileIds es = fileIds es' := by
  have e : ∀ l : List EntryV2, fileIds l = (l.map (·.fileId)).filterMap id := fun l => by
    rw [List.filterMap_map]
    rfl
  rw [e, e, h]

/-- A change keeps the blobs together: those it brings in and those before are those after and the superseded ones. -/
theorem fileIds_apply (hnd : (pathsOf es).Nodup) {c : Change} (hpre : c.Pre es) :
    (fileIds es ++ c.fresh).Perm (fileIds (c.apply es) ++ c.superseded es) := by
  cases c with
  | put p a bytes =>
    show (fileIds es ++ a.fileId.toList).Perm (_ ++ ((entryAt es p).bind (·.fileId)).toList)
    by_cases h : entryAt es p = none
    · rw [apply_put_of_none h, h, fileIds_append, fileIds_withParents]
      cases ha : a.fileId <;> simp [ha]
    · obtain ⟨i, hi⟩ := exists_index h
      obtain ⟨e, he, hpath⟩ := (Keyed.index_eq_some_iff hnd).1 hi
      obtain ⟨hlt, rfl⟩ := List.getElem?_eq_some_iff.1 he
      have hat : entryAt es p = some es[i] := by rw [entryAt, Keyed.lookup_eq_getElem hnd hi, he]
      -- both sides are the blobs of the other entries, the new one and the old one
      have hold : (fileIds es).Perm (es[i].fileId.toList ++ fileIds (es.eraseIdx i)) := by
        have := (List.getElem_cons_eraseIdx_perm hlt).symm.filterMap (·.fileId)
        cases hf : es[i].fileId <;> simpa [fileIds, hf] using this
      have hnew : (fileIds (es.set i { a with path := p })).Perm (a.fileId.toList ++ fileIds (es.eraseIdx i)) := by
        have := (List.set_perm_cons_eraseIdx hlt ({ a with path := p } : EntryV2)).filterMap (·.fileId)
        cases hf : a.fileId <;> simpa [fileIds, hf] using this
      rw [apply_put_of_some hi, hat, Option.bind_some]
      refine (hold.append_right _).trans (List.Perm.trans ?_ (hnew.append_right _).symm)
      rw [List.append_assoc, List.append_assoc]
      exact (List.perm_append_comm.append_left _).trans
        (List.perm_append_comm.trans (by rw [List.append_assoc]))
  | mkdir p =>
    show (fileIds es ++ []).Perm (_ ++ [])
    rw [List.append_nil, List.append_nil]
    by_cases h : entryAt es p = none
    · rw [apply_mkdir_of_none h, fileIds_append, fileIds_withParents]
      simp [dirEntry, dirAttrs]
    · rw [apply_mkdir_of_some h]
  | remove p =>
    show (fileIds es ++ []).Perm (fileIds (es.filter fun e => ¬ AtOrBelow '/' p e.path) ++
      fileIds (es.filter fun e => AtOrBelow '/' p e.path))
    rw [List.append_nil, ← fileIds_append]
    have := (List.filter_append_perm (fun e : EntryV2 => decide (AtOrBelow '/' p e.path)) es).symm
    refine (this.trans List.perm_append_comm).filterMap _ |>.trans ?_
    simp
  | rename p q =>
    show (fileIds es ++ []).Perm (_ ++ [])
    rw [List.append_nil, List.append_nil]
    by_cases h : p = q
    · subst h
      rw [apply_rename_self]
    · have e : fileIds ((withParents es q).map (moveEntry p q)) = fileIds (withParents es q) :=
        fileIds_congr (by simp [moveEntry])
      rw [apply_rename_of_ne h, e, fileIds_withParents]
  | setAttr p mtime mode =>
    show (fileIds es ++ []).Perm (_ ++ [])
    obtain ⟨i, hi⟩ := exists_index hpre.2
    have e : fileIds (es.modify i fun e => { e with mtime := mtime, mode := mode }) = fileIds es :=
      fileIds_congr (Keyed.map_key_modify es i fun _ => rfl)
    rw [List.append_nil, List.append_nil, apply_setAttr_of_some hi, e]

end FileSec
