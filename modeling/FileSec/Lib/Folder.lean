import Mathlib.Data.List.AList
import Mathlib.Logic.Basic

/-!
# Folders whose last changes a crash can undo

A folder maps names to contents.  Each change is visible at once; the views before the changes that no sync has made
durable are kept, and a crash goes back to one of them: it undoes the last changes of a folder, from some point on.
-/

namespace Folders

variable {ν κ : Type*}

/-- What a folder shows: contents under distinct names. -/
abbrev Listing (ν κ : Type*) := AList fun _ : ν => κ

/-- A folder of contents `κ` under names `ν`. -/
structure Folder (ν κ : Type*) where
  shown : Listing ν κ
  /-- The views before the shown one, since the last sync, newest first. -/
  older : List (Listing ν κ)

/-- The folder without any content. -/
def Folder.empty : Folder ν κ := ⟨∅, []⟩

/-- The views that a crash can leave. -/
def Folder.views (d : Folder ν κ) : List (Listing ν κ) := d.shown :: d.older

/-- Sync the folder; a failing sync changes nothing. -/
def Folder.sync (d : Folder ν κ) (ok : Bool) : Folder ν κ := if ok then { d with older := [] } else d

/-- A crash: the last `back` changes are undone, as far as they are not durable. -/
def Folder.crash (d : Folder ν κ) (back : Nat) : Folder ν κ := ⟨d.views.getD back d.shown, []⟩

section

variable [DecidableEq ν]

/-- The content under a name. -/
def Folder.get (d : Folder ν κ) (n : ν) : Option κ := d.shown.lookup n

/-- Rename a new content into place. -/
def Folder.put (d : Folder ν κ) (n : ν) (c : κ) : Folder ν κ := ⟨d.shown.insert n c, d.views⟩

/-- Unlink a name. -/
def Folder.remove (d : Folder ν κ) (n : ν) : Folder ν κ := ⟨d.shown.erase n, d.views⟩

/-- Rename `m` to `n` in one change. -/
def Folder.rename (d : Folder ν κ) (m n : ν) : Folder ν κ :=
  match d.get m with
  | none => d
  | some c => ⟨(d.shown.erase m).insert n c, d.views⟩

/-- Change the content under a name, if there is one. -/
def adjusted (v : Listing ν κ) (n : ν) (c : κ) : Listing ν κ := if (v.lookup n).isSome then v.insert n c else v

/-- Change the content under a name in place, wherever the name is visible. -/
def Folder.adjust (d : Folder ν κ) (n : ν) (c : κ) : Folder ν κ :=
  ⟨adjusted d.shown n c, d.older.map fun v => adjusted v n c⟩

end

/-! ### What is shown -/

section

variable [DecidableEq ν] {d : Folder ν κ} {m n k : ν} {c : κ}

@[simp] theorem get_put_self : (d.put n c).get n = some c := AList.lookup_insert _

theorem get_put_of_ne (h : m ≠ n) : (d.put n c).get m = d.get m := AList.lookup_insert_ne h

@[simp] theorem get_remove_self : (d.remove n).get n = none := AList.lookup_erase _ _

theorem get_remove_of_ne (h : m ≠ n) : (d.remove n).get m = d.get m := AList.lookup_erase_ne h

theorem get_rename_target (h : d.get m = some c) : (d.rename m n).get n = some c := by
  unfold Folder.rename
  rw [h]
  exact AList.lookup_insert _

theorem get_rename_source (h : m ≠ n) : (d.rename m n).get m = none := by
  unfold Folder.rename
  cases hc : d.get m with
  | none => exact hc
  | some c => exact (AList.lookup_insert_ne h).trans (AList.lookup_erase _ _)

theorem get_rename_of_ne (hm : k ≠ m) (hn : k ≠ n) : (d.rename m n).get k = d.get k := by
  unfold Folder.rename
  cases hc : d.get m with
  | none => rfl
  | some c => exact (AList.lookup_insert_ne hn).trans (AList.lookup_erase_ne hm)

@[simp] theorem get_sync (d : Folder ν κ) (ok : Bool) (n : ν) : (d.sync ok).get n = d.get n := by
  cases ok <;> rfl

theorem lookup_adjusted_of_ne {v : Listing ν κ} (h : m ≠ n) : (adjusted v n c).lookup m = v.lookup m := by
  unfold adjusted
  split
  · exact AList.lookup_insert_ne h
  · rfl

theorem get_adjust_of_ne (h : m ≠ n) : (d.adjust n c).get m = d.get m := lookup_adjusted_of_ne h

theorem get_adjust_self (h : d.get n ≠ none) : (d.adjust n c).get n = some c := by
  have hs : (d.shown.lookup n).isSome = true := Option.isSome_iff_ne_none.2 h
  show (adjusted d.shown n c).lookup n = some c
  rw [adjusted, if_pos hs]
  exact AList.lookup_insert _

theorem get_adjust_of_none (h : d.get n = none) : (d.adjust n c).get n = none := by
  have hs : (d.shown.lookup n).isSome = false := by
    rw [show d.shown.lookup n = none from h]
    rfl
  show (adjusted d.shown n c).lookup n = none
  rw [adjusted, hs]
  exact h

theorem isSome_get_adjust : ((d.adjust n c).get m).isSome = (d.get m).isSome := by
  by_cases hm : m = n
  · subst hm
    cases h : d.get m with
    | none => rw [get_adjust_of_none h]
    | some c' => rw [get_adjust_self (by simp [h])]; rfl
  · rw [get_adjust_of_ne hm]

theorem mem_keys_iff : n ∈ d.shown.keys ↔ d.get n ≠ none := by
  rw [← AList.mem_keys, Folder.get, ne_eq, AList.lookup_eq_none, not_not]

end

/-! ### What a crash can leave -/

section

variable {d : Folder ν κ}

theorem shown_mem_views (d : Folder ν κ) : d.shown ∈ d.views := by simp [Folder.views]

@[simp] theorem views_put [DecidableEq ν] (n : ν) (c : κ) : (d.put n c).views = d.shown.insert n c :: d.views := rfl

@[simp] theorem views_remove [DecidableEq ν] (n : ν) : (d.remove n).views = d.shown.erase n :: d.views := rfl

@[simp] theorem views_sync_true (d : Folder ν κ) : (d.sync true).views = [d.shown] := rfl

@[simp] theorem shown_sync (d : Folder ν κ) (ok : Bool) : (d.sync ok).shown = d.shown := by
  cases ok <;> rfl

@[simp] theorem sync_false (d : Folder ν κ) : d.sync false = d := rfl

theorem views_sync_subset (d : Folder ν κ) (ok : Bool) : (d.sync ok).views ⊆ d.views := by
  cases ok with
  | true =>
    rw [views_sync_true]
    simp [Folder.views]
  | false => exact List.Subset.refl _

theorem shown_crash_mem (d : Folder ν κ) (back : Nat) : (d.crash back).shown ∈ d.views := by
  unfold Folder.crash
  rw [List.getD_eq_getElem?_getD]
  cases h : d.views[back]? with
  | none => exact shown_mem_views d
  | some v => simpa using List.mem_of_getElem? h

@[simp] theorem views_crash (d : Folder ν κ) (back : Nat) : (d.crash back).views = [(d.crash back).shown] := rfl

theorem views_crash_subset (d : Folder ν κ) (back : Nat) : (d.crash back).views ⊆ d.views := by
  intro v hv
  rw [views_crash, List.mem_singleton] at hv
  exact hv ▸ shown_crash_mem d back

end

/-! ### Changes that leave names alone -/

/-- From `d` to `d'` the names outside `N` have not changed, neither what is shown nor what a crash can leave. -/
structure Folder.AgreeOff (N : ν → Prop) [DecidableEq ν] (d d' : Folder ν κ) : Prop where
  get : ∀ n, ¬ N n → d'.get n = d.get n
  views : ∀ v ∈ d'.views, ∃ v₀ ∈ d.views, ∀ n, ¬ N n → v.lookup n = v₀.lookup n

section AgreeOff

variable [DecidableEq ν] {N : ν → Prop} {d d' d'' : Folder ν κ} {m n : ν} {c : κ}

theorem agreeOff_refl (N : ν → Prop) (d : Folder ν κ) : d.AgreeOff N d := ⟨fun _ _ => rfl, fun v hv => ⟨v, hv, fun _ _ => rfl⟩⟩

theorem Folder.AgreeOff.trans (h : d.AgreeOff N d') (h' : d'.AgreeOff N d'') : d.AgreeOff N d'' := by
  refine ⟨fun n hn => (h'.get n hn).trans (h.get n hn), fun v hv => ?_⟩
  obtain ⟨v₁, hv₁, he₁⟩ := h'.views v hv
  obtain ⟨v₀, hv₀, he₀⟩ := h.views v₁ hv₁
  exact ⟨v₀, hv₀, fun n hn => (he₁ n hn).trans (he₀ n hn)⟩

theorem Folder.AgreeOff.mono {N' : ν → Prop} (h : d.AgreeOff N d') (hN : ∀ n, N n → N' n) : d.AgreeOff N' d' := by
  refine ⟨fun n hn => h.get n fun hn' => hn (hN n hn'), fun v hv => ?_⟩
  obtain ⟨v₀, hv₀, he⟩ := h.views v hv
  exact ⟨v₀, hv₀, fun n hn => he n fun hn' => hn (hN n hn')⟩

theorem agreeOff_sync (N : ν → Prop) (d : Folder ν κ) (ok : Bool) : d.AgreeOff N (d.sync ok) :=
  ⟨fun n _ => get_sync d ok n, fun v hv => ⟨v, views_sync_subset d ok hv, fun _ _ => rfl⟩⟩

/-- A change of the view that is shown, after which the views from before are still there. -/
private theorem agreeOff_of_shown {v' : Listing ν κ} (h : ∀ n, ¬ N n → v'.lookup n = d.shown.lookup n) :
    d.AgreeOff N ⟨v', d.views⟩ := by
  refine ⟨h, fun v hv => ?_⟩
  rcases List.mem_cons.1 hv with rfl | hv
  · exact ⟨d.shown, shown_mem_views d, h⟩
  · exact ⟨v, hv, fun _ _ => rfl⟩

theorem agreeOff_put (hn : N n) : d.AgreeOff N (d.put n c) :=
  agreeOff_of_shown fun m hm => AList.lookup_insert_ne fun h : m = n => hm (h ▸ hn)

theorem agreeOff_remove (hn : N n) : d.AgreeOff N (d.remove n) :=
  agreeOff_of_shown fun m hm => AList.lookup_erase_ne fun h : m = n => hm (h ▸ hn)

theorem agreeOff_rename (hm : N m) (hn : N n) : d.AgreeOff N (d.rename m n) := by
  unfold Folder.rename
  cases d.get m with
  | none => exact agreeOff_refl N d
  | some c =>
    refine agreeOff_of_shown fun k hk => ?_
    exact (AList.lookup_insert_ne fun h : k = n => hk (h ▸ hn)).trans
      (AList.lookup_erase_ne fun h : k = m => hk (h ▸ hm))

theorem agreeOff_adjust (hn : N n) : d.AgreeOff N (d.adjust n c) := by
  have hne : ∀ (v : Listing ν κ) m, ¬ N m → (adjusted v n c).lookup m = v.lookup m :=
    fun v m hm => lookup_adjusted_of_ne fun h : m = n => hm (h ▸ hn)
  refine ⟨fun m hm => hne _ m hm, fun v hv => ?_⟩
  rcases List.mem_cons.1 hv with rfl | hv
  · exact ⟨d.shown, shown_mem_views d, hne _⟩
  · obtain ⟨v₀, hv₀, rfl⟩ := List.mem_map.1 hv
    exact ⟨v₀, List.mem_cons_of_mem _ hv₀, hne v₀⟩

end AgreeOff

end Folders
