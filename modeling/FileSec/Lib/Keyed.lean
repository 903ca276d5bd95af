import Mathlib.Data.List.Basic
import Mathlib.Data.List.Forall2
import Mathlib.Data.List.Induction
import Mathlib.Data.List.Nodup
import Mathlib.Logic.Function.Basic

/-!
# Lists with a key

A list whose elements carry a key, read as a map from keys to elements (`lookup`) and to positions (`index`).  The
lemmas say how both maps follow an element appended, replaced, removed or re-keyed.
-/

namespace Keyed

variable {β κ : Type*} [DecidableEq κ] (key : β → κ)

/-- The first element with the key `k`. -/
def lookup (l : List β) (k : κ) : Option β := l.find? fun b => key b = k

/-- The position of each key, collected by inserting one element after the other: a later one takes the key over. -/
def index (l : List β) : κ → Option Nat :=
  l.zipIdx.foldl (fun ix e => Function.update ix (key e.1) (some e.2)) fun _ => none

/-- The list with its first element of key `k` changed by `f`. -/
def modifyFirst (k : κ) (f : β → β) : List β → List β
  | [] => []
  | b :: l => if key b = k then f b :: l else b :: modifyFirst k f l

variable {key} {l l' : List β} {b b' : β} {k : κ} {i : Nat}

/-! ### Positions -/

theorem index_concat (l : List β) (b : β) :
    index key (l ++ [b]) = Function.update (index key l) (key b) (some l.length) := by
  simp [index, List.zipIdx_append]

theorem index_congr (h : l.map key = l'.map key) : index key l = index key l' := by
  induction l using List.reverseRecOn generalizing l' with
  | nil =>
    have : l' = [] := by simpa using h.symm
    rw [this]
  | append_singleton l b ih =>
    rcases List.eq_nil_or_concat' l' with rfl | ⟨l', b', rfl⟩
    · simp at h
    · rw [List.map_append, List.map_append] at h
      obtain ⟨h1, h2⟩ := List.append_inj' h rfl
      have hlen : l.length = l'.length := by simpa using congrArg List.length h1
      have hkey : key b = key b' := by simpa using h2
      rw [index_concat, index_concat, ih h1, hkey, hlen]

theorem index_eq_none_iff : index key l k = none ↔ k ∉ l.map key := by
  induction l using List.reverseRecOn with
  | nil => simp [index]
  | append_singleton l b ih =>
    rw [index_concat]
    by_cases hk : k = key b
    · simp [hk]
    · rw [Function.update_of_ne hk, ih]
      simp [hk]

/-- Where the keys are distinct, the index maps exactly each element's key to its position. -/
theorem index_eq_some_iff (hl : (l.map key).Nodup) : index key l k = some i ↔ ∃ b, l[i]? = some b ∧ key b = k := by
  induction l using List.reverseRecOn with
  | nil => simp [index]
  | append_singleton l b ih =>
    rw [List.map_append, List.map_singleton, List.nodup_append] at hl
    obtain ⟨hl, -, hdis⟩ := hl
    rw [index_concat]
    by_cases hk : k = key b
    · subst hk
      rw [Function.update_self, Option.some.injEq]
      constructor
      · rintro rfl
        exact ⟨b, by simp, rfl⟩
      · rintro ⟨b', hb', hkey⟩
        rcases Nat.lt_or_ge i l.length with hi | hi
        · rw [List.getElem?_append_left hi] at hb'
          exact absurd hkey (hdis _ (List.mem_map_of_mem (List.mem_of_getElem? hb')) _ (by simp))
        · have hlt := (List.getElem?_eq_some_iff.1 hb').1
          simp at hlt
          omega
    · rw [Function.update_of_ne hk, ih hl]
      constructor
      · rintro ⟨b', hb', hkey⟩
        refine ⟨b', ?_, hkey⟩
        rw [List.getElem?_append_left (List.getElem?_eq_some_iff.1 hb').1, hb']
      · rintro ⟨b', hb', hkey⟩
        refine ⟨b', ?_, hkey⟩
        rcases Nat.lt_or_ge i l.length with hi | hi
        · rwa [List.getElem?_append_left hi] at hb'
        · rw [List.getElem?_append_right hi] at hb'
          have hb : b' = b := by simpa using List.mem_of_getElem? hb'
          exact absurd (hb ▸ hkey).symm hk

/-! ### Elements by key -/

theorem lookup_mem (h : lookup key l k = some b) : b ∈ l ∧ key b = k :=
  ⟨List.mem_of_find?_eq_some h, by simpa using List.find?_some h⟩

theorem lookup_eq_none_iff : lookup key l k = none ↔ k ∉ l.map key := by
  simp [lookup]

theorem lookup_eq_some_iff (hl : (l.map key).Nodup) : lookup key l k = some b ↔ b ∈ l ∧ key b = k := by
  refine ⟨lookup_mem, ?_⟩
  rintro ⟨hb, hk⟩
  cases h : lookup key l k with
  | none =>
    rw [lookup_eq_none_iff] at h
    exact absurd (hk ▸ List.mem_map_of_mem hb) h
  | some b' =>
    obtain ⟨hb', hk'⟩ := lookup_mem h
    rw [List.inj_on_of_nodup_map hl hb hb' (hk.trans hk'.symm)]

theorem lookup_eq_getElem (hl : (l.map key).Nodup) (h : index key l k = some i) : lookup key l k = l[i]? := by
  obtain ⟨b, hb, hk⟩ := (index_eq_some_iff hl).1 h
  rw [hb, lookup_eq_some_iff hl]
  exact ⟨List.mem_of_getElem? hb, hk⟩

/-- Both maps have the same keys. -/
theorem index_eq_none_iff_lookup : index key l k = none ↔ lookup key l k = none := by
  rw [index_eq_none_iff, lookup_eq_none_iff]

theorem lookup_append (l l' : List β) (k : κ) : lookup key (l ++ l') k = (lookup key l k).or (lookup key l' k) := by
  simp [lookup, List.find?_append]

theorem lookup_filter (p : κ → Bool) (l : List β) (k : κ) :
    lookup key (l.filter fun b => p (key b)) k = if p k then lookup key l k else none := by
  induction l with
  | nil => simp [lookup]
  | cons b l ih =>
    unfold lookup at ih ⊢
    by_cases hk : key b = k
    · by_cases hp : p k
      · simp [hk, hp]
      · rw [List.filter_cons_of_neg (by simpa [hk] using hp), ih, if_neg hp, if_neg hp]
    · by_cases hp : p (key b)
      · rw [List.filter_cons_of_pos (by simpa using hp), List.find?_cons_of_neg (by simpa using hk), ih,
          List.find?_cons_of_neg (by simpa using hk)]
      · rw [List.filter_cons_of_neg (by simpa using hp), ih, List.find?_cons_of_neg (by simpa using hk)]

/-- Replacing the element at a position by one with the same key changes what its key maps to and nothing else. -/
theorem lookup_set (hl : (l.map key).Nodup) (h : index key l k = some i) (hb : key b = k) (k' : κ) :
    lookup key (l.set i b) k' = if k' = k then some b else lookup key l k' := by
  obtain ⟨a, ha, hka⟩ := (index_eq_some_iff hl).1 h
  obtain ⟨hi, hai⟩ := List.getElem?_eq_some_iff.1 ha
  have hmap : (l.set i b).map key = l.map key := by
    rw [List.map_set, hb, ← hka, ← hai, ← List.getElem_map key (h := by simpa using hi), List.set_getElem_self]
  have hl' : ((l.set i b).map key).Nodup := hmap ▸ hl
  split
  · rename_i e
    subst e
    rw [lookup_eq_some_iff hl']
    exact ⟨List.mem_set hi b, hb⟩
  · rename_i hne
    cases hc : lookup key l k' with
    | none => rwa [lookup_eq_none_iff, hmap, ← lookup_eq_none_iff]
    | some c =>
      rw [lookup_eq_some_iff hl']
      obtain ⟨hcl, hck⟩ := lookup_mem hc
      refine ⟨?_, hck⟩
      obtain ⟨j, hj⟩ := List.getElem?_of_mem hcl
      have hij : i ≠ j := by
        rintro rfl
        rw [ha, Option.some.injEq] at hj
        exact hne (by rw [← hck, ← hj, hka])
      exact List.mem_of_getElem? (by rw [List.getElem?_set_ne hij, hj])

theorem map_key_set (h : index key l k = some i) (hl : (l.map key).Nodup) (hb : key b = k) :
    (l.set i b).map key = l.map key := by
  obtain ⟨a, ha, hka⟩ := (index_eq_some_iff hl).1 h
  obtain ⟨hi, hai⟩ := List.getElem?_eq_some_iff.1 ha
  rw [List.map_set, hb, ← hka, ← hai, ← List.getElem_map key (h := by simpa using hi), List.set_getElem_self]

omit [DecidableEq κ] in
theorem map_key_modify {f : β → β} (l : List β) (i : Nat) (hf : ∀ b, key (f b) = key b) :
    (l.modify i f).map key = l.map key := by
  apply List.ext_getElem?
  intro j
  rw [List.getElem?_map, List.getElem?_map, List.getElem?_modify]
  split
  · cases l[j]? <;> simp [hf]
  · simp

/-- Looking up a key after the elements were re-keyed by `f`, injectively, without changing what `g` sees. -/
theorem lookup_map {γ : Type*} {g : β → γ} (hl : (l.map key).Nodup) (t : β → β) (f : κ → κ)
    (hkey : ∀ b, key (t b) = f (key b)) (hg : ∀ b, g (t b) = g b)
    (hinj : ∀ a ∈ l.map key, ∀ b ∈ l.map key, f a = f b → a = b) (hk : k ∈ l.map key) :
    (lookup key (l.map t) (f k)).map g = (lookup key l k).map g := by
  obtain ⟨b, hb, rfl⟩ := List.mem_map.1 hk
  have hl' : ((l.map t).map key).Nodup := by
    rw [List.map_map, show key ∘ t = f ∘ key from funext hkey, ← List.map_map]
    exact hl.map_on hinj
  rw [(lookup_eq_some_iff hl).2 ⟨hb, rfl⟩, (lookup_eq_some_iff hl').2 ⟨List.mem_map_of_mem hb, hkey b⟩]
  simp [hg]

/-- Where the keys are distinct, the first element with a key is the only one. -/
theorem modifyFirst_eq_map (hl : (l.map key).Nodup) (k : κ) (f : β → β) :
    modifyFirst key k f l = l.map fun b => if key b = k then f b else b := by
  induction l with
  | nil => rfl
  | cons b l ih =>
    rw [List.map_cons, List.nodup_cons] at hl
    unfold modifyFirst
    rw [List.map_cons]
    by_cases hk : key b = k
    · rw [if_pos hk, if_pos hk]
      congr 1
      refine ((List.map_congr_left fun b' hb' => if_neg fun hk' => ?_).trans (List.map_id' l)).symm
      exact hl.1 (hk.trans hk'.symm ▸ List.mem_map_of_mem hb')
    · rw [if_neg hk, if_neg hk, ih hl.2]

/-! ### Lists side by side -/

/-- What stands on the right is related to something on the left. -/
theorem exists_of_forall₂ {α β : Type*} {R : α → β → Prop} {l : List α} {l' : List β} (h : List.Forall₂ R l l') {b : β}
    (hb : b ∈ l') : ∃ a ∈ l, R a b := by
  induction h with
  | nil => cases hb
  | @cons a b' l l' hR h ih =>
    rcases List.mem_cons.1 hb with rfl | hb
    · exact ⟨a, List.mem_cons_self, hR⟩
    · obtain ⟨a', ha', hR'⟩ := ih hb
      exact ⟨a', List.mem_cons_of_mem _ ha', hR'⟩

end Keyed
