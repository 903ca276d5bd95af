import Mathlib.Data.List.AList

/-!
# Tables of bounded size

Finite maps as lists with distinct keys (`AList`), with what a bounded table needs besides inserting and erasing: its size,
keeping the entries that pass a test, and erasing a list of keys.
-/

namespace Table

variable {κ β : Type*} {t : AList fun _ : κ => β} {k : κ} {b : β} {p : κ → β → Bool} {ks : List κ}

/-- The number of entries. -/
def size (t : AList fun _ : κ => β) : Nat := t.keys.length

/-- The entries that pass the test. -/
def retain (p : κ → β → Bool) (t : AList fun _ : κ => β) : AList fun _ : κ => β :=
  ⟨t.entries.filter fun e => p e.1 e.2, t.nodupKeys.sublist List.filter_sublist⟩

theorem size_retain_le : size (retain p t) ≤ size t := (List.filter_sublist.map Sigma.fst).length_le

variable [DecidableEq κ]

/-- The entries under other keys. -/
def eraseAll (ks : List κ) (t : AList fun _ : κ => β) : AList fun _ : κ => β := ks.foldl (fun t k => t.erase k) t

theorem lookup_retain : (retain p t).lookup k = (t.lookup k).filter (p k) := by
  ext b
  rw [Option.filter_eq_some_iff]
  show b ∈ (retain p t).lookup k ↔ b ∈ t.lookup k ∧ p k b = true
  rw [AList.mem_lookup_iff, AList.mem_lookup_iff]
  exact List.mem_filter

/-- A test that removes nothing leaves every entry. -/
theorem retain_of_size (h : size (retain p t) = size t) : ∀ b ∈ t.lookup k, p k b = true := by
  intro b hb
  have hlen : (t.entries.filter fun e => p e.1 e.2).length = t.entries.length := by
    simpa [size, AList.keys, List.keys, retain] using h
  rw [List.length_filter_eq_length_iff] at hlen
  exact hlen ⟨k, b⟩ (AList.mem_lookup_iff.1 hb)

theorem size_insert_of_mem (h : k ∈ t) : size (t.insert k b) = size t := by
  unfold size
  rw [AList.keys_insert, List.length_cons, List.length_erase_of_mem (AList.mem_keys.1 h)]
  have hpos := List.length_pos_of_mem (AList.mem_keys.1 h)
  omega

theorem size_insert_of_notMem (h : k ∉ t) : size (t.insert k b) = size t + 1 := by
  unfold size
  rw [AList.keys_insert, List.length_cons, List.erase_of_not_mem fun hk => h (AList.mem_keys.2 hk)]

theorem size_erase_le : size (t.erase k) ≤ size t := by
  unfold size
  rw [AList.keys_erase]
  exact List.erase_sublist.length_le

theorem lookup_eraseAll : (eraseAll ks t).lookup k = if k ∈ ks then none else t.lookup k := by
  induction ks generalizing t with
  | nil => rfl
  | cons k' ks ih =>
    show (eraseAll ks (t.erase k')).lookup k = _
    rw [ih]
    by_cases hk : k ∈ ks
    · rw [if_pos hk, if_pos (List.mem_cons_of_mem _ hk)]
    · rw [if_neg hk]
      by_cases hkk : k = k'
      · subst hkk
        rw [AList.lookup_erase, if_pos List.mem_cons_self]
      · rw [AList.lookup_erase_ne hkk, if_neg (List.not_mem_cons_of_ne_of_not_mem hkk hk)]

/-- Erasing distinct keys that are there makes room for as many. -/
theorem size_eraseAll (hks : ks.Nodup) (hmem : ∀ k ∈ ks, k ∈ t) : size (eraseAll ks t) + ks.length = size t := by
  induction ks generalizing t with
  | nil => rfl
  | cons k ks ih =>
    rw [List.nodup_cons] at hks
    have hk := AList.mem_keys.1 (hmem k List.mem_cons_self)
    have hrest : ∀ k' ∈ ks, k' ∈ t.erase k := by
      intro k' hk'
      rw [AList.mem_erase]
      exact ⟨fun heq => hks.1 (heq ▸ hk'), hmem k' (List.mem_cons_of_mem _ hk')⟩
    have hsize : size (t.erase k) + 1 = size t := by
      unfold size
      rw [AList.keys_erase, List.length_erase_of_mem hk]
      have hpos := List.length_pos_of_mem hk
      omega
    have h := ih hks.2 hrest
    show size (eraseAll ks (t.erase k)) + (ks.length + 1) = size t
    omega

end Table
