import Mathlib.Logic.Function.Basic
import Mathlib.Data.List.Basic
import Mathlib.Data.List.Perm.Subperm

/-!
# Directories whose last changes a crash can undo

A directory shows one version of each name at most.  Writing and unlinking are visible at once but last only after a
sync: until then a crash may bring back, for each name on its own, any version shown since the last sync.
-/

namespace CrashDir

variable {ν κ : Type*}

/-- A directory of contents `κ` under names `ν`. -/
structure Dir (ν κ : Type*) where
  /-- What each name shows. -/
  shown : ν → Option κ
  /-- The versions of each name before the one it shows, since the last sync, newest first. -/
  older : ν → List (Option κ)
  /-- Every name ever unlinked. -/
  unlinked : List ν

variable {d : Dir ν κ} {n m : ν} {c : κ} {v : Option κ}

/-- The versions of a name that a crash can leave. -/
def Dir.versions (d : Dir ν κ) (n : ν) : List (Option κ) := d.shown n :: d.older n

/-- Nothing is left to sync. -/
def Dir.Settled (d : Dir ν κ) : Prop := ∀ n, d.older n = []

/-- The directory without any file. -/
def Dir.empty : Dir ν κ := ⟨fun _ => none, fun _ => [], []⟩

section

variable [DecidableEq ν]

/-- Rename a new version into place. -/
def Dir.write (d : Dir ν κ) (n : ν) (c : κ) : Dir ν κ :=
  { d with shown := Function.update d.shown n (some c), older := Function.update d.older n (d.versions n) }

/-- Unlink a name; without a file there this fails and changes nothing. -/
def Dir.unlink (d : Dir ν κ) (n : ν) : Dir ν κ :=
  if d.shown n = none then d
  else
    { shown := Function.update d.shown n none
      older := Function.update d.older n (d.versions n)
      unlinked := n :: d.unlinked }

/-- Unlink some names, as far as this works. -/
def Dir.unlinkAll (d : Dir ν κ) (names : List ν) (ok : ν → Bool) : Dir ν κ :=
  names.foldl (fun d n => if ok n then d.unlink n else d) d

end

/-- Sync the directory; a failing sync changes nothing. -/
def Dir.sync (d : Dir ν κ) (ok : Bool) : Dir ν κ := if ok then { d with older := fun _ => [] } else d

/-- A crash: each name falls back by `back n` versions, if there are so many. -/
def Dir.crash (d : Dir ν κ) (back : ν → Nat) : Dir ν κ :=
  { d with shown := fun n => ((d.versions n)[back n]?).getD (d.shown n), older := fun _ => [] }

theorem shown_mem_versions (d : Dir ν κ) (n : ν) : d.shown n ∈ d.versions n := by simp [Dir.versions]

theorem Dir.Settled.versions (h : d.Settled) (n : ν) : d.versions n = [d.shown n] := by simp [Dir.versions, h n]

/-! ### The versions after each operation -/

section

variable [DecidableEq ν]

@[simp] theorem shown_write_self (d : Dir ν κ) (n : ν) (c : κ) : (d.write n c).shown n = some c := by
  simp [Dir.write]

@[simp] theorem versions_write_self (d : Dir ν κ) (n : ν) (c : κ) :
    (d.write n c).versions n = some c :: d.versions n := by
  simp [Dir.write, Dir.versions]

theorem shown_write_of_ne (h : m ≠ n) : (d.write n c).shown m = d.shown m := by simp [Dir.write, h]

theorem versions_write_of_ne (h : m ≠ n) : (d.write n c).versions m = d.versions m := by
  simp [Dir.write, Dir.versions, h]

@[simp] theorem unlinked_write (d : Dir ν κ) (n : ν) (c : κ) : (d.write n c).unlinked = d.unlinked := rfl

@[simp] theorem shown_unlink_self (d : Dir ν κ) (n : ν) : (d.unlink n).shown n = none := by
  unfold Dir.unlink
  split
  · assumption
  · simp

theorem shown_unlink_of_ne (h : m ≠ n) : (d.unlink n).shown m = d.shown m := by
  unfold Dir.unlink
  split
  · rfl
  · simp [h]

theorem versions_unlink_of_ne (h : m ≠ n) : (d.unlink n).versions m = d.versions m := by
  unfold Dir.unlink
  split
  · rfl
  · simp [Dir.versions, h]

theorem mem_unlinked_unlink (h : m ∈ (d.unlink n).unlinked) : m = n ∧ d.shown n ≠ none ∨ m ∈ d.unlinked := by
  unfold Dir.unlink at h
  split at h
  · exact Or.inr h
  · rename_i hne
    rcases List.mem_cons.1 h with h | h
    · exact Or.inl ⟨h, hne⟩
    · exact Or.inr h

/-- Unlinking brings no file back. -/
theorem some_mem_versions_unlink (h : some c ∈ (d.unlink n).versions m) : some c ∈ d.versions m := by
  by_cases e : m = n
  · subst e
    unfold Dir.unlink at h
    split at h
    · exact h
    · simpa [Dir.versions] using h
  · rwa [versions_unlink_of_ne e] at h

theorem some_mem_versions_unlinkAll {names : List ν} {ok : ν → Bool} (h : some c ∈ (d.unlinkAll names ok).versions m) :
    some c ∈ d.versions m := by
  induction names generalizing d with
  | nil => exact h
  | cons x names ih =>
    unfold Dir.unlinkAll at ih h
    rw [List.foldl_cons] at h
    have h' := ih h
    split at h'
    · exact some_mem_versions_unlink h'
    · exact h'

theorem versions_unlinkAll_of_not_mem {names : List ν} (ok : ν → Bool) (h : m ∉ names) :
    (d.unlinkAll names ok).versions m = d.versions m := by
  induction names generalizing d with
  | nil => rfl
  | cons x names ih =>
    rw [List.mem_cons, not_or] at h
    unfold Dir.unlinkAll at ih ⊢
    rw [List.foldl_cons, ih h.2]
    split
    · exact versions_unlink_of_ne h.1
    · rfl

theorem mem_unlinked_unlinkAll {names : List ν} {ok : ν → Bool} (h : m ∈ (d.unlinkAll names ok).unlinked) :
    m ∈ names ∨ m ∈ d.unlinked := by
  induction names generalizing d with
  | nil => exact Or.inr h
  | cons x names ih =>
    unfold Dir.unlinkAll at ih h
    rw [List.foldl_cons] at h
    rcases ih h with h | h
    · exact Or.inl (by simp [h])
    · split at h
      · rcases mem_unlinked_unlink h with ⟨h, -⟩ | h
        · exact Or.inl (by simp [h])
        · exact Or.inr h
      · exact Or.inr h

theorem shown_unlinkAll_of_not_mem {names : List ν} (ok : ν → Bool) (h : m ∉ names) :
    (d.unlinkAll names ok).shown m = d.shown m := by
  have := versions_unlinkAll_of_not_mem (d := d) ok h
  unfold Dir.versions at this
  exact (List.cons.inj this).1

theorem shown_unlink_of_none (h : d.shown m = none) : (d.unlink n).shown m = none := by
  by_cases e : m = n
  · rw [e, shown_unlink_self]
  · rw [shown_unlink_of_ne e, h]

theorem shown_unlinkAll_of_none {names : List ν} (ok : ν → Bool) (h : d.shown m = none) :
    (d.unlinkAll names ok).shown m = none := by
  induction names generalizing d with
  | nil => exact h
  | cons x names ih =>
    unfold Dir.unlinkAll at ih ⊢
    rw [List.foldl_cons]
    refine ih ?_
    split
    · exact shown_unlink_of_none h
    · exact h

theorem shown_unlinkAll_of_mem {names : List ν} {ok : ν → Bool} (h : m ∈ names) (hok : ok m = true) :
    (d.unlinkAll names ok).shown m = none := by
  induction names generalizing d with
  | nil => simp at h
  | cons x names ih =>
    unfold Dir.unlinkAll at ih ⊢
    rw [List.foldl_cons]
    rcases List.mem_cons.1 h with rfl | h
    · rw [if_pos hok]
      exact shown_unlinkAll_of_none ok (shown_unlink_self d m)
    · exact ih h

theorem unlinked_subset_unlink (d : Dir ν κ) (n : ν) : d.unlinked ⊆ (d.unlink n).unlinked := by
  unfold Dir.unlink
  split
  · exact List.Subset.refl _
  · exact List.subset_cons_self _ _

end

@[simp] theorem shown_sync (d : Dir ν κ) (ok : Bool) : (d.sync ok).shown = d.shown := by
  cases ok <;> rfl

@[simp] theorem unlinked_sync (d : Dir ν κ) (ok : Bool) : (d.sync ok).unlinked = d.unlinked := by
  cases ok <;> rfl

@[simp] theorem sync_false (d : Dir ν κ) : d.sync false = d := rfl

@[simp] theorem versions_sync_true (d : Dir ν κ) (n : ν) : (d.sync true).versions n = [d.shown n] := rfl

theorem settled_sync_true (d : Dir ν κ) : (d.sync true).Settled := fun _ => rfl

theorem versions_sync_subset (d : Dir ν κ) (ok : Bool) (n : ν) : (d.sync ok).versions n ⊆ d.versions n := by
  cases ok
  · exact List.Subset.refl _
  · rw [versions_sync_true]
    simp [Dir.versions]

/-- Writing a name and syncing adds at most the new version of that name. -/
theorem versions_write_sync_self [DecidableEq ν] (d : Dir ν κ) (n : ν) (c : κ) (ok : Bool) :
    ((d.write n c).sync ok).versions n ⊆ some c :: d.versions n := by
  have h := versions_sync_subset (d.write n c) ok n
  rwa [versions_write_self] at h

theorem versions_write_sync_of_ne [DecidableEq ν] (h : m ≠ n) (ok : Bool) :
    ((d.write n c).sync ok).versions m ⊆ d.versions m := by
  have hs := versions_sync_subset (d.write n c) ok m
  rwa [versions_write_of_ne h] at hs

theorem mem_versions_write_sync [DecidableEq ν] {ok : Bool} (h : v ∈ ((d.write n c).sync ok).versions n) :
    v = some c ∨ ok = false ∧ v ∈ d.versions n := by
  cases ok with
  | true => exact Or.inl (by simpa using h)
  | false => simpa using h

theorem Dir.Settled.sync (h : d.Settled) (ok : Bool) : (d.sync ok).Settled := by
  cases ok
  · exact h
  · exact settled_sync_true d

@[simp] theorem unlinked_crash (d : Dir ν κ) (back : ν → Nat) : (d.crash back).unlinked = d.unlinked := rfl

theorem shown_crash_mem (d : Dir ν κ) (back : ν → Nat) (n : ν) : (d.crash back).shown n ∈ d.versions n := by
  unfold Dir.crash
  cases h : (d.versions n)[back n]? with
  | none => simp [h, shown_mem_versions]
  | some v => simpa [h] using List.mem_of_getElem? h

theorem settled_crash (d : Dir ν κ) (back : ν → Nat) : (d.crash back).Settled := fun _ => rfl

theorem versions_crash_subset (d : Dir ν κ) (back : ν → Nat) (n : ν) :
    (d.crash back).versions n ⊆ d.versions n := by
  intro v hv
  rw [(settled_crash d back).versions n, List.mem_singleton] at hv
  exact hv ▸ shown_crash_mem d back n

/-- Any versions of the names can be what a crash leaves. -/
theorem exists_crash {f : ν → Option κ} (h : ∀ n, f n ∈ d.versions n) : ∃ back, (d.crash back).shown = f := by
  choose back hback using fun n => List.getElem?_of_mem (h n)
  refine ⟨back, funext fun n => ?_⟩
  simp [Dir.crash, hback n]

/-! ### Durable files -/

/-- Whatever a crash undoes, there is a file under the name. -/
def Dir.Durable (d : Dir ν κ) (n : ν) : Prop := ∀ v ∈ d.versions n, v ≠ none

theorem Dir.Durable.shown (h : d.Durable n) : d.shown n ≠ none := h _ (shown_mem_versions d n)

theorem Dir.Durable.of_subset {d' : Dir ν κ} (h : d.Durable n) (hs : d'.versions n ⊆ d.versions n) : d'.Durable n :=
  fun v hv => h v (hs hv)

theorem durable_sync (h : d.shown n ≠ none) : (d.sync true).Durable n := by
  intro v hv
  rw [versions_sync_true, List.mem_singleton] at hv
  exact hv ▸ h

/-! ### Working on some names only -/

/-- From `d` to `d'` only files among `names` were written or unlinked, and each of `names` was unlinked at most once. -/
structure Dir.Within [DecidableEq ν] (names : List ν) (d d' : Dir ν κ) : Prop where
  others : ∀ n, n ∉ names → d'.versions n = d.versions n
  unlinked : d'.unlinked.Subperm (d.unlinked ++ names)
  mono : d.unlinked ⊆ d'.unlinked
  gone : ∀ n, d.shown n ≠ none → d'.shown n ≠ none ∨ n ∈ d'.unlinked

section Within

variable [DecidableEq ν] {names names' : List ν} {d' d'' : Dir ν κ}

theorem Dir.Within.refl (d : Dir ν κ) : d.Within [] d :=
  ⟨fun _ _ => rfl, by rw [List.append_nil], List.Subset.refl _, fun _ h => Or.inl h⟩

theorem Dir.Within.trans (h : d.Within names d') (h' : d'.Within names' d'') : d.Within (names ++ names') d'' := by
  refine ⟨fun n hn => ?_, ?_, List.Subset.trans h.mono h'.mono, fun n hn => ?_⟩
  · rw [List.mem_append, not_or] at hn
    rw [h'.others n hn.2, h.others n hn.1]
  · rw [← List.append_assoc]
    exact h'.unlinked.trans (h.unlinked.append (List.Subperm.refl _))
  · rcases h.gone n hn with hn | hn
    · exact h'.gone n hn
    · exact Or.inr (h'.mono hn)

theorem Dir.Within.weaken (h : d.Within names d') (hs : names.Sublist names') : d.Within names' d' :=
  ⟨fun n hn => h.others n fun hm => hn (hs.subset hm), h.unlinked.trans ((List.Subperm.refl _).append hs.subperm),
    h.mono, h.gone⟩

/-- What was unlinked before or lies among the names. -/
theorem Dir.Within.mem_unlinked (h : d.Within names d') (hn : n ∈ d'.unlinked) : n ∈ d.unlinked ∨ n ∈ names :=
  List.mem_append.1 (h.unlinked.subset hn)

theorem Dir.Within.shown (h : d.Within names d') (hn : n ∉ names) : d'.shown n = d.shown n :=
  (List.cons.inj (h.others n hn)).1

theorem within_write (d : Dir ν κ) (n : ν) (c : κ) : d.Within [n] (d.write n c) := by
  refine ⟨fun m hm => versions_write_of_ne (by simpa using hm), (List.sublist_append_left _ _).subperm,
    List.Subset.refl _, fun m hm => Or.inl ?_⟩
  by_cases e : m = n
  · rw [e, shown_write_self]
    simp
  · rwa [shown_write_of_ne e]

theorem within_write_unlink (d : Dir ν κ) (n : ν) (c : κ) : d.Within [n] ((d.write n c).unlink n) := by
  have hun : ((d.write n c).unlink n).unlinked = n :: d.unlinked := by simp [Dir.unlink]
  refine ⟨fun m hm => ?_, ?_, ?_, fun m hm => ?_⟩
  · have hne : m ≠ n := by simpa using hm
    rw [versions_unlink_of_ne hne, versions_write_of_ne hne]
  · rw [hun]
    exact (@List.perm_append_comm _ [n] d.unlinked).subperm
  · rw [hun]
    exact List.subset_cons_self _ _
  · by_cases e : m = n
    · exact Or.inr (by simp [hun, e])
    · rw [shown_unlink_of_ne e, shown_write_of_ne e]
      exact Or.inl hm

end Within

end CrashDir
