import FileSec.Store.Beside

/-!
# The repairs of an unlock

Every unlock cleans up in `vaults/` (`clean_partial_dirs`) and then settles the tombstones and the registry
(`reconcile_vaults`).  The clean-up leaves alone whatever is not left over (`cleanPartialDirs_spares`); the registry loses
no vault (`reconcileVaults_keeps`).
-/

namespace FileSec

open CrashDir Folders Prog

variable {S : StorePrims} {s s' : Store S} {identity : Identity} {registry : Registry}

/-! ### What is left over -/

/-- The name of neither a vault that is still being made nor an entry that has been set aside. -/
def Lasting (name : Str) : Prop := ¬ ".fsv2.partial".toList <:+ name ∧ ¬ ".old".toList <:+ name

/-- Nothing has changed but what is left over in `vaults/`: an entry that is kept and was there is there. -/
structure Store.Cleaned (s s' : Store S) : Prop where
  root : s'.root = s.root
  account : s'.account = s.account
  backend : s'.backend = s.backend
  secure : s'.secure = s.secure
  kept : ∀ name node, Lasting name → s.vaults.get name = some node → s'.vaults.get name = some node

instance : IsPreorder (Store S) Store.Cleaned where
  refl _ := ⟨rfl, rfl, rfl, rfl, fun _ _ _ h => h⟩
  trans _ _ _ h h' := ⟨h'.root.trans h.root, h'.account.trans h.account, h'.backend.trans h.backend,
    h'.secure.trans h.secure, fun name node hk hget => h'.kept name node hk (h.kept name node hk hget)⟩

private theorem cleaned_tick (s : Store S) : s.Cleaned s.tick := ⟨rfl, rfl, rfl, rfl, fun _ _ _ h => h⟩

private theorem call_cleaned (text : Str) : Respects Store.Cleaned (call text : StoreM S Unit) := by
  intro s
  rw [wp_call]
  exact ⟨fun _ => cleaned_tick s, fun _ => cleaned_tick s⟩

private theorem cleaned_vaults {vaults : Folder Str (DirEntry S.toPrims)}
    (h : ∀ name node, Lasting name → s.vaults.get name = some node → vaults.get name = some node) :
    s.Cleaned { s with vaults } := ⟨rfl, rfl, rfl, rfl, h⟩

/-- Removing what is not kept. -/
private theorem removeDirAll_cleaned {name : Str} (hname : ¬ Lasting name) (io : WipeIo) :
    Respects Store.Cleaned (removeDirAll name io : StoreM S Unit) := by
  have hne : ∀ {m}, Lasting m → m ≠ name := fun hm heq => hname (heq ▸ hm)
  refine .bind (.attempt (call_cleaned _)) fun removed => ?_
  cases removed with
  | ok u =>
    refine .modify fun s => cleaned_vaults fun m node hm hget => ?_
    rw [get_remove_of_ne (hne hm)]
    exact hget
  | error e =>
    refine .bind (.modify fun s => ?_) fun _ => .throw _
    unfold Store.onDir
    split
    · refine cleaned_vaults fun m node hm hget => ?_
      rw [get_adjust_of_ne (hne hm)]
      exact hget
    · exact Std.Refl.refl s

private theorem removeEntry_cleaned {name : Str} (hname : ¬ Lasting name) (io : WipeIo) :
    Respects Store.Cleaned (removeEntry name io : StoreM S Unit) := by
  refine .bind .get fun s => .ite ?_ (.pure _)
  exact .bind (.attempt (removeDirAll_cleaned hname io)) fun _ => .pure _

/-- Renaming what is not kept to a name that is free. -/
private theorem renameVault_cleaned {m n : Str} (hm : ¬ Lasting m) (hn : s.vaults.get n = none) :
    wp (renameVault m n) (fun _ s' => s.Cleaned s') s := by
  have hrename : s.Cleaned { s.tick with vaults := s.vaults.rename m n } := by
    refine ⟨rfl, rfl, rfl, rfl, fun name node hk hget => ?_⟩
    have hne : name ≠ m := fun heq => hm (heq ▸ hk)
    have hne' : name ≠ n := by
      rintro rfl
      rw [hn] at hget
      cases hget
    show (s.vaults.rename m n).get name = some node
    rw [get_rename_of_ne hne hne']
    exact hget
  unfold renameVault
  simp only [wp_bind, wp_call, wp_get]
  refine ⟨fun _ => ?_, fun _ => cleaned_tick s⟩
  cases hget : s.tick.vaults.get m with
  | none => exact cleaned_tick s
  | some node =>
    simp only [wp_ite, wp_modify, wp_throw]
    exact ⟨fun _ => hrename, fun _ => cleaned_tick s⟩

private theorem suffix_of_isSuffixOf? {suffix name stem : Str} (h : suffix.isSuffixOf? name = some stem) :
    suffix <:+ name := by
  unfold List.isSuffixOf? at h
  obtain ⟨rest, hrest, -⟩ := Option.map_eq_some_iff.1 h
  have hprefix : suffix.reverse <+: name.reverse := ⟨rest, List.isPrefixOf?_eq_some_iff_append_eq.1 hrest⟩
  rwa [List.reverse_prefix] at hprefix

private theorem cleanEntry_cleaned (io : WipeIo) (name : Str) :
    Respects Store.Cleaned (cleanEntry io name : StoreM S Unit) := by
  unfold cleanEntry
  by_cases hpartial : ".fsv2.partial".toList.isSuffixOf name = true
  · rw [if_pos hpartial]
    exact removeEntry_cleaned (fun hk => hk.1 (List.isSuffixOf_iff_suffix.1 hpartial)) io
  · rw [if_neg hpartial]
    cases hold : ".old".toList.isSuffixOf? name with
    | none => exact .pure _
    | some stem =>
      have hname : ¬ Lasting name := fun hk => hk.2 (suffix_of_isSuffixOf? hold)
      refine .get_bind fun s => ?_
      rw [wp_ite]
      refine ⟨fun _ => removeEntry_cleaned hname io s, fun hfree => ?_⟩
      rw [wp_bind, wp_attempt]
      exact renameVault_cleaned hname (by simpa using hfree)

/-- **What the clean-up spares.**  It changes nothing but what is left over. -/
theorem cleanPartialDirs_spares (io : Str → WipeIo) : Respects Store.Cleaned (cleanPartialDirs io : StoreM S Unit) := by
  have hentries : ∀ names, Respects Store.Cleaned (cleanEntries io names : StoreM S Unit) := by
    intro names
    induction names with
    | nil => exact .pure _
    | cons name names ih => exact .bind (cleanEntry_cleaned (io name) name) fun _ => ih
  refine .bind ?_ fun names => hentries names
  exact .bind (.attempt (call_cleaned _)) fun _ => .bind .get fun _ => .pure _

/-! ### The registry -/

theorem any_upsertBy {α : Type} {p q : α → Bool} {a : α} {l : List α} (hq : ∀ b, p b = true → q b = q a) :
    (upsertBy p a l).any q = (l.any q || q a) := by
  induction l with
  | nil => simp [upsertBy]
  | cons b l ih =>
    unfold upsertBy
    split
    · rename_i hb
      simp only [List.any_cons, hq b hb]
      cases q a <;> simp
    · simp only [List.any_cons, ih, Bool.or_assoc]

theorem lists_upsert (r : Registry) (vault : VaultMeta) (id : Str) :
    (r.upsert vault).lists id = (r.lists id || decide (vault.id = id)) :=
  any_upsertBy fun b hb => by
    have : b.id = vault.id := by simpa using hb
    rw [this]

/-- What the second loop returns lists all that was listed, and besides only vaults that it was given. -/
theorem registerVaults_lists (io : ReconcileIo) (registry : Registry) (ids : List Str) :
    Returns (fun out => (∀ id, registry.lists id = true → out.1.lists id = true) ∧
      ∀ id, out.1.lists id = true → registry.lists id = true ∨ id ∈ ids)
      (registerVaults identity io registry ids : StoreM S _) := by
  induction ids generalizing registry with
  | nil => exact .pure ⟨fun _ h => h, fun _ h => Or.inl h⟩
  | cons id ids ih =>
    have hrest : Returns (fun out => (∀ id', registry.lists id' = true → out.1.lists id' = true) ∧
        ∀ id', out.1.lists id' = true → registry.lists id' = true ∨ id' ∈ id :: ids)
        (registerVaults identity io registry ids : StoreM S _) := by
      intro s
      refine wp_mono (ih registry s) ?_
      intro r s' hr out hout
      exact ⟨(hr out hout).1, fun id' h => ((hr out hout).2 id' h).imp_right (List.mem_cons_of_mem _)⟩
    unfold registerVaults
    refine .ite hrest (.bind fun opened => ?_)
    cases opened with
    | error e => exact hrest
    | ok reader =>
      refine .bind_of (ih _) ?_
      rintro ⟨registry', notes, changed⟩ ⟨hold, hnew⟩
      refine .pure ⟨fun id' h => hold id' ?_, fun id' h => ?_⟩
      · rw [lists_upsert, h, Bool.true_or]
      · rcases hnew id' h with h | h
        · rw [lists_upsert, Bool.or_eq_true, decide_eq_true_eq] at h
          rcases h with h | rfl
          · exact Or.inl h
          · exact Or.inr List.mem_cons_self
        · exact Or.inr (List.mem_cons_of_mem _ h)

/-- **What the registry keeps.**  It loses no vault that it has listed. -/
theorem reconcileVaults_keeps (registry : Registry) (io : ReconcileIo) :
    Returns (fun out => ∀ id, registry.lists id = true → out.1.lists id = true)
      (reconcileVaults identity registry io : StoreM S _) := by
  unfold reconcileVaults
  refine .bind fun tombstoned => .bind fun kept => .bind fun ids => .bind_of (registerVaults_lists io registry ids) ?_
  rintro ⟨registry', notes, changed⟩ ⟨hold, -⟩
  dsimp only
  refine .ite (.bind fun _ => .pure ?_) (.pure ?_)
  · exact hold
  · exact hold

end FileSec
