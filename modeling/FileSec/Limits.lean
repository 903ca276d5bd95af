import FileSec.Tree
import FileSec.World

/-!
# Staying within the limits

Every operation checks its own argument, but a rename gives new paths to all that lies below, and a file may have one
chunk more than a `u32` counts.  `Change.Fits` is the condition, on the entries before a change, under which neither goes
wrong: then all paths stay in normal form (`normal_apply`).
-/

namespace FileSec

open SepPath PathTree Prog

variable {P : Prims}

/-- The change makes no path that is too long or too deep, and its file has no more chunks than a `u32` counts. -/
def Change.Fits (es : List EntryV2) : Change → Prop
  | .put _ _ bytes => numChunks bytes.length defaultChunkSize ≠ u32Max + 1
  | .rename p q => p ≠ q → ∀ e ∈ es, AtOrBelow '/' p e.path →
      depth (reroot p q e.path) ≤ maxPathDepth ∧ byteLen (reroot p q e.path) ≤ maxPathLen
  | _ => True

/-- The change the operation can make of the entries fits. -/
def Op.Fits (P : Prims) (es : List EntryV2) (op : Op) : Prop := ∀ c, op.Makes P c → c.Pre es → c.Fits es

/-- Each call of the closure on the batch meets `cond`. -/
def Edits.Along (cond : VaultBatch P → Op → Prop) : Edits → VaultBatch P → Prop
  | .done _, _ => True
  | .call op next, b => cond b op ∧ (next (exec (op.run P) b).1).Along cond (exec (op.run P) b).2

/-- Each call of the event on a batch meets `cond`. -/
def World.Allows (cond : VaultBatch P → Op → Prop) (w : World P) : Event → Prop
  | .commit c => ∀ r, w.reader = some r → c.edits.Along cond (VaultBatch.new r c.limit w.host)
  | _ => True

/-- Each call of the run on a batch meets `cond`. -/
def World.Along (cond : VaultBatch P → Op → Prop) (identity : Identity) : World P → List Event → Prop
  | _, [] => True
  | w, e :: events => w.Allows cond e ∧ (w.step identity e).Along cond identity events

/-- The closure that calls one operation. -/
theorem Edits.along_single {cond : VaultBatch P → Op → Prop} {op : Op} {b : VaultBatch P} (h : cond b op) :
    (Edits.ofList [op]).Along cond b := by
  refine ⟨h, ?_⟩
  cases (exec (op.run P) b).1 with
  | ok u => trivial
  | error e => trivial

/-! ### Paths stay in normal form -/

variable {es : List EntryV2} {p q : Str}

private theorem normal_withParents (hn : ∀ e ∈ es, NormalPath e.path) (hp : NormalPath p) :
    ∀ e ∈ withParents es p, NormalPath e.path := by
  intro e he
  rcases List.mem_append.1 he with he | he
  · exact hn e he
  · obtain ⟨a, ha, rfl⟩ := List.mem_map.1 he
    exact hp.of_below (mem_missingParents.1 ha).1

private theorem normal_concat (hn : ∀ e ∈ es, NormalPath e.path) {d : EntryV2} (hd : NormalPath d.path) :
    ∀ e ∈ withParents es d.path ++ [d], NormalPath e.path := by
  intro e he
  rcases List.mem_append.1 he with he | he
  · exact normal_withParents hn hd e he
  · rw [List.mem_singleton] at he
    exact he ▸ hd

/-- The paths after a rename, too. -/
private theorem normal_rename (hn : ∀ e ∈ es, NormalPath e.path) (hq : NormalPath q) (hpq : ¬ Below '/' p q)
    (hfits : ∀ e ∈ es, AtOrBelow '/' p e.path →
      depth (reroot p q e.path) ≤ maxPathDepth ∧ byteLen (reroot p q e.path) ≤ maxPathLen) :
    ∀ e ∈ (withParents es q).map (moveEntry p q), NormalPath e.path := by
  intro e he
  obtain ⟨d, hd, rfl⟩ := List.mem_map.1 he
  rw [moveEntry_path]
  split
  · rename_i hb
    rcases List.mem_append.1 hd with hd | hd
    · exact (normalPath_reroot_iff hq (hn d hd) hb).2 (hfits d hd hb)
    · -- a parent of the new path cannot lie below the old one
      obtain ⟨a, ha, rfl⟩ := List.mem_map.1 hd
      exact absurd (hb.trans_below (mem_missingParents.1 ha).1) hpq
  · exact normal_withParents hn hq d hd

/-- A change that fits keeps all paths in normal form. -/
theorem normal_apply {c : Change} (hn : ∀ e ∈ es, NormalPath e.path) (hpre : c.Pre es) (hfits : c.Fits es) :
    ∀ e ∈ c.apply es, NormalPath e.path := by
  cases c with
  | put p a bytes =>
    cases hi : Keyed.index EntryV2.path es p with
    | none =>
      rw [apply_put_of_none (Keyed.index_eq_none_iff_lookup.1 hi)]
      exact @normal_concat es hn { a with path := p } hpre.1
    | some i =>
      rw [apply_put_of_some hi]
      intro e he
      rcases List.mem_or_eq_of_mem_set he with he | rfl
      · exact hn e he
      · exact hpre.1
  | mkdir p =>
    by_cases h : entryAt es p = none
    · rw [apply_mkdir_of_none h]
      exact @normal_concat es hn (dirEntry p) hpre.1
    · rwa [apply_mkdir_of_some h]
  | remove p => exact fun e he => hn e (List.mem_of_mem_filter he)
  | rename p q =>
    by_cases h : p = q
    · subst h
      rwa [apply_rename_self]
    · rw [apply_rename_of_ne h]
      rcases hpre with h' | ⟨-, hq, -, hpq, -⟩
      · exact absurd h' h
      · exact normal_rename hn hq hpq (hfits h)
  | setAttr p mtime mode =>
    have hpaths : pathsOf ((Change.setAttr p mtime mode).apply es) = pathsOf es := by
      simp only [Change.apply]
      split
      · exact Keyed.map_key_modify es _ fun _ => rfl
      · rfl
    intro e he
    have hmem : e.path ∈ pathsOf es := hpaths ▸ List.mem_map_of_mem he
    obtain ⟨d, hd, hpath⟩ := List.mem_map.1 hmem
    exact hpath ▸ hn d hd

end FileSec
