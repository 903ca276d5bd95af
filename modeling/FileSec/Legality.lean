import FileSec.Limits
import FileSec.Validation

/-!
# What keeps a manifest valid

The validation looks at the whole manifest, an operation at its own argument.  `Change.Legal` says, of the entries before
a change, when the entries after it are valid again: they are not too many, the paths the change makes can be normalised
and clash with none that stays, and a file put is neither too large nor has too many chunks (`valid_apply_iff`).
-/

namespace FileSec

open SepPath PathTree Prog

variable {P : Prims}

/-- The paths a change makes, with the kinds of their entries. -/
def Change.made (es : List EntryV2) : Change → List (Str × EntryKind)
  | .put p _ _ => if entryAt es p = none then (missingParents es p).map (·, .dir) ++ [(p, .file)] else []
  | .mkdir p => if entryAt es p = none then (missingParents es p).map (·, .dir) ++ [(p, .dir)] else []
  | .rename p q =>
    if p = q then []
    else (missingParents es q).map (·, .dir) ++
      (es.filter fun e => AtOrBelow '/' p e.path).map fun e => (reroot p q e.path, e.kind)
  | .remove _ | .setAttr .. => []

/-- The entries a change leaves at their paths. -/
def Change.kept (es : List EntryV2) : Change → List EntryV2
  | .remove p => es.filter fun e => ¬ AtOrBelow '/' p e.path
  | .rename p q => if p = q then es else es.filter fun e => ¬ AtOrBelow '/' p e.path
  | .put .. | .mkdir _ | .setAttr .. => es

/-- Entries with the new paths can be added: they are not too many, and their paths can be normalised and clash with none
of the entries. -/
structure Fit (es : List EntryV2) (new : List (Str × EntryKind)) : Prop where
  count : es.length + new.length ≤ maxManifestEntries
  paths : ∀ x ∈ new, ∃ n, normalizeStoredPath x.1 = .ok n
  apart : ∀ e ∈ es, ∀ x ∈ new, Apart e.site x

/-- A file put has few enough chunks and is not too large for the files that stay. -/
def Change.Sized (es : List EntryV2) : Change → Prop
  | .put p _ bytes => numChunks bytes.length defaultChunkSize ≤ u32Max ∧
      totalSize (es.filter fun e => e.path ≠ p) + bytes.length ≤ u64Max
  | _ => True

/-- The change leaves valid entries valid. -/
structure Change.Legal (es : List EntryV2) (c : Change) : Prop where
  fit : Fit (c.kept es) (c.made es)
  sized : c.Sized es

/-- The operation leaves valid entries valid: the change it can make is legal, and so are the parents it adds before it
comes across a file. -/
structure Op.Legal (P : Prims) (es : List EntryV2) (op : Op) : Prop where
  change : ∀ c, op.Makes P c → c.Pre es → c.Legal es
  blocked : ∀ p f d, op.target = some p → Below '/' f p → entryAt es f = some d → d.kind = .file →
    Fit es ((missingParents es f).map (·, .dir))

/-- The attributes of a file that is put are those of its blob. -/
def Change.Blob (alg : AeadAlg) : Change → Prop
  | .put p a bytes => a.kind = .file ∧ a.size = bytes.length ∧
      (EntryV2.FileOk alg { a with path := p } ↔ numChunks bytes.length defaultChunkSize ≤ u32Max)
  | _ => True

variable {alg : AeadAlg} {es es' : List EntryV2} {p q : Str}

/-! ### Valid entries -/

theorem ValidEntries.nodup (h : ValidEntries alg es) : (pathsOf es).Nodup := by
  have hpair := List.pairwise_map.1 h.apart
  rw [List.Nodup, List.pairwise_map]
  refine hpair.imp_of_mem fun {e e'} he _ hap heq => ?_
  obtain ⟨n, hn⟩ := h.paths e he
  exact (hap n n hn (show normalizeStoredPath e'.path = .ok n from heq ▸ hn)).1 rfl

/-- Two entries of a valid manifest do not clash, unless they are one. -/
theorem ValidEntries.apart_or_eq (h : ValidEntries alg es) {e d : EntryV2} (he : e ∈ es) (hd : d ∈ es) :
    Apart e.site d.site ∨ e.site = d.site :=
  List.Pairwise.forall_of_forall_of_flip (R := fun x y => Apart x y ∨ x = y) (fun _ _ => Or.inr rfl) (h.apart.imp Or.inl)
    (h.apart.imp fun h => Or.inl h.symm) (List.mem_map_of_mem he) (List.mem_map_of_mem hd)

/-- Two entries of a valid manifest that normalise to one path are the same. -/
theorem ValidEntries.path_unique (h : ValidEntries alg es) {e d : EntryV2} (he : e ∈ es) (hd : d ∈ es) {n : Str}
    (hen : normalizeStoredPath e.path = .ok n) (hdn : normalizeStoredPath d.path = .ok n) : e.path = d.path := by
  rcases h.apart_or_eq he hd with hap | heq
  · exact absurd rfl (hap n n hen hdn).1
  · exact (Prod.mk.inj heq).1

theorem totalSize_append (es es' : List EntryV2) : totalSize (es ++ es') = totalSize es + totalSize es' := by
  simp [totalSize]

theorem totalSize_perm (h : es.Perm es') : totalSize es = totalSize es' :=
  ((h.filter _).map _).sum_nat

theorem totalSize_le_of_sublist (h : es.Sublist es') : totalSize es ≤ totalSize es' :=
  ((h.filter _).map _).sum_le_sum (by simp)

theorem totalSize_dirs (ps : List Str) : totalSize (ps.map dirEntry) = 0 := by
  induction ps with
  | nil => rfl
  | cons p ps ih =>
    rw [List.map_cons, totalSize_cons, ih]
    simp [dirEntry, dirAttrs]

theorem totalSize_map {f : EntryV2 → EntryV2} (hf : ∀ e, (f e).kind = e.kind ∧ (f e).size = e.size) (es : List EntryV2) :
    totalSize (es.map f) = totalSize es := by
  induction es with
  | nil => rfl
  | cons e es ih => rw [List.map_cons, totalSize_cons, totalSize_cons, ih, (hf e).1, (hf e).2]

/-- Entries some of which have new paths are valid if these fit and the files are all right. -/
theorem validEntries_iff {kept : List EntryV2} {made : List (Str × EntryKind)} (hv : ValidEntries alg es)
    (hkept : kept.Sublist es) (hperm : (es'.map EntryV2.site).Perm (kept.map EntryV2.site ++ made))
    (hmade : made.Pairwise Apart) :
    ValidEntries alg es' ↔ Fit kept made ∧ (∀ e ∈ es', e.kind = .file → e.FileOk alg) ∧ totalSize es' ≤ u64Max := by
  have hlen : es'.length = kept.length + made.length := by simpa using hperm.length_eq
  have hmem : ∀ x, x ∈ es'.map EntryV2.site ↔ x ∈ kept.map EntryV2.site ∨ x ∈ made := fun x => by
    rw [hperm.mem_iff, List.mem_append]
  have hpair : (es'.map EntryV2.site).Pairwise Apart ↔ ∀ e ∈ kept, ∀ x ∈ made, Apart e.site x := by
    have hold : (kept.map EntryV2.site).Pairwise Apart := hv.apart.sublist (hkept.map _)
    rw [hperm.pairwise_iff Apart.symm, List.pairwise_append, and_iff_right hold, and_iff_right hmade, List.forall_mem_map]
  have hpaths : (∀ e ∈ es', ∃ n, normalizeStoredPath e.path = .ok n) ↔
      ∀ x ∈ made, ∃ n, normalizeStoredPath x.1 = .ok n := by
    constructor
    · intro h x hx
      obtain ⟨e, he, rfl⟩ := List.mem_map.1 ((hmem x).2 (Or.inr hx))
      exact h e he
    · intro h e he
      rcases (hmem e.site).1 (List.mem_map_of_mem he) with hk | hk
      · obtain ⟨d, hd, heq⟩ := List.mem_map.1 hk
        obtain ⟨n, hn⟩ := hv.paths d (hkept.subset hd)
        exact ⟨n, by rw [← hn, (Prod.mk.inj heq).1]⟩
      · exact h _ hk
  constructor
  · rintro ⟨h1, h2, h3, h4, h5⟩
    exact ⟨⟨by omega, hpaths.1 h2, hpair.1 h3⟩, h4, h5⟩
  · rintro ⟨⟨h1, h2, h3⟩, h4, h5⟩
    exact ⟨by omega, hpaths.2 h2, hpair.2 h3, h4, h5⟩

/-! ### The paths a change makes -/

theorem Apart.of_normal {x y : Str × EntryKind} (hx : NormalPath x.1) (hy : NormalPath y.1) (h : Unclashing x y) :
    Apart x y := by
  intro n n' hn hn'
  rw [hx.normalizeStoredPath, Except.ok.injEq] at hn
  rw [hy.normalizeStoredPath, Except.ok.injEq] at hn'
  exact hn ▸ hn' ▸ h

theorem dirs_apart {ps : List Str} (hnd : ps.Nodup) (hn : ∀ a ∈ ps, NormalPath a) :
    (ps.map fun a => (a, EntryKind.dir)).Pairwise Apart := by
  rw [List.pairwise_map]
  refine List.Pairwise.imp_of_mem (fun {a b} ha hb hne => ?_) hnd
  exact .of_normal (hn a ha) (hn b hb) ⟨hne, by simp, by simp⟩

theorem missingParents_nodup (es : List EntryV2) (p : Str) : (missingParents es p).Nodup :=
  List.filter_sublist.nodup (parents_nodup p)

private theorem normal_missingParents (hp : NormalPath p) : ∀ a ∈ missingParents es p, NormalPath a :=
  fun _ ha => hp.of_below (mem_missingParents.1 ha).1

/-- A new entry and the parents made for it do not clash. -/
private theorem new_apart (hp : NormalPath p) (k : EntryKind) :
    ((missingParents es p).map (·, EntryKind.dir) ++ [(p, k)]).Pairwise Apart := by
  rw [List.pairwise_append]
  refine ⟨dirs_apart (missingParents_nodup es p) (normal_missingParents hp), by simp, ?_⟩
  intro x hx y hy
  obtain ⟨a, ha, rfl⟩ := List.mem_map.1 hx
  rw [List.mem_singleton] at hy
  subst hy
  have hb := (mem_missingParents.1 ha).1
  exact .of_normal (hp.of_below hb) hp ⟨hb.ne, by simp, fun _ => hb.asymm⟩

/-- Entries moved together do not clash at their new paths if they did not before. -/
private theorem moved_apart (hv : ValidEntries alg es) (hp : NormalPath p) (hq : NormalPath q) :
    ((es.filter fun e => AtOrBelow '/' p e.path).map fun e => (reroot p q e.path, e.kind)).Pairwise Apart := by
  have hpair := List.pairwise_map.1 hv.apart
  rw [List.pairwise_map]
  refine (hpair.sublist List.filter_sublist).imp_of_mem fun {e d} he hd hap n₁ n₂ h₁ h₂ => ?_
  obtain ⟨he, hpe⟩ := List.mem_filter.1 he
  obtain ⟨hd, hpd⟩ := List.mem_filter.1 hd
  obtain ⟨n, hn⟩ := hv.paths e he
  obtain ⟨m, hm⟩ := hv.paths d hd
  obtain ⟨hpn, rfl⟩ := normalize_reroot hp hq (of_decide_eq_true hpe) hn h₁
  obtain ⟨hpm, rfl⟩ := normalize_reroot hp hq (of_decide_eq_true hpd) hm h₂
  obtain ⟨hne, h12, h21⟩ := hap n m hn hm
  have hback : ∀ {x y : Str}, AtOrBelow '/' p x → AtOrBelow '/' p y → Below '/' (reroot p q x) (reroot p q y) →
      Below '/' x y := by
    intro x y hx hy hb
    have h := hb.reroot (hx.reroot q) p
    rwa [hx.reroot_reroot, hy.reroot_reroot] at h
  exact ⟨fun e => hne (reroot_injOn hpn hpm e), fun hk hb => h12 hk (hback hpn hpm hb),
    fun hk hb => h21 hk (hback hpm hpn hb)⟩

/-- The paths a change makes do not clash with each other. -/
private theorem made_apart {c : Change} (hv : ValidEntries alg es) (hpre : c.Pre es) : (c.made es).Pairwise Apart := by
  cases c with
  | put p a bytes =>
    simp only [Change.made]
    split
    · exact new_apart hpre.1 .file
    · exact .nil
  | mkdir p =>
    simp only [Change.made]
    split
    · exact new_apart hpre.1 .dir
    · exact .nil
  | remove p => exact .nil
  | setAttr p mtime mode => exact .nil
  | rename p q =>
    simp only [Change.made]
    split
    · exact .nil
    · rename_i hne
      rcases hpre with h | ⟨hp, hq, -, -, -, -, -⟩
      · exact absurd h hne
      · rw [List.pairwise_append]
        refine ⟨dirs_apart (missingParents_nodup es q) (normal_missingParents hq), moved_apart hv hp hq, ?_⟩
        intro x hx y hy n₁ n₂ h₁ h₂
        obtain ⟨a, ha, rfl⟩ := List.mem_map.1 hx
        obtain ⟨e, he, rfl⟩ := List.mem_map.1 hy
        obtain ⟨he, hpe⟩ := List.mem_filter.1 he
        obtain ⟨n, hn⟩ := hv.paths e he
        obtain ⟨hpn, rfl⟩ := normalize_reroot hp hq (of_decide_eq_true hpe) hn h₂
        have hb := (mem_missingParents.1 ha).1
        rw [(hq.of_below hb).normalizeStoredPath, Except.ok.injEq] at h₁
        subst h₁
        have habove : Below '/' a (reroot p q n) := hb.trans_atOrBelow (hpn.reroot q)
        exact ⟨habove.ne, by simp, fun _ => habove.asymm⟩

/-- The paths after a change: those it keeps and those it makes. -/
theorem sites_apply {c : Change} (hnd : (pathsOf es).Nodup) (hpre : c.Pre es)
    (hfile : ∀ p a bytes, c = .put p a bytes → a.kind = .file) :
    ((c.apply es).map EntryV2.site).Perm ((c.kept es).map EntryV2.site ++ c.made es) := by
  have hdirs : ∀ ps : List Str, (ps.map dirEntry).map EntryV2.site = ps.map (·, EntryKind.dir) := by
    intro ps
    rw [List.map_map]
    rfl
  cases c with
  | put p a bytes =>
    by_cases h : entryAt es p = none
    · rw [apply_put_of_none h]
      have hsite : EntryV2.site { a with path := p } = (p, .file) := Prod.ext rfl (hfile p a bytes rfl)
      simp only [Change.kept, Change.made, if_pos h, withParents, List.map_append, hdirs, List.append_assoc,
        List.map_singleton, hsite]
      exact .refl _
    · obtain ⟨i, hi⟩ := exists_index h
      obtain ⟨e, he, hpath⟩ := (Keyed.index_eq_some_iff hnd).1 hi
      have hat : entryAt es p = some e := by rw [entryAt, Keyed.lookup_eq_getElem hnd hi, he]
      obtain ⟨hlt, rfl⟩ := List.getElem?_eq_some_iff.1 he
      rw [apply_put_of_some hi]
      simp only [Change.kept, Change.made, if_neg h, List.append_nil, List.map_set]
      have hlt' : i < (es.map EntryV2.site).length := by simpa using hlt
      have hsame : EntryV2.site { a with path := p } = (es.map EntryV2.site)[i] := by
        rw [List.getElem_map]
        exact Prod.ext hpath.symm ((hfile p a bytes rfl).trans (hpre.2.1 _ hat).symm)
      rw [hsame, List.set_getElem_self]
  | mkdir p =>
    by_cases h : entryAt es p = none
    · rw [apply_mkdir_of_none h]
      simp only [Change.kept, Change.made, if_pos h, withParents, List.map_append, hdirs, List.append_assoc]
      exact .refl _
    · rw [apply_mkdir_of_some h]
      simp [Change.kept, Change.made, h]
  | remove p => simp [Change.kept, Change.made, Change.apply]
  | setAttr p mtime mode =>
    have hsites : ((Change.setAttr p mtime mode).apply es).map EntryV2.site = es.map EntryV2.site := by
      simp only [Change.apply]
      split
      · exact Keyed.map_key_modify es _ fun _ => rfl
      · rfl
    rw [hsites]
    simp [Change.kept, Change.made]
  | rename p q =>
    by_cases h : p = q
    · subst h
      simp [Change.kept, Change.made]
    · rcases hpre with h' | ⟨-, -, -, hpq, -, -, -⟩
      · exact absurd h' h
      · rw [apply_rename_of_ne h]
        simp only [Change.kept, Change.made, if_neg h]
        have hparents : ((missingParents es q).map dirEntry).map (EntryV2.site ∘ moveEntry p q) =
            (missingParents es q).map (·, EntryKind.dir) := by
          rw [List.map_map]
          refine List.map_congr_left fun a ha => Prod.ext ?_ rfl
          -- a parent of the new path does not lie below the old one
          show (moveEntry p q (dirEntry a)).path = a
          rw [moveEntry_path, if_neg]
          · rfl
          · exact fun hb => hpq (hb.trans_below (mem_missingParents.1 ha).1)
        have hmoved : (es.filter fun e => AtOrBelow '/' p e.path).map (EntryV2.site ∘ moveEntry p q) =
            (es.filter fun e => AtOrBelow '/' p e.path).map fun e => (reroot p q e.path, e.kind) := by
          refine List.map_congr_left fun e he => Prod.ext ?_ rfl
          exact (moveEntry_path p q e).trans (if_pos (of_decide_eq_true (List.mem_filter.1 he).2))
        have hkept : (es.filter fun e => ¬ AtOrBelow '/' p e.path).map (EntryV2.site ∘ moveEntry p q) =
            (es.filter fun e => ¬ AtOrBelow '/' p e.path).map EntryV2.site := by
          refine List.map_congr_left fun e he => Prod.ext ?_ rfl
          exact (moveEntry_path p q e).trans (if_neg (of_decide_eq_true (List.mem_filter.1 he).2))
        have hsplit := (List.filter_append_perm (fun e : EntryV2 => decide (AtOrBelow '/' p e.path)) es).symm.map
          (EntryV2.site ∘ moveEntry p q)
        simp only [← decide_not, List.map_append, hmoved, hkept] at hsplit
        rw [withParents, List.map_map, List.map_append, hparents]
        refine (hsplit.append_right _).trans ?_
        exact ((List.perm_append_comm.append_right _).trans (.of_eq (List.append_assoc ..))).trans
          (List.perm_append_comm.append_left _)

/-! ### The files after a change -/

private theorem totalSize_put {a : EntryAttrs} {bytes : Bytes} (hnd : (pathsOf es).Nodup) (hk : a.kind = .file) :
    totalSize ((Change.put p a bytes).apply es) = totalSize (es.filter fun e => e.path ≠ p) + a.size := by
  have hone : totalSize [({ a with path := p } : EntryV2)] = a.size := by
    rw [totalSize_cons, if_pos hk, totalSize_nil, Nat.add_zero]
  by_cases h : entryAt es p = none
  · have hall : es.filter (fun e => e.path ≠ p) = es := by
      rw [List.filter_eq_self]
      intro e he
      exact decide_eq_true fun hp => Keyed.lookup_eq_none_iff.1 h (hp ▸ List.mem_map_of_mem he)
    rw [apply_put_of_none h, hall, withParents, totalSize_append, totalSize_append, totalSize_dirs, hone]
    rfl
  · obtain ⟨i, hi⟩ := exists_index h
    obtain ⟨e, he, hpath⟩ := (Keyed.index_eq_some_iff hnd).1 hi
    obtain ⟨hlt, rfl⟩ := List.getElem?_eq_some_iff.1 he
    have hold := (List.getElem_cons_eraseIdx_perm hlt).symm
    -- the other entries are those with another path
    have hne : ∀ e ∈ es.eraseIdx i, e.path ≠ p := by
      have hnd' : (pathsOf (es[i] :: es.eraseIdx i)).Nodup := (hold.map _).nodup_iff.1 hnd
      rw [pathsOf, List.map_cons, List.nodup_cons] at hnd'
      intro e he heq
      exact hnd'.1 (hpath ▸ heq ▸ List.mem_map_of_mem he)
    have hrest : (es.filter fun e => e.path ≠ p).Perm (es.eraseIdx i) := by
      refine (hold.filter _).trans (.of_eq ?_)
      rw [List.filter_cons_of_neg (by simp [hpath]), List.filter_eq_self]
      exact fun e he => decide_eq_true (hne e he)
    rw [apply_put_of_some hi, totalSize_perm (List.set_perm_cons_eraseIdx hlt _), totalSize_perm hrest, totalSize_cons,
      if_pos hk, Nat.add_comm]

private theorem fileOk_moveEntry {e : EntryV2} (h : e.FileOk alg) : (moveEntry p q e).FileOk alg :=
  ⟨h.fileId, h.chunkSize, h.chunks, h.key, h.nonce⟩

private theorem files_withParents (h : ∀ e ∈ es, e.kind = .file → e.FileOk alg) :
    ∀ e ∈ withParents es p, e.kind = .file → e.FileOk alg := by
  intro e he hk
  rcases List.mem_append.1 he with he | he
  · exact h e he hk
  · obtain ⟨a, -, rfl⟩ := List.mem_map.1 he
    simp [dirEntry, dirAttrs] at hk

private theorem totalSize_withParents : totalSize (withParents es p) = totalSize es := by
  rw [withParents, totalSize_append, totalSize_dirs, Nat.add_zero]

/-- The files after a change are all right if a file put is. -/
private theorem files_apply_iff {c : Change} (hv : ValidEntries alg es) (hblob : c.Blob alg) :
    ((∀ e ∈ c.apply es, e.kind = .file → e.FileOk alg) ∧ totalSize (c.apply es) ≤ u64Max) ↔ c.Sized es := by
  cases c with
  | put p a bytes =>
    obtain ⟨hk, hsize, hok⟩ := hblob
    rw [totalSize_put hv.nodup hk, hsize]
    refine and_congr_left fun _ => ?_
    rw [← hok]
    have hmem : ({ a with path := p } : EntryV2) ∈ (Change.put p a bytes).apply es := by
      by_cases h : entryAt es p = none
      · rw [apply_put_of_none h]
        simp
      · obtain ⟨i, hi⟩ := exists_index h
        obtain ⟨e, he, -⟩ := (Keyed.index_eq_some_iff hv.nodup).1 hi
        rw [apply_put_of_some hi]
        exact List.mem_set (List.getElem?_eq_some_iff.1 he).1 _
    constructor
    · exact fun h => h _ hmem hk
    · intro h e he hke
      by_cases hat : entryAt es p = none
      · rw [apply_put_of_none hat] at he
        rcases List.mem_append.1 he with he | he
        · exact files_withParents hv.files e he hke
        · rw [List.mem_singleton] at he
          exact he ▸ h
      · obtain ⟨i, hi⟩ := exists_index hat
        rw [apply_put_of_some hi] at he
        rcases List.mem_or_eq_of_mem_set he with he | rfl
        · exact hv.files e he hke
        · exact h
  | mkdir p =>
    refine iff_of_true ?_ trivial
    by_cases h : entryAt es p = none
    · rw [apply_mkdir_of_none h]
      refine ⟨fun e he hk => ?_, ?_⟩
      · rcases List.mem_append.1 he with he | he
        · exact files_withParents hv.files e he hk
        · rw [List.mem_singleton] at he
          subst he
          simp [dirEntry, dirAttrs] at hk
      · have hone : totalSize [dirEntry p] = 0 := totalSize_dirs [p]
        rw [totalSize_append, totalSize_withParents, hone]
        exact hv.total
    · rw [apply_mkdir_of_some h]
      exact ⟨hv.files, hv.total⟩
  | remove p =>
    refine iff_of_true ⟨fun e he hk => hv.files e (List.mem_of_mem_filter he) hk, ?_⟩ trivial
    exact (totalSize_le_of_sublist List.filter_sublist).trans hv.total
  | rename p q =>
    refine iff_of_true ?_ trivial
    by_cases h : p = q
    · subst h
      rw [apply_rename_self]
      exact ⟨hv.files, hv.total⟩
    · have hmove : ∀ e, (moveEntry p q e).kind = e.kind ∧ (moveEntry p q e).size = e.size := fun e => ⟨rfl, rfl⟩
      rw [apply_rename_of_ne h, totalSize_map hmove, totalSize_withParents]
      refine ⟨fun e he hk => ?_, hv.total⟩
      obtain ⟨d, hd, rfl⟩ := List.mem_map.1 he
      exact fileOk_moveEntry (files_withParents hv.files d hd hk)
  | setAttr p mtime mode =>
    refine iff_of_true ?_ trivial
    simp only [Change.apply]
    split
    · rename_i i hi
      obtain ⟨e, he, -⟩ := (Keyed.index_eq_some_iff hv.nodup).1 hi
      obtain ⟨hlt, rfl⟩ := List.getElem?_eq_some_iff.1 he
      rw [List.modify_eq_set_getElem?, he]
      refine ⟨fun e he hk => ?_, ?_⟩
      · rcases List.mem_or_eq_of_mem_set he with he | rfl
        · exact hv.files e he hk
        · obtain ⟨h1, h2, h3, h4, h5⟩ := hv.files _ (List.getElem_mem hlt) hk
          exact ⟨h1, h2, h3, h4, h5⟩
      · have hold := hv.total
        rw [totalSize_perm (List.getElem_cons_eraseIdx_perm hlt).symm, totalSize_cons] at hold
        refine (totalSize_perm (List.set_perm_cons_eraseIdx hlt _)).trans_le ?_
        rw [totalSize_cons]
        exact hold
    · exact ⟨hv.files, hv.total⟩

/-- What a change keeps was there. -/
theorem kept_sublist (es : List EntryV2) (c : Change) : (c.kept es).Sublist es := by
  cases c with
  | put | mkdir | setAttr => exact .refl _
  | remove p => exact List.filter_sublist
  | rename p q =>
    simp only [Change.kept]
    split
    · exact .refl _
    · exact List.filter_sublist

/-- A change leaves valid entries valid exactly if it is legal. -/
theorem valid_apply_iff {c : Change} (hv : ValidEntries alg es) (hpre : c.Pre es) (hblob : c.Blob alg) :
    ValidEntries alg (c.apply es) ↔ c.Legal es := by
  have hfile : ∀ p a bytes, c = .put p a bytes → a.kind = .file := by
    rintro p a bytes rfl
    exact hblob.1
  rw [validEntries_iff hv (kept_sublist es c) (sites_apply hv.nodup hpre hfile) (made_apart hv hpre), files_apply_iff hv hblob]
  exact ⟨fun h => ⟨h.1, h.2⟩, fun h => ⟨h.1, h.2⟩⟩

end FileSec
