import FileSec.App.TrashNames
import FileSec.Fsec.Export
import FileSec.Lib.Runs
import FileSec.Subtree

/-!
# Deleting and restoring

Moving an entry to the trash carries its subtree over as it is, and what users do elsewhere leaves it alone until it is
moved back (`softDelete_restores`).
-/

namespace FileSec

open CrashDir Prog SepPath

variable {P : Prims}

/-- The commit of a job that is one batch. -/
def Tidying.call (F : Casing) (es : List EntryV2) (job : Tidying) (io : CommitIo) : StoreResult CommitCall :=
  (job.ops F es).map fun ops => ⟨some maxBatchOps, .ofList ops, io⟩

/-- The subtree at `p` has been moved to `dest`, where nobody sees it, and is listed once in the trash, with its path, the
time, and the number and the size of its files.  Nothing else has changed. -/
structure Deleted (es es' : List EntryV2) (p dest : Str) (t : Int) : Prop where
  moved : subtreeOf es' dest = subtreeOf es p
  rest : restOf es' dest = restOf es p ++ (missingParents es dest).map dirEntry
  gone : ∀ e ∈ es', ¬ AtOrBelow '/' p e.path
  hidden : ∀ F dir search sort, ∀ row ∈ visibleRows F es' dir search sort, ¬ AtOrBelow '/' dest row.path
  exported : ∀ e ∈ Fsec.keptOf es', ¬ AtOrBelow '/' dest e.path
  listed : ∃ item, (trashedItems es').filter (fun i => i.trashedPath = dest) = [item] ∧ item.origPath = p ∧
    item.deletedAt = t ∧ (item.count, item.size) = filesOf (es.filter fun e => AtOrBelow '/' p e.path)

/-- What was at `dest` has been moved to `q`, which is its former path `p`, or where this is taken a free one in the same
folder.  Nothing else has changed. -/
structure Restored (es es' : List EntryV2) (dest p q : Str) : Prop where
  place : p ∉ pathsOf es ∧ q = p ∨ p ∈ pathsOf es ∧ q ∉ pathsOf es ∧ parentDir q = parentDir p
  moved : subtreeOf es' q = subtreeOf es dest
  rest : restOf es' q = restOf es dest ++ (missingParents es q).map dirEntry

/-- Nothing stands in the way of restoring something to `q`: the path is in normal form, below no file and with nothing at
or below it, and the commit leaves a vault that opens and is sealed. -/
structure CommitCall.Restores (c : CommitCall) (s : Session P) (q : Str) : Prop where
  normal : (normalizePath q).toOption = some q
  above : NoFileAbove s.reader.manifest.entries q
  free : ∀ e ∈ s.reader.manifest.entries, ¬ AtOrBelow '/' q e.path
  legal : c.Legal s
  seals : c.Seals s

/-- A commit is legal, so that it leaves a vault that opens, and its calls are about other paths than `d`. -/
def World.Tends (d : Str) (w : World P) : Event → Prop
  | .commit c => ∀ r, w.reader = some r → c.Legal ⟨r, w.host⟩ ∧
      c.edits.Along (fun _ op => op.Aside d) (VaultBatch.new r c.limit w.host)
  | .crash .. => False
  | _ => True

/-! ### Commits of one operation -/

section Commit

variable {identity : Identity} {h : Host P} {r : VaultReaderV2 P} {s : Session P} {limit : Option Nat} {io : CommitIo}
  {op : Op}

theorem commitWith_failed {edits : Edits} {e : Error} (hrun : exec (commitWith limit edits io) ⟨r, h⟩ = (.error e, s)) :
    s.reader = r ∧ s.host.top = h.top := by
  obtain ⟨k, hed⟩ := edited_spec ⟨r, h⟩ limit edits
  have hout := of_wp (commitWith_outcome ⟨r, h⟩ limit edits io) hrun
  generalize Session.edited ⟨r, h⟩ limit edits = p at hed hout
  obtain ⟨edited, b⟩ := p
  cases hout with
  | failed hhost =>
    refine ⟨rfl, ?_⟩
    rcases hhost with rfl | ⟨j, rfl⟩
    · exact hed.drew.top
    · exact hed.drew.top

/-- The manifest a successful commit leaves is that of its batch. -/
theorem commitWith_entries {edits : Edits} (hrun : exec (commitWith limit edits io) ⟨r, h⟩ = (.ok (), s)) :
    s.reader.manifest.entries = (Session.edited ⟨r, h⟩ limit edits).2.manifest.entries ∨
      s.reader = r ∧ (Session.edited ⟨r, h⟩ limit edits).2.changed = false := by
  cases of_wp (commitWith_outcome ⟨r, h⟩ limit edits io) hrun with
  | sealed => exact Or.inl rfl
  | unchanged _ hch => exact Or.inr ⟨rfl, hch⟩

/-- A successful commit of one operation has made one change. -/
theorem commitWith_single (hopen : openVault P h.top.shown identity = .ok r.reopened)
    (hrun : exec (commitWith limit (.ofList [op]) io) ⟨r, h⟩ = (.ok (), s)) :
    ∃ c, op.Makes P c ∧ c.Pre r.manifest.entries ∧ s.reader.manifest.entries = c.apply r.manifest.entries := by
  have hnew := valid_new hopen limit
  have hok : (Session.edited ⟨r, h⟩ limit (.ofList [op])).1 = .ok () := by
    cases of_wp (commitWith_outcome ⟨r, h⟩ limit (.ofList [op]) io) hrun with
    | sealed hres => exact hres
    | unchanged hres => exact hres
  have hexec : exec (op.run P) (VaultBatch.new r limit h) = Session.edited ⟨r, h⟩ limit (.ofList [op]) :=
    (exec_single op _).symm
  obtain ⟨c, hdid⟩ : ∃ c, op.Did c _ _ :=
    of_wp (Op.run_spec hnew.indexed op) (hexec.trans (Prod.ext hok rfl))
  refine ⟨c, hdid.makes, hdid.pre, ?_⟩
  have hentries : (Session.edited ⟨r, h⟩ limit (.ofList [op])).2.manifest.entries = c.apply r.manifest.entries := by
    rw [hdid.manifest]
    rfl
  rcases commitWith_entries hrun with heq | ⟨rfl, hch⟩
  · rw [heq, hentries]
  · rcases hdid.changed with hchanged | ⟨-, hsame, -⟩
    · rw [hch] at hchanged
      cases hchanged
    · exact hsame.symm

end Commit

/-! ### Deleting -/

section Delete

variable {alg : AeadAlg} {es es' : List EntryV2} {p q dest : Str} {t : Int} {tag : Str}

/-- Nothing lies below a file with a normal path. -/
private theorem not_below_file (hv : ValidEntries alg es) {d e : EntryV2} (hd : d ∈ es) (he : e ∈ es)
    (hn : NormalPath d.path) (hk : d.kind = .file) : ¬ Below '/' d.path e.path := by
  intro hb
  obtain ⟨n, hen⟩ := hv.paths e he
  obtain ⟨hat, -⟩ := normalize_reroot hn hn (Or.inr hb) hen (by
    obtain ⟨x, hx⟩ := below_iff.1 hb
    rw [hx, reroot_append, ← hx]
    exact hen)
  rcases hv.apart_or_eq hd he with h | h
  · obtain ⟨hne, hbelow, -⟩ := h d.path n hn.normalizeStoredPath hen
    rcases hat with heq | hb'
    · exact hne heq.symm
    · exact hbelow hk hb'
  · exact hb.ne (Prod.mk.inj h).1

/-- A move to the trash that succeeds moves the entry itself to where the name says. -/
private theorem trash_makes (hv : ValidEntries alg es) (hp : p ∈ pathsOf es) (ht : 0 ≤ t) (htag : IsHex tag) {c : Change}
    (hmakes : (Op.rename p (trashDest t tag p)).Makes P c) (hpre : c.Pre es) :
    c = .rename p (trashDest t tag p) ∧ NormalPath p ∧ NormalPath (trashDest t tag p) := by
  cases hmakes with
  | @rename _ _ p' q' hp' hq' =>
    have hq'' := normalizeStoredPath_of_normalizePath hq'
    rcases hpre with heq | ⟨hnp, hnq, -, -, hat, -, -⟩
    · exact absurd (heq ▸ hq'') (normalize_trashDest_ne hp')
    · obtain ⟨e, he, hpath⟩ := List.mem_map.1 hp
      obtain ⟨d, hd⟩ := Option.ne_none_iff_exists'.1 hat
      obtain ⟨hmem, rfl⟩ := Keyed.lookup_mem hd
      obtain rfl : d.path = p := by
        rw [← hpath] at hp' ⊢
        exact hv.path_unique hmem he hnp.normalizeStoredPath hp'
      obtain rfl := normalize_trashDest ht htag hnp hq''
      exact ⟨rfl, hnp, hnq⟩

/-- Subtrees that agree have the same files. -/
private theorem filesOf_subtree (h : subtreeOf es' q = subtreeOf es p) :
    filesOf (es'.filter fun e => AtOrBelow '/' q e.path) = filesOf (es.filter fun e => AtOrBelow '/' p e.path) := by
  have hattrs : (es'.filter fun e => AtOrBelow '/' q e.path).map (·.toEntryAttrs) =
      (es.filter fun e => AtOrBelow '/' p e.path).map (·.toEntryAttrs) := by
    have := congrArg (List.map Prod.snd) h
    unfold subtreeOf at this
    rwa [List.map_map, List.map_map] at this
  have hfiles : ∀ l : List EntryV2, filesOf l = (((l.map (·.toEntryAttrs)).filter fun a => a.kind = .file).length,
      (((l.map (·.toEntryAttrs)).filter fun a => a.kind = .file).map (·.size)).sum) := by
    intro l
    unfold filesOf
    rw [List.filter_map, List.length_map, List.map_map]
    rfl
  rw [hfiles, hfiles, hattrs]

/-- An entry whose path starts below `.trash` is in the trash. -/
private theorem isTrashed_below {x : Str} (hd : parentDir dest = trashDir) (h : AtOrBelow '/' dest x) :
    isTrashed x = true := by
  obtain ⟨token, -, rfl⟩ := parentDir_eq_trashDir.1 hd
  exact isTrashed_iff.2 (Or.inr ((below_append trashDir token).trans_atOrBelow h))

/-- What a move to the trash makes of the entries. -/
private theorem deleted (hv' : ValidEntries alg es') (hp : p ∈ pathsOf es) (hlive : isTrashed p = false) (ht : 0 ≤ t)
    (hmax : t < 2 ^ 63) (htag : IsHex tag) (hnd : NormalPath (trashDest t tag p))
    (hes' : es' = (Change.rename p (trashDest t tag p)).apply es)
    (hfree : ∀ e ∈ es, ¬ AtOrBelow '/' (trashDest t tag p) e.path) : Deleted es es' p (trashDest t tag p) t := by
  have hdir := parentDir_trashDest (p := p) ht htag
  have haside := aside_top hdir hlive
  have hparse := parseTrashToken_trashDest ht hmax (htag.not_mem (by decide)) p
  generalize trashDest t tag p = dest at *
  have hne : p ≠ dest := fun heq => haside.2 (heq ▸ .refl _)
  have hinto : ¬ Below '/' p dest := fun h => haside.2 (Or.inr h)
  have hfree' : ∀ e ∈ es, AtOrBelow '/' dest e.path → AtOrBelow '/' p e.path := fun e he h => absurd h (hfree e he)
  have hmoved : subtreeOf es' dest = subtreeOf es p := hes' ▸ (subtreeOf_rename hne hinto).2 hfree'
  have hrest : restOf es' dest = restOf es p ++ (missingParents es dest).map dirEntry :=
    hes' ▸ restOf_rename hne hinto hfree'
  refine ⟨hmoved, hrest, ?_, ?_, ?_, ?_⟩
  · intro e he hat
    by_cases hd : AtOrBelow '/' dest e.path
    · exact haside.symm.not_atOrBelow hd hat
    · have hmem : e ∈ restOf es' dest := List.mem_filter.2 ⟨he, by simpa using hd⟩
      rw [hrest, List.mem_append] at hmem
      rcases hmem with hmem | hmem
      · exact of_decide_eq_true (List.mem_filter.1 hmem).2 hat
      · obtain ⟨a, ha, rfl⟩ := List.mem_map.1 hmem
        exact hinto (AtOrBelow.trans_below (show AtOrBelow '/' p a from hat) (mem_missingParents.1 ha).1)
  · intro F dir search sort row hrow hat
    unfold visibleRows at hrow
    rw [List.mem_mergeSort] at hrow
    obtain ⟨e, he, rfl⟩ := List.mem_map.1 hrow
    have hvisible := (List.mem_filter.1 he).2
    unfold isVisible at hvisible
    rw [if_pos (isTrashed_below hdir hat)] at hvisible
    cases hvisible
  · intro e he hat
    have hkept := (List.mem_filter.1 he).2
    rw [isTrashed_below hdir hat] at hkept
    cases hkept
  · obtain ⟨e, he, rfl⟩ := List.mem_map.1 hp
    have hmem : moveEntry e.path dest e ∈ es' := by
      rw [hes', apply_rename_of_ne hne]
      exact List.mem_map_of_mem (List.mem_append_left _ he)
    have hpath : (moveEntry e.path dest e).path = dest := by
      rw [moveEntry_path, if_pos (.refl _), reroot_self]
    generalize moveEntry e.path dest e = d at hmem hpath
    subst hpath
    have hitem := mem_trashedItems.2 ⟨d, hmem, hdir, trashItem_eq_some.2 ⟨t, e.path, hparse, rfl⟩⟩
    refine ⟨_, eq_singleton ((trashedItems_nodup hv'.nodup).filter _) (List.mem_filter.2 ⟨hitem, by simp⟩) ?_, rfl, rfl,
      ?_⟩
    · intro b hb
      obtain ⟨hb, heq⟩ := List.mem_filter.1 hb
      exact item_unique hv'.nodup hb hitem (Or.inl (of_decide_eq_true heq).symm) (.refl _)
    · rw [← filesOf_subtree hmoved]
      refine item_totals hv'.nodup (fun f hf hfp hk x hx => ?_) hitem
      have hfp : f.path = d.path := hfp
      exact not_below_file hv' hf hx (hfp ▸ hnd) hk

/-- Only a place that was free can hold the subtree as it was. -/
private theorem Deleted.free (hd : Deleted es es' p dest t) (hes' : es' = (Change.rename p dest).apply es)
    (haside : Aside dest p) : ∀ e ∈ es, ¬ AtOrBelow '/' dest e.path := by
  have hne : p ≠ dest := fun heq => haside.2 (heq ▸ .refl _)
  have hinto : ¬ Below '/' p dest := fun h => haside.2 (Or.inr h)
  have hmoved := hd.moved
  rw [hes', subtreeOf_rename hne hinto] at hmoved
  exact fun e he hat => haside.not_atOrBelow (hmoved e he hat) hat

end Delete

/-! ### Edits in between -/

section Between

variable {identity : Identity} {w : World P} {d : Str} {t : Int} {tag p : Str} {op : Op}

/-- An operation on live paths leaves the places of the trash alone. -/
theorem Op.aside_of_live (ht : 0 ≤ t) (htag : IsHex tag) (h : ∀ x ∈ op.touches, isTrashed x = false) :
    op.Aside (trashDest t tag p) :=
  fun x hx => aside_top (parentDir_trashDest ht htag) (h x hx)

/-- The reader is that of the vault on disk, which opens, and has this subtree at `d`. -/
private def World.Holds (identity : Identity) (d : Str) (subtree : List (Str × EntryAttrs)) (w : World P) : Prop :=
  ∃ r, w.reader = some r ∧ openVault P w.host.top.shown identity = .ok r.reopened ∧
    subtreeOf r.manifest.entries d = subtree

private theorem onReader_some {α : Type} {r : VaultReaderV2 P} (hr : w.reader = some r) (prog : SessionM P α) :
    w.onReader prog = ⟨(exec prog ⟨r, w.host⟩).2.host, some (exec prog ⟨r, w.host⟩).2.reader⟩ := by
  unfold World.onReader
  rw [hr]

private theorem World.Holds.step {subtree : List (Str × EntryAttrs)} (hw : w.Holds identity d subtree) {e : Event}
    (he : w.Tends d e) : (w.step identity e).Holds identity d subtree := by
  obtain ⟨r, hr, hopen, hsub⟩ := hw
  cases e with
  | commit c =>
    obtain ⟨hlegal, haside⟩ := he r hr
    show World.Holds identity d subtree (w.onReader _)
    rw [onReader_some hr]
    rcases hrun : exec (commitWith c.limit c.edits c.io) ⟨r, w.host⟩ with ⟨res, s⟩
    refine ⟨s.reader, rfl, ?_⟩
    show openVault P s.host.top.shown identity = _ ∧ _
    cases res with
    | error e =>
      obtain ⟨hreader, htop⟩ := commitWith_failed hrun
      rw [hreader, htop]
      exact ⟨hopen, hsub⟩
    | ok u =>
      refine ⟨(commitWith_reopens hopen hrun).1 hlegal, ?_⟩
      rcases commitWith_entries hrun with heq | ⟨heq, -⟩
      · have hsame : subtreeOf (Session.edited ⟨r, w.host⟩ c.limit c.edits).2.manifest.entries d =
            subtreeOf r.manifest.entries d := Edits.run_aside (valid_new hopen c.limit) hlegal.calls haside
        rw [heq, hsame, hsub]
      · rw [heq]
        exact hsub
  | collectGarbage io =>
    show World.Holds identity d subtree (w.onReader _)
    rw [onReader_some hr]
    rcases hrun : exec (FileSec.collectGarbage io) ⟨r, w.host⟩ with ⟨res, r', h'⟩
    obtain ⟨⟨pending, rfl, -⟩, -, htop, -⟩ := of_wp (collectGarbage_spec io ⟨r, w.host⟩) hrun
    have hshown : h'.top.shown = w.host.top.shown := by
      rcases htop with ⟨htop, -⟩ | htop
      · rw [htop]
      · rw [htop, shown_sync]
    refine ⟨_, rfl, ?_, hsub⟩
    show openVault P h'.top.shown identity = _
    rw [hshown]
    exact hopen
  | reopen =>
    refine ⟨r.reopened, ?_, hopen, hsub⟩
    show (openVault P w.host.top.shown identity).toOption = _
    rw [hopen]
    rfl
  | crash => exact he.elim

/-- Whatever is done elsewhere, the subtree stays. -/
private theorem World.Holds.run {subtree : List (Str × EntryAttrs)} (hw : w.Holds identity d subtree)
    {events : List Event} (he : Runs.Along (World.step identity) (World.Tends d) w events) :
    (w.run identity events).Holds identity d subtree :=
  Runs.run_along (World.Holds identity d subtree) (fun _ _ hw he => hw.step he) hw he

end Between

/-! ### Restoring -/

section Restore

variable {identity : Identity} {h : Host P} {r : VaultReaderV2 P} {io : CommitIo} {dest p : Str}

/-- A move out of the trash succeeds and gives a vault that opens, with the subtree at its place and nothing else changed,
exactly if its place is in normal form, below no file and with nothing below it, and the commit is legal and sealed. -/
private theorem restore_iff (hopen : openVault P h.top.shown identity = .ok r.reopened)
    (hdest : dest ∈ pathsOf r.manifest.entries) (hnd : NormalPath dest) (hdir : parentDir dest = trashDir)
    (hp : NormalPath p) (hlive : isTrashed p = false) {c : CommitCall}
    (hc : c = ⟨some maxBatchOps, .ofList [.rename dest (dedupPath (pathsOf r.manifest.entries) p)], io⟩) :
    (∃ s, exec (commitWith c.limit c.edits c.io) ⟨r, h⟩ = (.ok (), s) ∧
      openVault P s.host.top.shown identity = .ok s.reader.reopened ∧
      Restored r.manifest.entries s.reader.manifest.entries dest p (dedupPath (pathsOf r.manifest.entries) p)) ↔
    c.Restores ⟨r, h⟩ (dedupPath (pathsOf r.manifest.entries) p) := by
  have hqlive := isTrashed_dedupPath hp hlive (pathsOf r.manifest.entries)
  have hqfree := dedupPath_not_mem (pathsOf r.manifest.entries) p
  have hqdir := parentDir_dedupPath hp (pathsOf r.manifest.entries)
  have hqplace := dedupPath_eq (pathsOf r.manifest.entries) p
  have hqnormal : ∀ n, normalizePath (dedupPath (pathsOf r.manifest.entries) p) = .ok n →
      n = dedupPath (pathsOf r.manifest.entries) p :=
    fun n hn => normalize_dedupPath hp (normalizeStoredPath_of_normalizePath hn)
  generalize dedupPath (pathsOf r.manifest.entries) p = q at *
  subst hc
  -- the trash and a live place have nothing to do with each other
  have hnot : ∀ x, AtOrBelow '/' dest x → AtOrBelow '/' q x → False :=
    fun x hd hq => (aside_top hdir hqlive).not_atOrBelow hq hd
  have hne : dest ≠ q := fun heq => hnot q (Or.inl heq.symm) (.refl _)
  have hinto : ¬ Below '/' dest q := fun hb => hnot q (Or.inr hb) (.refl _)
  have hnone : entryAt r.manifest.entries q = none := Keyed.lookup_eq_none_iff.2 hqfree
  constructor
  · rintro ⟨s, hrun, hopens, hrestored⟩
    obtain ⟨c, hmakes, hpre, hentries⟩ := commitWith_single hopen hrun
    cases hmakes with
    | @rename _ _ d' q' hd' hq' =>
      rw [hnd.normalizeStoredPath] at hd'
      obtain rfl := Except.ok.inj hd'
      obtain rfl := hqnormal q' hq'
      have hmoved := hrestored.moved
      rw [hentries, subtreeOf_rename hne hinto] at hmoved
      refine ⟨by rw [hq']; rfl, ?_, fun e he hat => hnot e.path (hmoved e he hat) hat, ?_, ?_⟩
      · rcases hpre with heq | ⟨-, -, -, -, -, -, hno⟩
        · exact absurd heq hne
        · exact hno
      · exact (commitWith_reopens (c := ⟨_, _, io⟩) hopen hrun).2 _ rfl ⟨_, hopens⟩
      · exact ((commitWith_ok_iff ⟨_, _, io⟩ ⟨r, h⟩).1 (by rw [hrun])).2
  · rintro ⟨hq, hno, hfree, hlegal, hseals⟩
    have hq' : normalizePath q = .ok q := by
      cases hres : normalizePath q with
      | error e => simp [hres, Except.toOption] at hq
      | ok n => rw [hqnormal n hres]
    have hpre : (Change.rename dest q).Pre r.manifest.entries :=
      Or.inr ⟨hnd, normalPath_of_normalizePath hq', hne, hinto,
        fun hn => Keyed.lookup_eq_none_iff.1 hn hdest, hnone, hno⟩
    have hedited : (Session.edited ⟨r, h⟩ (some maxBatchOps) (.ofList [.rename dest q])).1 = .ok () := by
      unfold Session.edited
      rw [exec_single]
      exact rename_ok (valid_new hopen (some maxBatchOps)).indexed
        (fun n hn => by
          obtain rfl := Option.some.inj hn
          show 0 < maxBatchOps
          decide) hnd.normalizeStoredPath hq' hpre
    have hok := (commitWith_ok_iff ⟨some maxBatchOps, .ofList [.rename dest q], io⟩ ⟨r, h⟩).2 ⟨hedited, hseals⟩
    obtain ⟨s, hrun⟩ : ∃ s, exec (commitWith (some maxBatchOps) (.ofList [.rename dest q]) io) ⟨r, h⟩ = (.ok (), s) :=
      ⟨_, Prod.ext hok rfl⟩
    refine ⟨s, hrun, (commitWith_reopens (c := ⟨_, _, io⟩) hopen hrun).1 hlegal, ?_⟩
    obtain ⟨c, hmakes, -, hentries⟩ := commitWith_single hopen hrun
    cases hmakes with
    | @rename _ _ d' q' hd' hq'' =>
      rw [hnd.normalizeStoredPath] at hd'
      obtain rfl := Except.ok.inj hd'
      obtain rfl := hqnormal q' hq''
      have hfree' : ∀ e ∈ r.manifest.entries, AtOrBelow '/' q' e.path → AtOrBelow '/' dest e.path :=
        fun e he hat => absurd hat (hfree e he)
      rw [hentries]
      refine ⟨?_, (subtreeOf_rename hne hinto).2 hfree', restOf_rename hne hinto hfree'⟩
      rcases hqplace with ⟨hp, heq⟩ | ⟨hp, -⟩
      · exact Or.inl ⟨hp, heq⟩
      · exact Or.inr ⟨hp, hqfree, hqdir⟩

/-- The root of a subtree is an entry. -/
private theorem mem_pathsOf_iff {es : List EntryV2} {d : Str} :
    d ∈ pathsOf es ↔ [] ∈ (subtreeOf es d).map Prod.fst := by
  unfold subtreeOf
  rw [List.map_map]
  constructor
  · intro h
    obtain ⟨e, he, rfl⟩ := List.mem_map.1 h
    exact List.mem_map.2 ⟨e, List.mem_filter.2 ⟨he, decide_eq_true (.refl _)⟩, List.drop_length⟩
  · intro h
    obtain ⟨e, he, hdrop⟩ := List.mem_map.1 h
    obtain ⟨he, hat⟩ := List.mem_filter.1 he
    obtain ⟨rest, hrest⟩ := (of_decide_eq_true hat : AtOrBelow '/' d e.path).exists_eq
    have hnil : e.path.drop d.length = [] := hdrop
    rw [hrest, List.drop_left] at hnil
    rw [hnil, List.append_nil] at hrest
    exact hrest ▸ List.mem_map_of_mem he

/-- Moving a live entry of a vault that opens to the trash fails and changes nothing, or it succeeds, and then it gives a
vault that opens, in which the subtree is hidden and listed as one item, exactly if the commit is legal and nothing was at
or below the new path.  After any edits elsewhere that leave a vault that opens the subtree is as it was, and restoring the
item succeeds and puts it back, or next to what has taken its place, exactly if nothing stands in the way there. -/
theorem softDelete_restores {s : Session P} (hopen : openVault P h.top.shown identity = .ok r.reopened)
    (hp : p ∈ pathsOf r.manifest.entries) (hlive : isTrashed p = false) {t : Int} (ht : 0 ≤ t) (hmax : t < 2 ^ 63)
    {tag : Str} (htag : IsHex tag) {F : Casing} {c : CommitCall}
    (hc : (Tidying.trash p t tag).call F r.manifest.entries io = .ok c) {res : Result Unit}
    (hrun : exec (commitWith c.limit c.edits c.io) ⟨r, h⟩ = (res, s)) :
    (∀ e, res = .error e → s.reader = r ∧ s.host.top = h.top) ∧
    (res = .ok () →
      ((openVault P s.host.top.shown identity = .ok s.reader.reopened ∧
          Deleted r.manifest.entries s.reader.manifest.entries p (trashDest t tag p) t) ↔
        c.Legal ⟨r, h⟩ ∧ ∀ e ∈ r.manifest.entries, ¬ AtOrBelow '/' (trashDest t tag p) e.path) ∧
      (c.Legal ⟨r, h⟩ → (∀ e ∈ r.manifest.entries, ¬ AtOrBelow '/' (trashDest t tag p) e.path) →
        ∀ events, Runs.Along (World.step identity) (World.Tends (trashDest t tag p)) ⟨s.host, some s.reader⟩ events →
          ∃ r', (World.run identity ⟨s.host, some s.reader⟩ events).reader = some r' ∧
            subtreeOf r'.manifest.entries (trashDest t tag p) = subtreeOf r.manifest.entries p ∧
            ∀ F io, ∃ c', (Tidying.restore (trashDest t tag p)).call F r'.manifest.entries io = .ok c' ∧
              ((∃ s', exec (commitWith c'.limit c'.edits c'.io)
                  ⟨r', (World.run identity ⟨s.host, some s.reader⟩ events).host⟩ = (.ok (), s') ∧
                openVault P s'.host.top.shown identity = .ok s'.reader.reopened ∧
                Restored r'.manifest.entries s'.reader.manifest.entries (trashDest t tag p) p
                  (dedupPath (pathsOf r'.manifest.entries) p)) ↔
              c'.Restores ⟨r', (World.run identity ⟨s.host, some s.reader⟩ events).host⟩
                (dedupPath (pathsOf r'.manifest.entries) p)))) := by
  obtain rfl : (⟨some maxBatchOps, .ofList [.rename p (trashDest t tag p)], io⟩ : CommitCall) = c := Except.ok.inj hc
  refine ⟨fun e he => commitWith_failed (he ▸ hrun), ?_⟩
  rintro rfl
  have hdir := parentDir_trashDest (p := p) ht htag
  have haside := aside_top hdir hlive
  obtain ⟨ch, hmakes, hpre, hentries⟩ := commitWith_single hopen hrun
  obtain ⟨rfl, hnp, hnd⟩ :=
    trash_makes (validateManifestV2_iff.1 (valid_of_openVault hopen)) hp ht htag hmakes hpre
  have hreopens := commitWith_reopens (c := ⟨some maxBatchOps, .ofList [.rename p (trashDest t tag p)], io⟩) hopen hrun
  have hdeleted : openVault P s.host.top.shown identity = .ok s.reader.reopened →
      (∀ e ∈ r.manifest.entries, ¬ AtOrBelow '/' (trashDest t tag p) e.path) →
      Deleted r.manifest.entries s.reader.manifest.entries p (trashDest t tag p) t := by
    intro hopens hfree
    have hvalid := valid_of_openVault (r := s.reader.reopened) hopens
    exact deleted (validateManifestV2_iff.1 hvalid) hp hlive ht hmax htag hnd hentries hfree
  refine ⟨⟨fun ⟨hopens, hd⟩ => ⟨hreopens.2 _ rfl ⟨_, hopens⟩, hd.free hentries haside⟩,
    fun ⟨hlegal, hfree⟩ => ⟨hreopens.1 hlegal, hdeleted (hreopens.1 hlegal) hfree⟩⟩, fun hlegal hfree events he => ?_⟩
  have hstart : World.Holds identity (trashDest t tag p) (subtreeOf r.manifest.entries p) ⟨s.host, some s.reader⟩ :=
    ⟨s.reader, rfl, hreopens.1 hlegal, (hdeleted (hreopens.1 hlegal) hfree).moved⟩
  obtain ⟨r', hr', hopen', hsub⟩ := hstart.run he
  refine ⟨r', hr', hsub, fun F io => ⟨⟨some maxBatchOps, .ofList
    [.rename (trashDest t tag p) (dedupPath (pathsOf r'.manifest.entries) p)], io⟩, ?_, ?_⟩⟩
  · simp only [Tidying.call, Tidying.ops]
    rw [parseTrashToken_trashDest ht hmax (htag.not_mem (by decide))]
    rfl
  · have hdest : trashDest t tag p ∈ pathsOf r'.manifest.entries := by
      rw [mem_pathsOf_iff, hsub, ← mem_pathsOf_iff]
      exact hp
    exact restore_iff hopen' hdest hnd hdir hnp hlive rfl

end Restore

/-! A folder is deleted, another takes its place, and it is restored next to it. -/

set_option maxRecDepth 10000 in
private theorem folder_opens : (openVault Sym Sym.withFile.host.top.shown Sym.alice).toOption.isSome = true := by decide

private def folderReader : VaultReaderV2 Sym := (openVault Sym Sym.withFile.host.top.shown Sym.alice).toOption.get folder_opens

/-- Commit one operation. -/
@[irreducible] private def oneOp (op : Op) (s : Session Sym) : Result Unit × Session Sym :=
  exec (commitWith (some maxBatchOps) (.ofList [op]) .fine) s

private theorem oneOp_eq {op : Op} {s : Session Sym} (h : (oneOp op s).1 = .ok ()) :
    exec (commitWith (some maxBatchOps) (.ofList [op]) .fine) s = (.ok (), (oneOp op s).2) := by
  unfold oneOp at h ⊢
  exact Prod.ext h rfl

private abbrev folderDest : Str := trashDest 5 "0f".toList "d".toList

private def folderDeleted : Result Unit × Session Sym :=
  oneOp (.rename "d".toList folderDest) ⟨folderReader, Sym.withFile.host⟩

private def folderTaken : Result Unit × Session Sym := oneOp (.mkdir "d".toList) folderDeleted.2

private def folderRestored : Result Unit × Session Sym :=
  oneOp (.rename folderDest "d (restored)".toList) folderTaken.2

private def opens (s : Session Sym) : Bool := (openVault Sym s.host.top.shown Sym.alice).toOption.isSome

set_option maxRecDepth 10000 in
private theorem folder_facts :
    (folderDeleted.1 = .ok () ∧ opens folderDeleted.2 = true) ∧ (folderTaken.1 = .ok () ∧ opens folderTaken.2 = true) ∧
    (folderRestored.1 = .ok () ∧ opens folderRestored.2 = true) ∧
    ("d".toList ∈ pathsOf folderReader.manifest.entries ∧
      ∀ e ∈ folderReader.manifest.entries, ¬ AtOrBelow '/' folderDest e.path) ∧
    dedupPath (pathsOf folderTaken.2.reader.manifest.entries) "d".toList = "d (restored)".toList ∧
      ∀ e ∈ folderTaken.2.reader.manifest.entries, ¬ AtOrBelow '/' "d (restored)".toList e.path := by
  decide +kernel

private theorem folder_legal : openVault Sym Sym.withFile.host.top.shown Sym.alice = .ok folderReader.reopened ∧
    CommitCall.Legal ⟨some maxBatchOps, .ofList [.rename "d".toList folderDest], .fine⟩ ⟨folderReader, Sym.withFile.host⟩ ∧
    CommitCall.Legal ⟨some maxBatchOps, .ofList [.mkdir "d".toList], .fine⟩ folderDeleted.2 ∧
    CommitCall.Legal ⟨some maxBatchOps, .ofList [.rename folderDest "d (restored)".toList], .fine⟩ folderTaken.2 := by
  have hopen : openVault Sym Sym.withFile.host.top.shown Sym.alice = .ok folderReader.reopened :=
    (eq_ok_get folder_opens).trans (congrArg _ (reopened_of_openVault (eq_ok_get folder_opens)).symm)
  have hlegal : ∀ (op : Op) (s : Session Sym), openVault Sym s.host.top.shown Sym.alice = .ok s.reader.reopened →
      (oneOp op s).1 = .ok () → (openVault Sym (oneOp op s).2.host.top.shown Sym.alice).toOption.isSome = true →
      CommitCall.Legal ⟨some maxBatchOps, .ofList [op], .fine⟩ s ∧
        openVault Sym (oneOp op s).2.host.top.shown Sym.alice = .ok (oneOp op s).2.reader.reopened := by
    intro op s hs hok hopens
    have h := commitWith_reopens (c := ⟨some maxBatchOps, .ofList [op], .fine⟩) hs (oneOp_eq hok)
    exact ⟨h.2 op rfl ⟨_, eq_ok_get hopens⟩, h.1 (h.2 op rfl ⟨_, eq_ok_get hopens⟩)⟩
  obtain ⟨⟨hdeleted, hopens1⟩, ⟨htaken, hopens2⟩, ⟨hrestored, hopens3⟩, -⟩ := folder_facts
  obtain ⟨h1, hopen1⟩ := hlegal (.rename "d".toList folderDest) ⟨folderReader, Sym.withFile.host⟩ hopen hdeleted hopens1
  obtain ⟨h2, hopen2⟩ := hlegal (.mkdir "d".toList) folderDeleted.2 hopen1 htaken hopens2
  obtain ⟨h3, -⟩ := hlegal (.rename folderDest "d (restored)".toList) folderTaken.2 hopen2 hrestored hopens3
  exact ⟨hopen, h1, h2, h3⟩

/-- Putting a folder where the other was. -/
private def taking : Event := .commit ⟨some maxBatchOps, .ofList [.mkdir "d".toList], .fine⟩

private theorem run_taking (s : Session Sym) : World.run Sym.alice ⟨s.host, some s.reader⟩ [taking] =
    ⟨(oneOp (.mkdir "d".toList) s).2.host, some (oneOp (.mkdir "d".toList) s).2.reader⟩ := by
  unfold oneOp
  rfl

private theorem taking_tends {s : Session Sym}
    (h : CommitCall.Legal ⟨some maxBatchOps, .ofList [.mkdir "d".toList], .fine⟩ s) :
    Runs.Along (World.step Sym.alice) (World.Tends folderDest) ⟨s.host, some s.reader⟩ [taking] := by
  refine ⟨fun r hr => ?_, trivial⟩
  obtain rfl := Option.some.inj hr
  refine ⟨h, Edits.along_single (Op.aside_of_live (by decide) (by decide) fun x hx => ?_)⟩
  have hmem : x ∈ ["d".toList] := hx
  rw [List.mem_singleton.1 hmem]
  decide

/-- The last steps, for any session that is in such a state. -/
private theorem folder_back {s : Session Sym} {sub : List (Str × EntryAttrs)}
    (hrest : ∀ events, Runs.Along (World.step Sym.alice) (World.Tends folderDest) ⟨s.host, some s.reader⟩ events →
      ∃ r', (World.run Sym.alice ⟨s.host, some s.reader⟩ events).reader = some r' ∧
        subtreeOf r'.manifest.entries folderDest = sub ∧
        ∀ F io, ∃ c', (Tidying.restore folderDest).call F r'.manifest.entries io = .ok c' ∧
          ((∃ s', exec (commitWith c'.limit c'.edits c'.io)
              ⟨r', (World.run Sym.alice ⟨s.host, some s.reader⟩ events).host⟩ = (.ok (), s') ∧
            openVault Sym s'.host.top.shown Sym.alice = .ok s'.reader.reopened ∧
            Restored r'.manifest.entries s'.reader.manifest.entries folderDest "d".toList
              (dedupPath (pathsOf r'.manifest.entries) "d".toList)) ↔
          c'.Restores ⟨r', (World.run Sym.alice ⟨s.host, some s.reader⟩ events).host⟩
            (dedupPath (pathsOf r'.manifest.entries) "d".toList)))
    (htake : CommitCall.Legal ⟨some maxBatchOps, .ofList [.mkdir "d".toList], .fine⟩ s) {s₂ : Session Sym}
    (hs₂ : (oneOp (.mkdir "d".toList) s).2 = s₂)
    (hplace : dedupPath (pathsOf s₂.reader.manifest.entries) "d".toList = "d (restored)".toList)
    (hfree : ∀ e ∈ s₂.reader.manifest.entries, ¬ AtOrBelow '/' "d (restored)".toList e.path)
    (hlegal : CommitCall.Legal ⟨some maxBatchOps, .ofList [.rename folderDest "d (restored)".toList], .fine⟩ s₂)
    (hdone : (oneOp (.rename folderDest "d (restored)".toList) s₂).1 = .ok ()) :
    Restored s₂.reader.manifest.entries (oneOp (.rename folderDest "d (restored)".toList) s₂).2.reader.manifest.entries
      folderDest "d".toList "d (restored)".toList := by
  obtain ⟨r', hr', -, hcall⟩ := hrest _ (taking_tends htake)
  rw [run_taking, hs₂] at hr' hcall
  obtain rfl := Option.some.inj hr'
  obtain ⟨c', hc', hback⟩ := hcall ⟨Char.isWhitespace, id, rfl⟩ .fine
  have hparse : parseTrashToken folderDest = some (5, "d".toList) := by decide
  have hcalled : Tidying.call ⟨Char.isWhitespace, id, rfl⟩ s₂.reader.manifest.entries (.restore folderDest) .fine =
      .ok ⟨some maxBatchOps, .ofList [.rename folderDest (dedupPath (pathsOf s₂.reader.manifest.entries) "d".toList)],
        .fine⟩ := by
    simp only [Tidying.call, Tidying.ops]
    rw [hparse]
    rfl
  obtain rfl := Except.ok.inj (hcalled.symm.trans hc')
  rw [hplace] at hback
  have habove : NoFileAbove s₂.reader.manifest.entries "d (restored)".toList := by
    intro a d ha
    have hmem := mem_parents.2 ha
    rw [parents_of_not_mem (by decide)] at hmem
    cases hmem
  have hnormal : (normalizePath "d (restored)".toList).toOption = some "d (restored)".toList := by decide
  have hrun := oneOp_eq hdone
  have hseals := ((commitWith_ok_iff ⟨some maxBatchOps, .ofList [.rename folderDest "d (restored)".toList], .fine⟩ s₂).1
    (congrArg Prod.fst hrun)).2
  obtain ⟨s', hrun', -, hrestored⟩ := hback.2 ⟨hnormal, habove, hfree, hlegal, hseals⟩
  obtain rfl := congrArg Prod.snd (hrun.symm.trans hrun')
  exact hrestored

set_option maxRecDepth 10000 in
theorem softDelete_restores_taken :
    Deleted folderReader.manifest.entries folderDeleted.2.reader.manifest.entries "d".toList folderDest 5 ∧
    Restored folderTaken.2.reader.manifest.entries folderRestored.2.reader.manifest.entries folderDest "d".toList
      "d (restored)".toList := by
  obtain ⟨hopen, hdelete, htake, hrestore⟩ := folder_legal
  obtain ⟨⟨hok, -⟩, -, ⟨hdone, -⟩, ⟨hp, hfree⟩, hplace, hfree₂⟩ := folder_facts
  have hrun := oneOp_eq hok
  have hpaths : isTrashed "d".toList = false ∧ IsHex "0f".toList := by decide
  have hcall : (Tidying.trash "d".toList 5 "0f".toList).call ⟨Char.isWhitespace, id, rfl⟩ folderReader.manifest.entries
      .fine = .ok ⟨some maxBatchOps, .ofList [.rename "d".toList folderDest], .fine⟩ := rfl
  obtain ⟨-, h⟩ := softDelete_restores hopen hp hpaths.1 (t := 5) (by decide) (by decide) hpaths.2 hcall hrun
  obtain ⟨hdeleted, hrest⟩ := h rfl
  exact ⟨(hdeleted.2 ⟨hdelete, hfree⟩).2,
    folder_back (hrest hdelete hfree) htake rfl hplace hfree₂ hrestore hdone⟩

private def deepVault : World Sym :=
  Sym.world.run Sym.alice [.commit ⟨none, .ofList [.putBytes Sym.deepPath [1] .fine none none], .fine⟩]

set_option maxRecDepth 10000 in
private theorem deepVault_opens : (openVault Sym deepVault.host.top.shown Sym.alice).toOption.isSome = true := by
  decide +kernel

private def deepReader : VaultReaderV2 Sym := (openVault Sym deepVault.host.top.shown Sym.alice).toOption.get deepVault_opens

private def fileDest : Str := trashDest 5 "0f".toList "d/x".toList

private def fileDeleted : Result Unit × Session Sym :=
  oneOp (.rename "d/x".toList fileDest) ⟨folderReader, Sym.withFile.host⟩

private def folderReplaced : Result Unit × Session Sym :=
  oneOp (.putBytes "d".toList [2] .fine none none) (oneOp (.remove "d".toList) fileDeleted.2).2

set_option maxRecDepth 100000 in
/-- Deleting a folder whose deepest path has 64 components leaves a vault that does not open; and a file that was deleted
is not restored when there is a file where its folder was. -/
theorem softDelete_restores_fails :
    (openVault Sym deepVault.host.top.shown Sym.alice = .ok deepReader ∧
      (oneOp (.rename "a".toList (trashDest 5 "0f".toList "a".toList)) ⟨deepReader, deepVault.host⟩).1 = .ok () ∧
      (openVault Sym (oneOp (.rename "a".toList (trashDest 5 "0f".toList "a".toList))
        ⟨deepReader, deepVault.host⟩).2.host.top.shown Sym.alice).map (fun _ => ()) =
          .error (.vault "path is too deep".toList)) ∧
    fileDeleted.1 = .ok () ∧ folderReplaced.1 = .ok () ∧
      dedupPath (pathsOf folderReplaced.2.reader.manifest.entries) "d/x".toList = "d/x".toList ∧
      (oneOp (.rename fileDest "d/x".toList) folderReplaced.2).1 =
        .error (.vault "a file exists at d; it cannot contain other entries".toList) :=
  ⟨⟨eq_ok_get deepVault_opens, by decide +kernel⟩, by decide +kernel⟩

end FileSec
