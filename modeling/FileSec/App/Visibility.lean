import FileSec.App.Shown

/-!
# Nothing is hidden

If no call of a run makes a file whose place the app does not show, the app hides no file of the vault, whatever the run
does (`nothing_hidden`).  The app's own calls are not all of this kind: a folder may be renamed to `.trash`.
-/

namespace FileSec

open CrashDir Prog SepPath

variable {P : Prims}

/-- The operation makes no file at a place that is not shown. -/
def Op.Shows (P : Prims) (es : List EntryV2) (op : Op) : Prop :=
  ∀ c, op.Makes P c → c.Pre es → ∀ x ∈ c.made es, x.2 = .file → Shown x.1

/-! ### Operations -/

section Op

variable {es : List EntryV2} {b : VaultBatch P} {c : Change}

private theorem not_below_trashDir (path : Str) : ¬ Below '/' path trashDir := by
  intro h
  have hmem := mem_parents.2 h
  rw [parents_of_not_mem (by decide)] at hmem
  cases hmem

/-- What lies below a shown place is shown. -/
theorem Shown.below {path path' : Str} (h : Shown path) (hb : AtOrBelow '/' path path') : Shown path' := by
  intro ht
  have htrashed : isTrashed path = true := by
    rcases hb with rfl | hb
    · exact ht
    · rw [isTrashed_iff]
      rcases isTrashed_iff.1 ht with rfl | hdir
      · exact absurd hb (not_below_trashDir path)
      · rcases hb.comparable hdir with rfl | habove | hbelow
        · exact .refl _
        · exact absurd habove (not_below_trashDir path)
        · exact Or.inr hbelow
  obtain ⟨top, htop, hdir, hparse⟩ := h htrashed
  exact ⟨top, htop.trans hb, hdir, hparse⟩

/-- An operation whose target is shown makes no file elsewhere. -/
theorem Op.shows_of_target {op : Op} (h : ∀ p, op.target = some p → Shown p) : op.Shows P es := by
  intro c hm hpre x hx hk
  have hput : ∀ {p : Str} {a : EntryAttrs} {bytes : Bytes}, c = .put p a bytes → op.target = some p → Shown x.1 := by
    rintro p a bytes rfl ht
    simp only [Change.made] at hx
    split at hx
    · rcases List.mem_append.1 hx with hx | hx
      · obtain ⟨d, -, rfl⟩ := List.mem_map.1 hx
        cases hk
      · obtain rfl := List.mem_singleton.1 hx
        exact h p ht
    · cases hx
  have hdir : ∀ {p : Str}, c = .mkdir p → Shown x.1 := by
    rintro p rfl
    simp only [Change.made] at hx
    split at hx
    · rcases List.mem_append.1 hx with hx | hx
      · obtain ⟨d, -, rfl⟩ := List.mem_map.1 hx
        cases hk
      · obtain rfl := List.mem_singleton.1 hx
        cases hk
    · cases hx
  cases hm with
  | putFile blob hp => exact hput rfl (by rw [Op.target, hp, Except.toOption])
  | putBytes blob hp => exact hput rfl (by rw [Op.target, hp, Except.toOption])
  | putStreamTrusted blob hp => exact hput rfl (by rw [Op.target, hp, Except.toOption])
  | mkdir => exact hdir rfl
  | addDirTrusted => exact hdir rfl
  | remove | setAttr => cases hx
  | @rename vaultFrom vaultTo p q hp hq =>
    simp only [Change.made] at hx
    split at hx
    · cases hx
    · rename_i hne
      rcases List.mem_append.1 hx with hx | hx
      · obtain ⟨d, -, rfl⟩ := List.mem_map.1 hx
        cases hk
      · obtain ⟨e, he, rfl⟩ := List.mem_map.1 hx
        have hat : AtOrBelow '/' p e.path := of_decide_eq_true (List.mem_filter.1 he).2
        have htarget : (Op.rename vaultFrom vaultTo).target = some q := by
          rw [Op.target, hp, hq, if_neg fun heq => hne (Except.ok.inj heq)]
          rfl
        exact (h q htarget).below (hat.reroot q)

/-- A change whose new files are shown hides none. -/
theorem AllShown.apply (h : AllShown es) (hnd : (pathsOf es).Nodup) (hpre : c.Pre es)
    (hfile : ∀ p a bytes, c = .put p a bytes → a.kind = .file) (hmade : ∀ x ∈ c.made es, x.2 = .file → Shown x.1) :
    AllShown (c.apply es) := by
  intro e he hk
  have hsite := (sites_apply hnd hpre hfile).subset (List.mem_map_of_mem he)
  rcases List.mem_append.1 hsite with hs | hs
  · obtain ⟨d, hd, heq⟩ := List.mem_map.1 hs
    obtain ⟨hpath, hkind⟩ := Prod.mk.inj heq
    exact hpath ▸ h d ((kept_sublist es c).subset hd) (hkind.trans hk)
  · exact hmade e.site hs hk

theorem Op.run_shown (hb : b.Shaped) (h : AllShown b.manifest.entries) {op : Op} (hop : op.Shows P b.manifest.entries) :
    wp (op.run P) (fun _ b' => b'.Shaped ∧ AllShown b'.manifest.entries) b := by
  refine wp_mono (wp_and (Op.run_shaped hb op) (Op.run_spec hb.toIndexed op)) ?_
  rintro r b' ⟨⟨hb', hsame⟩, hr⟩
  refine ⟨hb', ?_⟩
  cases r with
  | ok u =>
    obtain ⟨c, hdid⟩ := hr
    rw [hdid.manifest]
    exact h.apply hb.nodup hdid.pre (fun p a bytes hc => hdid.makes.kind hc) (hop c hdid.makes hdid.pre)
  | error e =>
    rw [(hsame e rfl).1]
    exact h

theorem Edits.run_shown (hb : b.Shaped) (h : AllShown b.manifest.entries) {edits : Edits}
    (halong : edits.Along (fun b op => op.Shows P b.manifest.entries) b) :
    wp (edits.run P) (fun _ b' => AllShown b'.manifest.entries) b := by
  induction edits generalizing b with
  | done r =>
    simp only [Edits.run, wp_liftM]
    exact h
  | call op next ih =>
    simp only [Edits.run, wp_bind, wp_attempt]
    obtain ⟨hb', h'⟩ := Op.run_shown hb h halong.1
    exact ih _ hb' h' halong.2

end Op

/-! ### Runs -/

section Run

variable {identity : Identity} {w : World P} {r : VaultReaderV2 P}

/-- A vault that opens after a commit has the manifest that it had before or that of the reader, which is the old or the
edited one. -/
private theorem commitWith_manifests (hbel : r.Belongs identity)
    (hheader : w.host.top.shown .header = some r.headerBytes) (limit : Option Nat) (edits : Edits) (io : CommitIo) :
    wp (commitWith limit edits io) (fun _ s =>
      (s.reader.manifest = r.manifest ∨ s.reader.manifest = (Session.edited ⟨r, w.host⟩ limit edits).2.manifest) ∧
      ∀ r', openVault P s.host.top.shown identity = .ok r' →
        openVault P w.host.top.shown identity = .ok r' ∨ r'.manifest = s.reader.manifest) ⟨r, w.host⟩ := by
  obtain ⟨k, hdrew, -⟩ := edited_spec ⟨r, w.host⟩ limit edits
  refine wp_mono (commitWith_outcome ⟨r, w.host⟩ limit edits io) ?_
  generalize Session.edited ⟨r, w.host⟩ limit edits = p at hdrew ⊢
  obtain ⟨edited, b⟩ := p
  intro res s hout
  simp only at hdrew hout
  cases hout with
  | unchanged =>
    refine ⟨Or.inl rfl, fun r' hr' => Or.inl ?_⟩
    simp only [hdrew.top] at hr'
    exact hr'
  | @failed e h hhost =>
    have htop : h.top = w.host.top := by
      rcases hhost with rfl | ⟨j, rfl⟩
      · exact hdrew.top
      · exact hdrew.top
    refine ⟨Or.inl rfl, fun r' hr' => Or.inl ?_⟩
    simp only [htop] at hr'
    exact hr'
  | @sealed state nonce h _ _ hsealed =>
    obtain ⟨hnext, hdrawn, -, rfl⟩ := hsealed
    refine ⟨Or.inr rfl, fun r' hr' => Or.inr ?_⟩
    have htop : ∀ h : Host P, h.top = (b.host.top.write .manifest (r.sealedRaw b.manifest state nonce)).sync
        io.vaultSync → openVault P h.top.shown identity = .ok r' → r'.manifest = b.manifest := by
      intro h htop hopen
      have hshown : h.top.shown .header = some r.headerBytes := by
        rw [htop, shown_sync, shown_write_of_ne (by decide), hdrew.top, hheader]
      have hraw : h.top.shown .manifest = some (r.sealedRaw b.manifest state nonce) := by
        rw [htop, shown_sync, shown_write_self]
      obtain ⟨-, -, -, rfl⟩ := (openVault_sealed hbel hnext (randomVec_length hdrawn) hshown hraw).1 hopen
      rfl
    refine htop _ ?_ hr'
    split <;> rfl

/-- All files in sight are shown. -/
structure World.Showing (w : World P) (identity : Identity) : Prop where
  disk : ∀ r, openVault P w.host.top.shown identity = .ok r → AllShown r.manifest.entries
  reader : ∀ r, w.reader = some r → AllShown r.manifest.entries

theorem World.Showing.step (hw : w.Showing identity) (hs : w.Shaped identity) {e : Event} (he : e.Calm)
    (hallow : w.Allows (fun b op => op.Shows P b.manifest.entries) e) : (w.step identity e).Showing identity := by
  cases e with
  | commit c =>
    refine World.onReader_induction (World.Showing · identity) hw fun r hr => ?_
    obtain ⟨hbel, hheader, hm, -⟩ := hs.reader r hr
    refine wp_mono (commitWith_manifests hbel hheader c.limit c.edits c.io) ?_
    rintro res s ⟨hsource, hdisk⟩
    have hedited : AllShown (Session.edited ⟨r, w.host⟩ c.limit c.edits).2.manifest.entries :=
      Edits.run_shown (hm.new c.limit w.host) (hw.reader r hr) (hallow r hr)
    have hreader : AllShown s.reader.manifest.entries := by
      rcases hsource with h | h
      · rw [h]
        exact hw.reader r hr
      · rw [h]
        exact hedited
    refine ⟨fun r' hr' => ?_, ?_⟩
    · rcases hdisk r' hr' with h | h
      · exact hw.disk r' h
      · rw [h]
        exact hreader
    · rintro r' ⟨⟩
      exact hreader
  | collectGarbage io =>
    refine World.onReader_induction (World.Showing · identity) hw fun r hr => wp_mono (collectGarbage_spec io _) ?_
    rintro res ⟨r', h'⟩ ⟨⟨pending, rfl, -⟩, -, htop, -⟩
    have hshown : h'.top.shown = w.host.top.shown := by
      rcases htop with ⟨htop, -⟩ | htop
      · rw [htop]
      · rw [htop, shown_sync]
    refine ⟨fun r' hr' => ?_, ?_⟩
    · simp only [hshown] at hr'
      exact hw.disk r' hr'
    · rintro r' ⟨⟩
      exact hw.reader r hr
  | reopen => exact ⟨hw.disk, fun r hr => hw.disk r (openVault_of_toOption hr)⟩
  | crash => exact he.elim

theorem World.Showing.run (hw : w.Showing identity) (hs : w.Shaped identity) {events : List Event}
    (he : ∀ e ∈ events, e.Calm)
    (halong : w.Along (fun b op => op.Shows P b.manifest.entries) identity events) :
    (w.run identity events).Showing identity := by
  induction events generalizing w with
  | nil => exact hw
  | cons e events ih =>
    have hcalm := he e List.mem_cons_self
    exact ih (hw.step hs hcalm halong.1) (hs.step hcalm) (fun e' he' => he e' (List.mem_cons_of_mem _ he')) halong.2

/-- A vault that has just been built is on disk as its reader has it, or still empty. -/
theorem Builder.run_showing {builder : Builder P} {h h' : Host P} (fresh : h.rng.Fresh fun _ => False)
    (hrun : exec (builder.run identity) h = (.ok r, h')) (hr : AllShown r.manifest.entries) :
    World.Showing ⟨h', some r⟩ identity := by
  obtain ⟨s, hs, edits, io, hcommit⟩ := Builder.run_ok hrun
  obtain ⟨hbel, hheader, -, -⟩ := (hs.shaped fresh).reader s.reader rfl
  have hempty : ∀ r', openVault P s.host.top.shown identity = .ok r' → r'.manifest.entries = [] := by
    intro r' hr'
    obtain ⟨state, nonce, -, hnext, hnonce, hshown, -⟩ := hs.sealed
    have hbel : VaultReaderV2.Belongs { s.reader with state := none } identity := ⟨hs.belongs.header, hs.belongs.owner⟩
    obtain ⟨-, -, -, rfl⟩ := (openVault_sealed hbel hnext hnonce hs.header.1 hshown).1 hr'
    exact hs.empty
  obtain ⟨-, hdisk⟩ := of_wp (commitWith_manifests (w := ⟨s.host, some s.reader⟩) hbel hheader none edits io) hcommit
  refine ⟨fun r' hr' => ?_, ?_⟩
  · rcases hdisk r' hr' with h | h
    · intro e he
      rw [hempty r' h] at he
      cases he
    · rw [h]
      exact hr
  · rintro r' ⟨⟩
    exact hr

/-- In a vault that a builder has made and whose files are all shown, whatever commits, garbage collections and
reopenings came since, if no call has made a file at a place that is not shown, then every file can be browsed to or lies
below exactly one trash item, the live files and the items account for all files, and Empty Trash destroys no file that
was not listed as trash. -/
theorem nothing_hidden {builder : Builder P} {h h' : Host P} {r' : VaultReaderV2 P}
    {events : List Event} (fresh : h.rng.Fresh fun _ => False)
    (hbuild : exec (builder.run identity) h = (.ok r, h')) (hstart : AllShown r.manifest.entries)
    (hcalm : ∀ e ∈ events, e.Calm)
    (halong : World.Along (fun b op => op.Shows P b.manifest.entries) identity ⟨h', some r⟩ events)
    (hr' : (World.run identity ⟨h', some r⟩ events).reader = some r') (F : Casing) (sort : SortMode) :
    NothingHidden F sort r'.manifest.entries := by
  have hshaped := Builder.run_shaped fresh hbuild
  obtain ⟨-, -, hm, -⟩ := (hshaped.run hcalm).reader r' hr'
  have hshown := ((Builder.run_showing fresh hbuild hstart).run hshaped hcalm halong).reader r' hr'
  exact (nothingHidden_iff F sort hm.closed hm.nodup).2 hshown

end Run

/-! A folder that is deleted, and one that is renamed to `.trash`. -/

/-- Letters of ASCII have a lower case. -/
def Sym.casing : Casing := ⟨Char.isWhitespace, List.map Char.toLower, rfl⟩

private def docs : Result (VaultReaderV2 Sym) × Host Sym :=
  exec ((Builder.fromVault .classic ⟨"v".toList, 0, [⟨"docs/a".toList, .file, none, none, [1]⟩]⟩ none
    ⟨.fine, fun _ => .fine, .fine⟩).run Sym.alice) (Sym.host 12)

set_option maxRecDepth 10000 in
private theorem docs_ok : docs.1.toOption.isSome = true := by decide

private def docsReader : VaultReaderV2 Sym := docs.1.toOption.get docs_ok

/-- Do something with the entries of the vault, and open it again. -/
private def tidying (ops : List Op) : List Event := [.commit ⟨some maxBatchOps, .ofList ops, .fine⟩, .reopen]

private def tidied (ops : List Op) : World Sym := World.run Sym.alice ⟨docs.2, some docsReader⟩ (tidying ops)

private def deletion : Op := .rename "docs".toList (trashDest 5 "0f".toList "docs".toList)

set_option maxRecDepth 10000 in
private theorem deletion_ok : (tidied [deletion]).reader.isSome = true := by decide +kernel

theorem nothing_hidden_deleted : Tidying.ops Sym.casing docsReader.manifest.entries (.trash "docs".toList 5 "0f".toList) =
      .ok [deletion] ∧
    NothingHidden Sym.casing .nameAsc ((tidied [deletion]).reader.get deletion_ok).manifest.entries := by
  have hbuild : exec (Builder.run (P := Sym) Sym.alice (.fromVault .classic
      ⟨"v".toList, 0, [⟨"docs/a".toList, .file, none, none, [1]⟩]⟩ none ⟨.fine, fun _ => .fine, .fine⟩)) (Sym.host 12) =
      (.ok docsReader, docs.2) := Prod.ext (eq_ok_get docs_ok) rfl
  have fresh : (Sym.host 12).rng.Fresh fun _ => False :=
    Rng.fresh_of_finite 12 (fun i hi => if_neg (by omega)) (by decide) fun _ _ => id
  have hstart : AllShown docsReader.manifest.entries := by
    have hlive : ∀ e ∈ docsReader.manifest.entries, isTrashed e.path = false := by decide
    intro e he _ ht
    rw [hlive e he] at ht
    cases ht
  have hshows : ∀ b : VaultBatch Sym, deletion.Shows Sym b.manifest.entries := by
    refine fun b => Op.shows_of_target fun p hp _ => ?_
    have htarget : deletion.target = some (trashDest 5 "0f".toList "docs".toList) := by decide
    rw [htarget, Option.some.injEq] at hp
    exact ⟨p, .refl p, hp ▸ by decide, hp ▸ by decide⟩
  have hcalm : ∀ e ∈ tidying [deletion], e.Calm := by
    rintro e (_ | ⟨_, _ | ⟨_, h⟩⟩)
    · trivial
    · trivial
    · cases h
  have halong : World.Along (fun b op => op.Shows Sym b.manifest.entries) Sym.alice ⟨docs.2, some docsReader⟩
      (tidying [deletion]) := ⟨fun r _ => Edits.along_single (hshows _), trivial, trivial⟩
  exact ⟨rfl, nothing_hidden fresh hbuild hstart hcalm halong (Option.some_get deletion_ok).symm Sym.casing .nameAsc⟩

private def docsToTrash : Op := .rename "docs".toList trashDir

set_option maxRecDepth 10000 in
private theorem docsToTrash_ok : (tidied [docsToTrash]).reader.isSome = true := by decide +kernel

private def lostEntries : List EntryV2 := ((tidied [docsToTrash]).reader.get docsToTrash_ok).manifest.entries

/-- Renaming a folder to `.trash` hides its files: the browser lists nothing and the panel nothing. -/
theorem nothing_hidden_fails :
    Tidying.ops Sym.casing docsReader.manifest.entries (.rename "docs".toList ".trash".toList) = .ok [docsToTrash] ∧
    lostEntries.map (fun e => (e.path, e.kind)) = [(".trash".toList, .dir), (".trash/a".toList, .file)] ∧
    visibleRows Sym.casing lostEntries [] [] .nameAsc = [] ∧ trashedItems lostEntries = [] ∧
    ¬ NothingHidden Sym.casing .nameAsc lostEntries := by
  have hpaths : lostEntries.map (fun e => (e.path, e.kind)) = [(".trash".toList, .dir), (".trash/a".toList, .file)] := by
    decide +kernel
  have hrows : (lostEntries.filter fun e => isVisible Sym.casing [] [] e.path) = [] :=
    List.isEmpty_iff.1 (by decide +kernel)
  have hitems : ((lostEntries.filter fun e => parentDir e.path = trashDir).filterMap
      (trashItem (trashedSubtreeTotals lostEntries))) = [] := List.isEmpty_iff.1 (by decide +kernel)
  refine ⟨?_, hpaths, ?_, ?_, fun h => ?_⟩
  · have hfree : under (parentDir "docs".toList) (Sym.casing.trim ".trash".toList) ∉ pathsOf docsReader.manifest.entries := by
      decide
    simp only [Tidying.ops, renameOps]
    rw [if_neg (by decide), if_neg (by decide), if_neg (by decide), if_neg hfree]
    rfl
  · unfold visibleRows
    rw [hrows, List.map_nil, List.mergeSort_nil]
  · unfold trashedItems
    rw [hitems, List.mergeSort_nil]
  · have hmem : (".trash/a".toList, EntryKind.file) ∈ lostEntries.map fun e => (e.path, e.kind) := by
      rw [hpaths]
      decide
    obtain ⟨e, he, heq⟩ := List.mem_map.1 hmem
    obtain ⟨hpath, hkind⟩ := Prod.mk.inj heq
    have hshown := h.shown e he hkind
    rw [hpath] at hshown
    obtain ⟨top, hat, hdir, hparse⟩ := hshown (by decide)
    rcases hat with rfl | hat
    · exact hparse (by decide)
    · have hparent : top ∈ [trashDir] := mem_parents.2 hat
      rw [List.mem_singleton.1 hparent] at hdir
      exact absurd hdir (by decide)

end FileSec
