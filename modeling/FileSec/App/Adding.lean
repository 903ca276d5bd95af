import FileSec.App.Additions
import FileSec.Store.Adding

/-!
# Adding touches nothing that is there

An addition that reports success keeps the entries of the vault, and what it adds is found where it was to go, as long
as the names it puts files under are plain ones (`addition_spares`).  A name with a backslash is checked as it is and
then stored in its normal form, which may be the path of another entry (`addition_spares_fails`).
-/

namespace FileSec

open Folders Prog Runs

variable {S : StorePrims}

/-! ### Plain paths -/

/-- Normalisation has nothing to change: there is no backslash and no component that it drops. -/
def PlainPath (path : Str) : Prop := '\\' ∉ path ∧ ∀ comp ∈ path.splitOn '/', comp ≠ [] ∧ comp ≠ ['.']

instance (path : Str) : Decidable (PlainPath path) := inferInstanceAs (Decidable (_ ∧ _))

private theorem normalizeComponents_plain {comps out : List Str} (h : ∀ comp ∈ comps, comp ≠ [] ∧ comp ≠ ['.'])
    (hok : normalizeComponents comps = .ok out) : out = comps := by
  induction comps generalizing out with
  | nil => exact (Except.ok.inj hok).symm
  | cons comp rest ih =>
    obtain ⟨hnil, hdot⟩ := h comp (by simp)
    unfold normalizeComponents at hok
    rw [if_neg (by simp [hnil, hdot])] at hok
    split at hok
    · cases hok
    · cases hc : checkComponent comp with
      | error e => simp [hc, bind, Except.bind] at hok
      | ok u =>
        cases hr : normalizeComponents rest with
        | error e => simp [hc, hr, bind, Except.bind] at hok
        | ok out' =>
          simp only [hc, hr, bind, Except.bind, Except.ok.injEq] at hok
          rw [← hok, ih (fun c hc => h c (by simp [hc])) hr]

/-- A plain path is in normal form, unless it has none. -/
theorem PlainPath.settled {path : Str} (h : PlainPath path) : Settled path := by
  intro p hp
  have hp := normalizeStoredPath_of_normalizePath hp
  have hunified : (path.map fun c => if c = '\\' then '/' else c) = path := by
    refine (List.map_congr_left fun c hc => ?_).trans (List.map_id _)
    have hne : c ≠ '\\' := fun e => h.1 (e ▸ hc)
    rw [if_neg hne]
    rfl
  unfold normalizeStoredPath at hp
  rw [hunified] at hp
  split at hp
  · cases hp
  · simp only at hp
    split at hp
    · cases hp
    · split at hp
      · cases hp
      · cases hc : normalizeComponents (path.splitOn '/') with
        | error e => simp [hc, bind, Except.bind] at hp
        | ok comps =>
          obtain rfl := normalizeComponents_plain h.2 hc
          simp only [hc, bind, Except.bind] at hp
          split at hp
          · cases hp
          · split at hp
            · cases hp
            · rw [List.intercalate_splitOn] at hp
              exact (Except.ok.inj hp).symm

/-- A path in a plain folder is plain if its leaf is a plain component. -/
theorem plainPath_under {into leaf : Str} (hslash : '/' ∉ leaf) :
    PlainPath (under into leaf) ↔ (into ≠ [] → PlainPath into) ∧ '\\' ∉ leaf ∧ leaf ≠ [] ∧ leaf ≠ ['.'] := by
  unfold under
  by_cases hinto : into = []
  · simp [hinto, PlainPath, List.splitOn_eq_singleton hslash]
  · unfold PlainPath
    simp only [if_neg hinto, List.splitOn_append_cons_self, List.splitOn_eq_singleton hslash, List.mem_append,
      List.mem_cons, not_or, List.not_mem_nil, or_false]
    constructor
    · rintro ⟨⟨hb, -, hb'⟩, hcomps⟩
      exact ⟨fun _ => ⟨hb, fun comp hc => hcomps comp (Or.inl hc)⟩, hb', hcomps leaf (Or.inr rfl)⟩
    · rintro ⟨hin, hb', hleaf⟩
      obtain ⟨hb, hcomps⟩ := hin hinto
      refine ⟨⟨hb, by decide, hb'⟩, fun comp hc => ?_⟩
      rcases hc with hc | rfl
      · exact hcomps comp hc
      · exact hleaf

/-! ### Numbered names -/

/-- The number lands in the leaf if it has an extension, or if there is no dot at all. -/
private theorem numbered_under {into name : Str} (h : '.' ∈ name ∨ '.' ∉ into) (i : Nat) :
    numbered (under into name) i = under into (numbered name i) := by
  unfold under
  by_cases hinto : into = []
  · simp [hinto]
  · simp only [if_neg hinto]
    cases hs : rsplitOnce '.' name with
    | some p =>
      have happ : rsplitOnce '.' (into ++ '/' :: name) = some (into ++ '/' :: p.1, p.2) := by
        have := rsplitOnce_append (into ++ ['/']) hs
        simpa using this
      simp only [numbered, hs, happ, List.append_assoc, List.cons_append]
    | none =>
      have hn := rsplitOnce_eq_none.1 hs
      have hin : '.' ∉ into := h.resolve_left hn
      have happ : rsplitOnce '.' (into ++ '/' :: name) = none := by
        rw [rsplitOnce_eq_none]
        simp [hin, hn]
      simp only [numbered, hs, happ, List.append_assoc, List.cons_append]

private theorem not_mem_number {c : Char} (hc : c.isDigit = false) (i : Nat) : c ∉ (toString i).toList := by
  rw [Nat.toString_eq_repr, Nat.toList_repr]
  intro hmem
  rw [Nat.isDigit_of_mem_toDigits (by decide) (by decide) hmem] at hc
  cases hc

/-- What a numbered name is made of. -/
private theorem numbered_eq (name : Str) (i : Nat) : ∃ stem ext, (name = stem ++ ext) ∧
    numbered name i = stem ++ (" (".toList ++ (toString i).toList ++ ")".toList) ++ ext := by
  unfold numbered
  cases hs : rsplitOnce '.' name with
  | some p => exact ⟨p.1, '.' :: p.2, rsplitOnce_eq hs, by simp⟩
  | none => exact ⟨name, [], (List.append_nil _).symm, by simp⟩

private theorem not_mem_numbered {c : Char} {name : Str} (h : c ∉ name) (hc : c.isDigit = false)
    (hother : c ∉ [' ', '(', ')']) (i : Nat) : c ∉ numbered name i := by
  obtain ⟨stem, ext, rfl, hn⟩ := numbered_eq name i
  have hdigits := not_mem_number hc i
  rw [hn]
  simp only [List.mem_append, not_or] at h ⊢
  have hspace : c ∉ " (".toList ∧ c ∉ ")".toList :=
    ⟨fun hm => hother (List.mem_append_left [')'] hm), fun hm => hother (List.mem_append_right [' ', '('] hm)⟩
  exact ⟨⟨h.1, ⟨hspace.1, hdigits⟩, hspace.2⟩, h.2⟩

/-- A numbered name is a plain component. -/
private theorem numbered_ne (name : Str) (i : Nat) : numbered name i ≠ [] ∧ numbered name i ≠ ['.'] := by
  obtain ⟨stem, ext, -, hn⟩ := numbered_eq name i
  have hmem : '(' ∈ numbered name i := by
    rw [hn]
    simp
  constructor
  · intro h
    rw [h] at hmem
    cases hmem
  · intro h
    rw [h] at hmem
    exact absurd hmem (by decide)

/-! ### The plan -/

/-- The condition on a member of a folder: a file that is put has a plain path. -/
def WalkEntry.Plain (root : Str) (p : Plan) (e : WalkEntry) : Prop :=
  match e.kind with
  | .file true _ => e.rel = [] ∨ root ++ '/' :: e.rel ∈ p.existing ∨ PlainPath (root ++ '/' :: e.rel)
  | _ => True

instance (root : Str) (p : Plan) (e : WalkEntry) : Decidable (e.Plain root p) := by
  unfold WalkEntry.Plain
  split <;> infer_instance

/-- A free path for `name` in the folder `into` will be found there: it is not taken, or it gets a number itself (not a
folder above) and not all numbers are taken. -/
def Numberable (existing : List Str) (into name : Str) : Prop :=
  under into name ∈ existing → ('.' ∈ name ∨ '.' ∉ into) ∧
    ∃ i ∈ List.range' 1 9999, numbered (under into name) i ∉ existing

instance (existing : List Str) (into name : Str) : Decidable (Numberable existing into name) :=
  inferInstanceAs (Decidable (_ → _))

/-- The condition on a source: the files that are put have plain paths, and a single file gets a free path in the
folder. -/
def Source.Plain (into : Str) (p : Plan) : Source → Prop
  | .missing => True
  | .dir fileName members =>
    let root := under into (nameOr fileName "folder".toList)
    Along (Plan.addMember root) (fun p e => e.Plain root p) p members
  | .file fileName opens _ =>
    opens = true → PlainPath (under into (nameOr fileName "file".toList)) ∧
      Numberable p.existing into (nameOr fileName "file".toList)

instance (into : Str) (p : Plan) (source : Source) : Decidable (source.Plain into p) := by
  unfold Source.Plain
  split <;> infer_instance

/-- The single files among the sources that can be opened. -/
def singleFiles (sources : List Source) : List SourceFile :=
  sources.filterMap fun
    | .file _ true f => some f
    | _ => none

/-- The plan knows the paths there are, and what it adds has distinct plain paths among none of them. -/
structure Plan.Sound (base : List Str) (p : Plan) : Prop where
  paths : base ⊆ p.existing
  known : ∀ f ∈ p.added, f.vaultPath ∈ p.existing
  free : ∀ f ∈ p.added, f.vaultPath ∉ base
  distinct : (p.added.map (·.vaultPath)).Nodup
  plain : ∀ f ∈ p.added, PlainPath f.vaultPath

section Plan

variable {base : List Str} {p : Plan} {into : Str}

theorem Plan.Sound.addDir (h : p.Sound base) (path : Str) : (p.addDir path).Sound base :=
  ⟨fun _ hb => List.mem_cons_of_mem _ (h.paths hb), fun f hf => List.mem_cons_of_mem _ (h.known f hf), h.free,
    h.distinct, h.plain⟩

theorem Plan.Sound.addFile (h : p.Sound base) {path : Str} (hfree : path ∉ p.existing) (hplain : PlainPath path)
    (f : SourceFile) : (p.addFile path f).Sound base := by
  have hmem : ∀ g ∈ (p.addFile path f).added, g ∈ p.added ∨ g = ⟨path, f⟩ := by
    intro g hg
    simpa [Plan.addFile] using hg
  refine ⟨fun _ hb => List.mem_cons_of_mem _ (h.paths hb), fun g hg => ?_, fun g hg => ?_, ?_, fun g hg => ?_⟩
  · rcases hmem g hg with hg | rfl
    · exact List.mem_cons_of_mem _ (h.known g hg)
    · exact List.mem_cons_self
  · rcases hmem g hg with hg | rfl
    · exact h.free g hg
    · exact fun hb => hfree (h.paths hb)
  · have hne : ∀ g ∈ p.added, g.vaultPath ≠ path := fun g hg e => hfree (e ▸ h.known g hg)
    simpa [Plan.addFile, List.nodup_append, h.distinct] using hne
  · rcases hmem g hg with hg | rfl
    · exact h.plain g hg
    · exact hplain

theorem Plan.Sound.addMember (h : p.Sound base) {root : Str} {e : WalkEntry} (he : e.Plain root p) :
    (p.addMember root e).Sound base ∧ p.added <+: (p.addMember root e).added := by
  unfold Plan.addMember
  split
  · exact ⟨h, List.prefix_refl _⟩
  · rename_i hrel
    simp only
    split
    · exact ⟨h, List.prefix_refl _⟩
    · rename_i hfree
      unfold WalkEntry.Plain at he
      split
      · exact ⟨h.addDir _, List.prefix_refl _⟩
      · rename_i opens f hkind
        cases opens with
        | false => exact ⟨h, List.prefix_refl _⟩
        | true =>
          rw [hkind] at he
          have hplain := (he.resolve_left hrel).resolve_left hfree
          exact ⟨h.addFile hfree hplain f, List.prefix_append _ _⟩
      · exact ⟨h, List.prefix_refl _⟩

/-- The members of a folder. -/
theorem Plan.Sound.members (h : p.Sound base) {root : Str} {members : List WalkEntry}
    (hplain : Along (Plan.addMember root) (fun p e => e.Plain root p) p members) :
    (members.foldl (Plan.addMember root) p).Sound base ∧
      p.added <+: (members.foldl (Plan.addMember root) p).added :=
  run_along (fun q => q.Sound base ∧ p.added <+: q.added)
    (fun _ _ hq he => ⟨(hq.1.addMember he).1, hq.2.trans (hq.1.addMember he).2⟩) ⟨h, List.prefix_refl _⟩ hplain

private theorem nameOr_leaf (fileName : Option OsName) (default : Str) (hnil : default ≠ []) (hslash : '/' ∉ default) :
    nameOr fileName default ≠ [] ∧ '/' ∉ nameOr fileName default := by
  cases fileName with
  | none => exact ⟨hnil, hslash⟩
  | some name => exact ⟨name.ne_nil, name.no_slash⟩

/-- The path found for a single file is a free plain one in the folder. -/
private theorem uniqueNameIn_spec {existing : List Str} {name : Str} (hnil : name ≠ []) (hslash : '/' ∉ name)
    (hplain : PlainPath (under into name)) (hnum : Numberable existing into name) :
    uniqueNameIn existing (under into name) ∉ existing ∧ PlainPath (uniqueNameIn existing (under into name)) ∧
      ∃ leaf, leaf ≠ [] ∧ '/' ∉ leaf ∧ uniqueNameIn existing (under into name) = under into leaf := by
  unfold uniqueNameIn
  by_cases htaken : under into name ∈ existing
  · rw [if_pos htaken]
    obtain ⟨hdot, i, hi, hfree⟩ := hnum htaken
    cases hfind : ((List.range' 1 9999).map (numbered (under into name))).find? (· ∉ existing) with
    | none =>
      rw [List.find?_eq_none] at hfind
      exact absurd (hfind _ (List.mem_map_of_mem hi)) (by simpa using hfree)
    | some path =>
      obtain ⟨j, -, rfl⟩ := List.mem_map.1 (List.mem_of_find?_eq_some hfind)
      have hj : numbered (under into name) j ∉ existing := by simpa using List.find?_some hfind
      rw [numbered_under hdot] at hj ⊢
      obtain ⟨hin, hback, -⟩ := (plainPath_under hslash).1 hplain
      obtain ⟨hne, hne'⟩ := numbered_ne name j
      have hslash' := not_mem_numbered hslash (by decide) (by decide) j
      refine ⟨hj, (plainPath_under hslash').2 ⟨hin, not_mem_numbered hback (by decide) (by decide) j, hne, hne'⟩, ?_⟩
      exact ⟨_, hne, hslash', rfl⟩
  · rw [if_neg htaken]
    exact ⟨htaken, hplain, name, hnil, hslash, rfl⟩

/-- The sources: what is added is sound, and the single files are added directly in the folder. -/
theorem Plan.Sound.sources (h : p.Sound base) {sources : List Source}
    (hplain : Along (Plan.addSource into) (fun p source => source.Plain into p) p sources) :
    (sources.foldl (Plan.addSource into) p).Sound base ∧ ∃ more fs : List AddedFile,
      (sources.foldl (Plan.addSource into) p).added = p.added ++ more ∧ fs.Sublist more ∧
        fs.map (·.source) = singleFiles sources ∧
        ∀ f ∈ fs, ∃ leaf, leaf ≠ [] ∧ '/' ∉ leaf ∧ f.vaultPath = under into leaf := by
  induction sources generalizing p with
  | nil => exact ⟨h, [], [], (List.append_nil _).symm, List.Sublist.refl _, rfl, List.forall_mem_nil _⟩
  | cons source sources ih =>
    obtain ⟨hsource, hrest⟩ := hplain
    cases source with
    | missing =>
      have h' : ({ p with failed := p.failed + 1 } : Plan).Sound base := ⟨h.paths, h.known, h.free, h.distinct, h.plain⟩
      exact ih h' hrest
    | dir fileName members =>
      obtain ⟨h', rest, hrest'⟩ := h.members hsource
      obtain ⟨hsound, more, fs, hadded, hsub, hsingles, hleaf⟩ := ih h' hrest
      refine ⟨hsound, rest ++ more, fs, ?_, hsub.trans (List.sublist_append_right _ _), hsingles, hleaf⟩
      rw [← List.append_assoc, hrest']
      exact hadded
    | file fileName opens f =>
      cases opens with
      | false =>
        have h' : ({ p with failed := p.failed + 1 } : Plan).Sound base :=
          ⟨h.paths, h.known, h.free, h.distinct, h.plain⟩
        exact ih h' hrest
      | true =>
        obtain ⟨hpath, hnum⟩ := hsource rfl
        obtain ⟨hnil, hslash⟩ := nameOr_leaf fileName "file".toList (by decide) (by decide)
        obtain ⟨hfree, hpath', hleaf'⟩ := uniqueNameIn_spec hnil hslash hpath hnum
        obtain ⟨hsound, more, fs, hadded, hsub, hsingles, hleaf⟩ := ih (h.addFile hfree hpath' f) hrest
        refine ⟨hsound, ⟨_, f⟩ :: more, ⟨_, f⟩ :: fs, ?_, hsub.cons_cons _, ?_, List.forall_mem_cons.2 ⟨hleaf', hleaf⟩⟩
        · rw [List.foldl_cons]
          show (sources.foldl (Plan.addSource into) (p.addFile _ f)).added = _
          rw [hadded]
          exact List.append_assoc _ _ _
        · rw [List.map_cons, hsingles]
          rfl

end Plan

/-! ### The additions -/

/-- The condition on an addition to the folder `into` of a vault with these entries. -/
def Addition.Plain (entries : List EntryV2) (into : Str) : Addition → Prop
  | .files sources _ _ => Along (Plan.addSource into) (fun p source => source.Plain into p) (.start entries) sources
  | .newFolder _ _ _ => True
  | .newFile leaf _ _ _ => PlainPath (under into leaf)

instance (a : Addition) (entries : List EntryV2) (into : Str) : Decidable (a.Plain entries into) := by
  unfold Addition.Plain
  split <;> infer_instance

/-- The files an addition puts, and where. -/
def Addition.added (entries : List EntryV2) (into : Str) : Addition → List AddedFile
  | .files sources _ _ => (planAdditions entries into sources).added
  | .newFolder _ _ _ => []
  | .newFile leaf blob now _ => [⟨under into leaf, ⟨.ok [], .ok (.ok []), blob, some now⟩⟩]

/-- The single files of an addition. -/
def Addition.singles : Addition → List SourceFile
  | .files sources _ _ => singleFiles sources
  | .newFolder _ _ _ => []
  | .newFile _ blob now _ => [⟨.ok [], .ok (.ok []), blob, some now⟩]

/-- An addition to the folder `into` has spared the entries of the vault: between the reader with the blobs before and
the one after, each entry keeps its path and its bytes, each file put is found with the bytes of its source under a path
of its own that was free, and the single files are directly in the folder. -/
structure Addition.Spares (a : Addition) (into : Str) (reader : VaultReaderV2 S.toPrims) (blobs : Str → Option Bytes)
    (reader' : VaultReaderV2 S.toPrims) (blobs' : Str → Option Bytes) : Prop where
  kept : ∀ e ∈ reader.manifest.entries, e ∈ reader'.manifest.entries ∧
    reader'.readEntryToWriter blobs' e.path = reader.readEntryToWriter blobs e.path
  apart : ((a.added reader.manifest.entries into).map (·.vaultPath)).Nodup
  put : ∀ f ∈ a.added reader.manifest.entries into, f.vaultPath ∉ pathsOf reader.manifest.entries ∧
    f.vaultPath ∈ pathsOf reader'.manifest.entries ∧
    ∃ bytes, f.source.content = .ok (.ok bytes) ∧ reader'.readEntryToWriter blobs' f.vaultPath = .ok bytes
  singles : ∃ fs : List AddedFile, fs.Sublist (a.added reader.manifest.entries into) ∧ fs.map (·.source) = a.singles ∧
    ∀ f ∈ fs, ∃ leaf, leaf ≠ [] ∧ '/' ∉ leaf ∧ f.vaultPath = under into leaf

section Jobs

variable {a : Addition} {base : VaultReaderV2 S.toPrims} {blobs : Str → Option Bytes} {identity : Identity}
  {id into : Str} {s s' : Store S}

/-- What a plain addition puts has distinct free paths, with the single files directly in the folder. -/
structure Addition.Placed (a : Addition) (entries : List EntryV2) (into : Str) : Prop where
  apart : ((a.added entries into).map (·.vaultPath)).Nodup
  free : ∀ f ∈ a.added entries into, f.vaultPath ∉ pathsOf entries
  settled : ∀ f ∈ a.added entries into, Settled f.vaultPath
  singles : ∃ fs : List AddedFile, fs.Sublist (a.added entries into) ∧ fs.map (·.source) = a.singles ∧
    ∀ f ∈ fs, ∃ leaf, leaf ≠ [] ∧ '/' ∉ leaf ∧ f.vaultPath = under into leaf

theorem Addition.Plain.files {entries : List EntryV2} {sources : List Source} {space : Bool} {io : Nat → CommitIo}
    (h : (Addition.files sources space io).Plain entries into) :
    (Addition.files sources space io).Placed entries into := by
  have hstart : (Plan.start entries).Sound (pathsOf entries) :=
    ⟨fun _ hp => hp, List.forall_mem_nil _, List.forall_mem_nil _, List.nodup_nil, List.forall_mem_nil _⟩
  obtain ⟨hsound, more, fs, hadded, hsub, hsingles, hleaf⟩ := hstart.sources h
  refine ⟨hsound.distinct, hsound.free, fun f hf => (hsound.plain f hf).settled, fs, ?_, hsingles, hleaf⟩
  show fs.Sublist (planAdditions entries into sources).added
  rw [planAdditions, hadded]
  exact hsub

/-- The typed name of a new file or folder has passed its checks. -/
private theorem withNewName_spec {what leaf path : Str} {entries : List EntryV2} {work : StoreM S Unit}
    {Q : StoreResult Unit → Store S → Prop} (herror : ∀ e, Q (.error e) s)
    (hwork : leaf ≠ [] → '/' ∉ leaf → path ∉ pathsOf entries → wp work Q s) :
    wp (withNewName what leaf path entries work) Q s := by
  unfold withNewName
  simp only [wp_ite, wp_throw]
  refine ⟨fun _ => herror _, fun hnil => ⟨fun _ => herror _, fun hslash => ⟨fun _ => herror _, fun hfree => ?_⟩⟩⟩
  refine hwork hnil hslash fun hmem => hfree ?_
  obtain ⟨e, he, hp⟩ := List.mem_map.1 hmem
  exact List.any_eq_true.2 ⟨e, he, by simpa using hp⟩

private theorem AddedFile.adds_eq_some {f : AddedFile} {d : Str × Bytes} :
    f.op.adds = some d ↔ ∃ bytes, f.source.content = .ok (.ok bytes) ∧ d = (f.vaultPath, bytes) := by
  obtain ⟨path, hashed, content, io, mtime⟩ := f
  rcases content with e | (e | bytes)
  · simp [AddedFile.op, Op.adds]
  · simp [AddedFile.op, Op.adds]
  · simp [AddedFile.op, Op.adds, eq_comm]

private theorem adds_sublist (added : List AddedFile) :
    ((added.filterMap fun f => f.op.adds).map Prod.fst).Sublist (added.map (·.vaultPath)) := by
  induction added with
  | nil => exact List.Sublist.refl _
  | cons f added ih =>
    rw [List.filterMap_cons, List.map_cons]
    cases hf : f.op.adds with
    | none => exact ih.cons _
    | some d =>
      obtain ⟨bytes, -, rfl⟩ := AddedFile.adds_eq_some.1 hf
      exact ih.cons_cons _

/-- The operations that append files put each one under its path. -/
private theorem appendFiles_grown (hs : s.Grown (vaultDirV2 id) id base blobs identity [] base)
    (added : List AddedFile) {dirs : List Str} (hapart : (added.map (·.vaultPath)).Nodup)
    (hfree : ∀ f ∈ added, f.vaultPath ∉ pathsOf base.manifest.entries) (hsettled : ∀ f ∈ added, Settled f.vaultPath)
    (space : Bool) (io : Nat → CommitIo) :
    wp (appendFilesToVault base added dirs space io) (fun res s' => res = .ok () → ∃ done w,
      s'.Grown (vaultDirV2 id) id base blobs identity done w ∧ ∀ f ∈ added, ∃ bytes,
        f.source.content = .ok (.ok bytes) ∧ (f.vaultPath, bytes) ∈ done) s := by
  obtain ⟨state, pt, hst, -⟩ := stateOr_of_coherent hs.coherent
  unfold appendFilesToVault
  rw [hst, lift_ok_bind]
  cases space with
  | false => exact nofun
  | true =>
    have hdirs : (dirs.map Op.mkdir).filterMap Op.adds = [] := by
      rw [List.filterMap_map]
      exact List.filterMap_eq_nil_iff.2 fun _ _ => rfl
    have hadds : (appendOps added dirs).filterMap Op.adds = added.filterMap fun f => f.op.adds := by
      rw [appendOps, List.filterMap_append, hdirs, List.nil_append, List.filterMap_map]
      rfl
    have hsub := adds_sublist added
    rw [if_pos rfl]
    refine wp_mono (mutateVaultInBatches_grown hs ?_ (hadds ▸ hapart.sublist hsub) ?_ io) ?_
    · intro op hop
      rcases List.mem_append.1 hop with hop | hop
      · obtain ⟨dir, -, rfl⟩ := List.mem_map.1 hop
        exact .mkdir
      · obtain ⟨f, hf, rfl⟩ := List.mem_map.1 hop
        exact .putFile (hsettled f hf)
    · intro d hd
      rw [hadds] at hd
      obtain ⟨f, hf, hd⟩ := List.mem_filterMap.1 hd
      obtain ⟨bytes, -, rfl⟩ := AddedFile.adds_eq_some.1 hd
      exact hfree f hf
    · intro res s' h hok
      obtain ⟨hreads, w, hw⟩ := h hok
      refine ⟨_, w, hw, fun f hf => ?_⟩
      have hop : f.op ∈ appendOps added dirs := List.mem_append_right _ (List.mem_map_of_mem hf)
      have hread := hreads _ hop
      cases hd : f.op.adds with
      | none =>
        rw [hd] at hread
        cases hread
      | some d =>
        obtain ⟨bytes, hcontent, rfl⟩ := AddedFile.adds_eq_some.1 hd
        exact ⟨bytes, hcontent, List.mem_filterMap.2 ⟨_, hop, hd⟩⟩

/-- An addition with plain paths lets the vault grow by what it puts. -/
theorem Addition.edit_grown (hs : s.Grown (vaultDirV2 id) id base blobs identity [] base)
    (hplain : a.Plain base.manifest.entries into) :
    wp (a.edit base into) (fun res s' => res = .ok () → a.Placed base.manifest.entries into ∧ ∃ done w,
      s'.Grown (vaultDirV2 id) id base blobs identity done w ∧ ∀ f ∈ a.added base.manifest.entries into, ∃ bytes,
        f.source.content = .ok (.ok bytes) ∧ (f.vaultPath, bytes) ∈ done) s := by
  cases a with
  | files sources space io =>
    have hplaced := hplain.files
    unfold Addition.edit
    simp only [wp_ite, wp_throw]
    refine ⟨fun _ => by rintro ⟨⟩, fun _ => ?_⟩
    exact wp_mono (appendFiles_grown hs _ hplaced.apart hplaced.free hplaced.settled space io)
      fun _ _ h hok => ⟨hplaced, h hok⟩
  | newFolder leaf space io =>
    refine withNewName_spec (fun _ => by rintro ⟨⟩) fun _ _ _ => ?_
    refine wp_mono (appendFiles_grown hs [] List.nodup_nil (List.forall_mem_nil _) (List.forall_mem_nil _)
      space io) fun _ _ h hok => ⟨?_, h hok⟩
    exact ⟨List.nodup_nil, List.forall_mem_nil _, List.forall_mem_nil _, [], List.Sublist.refl _, rfl,
      List.forall_mem_nil _⟩
  | newFile leaf blob now io =>
    refine withNewName_spec (fun _ => by rintro ⟨⟩) fun hnil hslash hfree => ?_
    have hsettled : Settled (under into leaf) := PlainPath.settled hplain
    have hadditive : ∀ op ∈ [Op.putBytes (under into leaf) [] blob (some now) none], op.Additive := by
      intro op hop
      obtain rfl := List.mem_singleton.1 hop
      exact .putBytes hsettled
    refine wp_mono (mutateVault_grown hs hadditive (List.nodup_singleton _) ?_ (some maxBatchOps) io) ?_
    · intro d hd
      obtain rfl : d = (under into leaf, []) := List.mem_singleton.1 hd
      exact hfree
    · intro res s' h hok
      obtain ⟨-, w, hw⟩ := h hok
      refine ⟨⟨List.nodup_singleton _, ?_, ?_, _, List.Sublist.refl _, rfl, ?_⟩, _, w, hw, ?_⟩
      · exact List.forall_mem_singleton.2 hfree
      · exact List.forall_mem_singleton.2 hsettled
      · exact List.forall_mem_singleton.2 ⟨leaf, hnil, hslash, rfl⟩
      · exact List.forall_mem_singleton.2 ⟨[], rfl, List.mem_singleton_self _⟩

/-- What an outcome puts in the place of the open vault. -/
def Outcome.replaced {P : Prims} : Outcome P → Option (Str × VaultReaderV2 P × Registry)
  | .replaceOpen id reader registry => some (id, reader, registry)
  | _ => none

theorem Outcome.replaced_eq_some {P : Prims} {o : Outcome P} {x : Str × VaultReaderV2 P × Registry}
    (h : o.replaced = some x) : o = .replaceOpen x.1 x.2.1 x.2.2 := by
  cases o with
  | replaceOpen id reader registry =>
    cases h
    rfl
  | _ => cases h

/-- What a job that edits the vault has done when it reports the vault. -/
theorem editVaultJob_finish {edit : StoreM S Unit} {registry : Registry} {now : Int} {gc : GcIo} {id' : Str}
    {reader' : VaultReaderV2 S.toPrims} {registry' : Registry}
    (h : (editVaultJob identity id registry edit now gc).finish identity s =
      (.replaceOpen id' reader' registry', s')) :
    ∃ s₁ s₂, exec edit s = (.ok (), s₁) ∧ s₁.Opened identity id reader' s₂ ∧
      s₂.Within (fun n => n = indexFile) (fun _ => False) (fun ty _ => ty = .registry) s' := by
  unfold editVaultJob Task.orReport Task.finish at h
  cases hedit : exec edit s with
  | mk res s₁ =>
    rw [hedit] at h
    cases res with
    | error e => cases h
    | ok u =>
      unfold reopenAfterSave Task.orReport at h
      simp only [Task.finish] at h
      cases hopen : exec (openVaultLocked identity id gc) s₁ with
      | mk res s₂ =>
        rw [hopen] at h
        cases res with
        | error e => cases h
        | ok reader =>
          unfold Task.saveAndReport at h
          simp only [Task.finish] at h
          generalize registry.upsert _ = saved at h
          cases hsave : exec (saveRegistry identity saved) s₂ with
          | mk res s₃ =>
            rw [hsave] at h
            cases res with
            | error e => cases h
            | ok u =>
              have hne : (registryRecord S).path ≠ anchorsFile := by
                show indexFile ≠ anchorsFile
                decide
              have hwithin := of_wp (saveProtectedBlob_within (R := fun n => n = indexFile) (V := fun _ => False)
                (A := fun ty _ => ty = .registry) (registryRecord S) identity saved rfl hne rfl s₂) hsave
              cases h
              exact ⟨s₁, s₂, rfl, of_wp (openVaultLocked_spec identity id gc s₁) hopen _ rfl, hwithin⟩

/-- Whatever is added to whatever folder of an open vault, under plain names, the entries that were there are spared. -/
theorem addition_spares (a : Addition) {registry registry' : Registry} {now : Int} {gc : GcIo} {id' : Str}
    {reader reader' : VaultReaderV2 S.toPrims}
    (hopen : openVault S.toPrims (s.host (vaultDirV2 id)).top.shown identity = .ok reader)
    (hid : reader.state.map (·.objectId) = some id) (hfresh : s.rng.Fresh (· ∈ reader.manifest.blobIds))
    (hplain : a.Plain reader.manifest.entries into)
    (hdone : (a.job identity id reader registry into now gc).finish identity s =
      (.replaceOpen id' reader' registry', s')) :
    a.Spares into reader (s.host (vaultDirV2 id)).blobs.shown reader' (s'.host (vaultDirV2 id)).blobs.shown := by
  obtain ⟨id₀, hcoh⟩ := coherent_of_openVault hopen
  obtain rfl : id₀ = id := by
    obtain ⟨state, pt, hst, hof, -⟩ := hcoh.state
    rw [hst] at hid
    exact hof.objectId.symm.trans (Option.some.inj hid)
  have hs : s.Grown (vaultDirV2 id₀) id₀ reader (s.host (vaultDirV2 id₀)).blobs.shown identity [] reader :=
    ⟨isDir_of_openVault hopen, hcoh, grown_of_openVault hopen (by rwa [host_rng])⟩
  obtain ⟨s₁, s₂, hedit, hopened, hsaved⟩ := editVaultJob_finish hdone
  obtain ⟨hplaced, done, w, hw, hadded⟩ := of_wp (Addition.edit_grown hs hplain) hedit rfl
  obtain ⟨hkept, hput⟩ := hw.reads hopened
  obtain ⟨-, hblobs⟩ := host_congr (hsaved.vaults.get (vaultDirV2 id₀) not_false)
  rw [← hblobs] at hkept hput
  refine ⟨hkept, hplaced.apart, fun f hf => ?_, hplaced.singles⟩
  obtain ⟨bytes, hcontent, hmem⟩ := hadded f hf
  obtain ⟨hin, hread⟩ := hput _ hmem
  exact ⟨hplaced.free f hf, hin, bytes, hcontent, hread⟩

end Jobs

/-! ### Two new files

The vault holds `d/x`.  In its root, a new file `y` is a new entry; a new file `d\x` replaces `d/x`. -/

namespace Sym

/-- The owner's store with the vault. -/
def shelf : Store store := withVault .secureStorage 100

theorem shelf_opens : (openVault Sym (shelf.host (vaultDirV2 vaultId)).top.shown alice).toOption.isSome = true := by
  decide +kernel

/-- The vault, opened. -/
def shelfReader : VaultReaderV2 Sym :=
  (openVault Sym (shelf.host (vaultDirV2 vaultId)).top.shown alice).toOption.get shelf_opens

/-- A new file in the root. -/
def newFile (leaf : Str) : Addition := .newFile leaf .fine 0 .fine

/-- What the job for a new file ends with. -/
def fileMade (leaf : Str) : Outcome Sym × Store store :=
  ((newFile leaf).job alice vaultId shelfReader ⟨[]⟩ [] 0 calmGc).finish alice shelf

/-- A name that normalises to the path of the file that is there. -/
def clashing : Str := ['d', '\\', 'x']

theorem shelfReader_opened : openVault Sym (shelf.host (vaultDirV2 vaultId)).top.shown alice = .ok shelfReader :=
  openVault_of_toOption (Option.some_get _).symm

private theorem shelf_facts : shelfReader.state.map (·.objectId) = some vaultId ∧
    ((shelf.rng.drawn 100).Nodup ∧ ∀ id ∈ shelf.rng.drawn 100, id ∉ shelfReader.manifest.blobIds) ∧
    (fileMade ['y']).1.replaced.isSome = true ∧ (fileMade clashing).1.replaced.isSome = true := by
  decide +kernel

theorem shelfReader_state : shelfReader.state.map (·.objectId) = some vaultId := shelf_facts.1

theorem shelf_fresh : shelf.rng.Fresh (· ∈ shelfReader.manifest.blobIds) :=
  Rng.fresh_of_finite 100 (fun i hi => if_neg (by omega)) shelf_facts.2.1.1 shelf_facts.2.1.2

end Sym

theorem shelf_fileMade (leaf : Str) {x : Str × VaultReaderV2 Sym × Registry}
    (h : (Sym.fileMade leaf).1.replaced = some x) :
    ((Sym.newFile leaf).job Sym.alice Sym.vaultId Sym.shelfReader ⟨[]⟩ [] 0 Sym.calmGc).finish Sym.alice Sym.shelf =
      (.replaceOpen x.1 x.2.1 x.2.2, (Sym.fileMade leaf).2) :=
  Prod.ext (Outcome.replaced_eq_some h) rfl

theorem addition_spares_newFile : ∃ x, (Sym.fileMade ['y']).1.replaced = some x ∧
    Addition.Spares (S := Sym.store) (Sym.newFile ['y']) [] Sym.shelfReader
      (Sym.shelf.host (vaultDirV2 Sym.vaultId)).blobs.shown x.2.1
      ((Sym.fileMade ['y']).2.host (vaultDirV2 Sym.vaultId)).blobs.shown := by
  obtain ⟨x, hx⟩ := Option.isSome_iff_exists.1 Sym.shelf_facts.2.2.1
  exact ⟨x, hx, addition_spares (Sym.newFile ['y']) Sym.shelfReader_opened Sym.shelfReader_state Sym.shelf_fresh
    (by decide) (shelf_fileMade ['y'] hx)⟩

/-- The new file has taken the place of one that was there, and success is reported. -/
theorem addition_spares_fails : ∃ x, (Sym.fileMade Sym.clashing).1.replaced = some x ∧
    ¬ Addition.Spares (S := Sym.store) (Sym.newFile Sym.clashing) [] Sym.shelfReader
      (Sym.shelf.host (vaultDirV2 Sym.vaultId)).blobs.shown x.2.1
      ((Sym.fileMade Sym.clashing).2.host (vaultDirV2 Sym.vaultId)).blobs.shown := by
  refine ⟨_, (Option.some_get Sym.shelf_facts.2.2.2).symm, fun h => ?_⟩
  -- the bytes of `d/x` are not what they were
  have hkept := fun e he => (h.kept e he).2
  clear h
  revert hkept
  decide +kernel

end FileSec
