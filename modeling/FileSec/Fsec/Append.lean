import FileSec.Fsec.Rewrite
import FileSec.Fsec.Vaults

/-!
# Adding to a container

`append_files` writes a container that is the old one with files and directories added (`format.rs`).  It compares the
added paths with the stored ones as they are and does not look at their kinds, so an added path below a file, or one that
the reader takes for a stored one, gets through.  What has been written is the union of both exactly when there is no such
path and the limits of the format are kept (`appendFiles_sound_iff`).
-/

universe u

namespace FileSec.Fsec

open SepPath

variable {P : Prims} (C : FsecPrims P)

/-- `AddedFile` -/
structure AddedFile where
  vaultPath : Str
  source : SourceFile
  mtime : Option Int
  mode : Option Nat

/-- A directory that is added. -/
def addedDir (path : Str) : Entry := ⟨path, .dir, 0, none, none, zeroHash, 0⟩

/-- What the loops of `append_files` change: the entries, the paths seen, and where the next file goes. -/
structure Appending where
  entries : List Entry
  seen : List Str
  offset : Nat

/-- `push_dir_entry` -/
def pushDirEntry (path : Str) (st : Appending) : Appending :=
  if path ∈ st.seen then st else { st with entries := st.entries ++ [addedDir path], seen := path :: st.seen }

/-- `push_ancestor_dirs` -/
def pushAncestorDirs (normPath : Str) (st : Appending) : Appending :=
  let comps := normPath.splitOn '/'
  (accPaths [] (comps.take (comps.length - 1))).foldl (fun st acc => pushDirEntry acc st) st

/-- The loop over the added directories. -/
def pushDirs : List Str → Appending → Result Appending
  | [], st => .ok st
  | d :: ds, st => do
    let norm ← normalizePath d
    pushDirs ds (pushDirEntry norm (pushAncestorDirs norm st))

/-- The loop over the added files. -/
def pushFiles (P : Prims) : List AddedFile → Appending → Result Appending
  | [], st => .ok st
  | f :: fs, st => do
    let norm ← normalizePath f.vaultPath
    refuseIf (norm ∈ st.seen) (.vault ("path already exists: ".toList ++ norm))
    let st := pushAncestorDirs norm st
    let (blake3, size) ← hashFile P f.source.hashed
    refuseIf (st.offset + size > u64Max) (.format "size overflow".toList)
    pushFiles P fs ⟨st.entries ++ [⟨norm, .file, size, f.mtime, f.mode, blake3, st.offset⟩], norm :: st.seen,
      st.offset + size⟩

/-- `VaultReader::append_files` into a buffer. -/
def VaultReader.appendFiles (r : VaultReader) (disk : Disk) (file : Bytes) (sender : Identity C)
    (recipients : List Peer.PublicIdentity) (options : ExportOptions) (draws : Draws) (added : List AddedFile)
    (addedDirs : List Str) : Result Bytes := do
  let st ← pushDirs addedDirs ⟨r.manifest.entries, r.manifest.entries.map (·.path), r.totalPlaintext⟩
  let st ← pushFiles P added st
  let manifest : Manifest := ⟨r.manifest.vaultName, r.manifest.createdAt, st.entries⟩
  let plaintext ← r.plaintextReaderOn C disk file
  writeContainerFrom C manifest st.offset (R := PieceSource.chain Error UInt8)
    (⟨StreamDecryptReaderOn.pieces P disk.sure, plaintext⟩ :: added.map (·.source.streamed)) sender recipients options draws

/-! ### Adding what is not there -/

/-- An entry is added when its path is not there; a file comes after all others. -/
def insertUnseen (es : List Entry) (e : Entry) : List Entry :=
  if e.path ∈ es.map (·.path) then es else es ++ [{ e with dataOffset := if e.kind = .file then filesSize es else 0 }]

/-- No file is left out because its path is there. -/
def Fresh : List Entry → List Entry → Prop
  | _, [] => True
  | es, e :: items => (e.kind = .file → e.path ∉ es.map (·.path)) ∧ Fresh (insertUnseen es e) items

/-- The entry, at whatever offset. -/
def Placed (e e' : Entry) : Prop := e' = { e with dataOffset := e'.dataOffset }

/-- What has come to the entries. -/
structure Came (es items new : List Entry) : Prop where
  eq : items.foldl insertUnseen es = es ++ new
  nodup : (new.map (·.path)).Nodup
  unseen : ∀ e ∈ new, e.path ∉ es.map (·.path)
  item : ∀ e ∈ new, ∃ x ∈ items, Placed x e
  files : List.Forall₂ Placed (items.filter fun e => e.kind = .file) (new.filter fun e => e.kind = .file)

variable {C} {es items new : List Entry}

theorem came_of_fresh (h : Fresh es items) : ∃ new, Came es items new := by
  induction items generalizing es with
  | nil => exact ⟨[], by simp, by simp, by simp, by simp, by simp⟩
  | cons x items ih =>
    obtain ⟨hx, h⟩ := h
    obtain ⟨new, hnew⟩ := ih h
    have hfold : (x :: items).foldl insertUnseen es = items.foldl insertUnseen (insertUnseen es x) := rfl
    by_cases hin : x.path ∈ es.map (·.path)
    · have hsame : insertUnseen es x = es := if_pos hin
      have hdir : ¬ x.kind = .file := fun hk => hx hk hin
      rw [hsame] at hnew hfold
      refine ⟨new, hfold.trans hnew.eq, hnew.nodup, hnew.unseen, fun e he => ?_, ?_⟩
      · obtain ⟨y, hy, hplaced⟩ := hnew.item e he
        exact ⟨y, List.mem_cons_of_mem _ hy, hplaced⟩
      · rw [List.filter_cons_of_neg (by simpa using hdir)]
        exact hnew.files
    · have hpush : insertUnseen es x =
          es ++ [{ x with dataOffset := if x.kind = .file then filesSize es else 0 }] := if_neg hin
      have hplaced : Placed x { x with dataOffset := if x.kind = .file then filesSize es else 0 } := rfl
      generalize hx' : ({ x with dataOffset := if x.kind = .file then filesSize es else 0 } : Entry) = x' at hpush hplaced
      have hpath : x'.path = x.path := by rw [hplaced]
      have hkind : x'.kind = x.kind := by rw [hplaced]
      rw [hpush] at hnew
      have hout : ∀ e ∈ new, e.path ∉ es.map (·.path) ∧ e.path ≠ x'.path := by
        intro e he
        have := hnew.unseen e he
        rw [List.map_append, List.mem_append, not_or, List.map_singleton, List.mem_singleton] at this
        exact this
      refine ⟨x' :: new, ?_, ?_, ?_, ?_, ?_⟩
      · rw [hfold, hpush, hnew.eq, List.append_assoc, List.singleton_append]
      · rw [List.map_cons, List.nodup_cons]
        refine ⟨fun hmem => ?_, hnew.nodup⟩
        obtain ⟨e, he, heq⟩ := List.mem_map.1 hmem
        exact (hout e he).2 heq
      · intro e he
        rcases List.mem_cons.1 he with rfl | he
        · rwa [hpath]
        · exact (hout e he).1
      · intro e he
        rcases List.mem_cons.1 he with rfl | he
        · exact ⟨x, List.mem_cons_self, hplaced⟩
        · obtain ⟨y, hy, hyp⟩ := hnew.item e he
          exact ⟨y, List.mem_cons_of_mem _ hy, hyp⟩
      · rw [List.filter_cons, List.filter_cons, hkind]
        split
        · exact .cons hplaced hnew.files
        · exact hnew.files

theorem mem_paths_foldl {p : Str} :
    p ∈ (items.foldl insertUnseen es).map (·.path) ↔ p ∈ es.map (·.path) ∨ p ∈ items.map (·.path) := by
  induction items generalizing es with
  | nil => simp
  | cons x items ih =>
    rw [List.foldl_cons, ih, List.map_cons, List.mem_cons]
    unfold insertUnseen
    split
    · rename_i hin
      constructor
      · rintro (h | h)
        · exact Or.inl h
        · exact Or.inr (Or.inr h)
      · rintro (h | rfl | h)
        · exact Or.inl h
        · exact Or.inl hin
        · exact Or.inr h
    · simp only [List.map_append, List.mem_append, List.map_cons, List.map_nil, List.mem_singleton]
      rw [or_assoc]

theorem laid_insertUnseen (h : Laid 0 es (filesSize es)) (x : Entry) :
    Laid 0 (insertUnseen es x) (filesSize (insertUnseen es x)) := by
  unfold insertUnseen
  split
  · exact h
  · have hlast : Laid (filesSize es) [{ x with dataOffset := if x.kind = .file then filesSize es else 0 }]
        (filesSize es + filesSize [x]) := by
      rw [filesSize_cons]
      cases hk : x.kind with
      | file =>
        exact .file rfl rfl (.nil _)
      | dir =>
        exact .dir rfl (.nil _)
    have hall := h.append hlast
    have hsize := hall.size_eq
    rw [Nat.zero_add] at hsize
    rwa [hsize]

theorem laid_foldl (h : Laid 0 es (filesSize es)) (items : List Entry) :
    Laid 0 (items.foldl insertUnseen es) (filesSize (items.foldl insertUnseen es)) := by
  induction items generalizing es with
  | nil => exact h
  | cons x items ih => exact ih (laid_insertUnseen h x)

theorem fresh_append {items' : List Entry} :
    Fresh es (items ++ items') ↔ Fresh es items ∧ Fresh (items.foldl insertUnseen es) items' := by
  induction items generalizing es with
  | nil => simp [Fresh]
  | cons x items ih =>
    simp only [List.cons_append, Fresh, ih, List.foldl_cons]
    rw [and_assoc]

theorem fresh_of_dirs (h : ∀ e ∈ items, e.kind = .dir) : Fresh es items := by
  induction items generalizing es with
  | nil => trivial
  | cons x items ih =>
    refine ⟨fun hk => ?_, ih fun e he => h e (List.mem_cons_of_mem _ he)⟩
    rw [h x List.mem_cons_self] at hk
    cases hk

/-! ### What the loops do -/

/-- What the file holds. -/
def SourceFile.bytes (f : SourceFile) : Bytes := f.streamed.left.1

/-- The file is the same both times it is read. -/
def SourceFile.Steady (f : SourceFile) : Prop := f.hashed.left = f.streamed.left

/-- The entry of an added file, before it has its place. -/
def AddedFile.entry (P : Prims) (f : AddedFile) (norm : Str) : Entry :=
  ⟨norm, .file, f.source.bytes.length, f.mtime, f.mode, P.hashContent f.source.bytes, 0⟩

/-- What an added directory asks for: the directories above it, and itself. -/
def dirItems (d : Str) : List Entry :=
  match normalizePath d with
  | .ok norm => (parents '/' norm).map addedDir ++ [addedDir norm]
  | .error _ => []

/-- What an added file asks for: the directories above it, and itself. -/
def fileItems (P : Prims) (f : AddedFile) : List Entry :=
  match normalizePath f.vaultPath with
  | .ok norm => (parents '/' norm).map addedDir ++ [f.entry P norm]
  | .error _ => []

/-- All that is asked for. -/
def additions (P : Prims) (added : List AddedFile) (addedDirs : List Str) : List Entry :=
  addedDirs.flatMap dirItems ++ added.flatMap (fileItems P)

/-- What has been seen are the paths of the entries, and the next file goes after all others. -/
structure Appending.Tracks (st : Appending) : Prop where
  seen : ∀ p, p ∈ st.seen ↔ p ∈ st.entries.map (·.path)
  offset : st.offset = filesSize st.entries

variable {st st' : Appending}

theorem filesSize_append (es es' : List Entry) : filesSize (es ++ es') = filesSize es + filesSize es' := by
  simp [filesSize]

private theorem pushDirEntry_spec (h : st.Tracks) (p : Str) :
    (pushDirEntry p st).Tracks ∧ (pushDirEntry p st).entries = insertUnseen st.entries (addedDir p) := by
  have hpath : (addedDir p).path = p := rfl
  unfold pushDirEntry insertUnseen
  rw [hpath]
  by_cases hin : p ∈ st.entries.map (·.path)
  · rw [if_pos hin, if_pos ((h.seen p).2 hin)]
    exact ⟨h, rfl⟩
  · rw [if_neg hin, if_neg fun hs => hin ((h.seen p).1 hs)]
    refine ⟨⟨fun q => ?_, ?_⟩, rfl⟩
    · rw [List.mem_cons, h.seen, List.map_append, List.mem_append, List.map_singleton, List.mem_singleton, hpath, or_comm]
    · rw [filesSize_append, h.offset]
      rfl

private theorem pushDirEntries_spec (h : st.Tracks) (ps : List Str) :
    (ps.foldl (fun st acc => pushDirEntry acc st) st).Tracks ∧
      (ps.foldl (fun st acc => pushDirEntry acc st) st).entries = (ps.map addedDir).foldl insertUnseen st.entries := by
  induction ps generalizing st with
  | nil => exact ⟨h, rfl⟩
  | cons p ps ih =>
    obtain ⟨htracks, hentries⟩ := pushDirEntry_spec h p
    rw [List.foldl_cons, List.map_cons, List.foldl_cons, ← hentries]
    exact ih htracks

/-- Adding the directories above a path. -/
private theorem pushAncestorDirs_spec (h : st.Tracks) {p : Str} (hp : NormalPath p) :
    (pushAncestorDirs p st).Tracks ∧
      (pushAncestorDirs p st).entries = ((parents '/' p).map addedDir).foldl insertUnseen st.entries := by
  have heq : pushAncestorDirs p st = (parents '/' p).foldl (fun st acc => pushDirEntry acc st) st := by
    simp only [pushAncestorDirs, accPaths_normal hp]
  rw [heq]
  exact pushDirEntries_spec h _

/-- The loop over the added directories adds the missing ones. -/
private theorem pushDirs_spec {ds : List Str} (h : st.Tracks) (hok : pushDirs ds st = .ok st') :
    st'.Tracks ∧ st'.entries = (ds.flatMap dirItems).foldl insertUnseen st.entries ∧
      ∀ d ∈ ds, ∃ norm, normalizePath d = .ok norm := by
  induction ds generalizing st with
  | nil =>
    obtain rfl := Except.ok.inj hok
    exact ⟨h, rfl, by simp⟩
  | cons d ds ih =>
    obtain ⟨norm, hnorm, hok⟩ := bind_eq_ok.1 hok
    obtain ⟨habove, heq⟩ := pushAncestorDirs_spec h (normalPath_of_normalizePath hnorm)
    obtain ⟨hself, heq'⟩ := pushDirEntry_spec habove norm
    obtain ⟨htracks, hentries, hall⟩ := ih hself hok
    refine ⟨htracks, ?_, List.forall_mem_cons.2 ⟨⟨norm, hnorm⟩, hall⟩⟩
    have hitems : dirItems d = (parents '/' norm).map addedDir ++ [addedDir norm] := by
      unfold dirItems
      rw [hnorm]
    rw [hentries, heq', heq, List.flatMap_cons, hitems, List.foldl_append, List.foldl_append]
    rfl

/-- The loop over the added files adds them all, and the missing directories above them. -/
private theorem pushFiles_spec {fs : List AddedFile} (hsteady : ∀ f ∈ fs, f.source.Steady) (h : st.Tracks)
    (hok : pushFiles P fs st = .ok st') :
    st'.Tracks ∧ st'.entries = (fs.flatMap (fileItems P)).foldl insertUnseen st.entries ∧
      Fresh st.entries (fs.flatMap (fileItems P)) ∧ ∀ f ∈ fs, ∃ norm, normalizePath f.vaultPath = .ok norm := by
  induction fs generalizing st with
  | nil =>
    obtain rfl := Except.ok.inj hok
    exact ⟨h, rfl, trivial, by simp⟩
  | cons f fs ih =>
    obtain ⟨norm, hnorm, hok⟩ := bind_eq_ok.1 hok
    obtain ⟨u, hseen, hok⟩ := bind_eq_ok.1 hok
    obtain ⟨⟨hash, size⟩, hhash, hok⟩ := bind_eq_ok.1 hok
    obtain ⟨u', -, hok⟩ := bind_eq_ok.1 hok
    rw [refuseIf_eq_ok, h.seen] at hseen
    rw [hashFile_eq_ok, show f.source.hashed.left = f.source.streamed.left from hsteady f List.mem_cons_self,
      Prod.mk.injEq] at hhash
    obtain ⟨-, -, rfl, rfl⟩ := hhash
    obtain ⟨habove, heq⟩ := pushAncestorDirs_spec h (normalPath_of_normalizePath hnorm)
    have hitems : fileItems P f = (parents '/' norm).map addedDir ++ [f.entry P norm] := by
      unfold fileItems
      rw [hnorm]
    -- no path is above itself, so the path is still free
    have hnew : norm ∉ (pushAncestorDirs norm st).entries.map (·.path) := by
      rw [heq, mem_paths_foldl, not_or]
      refine ⟨hseen, fun hin => ?_⟩
      rw [List.map_map] at hin
      obtain ⟨a, ha, hpath⟩ := List.mem_map.1 hin
      obtain rfl : a = norm := hpath
      exact not_below_self a (mem_parents.1 ha)
    have hpush : insertUnseen (pushAncestorDirs norm st).entries (f.entry P norm) = (pushAncestorDirs norm st).entries ++
        [⟨norm, .file, f.source.bytes.length, f.mtime, f.mode, P.hashContent f.source.bytes,
          (pushAncestorDirs norm st).offset⟩] := by
      rw [habove.offset]
      exact if_neg hnew
    have hnext : Appending.Tracks ⟨(pushAncestorDirs norm st).entries ++
        [⟨norm, .file, f.source.bytes.length, f.mtime, f.mode, P.hashContent f.source.bytes,
          (pushAncestorDirs norm st).offset⟩], norm :: (pushAncestorDirs norm st).seen,
        (pushAncestorDirs norm st).offset + f.source.bytes.length⟩ := by
      refine ⟨fun q => ?_, ?_⟩
      · rw [List.mem_cons, habove.seen, List.map_append, List.mem_append, List.map_singleton, List.mem_singleton, or_comm]
      · rw [filesSize_append, habove.offset]
        rfl
    obtain ⟨htracks, hentries, hfresh, hall⟩ := ih (fun g hg => hsteady g (List.mem_cons_of_mem _ hg)) hnext hok
    have hfold : (fileItems P f).foldl insertUnseen st.entries =
        insertUnseen (pushAncestorDirs norm st).entries (f.entry P norm) := by
      rw [hitems, List.foldl_append, ← heq]
      rfl
    refine ⟨htracks, ?_, ?_, List.forall_mem_cons.2 ⟨⟨norm, hnorm⟩, hall⟩⟩
    · rw [hentries, List.flatMap_cons, List.foldl_append, hfold, hpush]
    · rw [List.flatMap_cons, fresh_append, hfold, hpush]
      refine ⟨?_, hfresh⟩
      rw [hitems, fresh_append]
      refine ⟨fresh_of_dirs fun e he => ?_, fun _ => heq ▸ hnew, trivial⟩
      obtain ⟨a, -, rfl⟩ := List.mem_map.1 he
      rfl

/-! ### Paths that are in each other's way -/

variable {added : List AddedFile} {addedDirs : List Str}

/-- A directory is to be there: it is added, or something below it is. -/
def Wanted (added : List AddedFile) (addedDirs : List Str) (p : Str) : Prop :=
  (∃ d ∈ addedDirs, ∃ norm, normalizePath d = .ok norm ∧ AtOrBelow '/' p norm) ∨
    ∃ f ∈ added, ∃ norm, normalizePath f.vaultPath = .ok norm ∧ Below '/' p norm

/-- Nothing that is added is in the way of a stored entry or of something else that is added. -/
structure Clear (es : List Entry) (added : List AddedFile) (addedDirs : List Str) : Prop where
  dirs : ∀ p, Wanted added addedDirs p → ∀ e ∈ es, normalizePath e.path = .ok p → e.path = p ∧ e.kind = .dir
  apart : ∀ p, Wanted added addedDirs p → ∀ f ∈ added, normalizePath f.vaultPath ≠ .ok p
  files : ∀ f ∈ added, ∀ p, normalizePath f.vaultPath = .ok p → ∀ e ∈ es, ∀ q, normalizePath e.path = .ok q →
    q ≠ p ∧ ¬ Below '/' p q

theorem Wanted.of_below {p q : Str} (h : Wanted added addedDirs q) (hb : Below '/' p q) : Wanted added addedDirs p := by
  rcases h with ⟨d, hd, norm, hnorm, hat⟩ | ⟨f, hf, norm, hnorm, hbelow⟩
  · exact Or.inl ⟨d, hd, norm, hnorm, Or.inr (hb.trans_atOrBelow hat)⟩
  · exact Or.inr ⟨f, hf, norm, hnorm, hb.trans hbelow⟩

/-- A wanted path is in normal form. -/
theorem Wanted.clean {p : Str} (h : Wanted added addedDirs p) : normalizePath p = .ok p := by
  refine cleanPath_iff.1 ?_
  rcases h with ⟨d, -, norm, hnorm, hat⟩ | ⟨f, -, norm, hnorm, hbelow⟩
  · rcases hat with rfl | hbelow
    · exact cleanPath_of_normalizePath hnorm
    · exact (cleanPath_of_normalizePath hnorm).of_below hbelow
  · exact (cleanPath_of_normalizePath hnorm).of_below hbelow

theorem mem_dirItems {d : Str} {x : Entry} :
    x ∈ dirItems d ↔ ∃ norm, normalizePath d = .ok norm ∧ ∃ p, AtOrBelow '/' p norm ∧ x = addedDir p := by
  unfold dirItems
  cases normalizePath d with
  | error e => simp
  | ok norm =>
    simp only [List.mem_append, List.mem_map, mem_parents, List.mem_singleton, Except.ok.injEq, exists_eq_left']
    constructor
    · rintro (⟨p, hp, rfl⟩ | rfl)
      · exact ⟨p, Or.inr hp, rfl⟩
      · exact ⟨norm, .refl norm, rfl⟩
    · rintro ⟨p, rfl | hp, rfl⟩
      · exact Or.inr rfl
      · exact Or.inl ⟨p, hp, rfl⟩

theorem mem_fileItems {f : AddedFile} {x : Entry} :
    x ∈ fileItems P f ↔
      ∃ norm, normalizePath f.vaultPath = .ok norm ∧ ((∃ p, Below '/' p norm ∧ x = addedDir p) ∨ x = f.entry P norm) := by
  unfold fileItems
  cases normalizePath f.vaultPath with
  | error e => simp
  | ok norm =>
    simp only [List.mem_append, List.mem_map, mem_parents, List.mem_singleton, Except.ok.injEq, exists_eq_left']
    refine or_congr_left (exists_congr fun p => and_congr_right fun _ => eq_comm)

/-- What is asked for: the wanted directories and the added files. -/
theorem mem_additions {x : Entry} :
    x ∈ additions P added addedDirs ↔ (∃ p, Wanted added addedDirs p ∧ x = addedDir p) ∨
      ∃ f ∈ added, ∃ norm, normalizePath f.vaultPath = .ok norm ∧ x = f.entry P norm := by
  unfold additions
  simp only [List.mem_append, List.mem_flatMap, mem_dirItems, mem_fileItems]
  constructor
  · rintro (⟨d, hd, norm, hnorm, p, hp, rfl⟩ | ⟨f, hf, norm, hnorm, ⟨p, hp, rfl⟩ | rfl⟩)
    · exact Or.inl ⟨p, Or.inl ⟨d, hd, norm, hnorm, hp⟩, rfl⟩
    · exact Or.inl ⟨p, Or.inr ⟨f, hf, norm, hnorm, hp⟩, rfl⟩
    · exact Or.inr ⟨f, hf, norm, hnorm, rfl⟩
  · rintro (⟨p, ⟨d, hd, norm, hnorm, hp⟩ | ⟨f, hf, norm, hnorm, hp⟩, rfl⟩ | ⟨f, hf, norm, hnorm, rfl⟩)
    · exact Or.inl ⟨d, hd, norm, hnorm, p, hp, rfl⟩
    · exact Or.inr ⟨f, hf, norm, hnorm, Or.inl ⟨p, hp, rfl⟩⟩
    · exact Or.inr ⟨f, hf, norm, hnorm, Or.inr rfl⟩

/-- The files that are asked for are the added ones. -/
private theorem filter_fileItems (hnorm : ∀ f ∈ added, ∃ norm, normalizePath f.vaultPath = .ok norm) :
    List.Forall₂ (fun f e => normalizePath f.vaultPath = .ok e.path ∧ e = f.entry P e.path) added
      ((added.flatMap (fileItems P)).filter fun e => e.kind = .file) := by
  induction added with
  | nil => exact .nil
  | cons f added ih =>
    obtain ⟨norm, hn⟩ := hnorm f List.mem_cons_self
    have hdirs : ((parents '/' norm).map addedDir).filter (fun e => e.kind = .file) = [] := by
      rw [List.filter_eq_nil_iff]
      intro e he
      obtain ⟨p, -, rfl⟩ := List.mem_map.1 he
      simp [addedDir]
    have hitems : (fileItems P f).filter (fun e => e.kind = .file) = [f.entry P norm] := by
      unfold fileItems
      rw [hn]
      dsimp only
      rw [List.filter_append, hdirs, List.nil_append]
      rfl
    rw [List.flatMap_cons, List.filter_append, hitems, List.singleton_append]
    exact .cons ⟨hn, rfl⟩ (ih fun g hg => hnorm g (List.mem_cons_of_mem _ hg))

variable (P added addedDirs) in
private theorem filter_additions (hnorm : ∀ f ∈ added, ∃ norm, normalizePath f.vaultPath = .ok norm) :
    List.Forall₂ (fun f e => normalizePath f.vaultPath = .ok e.path ∧ e = f.entry P e.path) added
      ((additions P added addedDirs).filter fun e => e.kind = .file) := by
  have hdirs : (addedDirs.flatMap dirItems).filter (fun e => e.kind = .file) = [] := by
    rw [List.filter_eq_nil_iff]
    intro e he
    obtain ⟨d, -, he⟩ := List.mem_flatMap.1 he
    obtain ⟨norm, -, p, -, rfl⟩ := mem_dirItems.1 he
    simp [addedDir]
  unfold additions
  rw [List.filter_append, hdirs, List.nil_append]
  exact filter_fileItems hnorm

/-! ### When the reader accepts the union -/

/-- Two entries of a shaped list with the same normal path are the same. -/
theorem Shaped.inj {shape : List (Str × EntryKind)} (h : Shaped es shape) {e e' : Entry} (he : e ∈ es) (he' : e' ∈ es)
    {p : Str} (hp : normalizePath e.path = .ok p) (hp' : normalizePath e'.path = .ok p) : e = e' := by
  obtain ⟨hn, hnd, -⟩ := h
  induction hn with
  | nil => cases he
  | @cons a x es shape hx hrest ih =>
    rw [List.map_cons, List.nodup_cons] at hnd
    -- the head has a normal path of its own
    have hne : ∀ e ∈ es, normalizePath e.path ≠ .ok x.1 := by
      intro e he heq
      obtain ⟨y, hy, hey⟩ := Keyed.exists_of_forall₂ hrest.flip he
      rw [hey.1, Except.ok.injEq] at heq
      exact hnd.1 (List.mem_map.2 ⟨y, hy, heq⟩)
    rcases List.mem_cons.1 he with rfl | hin
    · rw [hx.1, Except.ok.injEq] at hp
      subst hp
      rcases List.mem_cons.1 he' with rfl | hin'
      · rfl
      · exact absurd hp' (hne e' hin')
    · rcases List.mem_cons.1 he' with rfl | hin'
      · rw [hx.1, Except.ok.injEq] at hp'
        subst hp'
        exact absurd hp (hne e hin)
      · exact ih hin hin' hnd.2

/-- No entry of a shaped list is below a file. -/
theorem Shaped.not_below {shape : List (Str × EntryKind)} (h : Shaped es shape) {e e' : Entry} (he : e ∈ es) (he' : e' ∈ es)
    {p q : Str} (hp : normalizePath e.path = .ok p) (hq : normalizePath e'.path = .ok q) (hk : e.kind = .file) :
    ¬ Below '/' p q := by
  obtain ⟨x, hx, hxe⟩ := Keyed.exists_of_forall₂ h.normalizes.flip he
  obtain ⟨y, hy, hye⟩ := Keyed.exists_of_forall₂ h.normalizes.flip he'
  obtain rfl := Except.ok.inj (hp.symm.trans hxe.1)
  obtain rfl := Except.ok.inj (hq.symm.trans hye.1)
  exact h.tree x hx y hy (hxe.2.trans hk)

section Union

variable (hcame : Came es (additions P added addedDirs) new)

include hcame

/-- What has come are wanted directories and added files. -/
private theorem Came.cases {e : Entry} (he : e ∈ new) :
    (Wanted added addedDirs e.path ∧ e.kind = .dir) ∨
      ∃ f ∈ added, normalizePath f.vaultPath = .ok e.path ∧ Placed (f.entry P e.path) e := by
  obtain ⟨x, hx, hplaced⟩ := hcame.item e he
  have hpath : e.path = x.path := by rw [hplaced]
  have hkind : e.kind = x.kind := by rw [hplaced]
  rcases mem_additions.1 hx with ⟨p, hp, rfl⟩ | ⟨f, hf, norm, hnorm, rfl⟩
  · exact Or.inl ⟨hpath ▸ hp, hkind⟩
  · have hself : e.path = norm := hpath
    exact Or.inr ⟨f, hf, hself ▸ hnorm, hself ▸ hplaced⟩

private theorem Came.clean {e : Entry} (he : e ∈ new) : normalizePath e.path = .ok e.path := by
  rcases hcame.cases he with ⟨hwanted, -⟩ | ⟨f, -, hnorm, -⟩
  · exact hwanted.clean
  · exact cleanPath_iff.1 (cleanPath_of_normalizePath hnorm)

/-- Each wanted directory has an entry with its path, of whatever kind. -/
private theorem Came.wanted {p : Str} (hp : Wanted added addedDirs p) : ∃ e ∈ es ++ new, e.path = p := by
  have hin : p ∈ ((additions P added addedDirs).foldl insertUnseen es).map (·.path) :=
    mem_paths_foldl.2 (Or.inr (List.mem_map.2 ⟨addedDir p, mem_additions.2 (Or.inl ⟨p, hp, rfl⟩), rfl⟩))
  rw [hcame.eq] at hin
  exact List.mem_map.1 hin

/-- Where nothing is in the way, the union has the shape of a tree. -/
private theorem Came.shaped {shape : List (Str × EntryKind)} (hshape : Shaped es shape) (hclear : Clear es added addedDirs) :
    Shaped (es ++ new) (shape ++ sites new) := by
  -- a stored entry with its normal path
  have hold : ∀ x ∈ shape, ∃ e ∈ es, normalizePath e.path = .ok x.1 ∧ x.2 = e.kind :=
    fun x hx => Keyed.exists_of_forall₂ hshape.normalizes hx
  have hnew : ∀ x ∈ sites new, ∃ e ∈ new, x = (e.path, e.kind) := by
    intro x hx
    obtain ⟨e, he, rfl⟩ := List.mem_map.1 hx
    exact ⟨e, he, rfl⟩
  refine ⟨List.rel_append hshape.normalizes (normalizes_sites fun e he => hcame.clean he), ?_, ?_⟩
  · rw [List.map_append, List.nodup_append]
    refine ⟨hshape.nodup, ?_, fun p hp q hq hpq => ?_⟩
    · rw [sites, List.map_map]
      exact hcame.nodup
    · obtain ⟨x, hx, rfl⟩ := List.mem_map.1 hp
      obtain ⟨y, hy, rfl⟩ := List.mem_map.1 hq
      obtain ⟨e, he, hnorm', -⟩ := hold x hx
      obtain ⟨e', he', rfl⟩ := hnew y hy
      rw [hpq] at hnorm'
      rcases hcame.cases he' with ⟨hwanted, -⟩ | ⟨f, hf, hpath, -⟩
      · have hraw := (hclear.dirs _ hwanted e he hnorm').1
        exact hcame.unseen e' he' (List.mem_map.2 ⟨e, he, hraw⟩)
      · exact (hclear.files f hf _ hpath e he _ hnorm').1 rfl
  · intro x hx y hy hk hbelow
    rcases List.mem_append.1 hx with hx | hx
    · rcases List.mem_append.1 hy with hy | hy
      · exact hshape.tree x hx y hy hk hbelow
      · -- a stored file above something new would be wanted as a directory
        obtain ⟨e, he, hnorm', hkind⟩ := hold x hx
        obtain ⟨e', he', rfl⟩ := hnew y hy
        have hwanted : Wanted added addedDirs x.1 := by
          rcases hcame.cases he' with ⟨hwanted, -⟩ | ⟨f, hf, hpath, -⟩
          · exact hwanted.of_below hbelow
          · exact Or.inr ⟨f, hf, _, hpath, hbelow⟩
        have hdir := (hclear.dirs _ hwanted e he hnorm').2
        rw [← hkind, hk] at hdir
        cases hdir
    · obtain ⟨e, he, rfl⟩ := hnew x hx
      rcases hcame.cases he with ⟨-, hdir⟩ | ⟨f, hf, hpath, -⟩
      · rw [show e.kind = .file from hk] at hdir
        cases hdir
      · rcases List.mem_append.1 hy with hy | hy
        · obtain ⟨e', he', hnorm', -⟩ := hold y hy
          exact (hclear.files f hf _ hpath e' he' _ hnorm').2 hbelow
        · obtain ⟨e', he', rfl⟩ := hnew y hy
          have hwanted : Wanted added addedDirs e.path := by
            rcases hcame.cases he' with ⟨hwanted, -⟩ | ⟨f', hf', hpath', -⟩
            · exact hwanted.of_below hbelow
            · exact Or.inr ⟨f', hf', _, hpath', hbelow⟩
          exact hclear.apart _ hwanted f hf hpath

variable (hnorm : ∀ f ∈ added, ∃ norm, normalizePath f.vaultPath = .ok norm)

include hnorm

/-- The added files stand one after the other among what has come. -/
private theorem Came.added_files :
    List.Forall₂ (fun f e => normalizePath f.vaultPath = .ok e.path ∧ Placed (f.entry P e.path) e) added
      (new.filter fun e => e.kind = .file) := by
  have hitems := filter_additions P added addedDirs hnorm
  have hfiles := hcame.files
  generalize (additions P added addedDirs).filter (fun e => e.kind = .file) = xs at hitems hfiles
  generalize new.filter (fun e => e.kind = .file) = ys at hfiles
  clear hcame hnorm
  induction hitems generalizing ys with
  | nil =>
    cases hfiles
    exact .nil
  | cons hx _ ih =>
    cases hfiles with
    | cons hy hrest =>
      refine .cons ?_ (ih _ hrest)
      unfold Placed at hy ⊢
      rw [hx.2] at hy
      rw [hy]
      exact ⟨hx.1, rfl⟩

/-- Each added file is among what has come. -/
private theorem Came.of_added {f : AddedFile} (hf : f ∈ added) :
    ∃ e ∈ new, normalizePath f.vaultPath = .ok e.path ∧ Placed (f.entry P e.path) e := by
  obtain ⟨e, he, h⟩ := Keyed.exists_of_forall₂ (hcame.added_files hnorm).flip hf
  exact ⟨e, List.mem_of_mem_filter he, h⟩

/-- If the union has the shape of a tree, and its wanted directories are directories, nothing is in the way. -/
private theorem Came.clear {shape : List (Str × EntryKind)} (hshape : Shaped (es ++ new) shape)
    (hdirs : ∀ p, Wanted added addedDirs p → ∃ e ∈ es ++ new, normalizePath e.path = .ok p ∧ e.kind = .dir) :
    Clear es added addedDirs := by
  have hleft : ∀ e ∈ es, e ∈ es ++ new := fun e he => List.mem_append_left _ he
  have hright : ∀ e ∈ new, e ∈ es ++ new := fun e he => List.mem_append_right _ he
  refine ⟨fun p hp e he hpath => ?_, fun p hp f hf hpath => ?_, fun f hf p hpath e he q hq => ?_⟩
  · obtain ⟨d, hd, hdpath, hdir⟩ := hdirs p hp
    obtain rfl := hshape.inj (hleft e he) hd hpath hdpath
    obtain ⟨e', he', rfl⟩ := hcame.wanted hp
    have hclean : normalizePath e'.path = .ok e'.path := by
      rcases List.mem_append.1 he' with hold | hnew
      · exact cleanPath_iff.1 (cleanPath_of_normalizePath hpath)
      · exact hcame.clean hnew
    rw [hshape.inj he' (hleft e he) hclean hpath]
    exact ⟨rfl, hdir⟩
  · obtain ⟨d, hd, hdpath, hdir⟩ := hdirs p hp
    obtain ⟨e, he, hepath, hplaced⟩ := hcame.of_added hnorm hf
    obtain rfl := Except.ok.inj (hpath.symm.trans hepath)
    obtain rfl := hshape.inj hd (hright e he) hdpath (hcame.clean he)
    rw [hplaced] at hdir
    cases hdir
  · obtain ⟨e', he', hepath, hplaced⟩ := hcame.of_added hnorm hf
    obtain rfl := Except.ok.inj (hpath.symm.trans hepath)
    have hkind : e'.kind = .file := by rw [hplaced]; rfl
    refine ⟨?_, hshape.not_below (hright e' he') (hleft e he) (hcame.clean he') hq hkind⟩
    rintro rfl
    obtain rfl := hshape.inj (hleft e he) (hright e' he') hq (hcame.clean he')
    exact hcame.unseen e he' (List.mem_map_of_mem he)

end Union

/-! ### What is written -/

theorem Laid.split {offset stop : Nat} {es' : List Entry} (h : Laid offset (es ++ es') stop) :
    ∃ mid, Laid offset es mid ∧ Laid mid es' stop := by
  induction es generalizing offset with
  | nil => exact ⟨offset, .nil _, h⟩
  | cons e es ih =>
    cases h with
    | file hkind hoffset h =>
      obtain ⟨mid, h1, h2⟩ := ih h
      exact ⟨mid, .file hkind hoffset h1, h2⟩
    | dir hkind h =>
      obtain ⟨mid, h1, h2⟩ := ih h
      exact ⟨mid, .dir hkind h1, h2⟩

/-- Files that lie one after the other are the pieces of which the data are made. -/
theorem Laid.slices {α : Type*} {R : α → Entry → Prop} (bytes : α → Bytes) {fs : List α} {offset stop : Nat}
    (h : Laid offset es stop) (hfiles : List.Forall₂ R fs (es.filter fun e => e.kind = .file))
    (hsize : ∀ f e, R f e → e.size = (bytes f).length) {front : Bytes} (hfront : front.length = offset) :
    List.Forall₂ (fun f e => R f e ∧ sliceOf (front ++ fs.flatMap bytes) e = bytes f) fs
      (es.filter fun e => e.kind = .file) := by
  induction h generalizing fs front with
  | nil =>
    cases hfiles
    exact .nil
  | @file offset stop e es hkind hoffset _ ih =>
    rw [List.filter_cons_of_pos (by simpa using hkind)] at hfiles ⊢
    cases hfiles with
    | @cons f _ fs _ hf hrest =>
      have hlen := hsize f e hf
      rw [List.flatMap_cons, ← List.append_assoc]
      refine .cons ⟨hf, ?_⟩ (ih hrest (by rw [List.length_append, hfront, hlen]))
      unfold sliceOf
      rw [hoffset, ← hfront, List.append_assoc, List.drop_left, hlen, List.take_left]
  | @dir offset stop e es hkind _ ih =>
    rw [List.filter_cons_of_neg (by simp [hkind])] at hfiles ⊢
    exact ih hfiles hfront

theorem dataCiphertextLen_inj {a b chunkSize : Nat} (hs : 0 < chunkSize)
    (h : dataCiphertextLen a chunkSize = dataCiphertextLen b chunkSize) : a = b := by
  have hmono : ∀ {a b : Nat}, a ≤ b → numChunks a chunkSize ≤ numChunks b chunkSize := by
    intro a b hab
    unfold numChunks
    split
    · split
      · exact Nat.le_refl _
      · exact Nat.one_le_div_iff hs |>.2 (by omega)
    · rw [if_neg (by omega)]
      exact Nat.div_le_div_right (by omega)
  unfold dataCiphertextLen at h
  rcases Nat.le_total a b with hab | hab
  · have := Nat.mul_le_mul_right tagLen (hmono hab)
    omega
  · have := Nat.mul_le_mul_right tagLen (hmono hab)
    omega

/-- What has been written has been given, as much of it as was announced. -/
theorem length_of_writeContainerFrom {manifest : Manifest} {total : Nat} {R : ByteReader.{u}} {source : R.State}
    {sender : Identity C} {recipients : List Peer.PublicIdentity} {options : ExportOptions} {draws : Draws} {out : Bytes}
    (h : writeContainerFrom C manifest total source sender recipients options draws = .ok out) :
    (R.left source).2 = .ok () ∧ (R.left source).1.length = total := by
  obtain ⟨plan, hplan, hwrite⟩ := bind_eq_ok.1 h
  obtain ⟨hok, hwrite⟩ := writeFrom_ok_iff.1 hwrite
  obtain ⟨header, hm⟩ := ContainerPlan.new_eq_ok hplan
  obtain ⟨encData, trailer, hw⟩ := ContainerPlan.write_eq_ok hwrite
  have henc : encryptStreamWith P plan.suite.aeadAlg plan.cek plan.dataStreamNonce (C.aad plan.headerBytes)
      (R.left source).1 plan.chunkSize = .ok encData := hw.encData_eq
  have hlen := (encryptStreamWith_slice henc).1
  rw [hw.encData_length, hm.dataLen_eq, hm.chunkSize_eq] at hlen
  exact ⟨hok, (dataCiphertextLen_inj (Nat.pos_of_ne_zero hm.chunkSize_ne) hlen).symm⟩

theorem sliceOf_append {front back : Bytes} {e : Entry} (h : e.dataOffset + e.size ≤ front.length) :
    sliceOf (front ++ back) e = sliceOf front e := by
  unfold sliceOf
  rw [List.drop_append_of_le_length (by omega), List.take_append_of_le_length (by rw [List.length_drop]; omega)]

theorem filesSize_eq_length {α : Type*} {R : α → Entry → Prop} (bytes : α → Bytes) {fs : List α}
    (hfiles : List.Forall₂ R fs (es.filter fun e => e.kind = .file)) (hsize : ∀ f e, R f e → e.size = (bytes f).length) :
    filesSize es = (fs.flatMap bytes).length := by
  unfold filesSize
  generalize es.filter (fun e => e.kind = .file) = files at hfiles
  induction hfiles with
  | nil => rfl
  | cons h _ ih => rw [List.map_cons, List.sum_cons, List.flatMap_cons, List.length_append, ih, hsize _ _ h]

/-- The normal paths of a shaped list are distinct. -/
theorem Shaped.once {shape : List (Str × EntryKind)} (h : Shaped es shape) :
    (es.map fun e => normalizePath e.path).Nodup := by
  have heq : (es.map fun e => normalizePath e.path) = (shape.map (·.1)).map .ok := by
    obtain ⟨hn, -, -⟩ := h
    induction hn with
    | nil => rfl
    | cons hx _ ih => rw [List.map_cons, ih, hx.1, List.map_cons, List.map_cons]
  rw [heq]
  exact h.nodup.map fun _ _ => Except.ok.inj

theorem Shaped.paths_nodup {shape : List (Str × EntryKind)} (h : Shaped es shape) : (es.map (·.path)).Nodup := by
  refine List.Nodup.of_map normalizePath ?_
  rw [List.map_map]
  exact h.once

/-- The manifest with what is asked for. -/
def Manifest.union (P : Prims) (m : Manifest) (added : List AddedFile) (addedDirs : List Str) : Manifest :=
  ⟨m.vaultName, m.createdAt, (additions P added addedDirs).foldl insertUnseen m.entries⟩

/-- The manifest and its data are within the limits of the format. -/
def Manifest.Within (C : FsecPrims P) (m : Manifest) (chunkSize : Nat) : Prop :=
  m.entries.length ≤ maxManifestEntries ∧ (C.encodeManifest m).length + tagLen ≤ maxManifestLen ∧
    numChunks (filesSize m.entries) chunkSize ≤ u32Max

/-- The container holds the stored entries, the added ones and the directories above these, and nothing else, each path
once; and every file reads as it should. -/
structure IsUnion (C : FsecPrims P) (r : VaultReader) (file : Bytes) (added : List AddedFile) (addedDirs : List Str)
    (r' : VaultReader) (out : Bytes) : Prop where
  named : r'.manifest.vaultName = r.manifest.vaultName ∧ r'.manifest.createdAt = r.manifest.createdAt
  stored : ∀ e ∈ r.manifest.entries, e ∈ r'.manifest.entries
  dirs : ∀ p, Wanted added addedDirs p → ∃ e ∈ r'.manifest.entries, normalizePath e.path = .ok p ∧ e.kind = .dir
  files : ∀ f ∈ added, ∃ e ∈ r'.manifest.entries,
    normalizePath f.vaultPath = .ok e.path ∧ e.kind = .file ∧ e.mtime = f.mtime ∧ e.mode = f.mode
  only : ∀ e ∈ r'.manifest.entries, e ∈ r.manifest.entries ∨ (Wanted added addedDirs e.path ∧ e.kind = .dir) ∨
    ∃ f ∈ added, normalizePath f.vaultPath = .ok e.path ∧ e.kind = .file
  once : (r'.manifest.entries.map fun e => normalizePath e.path).Nodup
  keeps : ∀ e ∈ r.manifest.entries, e.kind = .file →
    r'.decryptEntryToWriter C out e = r.decryptEntryToWriter C file e
  reads : ∀ f ∈ added, r'.readEntryToWriter C out f.vaultPath = .ok f.source.bytes

/-- The container opens and is the union of the old one and of what is added. -/
def SoundUnion (C : FsecPrims P) (r : VaultReader) (file : Bytes) (added : List AddedFile) (addedDirs : List Str)
    (identity : Identity C) (out : Bytes) : Prop :=
  ∃ r', openVaultFromPath C out identity = .ok r' ∧ IsUnion C r file added addedDirs r' out

variable {r r' : VaultReader} {file out : Bytes}

/-- A container with these entries and these data is the union. -/
private theorem Came.isUnion {data : Bytes} {shape : List (Str × EntryKind)}
    (hcame : Came r.manifest.entries (additions P added addedDirs) new)
    (hnorm : ∀ f ∈ added, ∃ norm, normalizePath f.vaultPath = .ok norm)
    (hclear : Clear r.manifest.entries added addedDirs) (hshape : Shaped (r.manifest.entries ++ new) shape)
    (hl : Laid 0 r.manifest.entries data.length)
    (hlnew : Laid data.length new (data ++ added.flatMap fun f => f.source.bytes).length)
    (hd : r.Holds C file data) (hmanifest : r'.manifest = r.manifest.union P added addedDirs)
    (hd' : r'.Holds C out (data ++ added.flatMap fun f => f.source.bytes))
    (hmax : (data ++ added.flatMap fun f => f.source.bytes).length ≤ u64Max) : IsUnion C r file added addedDirs r' out := by
  have hentries : r'.manifest.entries = r.manifest.entries ++ new := by
    rw [hmanifest, ← hcame.eq]
    rfl
  have hmax' : data.length ≤ u64Max := by
    rw [List.length_append] at hmax
    omega
  have hl' : Laid 0 r'.manifest.entries (data ++ added.flatMap fun f => f.source.bytes).length := by
    rw [hentries]
    exact hl.append hlnew
  refine ⟨?_, ?_, ?_, ?_, ?_, ?_, ?_, ?_⟩
  · rw [hmanifest]
    exact ⟨rfl, rfl⟩
  · intro e he
    rw [hentries]
    exact List.mem_append_left _ he
  · intro p hp
    obtain ⟨e, he, rfl⟩ := hcame.wanted hp
    rcases List.mem_append.1 he with hold | hnew
    · exact ⟨e, hentries ▸ he, hp.clean, (hclear.dirs _ hp e hold hp.clean).2⟩
    · refine ⟨e, hentries ▸ he, hp.clean, ?_⟩
      rcases hcame.cases hnew with ⟨-, hdir⟩ | ⟨f, hf, hpath, -⟩
      · exact hdir
      · exact absurd hpath (hclear.apart _ hp f hf)
  · intro f hf
    obtain ⟨e, he, hpath, hplaced⟩ := hcame.of_added hnorm hf
    refine ⟨e, hentries ▸ List.mem_append_right _ he, hpath, ?_⟩
    rw [hplaced]
    exact ⟨rfl, rfl, rfl⟩
  · intro e he
    rw [hentries] at he
    rcases List.mem_append.1 he with hold | hnew
    · exact Or.inl hold
    · rcases hcame.cases hnew with hdir | ⟨f, hf, hpath, hplaced⟩
      · exact Or.inr (Or.inl hdir)
      · refine Or.inr (Or.inr ⟨f, hf, hpath, ?_⟩)
        rw [hplaced]
        rfl
  · rw [hentries]
    exact hshape.once
  · intro e he hk
    have hbound := (hl.bounds he hk).2
    rw [decryptEntryToWriter_eq hd hbound hmax',
      decryptEntryToWriter_eq hd' (by rw [List.length_append]; omega) hmax]
    change (if P.hashContent (sliceOf _ e) = e.blake3 then Except.ok (sliceOf _ e) else _) = _
    rw [sliceOf_append hbound]
    rfl
  · intro f hf
    have hslices := hlnew.slices (fun f : AddedFile => f.source.bytes) (hcame.added_files hnorm)
      (fun f e h => by rw [h.2]; rfl) rfl
    obtain ⟨e, he, ⟨hpath, hplaced⟩, hslice⟩ := Keyed.exists_of_forall₂ hslices.flip hf
    have hin : e ∈ r'.manifest.entries := hentries ▸ List.mem_append_right _ (List.mem_of_mem_filter he)
    have hclean := hcame.clean (List.mem_of_mem_filter he)
    have hkind : e.kind = .file := by simpa using (List.mem_filter.1 he).2
    have hread := readEntryToWriter_eq hd' hl' hmax (hentries ▸ hshape.paths_nodup) hin hkind hclean
    have hhash : e.blake3 = P.hashContent f.source.bytes := by rw [hplaced]; rfl
    rw [hslice, hhash, if_pos rfl] at hread
    rw [← hread]
    -- the path counts only in normal form
    unfold VaultReader.readEntryToWriter VaultReader.fileEntry
    rw [hpath, hclean]

section Sound

variable {sender identity : Identity C} {recipients : List Peer.PublicIdentity} {options : ExportOptions} {draws : Draws}

/-- What `append_files` has written when it returns. -/
private theorem appendFiles_ok (ha : Accepted C r file) {disk : Disk} (hsteady : ∀ f ∈ added, f.source.Steady)
    (h : r.appendFiles C disk file sender recipients options draws added addedDirs = .ok out) :
    (∀ f ∈ added, ∃ norm, normalizePath f.vaultPath = .ok norm) ∧
      Fresh r.manifest.entries (additions P added addedDirs) ∧
      ∃ s : (StreamDecryptReaderOn.pieces P disk.sure).State, r.plaintextReaderOn C disk file = .ok s ∧
        writeContainerFrom C (r.manifest.union P added addedDirs) (filesSize (r.manifest.union P added addedDirs).entries)
          (R := PieceSource.chain Error UInt8)
          (⟨StreamDecryptReaderOn.pieces P disk.sure, s⟩ :: added.map (·.source.streamed)) sender recipients options draws =
            .ok out := by
  obtain ⟨st, hst, h⟩ := bind_eq_ok.1 h
  obtain ⟨st', hst', h⟩ := bind_eq_ok.1 h
  obtain ⟨s, hs, h⟩ := bind_eq_ok.1 h
  have hsize := ha.laid.size_eq
  rw [Nat.zero_add] at hsize
  have hstart : Appending.Tracks ⟨r.manifest.entries, r.manifest.entries.map (·.path), r.totalPlaintext⟩ :=
    ⟨fun _ => Iff.rfl, hsize.symm⟩
  obtain ⟨htracks, hentries, -⟩ := pushDirs_spec hstart hst
  obtain ⟨htracks', hentries', hfresh, hnorm⟩ := pushFiles_spec hsteady htracks hst'
  have hunion : st'.entries = (r.manifest.union P added addedDirs).entries := by
    rw [hentries', hentries, ← List.foldl_append]
    rfl
  refine ⟨hnorm, ?_, s, hs, ?_⟩
  · rw [additions, fresh_append, ← hentries]
    refine ⟨fresh_of_dirs fun e he => ?_, hfresh⟩
    obtain ⟨d, -, he⟩ := List.mem_flatMap.1 he
    obtain ⟨norm, -, p, -, rfl⟩ := mem_dirItems.1 he
    rfl
  · rw [htracks'.offset, hunion] at h
    exact h

/-- When `append_files` returns, what it has written is the union of the container and of what is added exactly when
nothing that is added is in the way of anything, and the union is within the limits of the format. -/
theorem appendFiles_sound_iff (hopen : TagOnly P) {owner : Identity C} (haccept : openVaultFromPath C file owner = .ok r)
    (disk : Disk) (hsteady : ∀ f ∈ added, f.source.Steady) (hmem : IsRecipient recipients identity)
    (hcoll : NoCollision recipients identity)
    (h : r.appendFiles C disk file sender recipients options draws added addedDirs = .ok out) :
    SoundUnion C r file added addedDirs identity out ↔
      Clear r.manifest.entries added addedDirs ∧ (r.manifest.union P added addedDirs).Within C options.chunkSize := by
  have ha := accepted_of_open haccept
  obtain ⟨hnorm, hfresh, s, hs, hwrite⟩ := appendFiles_ok ha hsteady h
  obtain ⟨new, hcame⟩ := came_of_fresh hfresh
  have hentries : (r.manifest.union P added addedDirs).entries = r.manifest.entries ++ new := hcame.eq
  obtain ⟨hok, hlen⟩ := length_of_writeContainerFrom hwrite
  -- the sources give the old data and then the files
  have hall := PieceSource.of_chainLeft_ok hok
  have hleft := congrArg Prod.fst (PieceSource.chainLeft_of_ok hall)
  obtain ⟨stream, hstream, hold⟩ := plaintextReaderOn_left hs
  generalize hdata : (stream.left P.openBytes).1 = data at hold
  have hsource : ((PieceSource.chain Error UInt8).left
      (⟨StreamDecryptReaderOn.pieces P disk.sure, s⟩ :: added.map (·.source.streamed))).1 =
        data ++ added.flatMap fun f => f.source.bytes := by
    refine hleft.trans ?_
    rw [List.flatMap_cons, List.flatMap_map]
    exact congrArg (· ++ added.flatMap fun f => f.source.bytes) (congrArg Prod.fst hold)
  rw [hsource] at hlen
  -- so the old data are complete
  have hsize := ha.laid.size_eq
  have hsized := filesSize_eq_length (fun f : AddedFile => f.source.bytes) (hcame.added_files hnorm)
    fun f e hfe => by rw [hfe.2]; rfl
  have htotal : data.length = r.totalPlaintext := by
    rw [hentries, filesSize_append, List.length_append] at hlen
    omega
  have hheld : r.Holds C file data := hdata ▸ holds_of_stream hopen ha.fits hstream (by rw [hdata]; omega)
  have hl : Laid 0 (r.manifest.union P added addedDirs).entries
      (filesSize (r.manifest.union P added addedDirs).entries) := by
    refine laid_foldl ?_ _
    rw [← Nat.zero_add (filesSize _), hsize]
    exact ha.laid
  obtain ⟨hopens, hreads⟩ := opens_iff hopen hwrite hl (by rw [hsource]; exact hlen) hmem hcoll
  rw [hsource] at hreads
  rw [hentries] at hopens
  constructor
  · rintro ⟨r', hr', hunion⟩
    obtain ⟨hcount, hman, hchunks, shape, hshape⟩ := hopens.1 ⟨r', hr'⟩
    obtain ⟨hmanifest, -⟩ := hreads r' hr'
    have hdirs := hunion.dirs
    rw [hmanifest, hentries] at hdirs
    refine ⟨hcame.clear hnorm hshape hdirs, ?_, hman, ?_⟩
    · rw [hentries]
      exact hcount
    · rw [hentries]
      exact hchunks
  · rintro ⟨hclear, hcount, hman, hchunks⟩
    rw [hentries] at hcount hchunks
    obtain ⟨shape, hshape⟩ := ha.shape
    have hshape' := hcame.shaped hshape hclear
    obtain ⟨r', hr'⟩ := hopens.2 ⟨hcount, hman, hchunks, _, hshape'⟩
    obtain ⟨hmanifest, hheld'⟩ := hreads r' hr'
    have hmax : (data ++ added.flatMap fun f => f.source.bytes).length ≤ u64Max := by
      rw [hheld'.length]
      exact (accepted_of_open hr').total_le
    obtain ⟨mid, hl1, hl2⟩ := Laid.split (hentries ▸ hl)
    obtain rfl := ha.laid.unique hl1
    rw [← hentries, ← hlen, ← htotal] at hl2
    exact ⟨r', hr', hcame.isUnion hnorm hclear hshape' (htotal ▸ ha.laid) hl2 hheld hmanifest hheld' hmax⟩

end Sound

/-! ### Adding below a file -/

namespace Sym

/-- A file of the disk. -/
def onDisk (bytes : Bytes) : SourceFile := ⟨⟨.ofPieces Error UInt8, (bytes, [])⟩, ⟨.ofPieces Error UInt8, (bytes, [])⟩⟩

/-- A file below the file of the container. -/
def belowFile : AddedFile := ⟨"a/f/x".toList, onDisk [7], none, none⟩

/-- A file next to it, in a directory that is not there. -/
def besideFile : AddedFile := ⟨"b/x".toList, onDisk [7, 8], none, none⟩

/-- Adding to the container. -/
def append (added : List AddedFile) (addedDirs : List Str) : Result Bytes :=
  notedReader.appendFiles container disk noted alice [alice.publicPart] ⟨.classic, 1⟩ draws added addedDirs

private theorem append_belowFile_ok : (append [belowFile] []).toOption.isSome = true := by decide +kernel

private theorem append_besideFile_ok : (append [besideFile] ["a".toList]).toOption.isSome = true := by decide +kernel

end Sym

/-- A file is added below a file: `append_files` returns a container that its reader refuses. -/
theorem appendFiles_below_file :
    ¬ ∀ added addedDirs out, (∀ f ∈ added, f.source.Steady) → Sym.append added addedDirs = .ok out →
      SoundUnion Sym.container Sym.notedReader Sym.noted added addedDirs Sym.alice out := by
  intro hall
  have hout := eq_ok_get Sym.append_belowFile_ok
  obtain ⟨r', hr', -⟩ := hall [Sym.belowFile] [] _ (by simp [Sym.belowFile, Sym.onDisk, SourceFile.Steady]) hout
  have hrefused : (openVaultFromPath Sym.container
      ((Sym.append [Sym.belowFile] []).toOption.get Sym.append_belowFile_ok) Sym.alice).toOption.isSome = false := by
    decide +kernel
  rw [hr'] at hrefused
  cases hrefused

theorem appendFiles_sound_iff_beside :
    ∃ out, Sym.append [Sym.besideFile] ["a".toList] = .ok out ∧
      (SoundUnion Sym.container Sym.notedReader Sym.noted [Sym.besideFile] ["a".toList] Sym.alice out ↔
        Clear Sym.notedReader.manifest.entries [Sym.besideFile] ["a".toList] ∧
          (Sym.notedReader.manifest.union FileSec.Sym [Sym.besideFile] ["a".toList]).Within Sym.container 1) := by
  obtain ⟨out, hout⟩ : ∃ out, Sym.append [Sym.besideFile] ["a".toList] = .ok out := ⟨_, eq_ok_get Sym.append_besideFile_ok⟩
  have hsteady : ∀ f ∈ [Sym.besideFile], f.source.Steady := by simp [Sym.besideFile, Sym.onDisk, SourceFile.Steady]
  have hiff := appendFiles_sound_iff Sym.tagOnly Sym.open_noted Sym.disk hsteady Sym.mem_alice Sym.noCollision_alice hout
  exact ⟨out, hout, hiff⟩

end FileSec.Fsec
