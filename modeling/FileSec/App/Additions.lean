import FileSec.App.Session

/-!
# Adding files and folders

What the app adds to the folder that is shown: files and folders from the disk (`plan_additions`), a new file
(`spawn_new_file`) and a new folder (`spawn_new_folder`).  Each is a job that edits the open vault.
-/

namespace FileSec

open Prog

variable {S : StorePrims}

/-! ### Names -/

/-- `rsplit_once` -/
def rsplitOnce (c : Char) : Str → Option (Str × Str)
  | [] => none
  | a :: s =>
    match rsplitOnce c s with
    | some (l, r) => some (a :: l, r)
    | none => if a = c then some ([], s) else none

theorem rsplitOnce_eq_none {c : Char} {s : Str} : rsplitOnce c s = none ↔ c ∉ s := by
  induction s with
  | nil => simp [rsplitOnce]
  | cons a s ih =>
    unfold rsplitOnce
    cases h : rsplitOnce c s with
    | some p =>
      have hmem : c ∈ s := by
        by_contra hn
        rw [ih.2 hn] at h
        cases h
      simp [hmem]
    | none =>
      have hn := ih.1 h
      by_cases hac : a = c
      · simp [hac]
      · simp [hac, hn, Ne.symm hac]

theorem rsplitOnce_append {c : Char} {s l r : Str} (t : Str) (h : rsplitOnce c s = some (l, r)) :
    rsplitOnce c (t ++ s) = some (t ++ l, r) := by
  induction t with
  | nil => exact h
  | cons a t ih => simp [rsplitOnce, ih]

theorem rsplitOnce_eq {c : Char} {s l r : Str} (h : rsplitOnce c s = some (l, r)) : s = l ++ c :: r := by
  induction s generalizing l with
  | nil => cases h
  | cons a s ih =>
    unfold rsplitOnce at h
    cases hs : rsplitOnce c s with
    | some p =>
      rw [hs] at h
      obtain ⟨rfl, rfl⟩ := Prod.mk.inj (Option.some.inj h)
      rw [ih hs]
      rfl
    | none =>
      rw [hs] at h
      simp only at h
      split at h
      · rename_i hac
        obtain ⟨rfl, rfl⟩ := Prod.mk.inj (Option.some.inj h)
        rw [hac]
        rfl
      · cases h

/-- `{stem} ({i}){ext}` -/
def numbered (base : Str) (i : Nat) : Str :=
  let (stem, ext) := match rsplitOnce '.' base with
    | some (s, e) => (s, '.' :: e)
    | none => (base, [])
  stem ++ " (".toList ++ (toString i).toList ++ ")".toList ++ ext

/-- `unique_name_in` -/
def uniqueNameIn (existing : List Str) (base : Str) : Str :=
  if base ∈ existing then (((List.range' 1 9999).map (numbered base)).find? (· ∉ existing)).getD base else base

/-! ### Sources -/

/-- A file of the disk: what hashing it reads, and what opening it and then reading it gives. -/
structure SourceFile where
  hashed : Result Bytes
  content : Result (Result Bytes)
  io : BlobIo
  mtime : Option Int

/-- A file name of the operating system. -/
structure OsName where
  text : Str
  ne_nil : text ≠ []
  no_slash : '/' ∉ text

/-- What `walkdir` finds at a path. -/
inductive WalkKind where
  | dir
  /-- A file, and whether it can be opened. -/
  | file (opens : Bool) (f : SourceFile)
  | other

/-- An entry of a walk, at a path relative to the folder walked. -/
structure WalkEntry where
  rel : Str
  kind : WalkKind

/-- A path chosen to be added. -/
inductive Source where
  /-- Its metadata cannot be read. -/
  | missing
  | dir (fileName : Option OsName) (members : List WalkEntry)
  /-- A file, and whether it can be opened. -/
  | file (fileName : Option OsName) (opens : Bool) (f : SourceFile)

/-- `AddedFile`, whose mode is `None`. -/
structure AddedFile where
  vaultPath : Str
  source : SourceFile

/-! ### The plan -/

/-- The variables of `plan_additions`. -/
structure Plan where
  existing : List Str
  added : List AddedFile
  dirs : List Str
  failed : Nat

/-- Plan a directory. -/
def Plan.addDir (p : Plan) (path : Str) : Plan := { p with existing := path :: p.existing, dirs := p.dirs ++ [path] }

/-- Plan a file. -/
def Plan.addFile (p : Plan) (path : Str) (f : SourceFile) : Plan :=
  { p with existing := path :: p.existing, added := p.added ++ [⟨path, f⟩] }

/-- One round of the loop over the members of a folder; `root` is the folder's path. -/
def Plan.addMember (root : Str) (p : Plan) (e : WalkEntry) : Plan :=
  if e.rel = [] then p
  else
    let path := root ++ '/' :: e.rel
    if path ∈ p.existing then p
    else
      match e.kind with
      | .dir => p.addDir path
      | .file opens f => if opens then p.addFile path f else p
      | .other => p

/-- The name of a path, or what stands for it. -/
def nameOr (fileName : Option OsName) (default : Str) : Str := (fileName.map (·.text)).getD default

/-- One round of the loop over the sources. -/
def Plan.addSource (into : Str) (p : Plan) : Source → Plan
  | .missing => { p with failed := p.failed + 1 }
  | .dir fileName members => members.foldl (Plan.addMember (under into (nameOr fileName "folder".toList))) p
  | .file fileName opens f =>
    if opens then p.addFile (uniqueNameIn p.existing (under into (nameOr fileName "file".toList))) f
    else { p with failed := p.failed + 1 }

/-- The plan before the first source. -/
def Plan.start (entries : List EntryV2) : Plan := ⟨entries.map (·.path), [], [], 0⟩

/-- `plan_additions` -/
def planAdditions (entries : List EntryV2) (into : Str) (sources : List Source) : Plan :=
  sources.foldl (Plan.addSource into) (.start entries)

/-! ### The jobs -/

/-- The operation for a file. -/
def AddedFile.op (a : AddedFile) : Op :=
  .putFile a.vaultPath a.source.hashed a.source.content a.source.io a.source.mtime none

/-- The operations of `append_files_to_vault`. -/
def appendOps (added : List AddedFile) (dirs : List Str) : List Op := dirs.map .mkdir ++ added.map AddedFile.op

/-- `append_files_to_vault`; `space` is whether there is enough free space. -/
def appendFilesToVault (reader : VaultReaderV2 S.toPrims) (added : List AddedFile) (dirs : List Str) (space : Bool)
    (io : Nat → CommitIo) : StoreM S Unit := do
  let _ ← liftM reader.stateOr
  if space then mutateVaultInBatches reader (appendOps added dirs) io else throw notEnoughSpace

/-- `put_bytes_in_vault` -/
def putBytesInVault (reader : VaultReaderV2 S.toPrims) (vaultPath : Str) (bytes : Bytes) (blob : BlobIo)
    (mtime : Option Int) (io : CommitIo) : StoreM S Unit :=
  mutateVault reader ⟨some maxBatchOps, .ofList [.putBytes vaultPath bytes blob mtime none], io⟩

/-- What the user adds; a leaf is the trimmed text of its field. -/
inductive Addition where
  | files (sources : List Source) (space : Bool) (io : Nat → CommitIo)
  | newFolder (leaf : Str) (space : Bool) (io : Nat → CommitIo)
  | newFile (leaf : Str) (blob : BlobIo) (now : Int) (io : CommitIo)

/-- `"..." already exists here.` -/
def alreadyExists (leaf : Str) : Str := '"' :: leaf ++ "\" already exists here.".toList

/-- The checks of a typed name, and then the work on the vault. -/
def withNewName (what leaf path : Str) (entries : List EntryV2) (work : StoreM S Unit) : StoreM S Unit :=
  if leaf = [] then throw ("Enter a ".toList ++ what ++ " name.".toList)
  else if '/' ∈ leaf then throw (what ++ " names can't contain “/”.".toList)
  else if entries.any (·.path = path) then throw (alreadyExists leaf)
  else work

/-- The work of an addition to the folder `into`, up to `reopen_after_save`. -/
def Addition.edit (reader : VaultReaderV2 S.toPrims) (into : Str) : Addition → StoreM S Unit
  | .files sources space io =>
    let plan := planAdditions reader.manifest.entries into sources
    if plan.added.isEmpty ∧ plan.dirs.isEmpty then
      throw (if plan.failed > 0 then (toString plan.failed).toList ++ " item(s) could not be read.".toList
        else "Nothing new to add.".toList)
    else appendFilesToVault reader plan.added plan.dirs space io
  | .newFolder leaf space io =>
    withNewName "folder".toList leaf (under into leaf) reader.manifest.entries
      (appendFilesToVault reader [] [under into leaf] space io)
  | .newFile leaf blob now io =>
    withNewName "file".toList leaf (under into leaf) reader.manifest.entries
      (putBytesInVault reader (under into leaf) [] blob (some now) io)

/-- The job of `spawn_add_paths`, `spawn_new_folder` and `spawn_new_file`. -/
def Addition.job (a : Addition) (identity : Identity) (id : Str) (reader : VaultReaderV2 S.toPrims) (registry : Registry)
    (into : Str) (now : Int) (gc : GcIo) : Task S :=
  editVaultJob identity id registry (a.edit reader into) now gc

end FileSec
