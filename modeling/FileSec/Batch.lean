import FileSec.Lib.Keyed
import FileSec.Reader

/-!
# Batches of edits

`VaultBatch` and its operations (`format_v2.rs`): a copy of the manifest with an index by path, edited by any number of
operations before it is sealed once.  An operation may fail in the middle; the closure that edits the batch sees its
outcome and decides how to go on (`Edits`).
-/

namespace FileSec

open CrashDir SepPath Prog

/-- `StagedBlob` -/
structure StagedBlob where
  fileId : Str
  key : Bytes
  nonce : Bytes
  deriving DecidableEq

/-- How the machine treats the write of one blob. -/
structure BlobIo where
  /-- The temp file cannot be created, written, synced or renamed. -/
  fault : Option Error
  /-- Whether the blob can be unlinked again. -/
  unlinkOk : Bool

/-- `VaultBatch`; `host` is the machine the batch writes its blobs to. -/
structure VaultBatch (P : Prims) where
  reader : VaultReaderV2 P
  manifest : ManifestV2
  /-- Path → position in `manifest.entries`. -/
  index : Str → Option Nat
  staged : List Str
  superseded : List Str
  changed : Bool
  ops : Nat
  limit : Option Nat
  host : Host P

variable {P : Prims}

/-- Programs that edit a batch. -/
abbrev BatchM (P : Prims) := Prog (VaultBatch P) Error

/-- `index_entries` -/
def indexEntries (m : ManifestV2) : Str → Option Nat := Keyed.index EntryV2.path m.entries

/-- `VaultBatch::new` -/
def VaultBatch.new (reader : VaultReaderV2 P) (limit : Option Nat) (host : Host P) : VaultBatch P where
  reader := reader
  manifest := reader.manifest
  index := indexEntries reader.manifest
  staged := []
  superseded := []
  changed := false
  ops := 0
  limit := limit
  host := host

/-! ### Blobs -/

/-- `encrypt_blob`, with the bytes it has read from the source. -/
def encryptBlob (P : Prims) (name : Str) (alg : AeadAlg) (key nonce : Bytes) (aad : P.Raw) (source : Result Bytes)
    (fault : Option Error) : HostM P Bytes :=
  match fault with
  | some e => throw e
  | none => do
    let bytes ← source
    let ciphertext ← encryptStreamWith P alg key nonce aad bytes defaultChunkSize
    modify fun h => { h with blobs := h.blobs.write name ciphertext }
    pure bytes

/-- `write_blob` -/
def VaultReaderV2.writeBlob (r : VaultReaderV2 P) (blake3 : Bytes) (size : Nat) (source : Result Bytes) (io : BlobIo) :
    HostM P StagedBlob := do
  let id ← draw P 16
  let key ← draw P 32
  let nonce ← draw P r.suite.aeadAlg.streamNonceLen
  let bytes ← encryptBlob P (hex id) r.suite.aeadAlg key nonce r.headerBytes source io.fault
  if bytes.length ≠ size ∨ P.hashContent bytes ≠ blake3 then do
    modify fun h => if io.unlinkOk then { h with blobs := h.blobs.unlink (hex id) } else h
    throw .auth
  else pure ⟨hex id, key, nonce⟩

/-- `write_blob` from within a batch. -/
def VaultBatch.writeBlob (blake3 : Bytes) (size : Nat) (source : Result Bytes) (io : BlobIo) : BatchM P StagedBlob := do
  let b ← get
  zoom (·.host) (fun h b => { b with host := h }) (b.reader.writeBlob blake3 size source io)

/-! ### The parts of the operations -/

/-- `count_op` -/
def countOp : BatchM P Unit := do
  modify fun b => { b with ops := b.ops + 1 }
  let b ← get
  match b.limit with
  | some limit =>
    if b.ops > limit then
      throw (.vault ("a batch holds at most ".toList ++ (toString limit).toList ++ " operations".toList))
    else pure ()
  | none => pure ()

/-- `kind_at` -/
def VaultBatch.kindAt (b : VaultBatch P) (path : Str) : Option EntryKind :=
  (b.index path).bind fun i => b.manifest.entries[i]?.map (·.kind)

/-- `reindex` -/
def VaultBatch.reindex (b : VaultBatch P) : VaultBatch P := { b with index := indexEntries b.manifest }

/-- Index an entry and push it: the two steps that end every insertion. -/
def VaultBatch.push (b : VaultBatch P) (e : EntryV2) : VaultBatch P :=
  { b with
    index := Function.update b.index e.path (some b.manifest.entries.length)
    manifest := { b.manifest with entries := b.manifest.entries ++ [e] } }

/-- The loop of `ensure_dirs`; `acc` is the path of the components so far. -/
def ensureDirsFrom : Str → List Str → BatchM P Unit
  | _, [] => pure ()
  | acc, comp :: comps => do
    let acc := (if acc = [] then [] else acc ++ ['/']) ++ comp
    let b ← get
    match b.kindAt acc with
    | some .dir => ensureDirsFrom acc comps
    | some .file =>
      throw (.vault ("a file exists at ".toList ++ acc ++ "; it cannot contain other entries".toList))
    | none => do
      modify fun b => b.push (dirEntry acc)
      ensureDirsFrom acc comps

/-- `ensure_dirs` -/
def ensureDirs (norm : Str) : BatchM P Unit :=
  let comps := norm.splitOn '/'
  ensureDirsFrom [] (comps.take (comps.length - 1))

/-- The attributes of the entry `place` makes. -/
def fileAttrs (blob : StagedBlob) (blake3 : Bytes) (size : Nat) (mtime : Option Int) (mode : Option Nat) :
    EntryAttrs where
  kind := .file
  size := size
  mtime := mtime
  mode := mode
  blake3 := blake3
  fileId := some blob.fileId
  key := some blob.key
  nonce := some blob.nonce
  chunkSize := defaultChunkSize

/-- `place` -/
def place (norm : Str) (blob : StagedBlob) (blake3 : Bytes) (size : Nat) (mtime : Option Int) (mode : Option Nat) :
    BatchM P Unit := do
  modify fun b => { b with staged := b.staged ++ [blob.fileId] }
  let entry : EntryV2 := { fileAttrs blob blake3 size mtime mode with path := norm }
  let b ← get
  match b.index norm with
  | some i =>
    modify fun b => { b with
      manifest := { b.manifest with entries := b.manifest.entries.set i entry }
      superseded := b.superseded ++ (b.manifest.entries[i]?.bind (·.fileId)).toList }
  | none => do
    ensureDirs norm
    modify fun b => b.push entry
  modify fun b => { b with changed := true }

/-- `reject_dir` -/
def rejectDir (norm : Str) : BatchM P Unit := do
  let b ← get
  if b.kindAt norm = some .dir then throw (.vault ("a directory exists at ".toList ++ norm)) else pure ()

/-- The shared end of `mkdir` and `add_dir_trusted`. -/
def insertDir (norm : Str) : BatchM P Unit := do
  ensureDirs norm
  modify fun b => { b.push (dirEntry norm) with changed := true }

/-! ### The operations -/

/-- `put_file`; `hashed` is what `hash_path` reads, `source` what opening the file gives and then reading it. -/
def putFile (vaultPath : Str) (hashed : Result Bytes) (source : Result (Result Bytes)) (io : BlobIo)
    (mtime : Option Int) (mode : Option Nat) : BatchM P Unit := do
  countOp
  let norm ← normalizePath vaultPath
  rejectDir norm
  let first ← hashed
  let stream ← source
  let blob ← VaultBatch.writeBlob (P.hashContent first) first.length stream io
  place norm blob (P.hashContent first) first.length mtime mode

/-- `put_bytes` -/
def putBytes (vaultPath : Str) (bytes : Bytes) (io : BlobIo) (mtime : Option Int) (mode : Option Nat) :
    BatchM P Unit := do
  countOp
  let norm ← normalizePath vaultPath
  rejectDir norm
  let blob ← VaultBatch.writeBlob (P.hashContent bytes) bytes.length (.ok bytes) io
  place norm blob (P.hashContent bytes) bytes.length mtime mode

/-- `mkdir` -/
def mkdir (vaultPath : Str) : BatchM P Unit := do
  countOp
  let norm ← normalizePath vaultPath
  let b ← get
  match b.kindAt norm with
  | some .dir => pure ()
  | some .file => throw (.vault ("a file exists at ".toList ++ norm))
  | none => insertDir norm

/-- `add_dir_trusted` -/
def addDirTrusted (path : Str) : BatchM P Unit := do
  let norm ← normalizeStoredPath path
  let b ← get
  match b.kindAt norm with
  | some .dir => pure ()
  | some .file => throw (.format "a path is both a file and a directory".toList)
  | none => insertDir norm

/-- `put_stream_trusted` -/
def putStreamTrusted (path : Str) (blake3 : Bytes) (size : Nat) (source : Result Bytes) (io : BlobIo)
    (mtime : Option Int) (mode : Option Nat) : BatchM P Unit := do
  let norm ← normalizeStoredPath path
  rejectDir norm
  let blob ← VaultBatch.writeBlob blake3 size source io
  place norm blob blake3 size mtime mode

/-- `remove` -/
def remove (vaultPath : Str) : BatchM P Unit := do
  countOp
  let norm ← normalizeStoredPath vaultPath
  let b ← get
  let kept := b.manifest.entries.filter fun e => ¬ (e.path = norm ∨ norm ++ ['/'] <+: e.path)
  let removed := (b.manifest.entries.filter fun e => e.path = norm ∨ norm ++ ['/'] <+: e.path).filterMap (·.fileId)
  if kept.length ≠ b.manifest.entries.length then
    modify fun b => VaultBatch.reindex { b with
      manifest := { b.manifest with entries := kept }
      superseded := b.superseded ++ removed
      changed := true }
  else pure ()

/-- The new path of an entry when `from` is renamed to `to`. -/
def renamePath (src dst path : Str) : Str :=
  if path = src then dst
  else
    match (src ++ ['/']).isPrefixOf? path with
    | some rest => dst ++ '/' :: rest
    | none => path

/-- `rename` -/
def rename (vaultFrom vaultTo : Str) : BatchM P Unit := do
  countOp
  let src ← normalizeStoredPath vaultFrom
  let dst ← normalizePath vaultTo
  if src = dst then pure ()
  else if src ++ ['/'] <+: dst then throw (.vault "cannot move a directory into itself".toList)
  else do
    let b ← get
    if b.index src = none then throw (.vault ("not found: ".toList ++ src))
    else if b.index dst ≠ none then throw (.vault ("path already exists: ".toList ++ dst))
    else do
      ensureDirs dst
      modify fun b => VaultBatch.reindex { b with
        manifest := { b.manifest with
          entries := b.manifest.entries.map fun e => { e with path := renamePath src dst e.path } }
        changed := true }

/-- `set_attr` -/
def setAttr (vaultPath : Str) (mtime : Option Int) (mode : Option Nat) : BatchM P Unit := do
  countOp
  let norm ← normalizeStoredPath vaultPath
  let b ← get
  match b.index norm with
  | none => throw (.vault ("not found: ".toList ++ norm))
  | some i =>
    modify fun b => { b with
      manifest := { b.manifest with
        entries := b.manifest.entries.modify i fun e => { e with mtime := mtime, mode := mode } }
      changed := true }

/-! ### Closures -/

/-- The operations of a batch with their arguments; the two trusted ones are for the builders. -/
inductive Op where
  | putFile (vaultPath : Str) (hashed : Result Bytes) (source : Result (Result Bytes)) (io : BlobIo)
      (mtime : Option Int) (mode : Option Nat)
  | putBytes (vaultPath : Str) (bytes : Bytes) (io : BlobIo) (mtime : Option Int) (mode : Option Nat)
  | mkdir (vaultPath : Str)
  | addDirTrusted (path : Str)
  | putStreamTrusted (path : Str) (blake3 : Bytes) (size : Nat) (source : Result Bytes) (io : BlobIo)
      (mtime : Option Int) (mode : Option Nat)
  | remove (vaultPath : Str)
  | rename (vaultFrom vaultTo : Str)
  | setAttr (vaultPath : Str) (mtime : Option Int) (mode : Option Nat)

/-- Run one operation. -/
def Op.run (P : Prims) : Op → BatchM P Unit
  | .putFile vaultPath hashed source io mtime mode => FileSec.putFile vaultPath hashed source io mtime mode
  | .putBytes vaultPath bytes io mtime mode => FileSec.putBytes vaultPath bytes io mtime mode
  | .mkdir vaultPath => FileSec.mkdir vaultPath
  | .addDirTrusted path => FileSec.addDirTrusted path
  | .putStreamTrusted path blake3 size source io mtime mode =>
    FileSec.putStreamTrusted path blake3 size source io mtime mode
  | .remove vaultPath => FileSec.remove vaultPath
  | .rename vaultFrom vaultTo => FileSec.rename vaultFrom vaultTo
  | .setAttr vaultPath mtime mode => FileSec.setAttr vaultPath mtime mode

/-- A closure that edits a batch: it ends with a result or calls an operation and goes on with its outcome. -/
inductive Edits where
  | done (r : Result Unit)
  | call (op : Op) (next : Result Unit → Edits)

/-- Run a closure. -/
def Edits.run (P : Prims) : Edits → BatchM P Unit
  | .done r => liftM r
  | .call op next => do
    let r ← attempt (op.run P)
    (next r).run P

/-- The closure that runs operations one after the other with `?`. -/
def Edits.ofList : List Op → Edits
  | [] => .done (.ok ())
  | op :: ops => .call op fun r =>
    match r with
    | .ok () => Edits.ofList ops
    | .error e => .done (.error e)

end FileSec
