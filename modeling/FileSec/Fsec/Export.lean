import FileSec.Copying
import FileSec.Fsec.RoundTrip

/-!
# Exporting a vault

A v2 vault is sent as a container, in two ways (`format_v2.rs`).  `export_plan` makes the manifest of the container from
that of the vault and streams the blobs into it; `to_vault_for_export` puts the files into an in-memory `Vault`, which
`export_vault` writes.  What the stream holds is what the reader reads (`plaintext_eq_iff`).
-/

namespace FileSec.Fsec

open SepPath

variable {P : Prims} {C : FsecPrims P}

/-! ### The streaming export -/

/-- `ExportFile` -/
structure ExportFile where
  fileId : Str
  key : Bytes
  nonce : Bytes
  blake3 : Bytes
  size : Nat
  chunkSize : Nat

/-- `blob_id(e)?` with the key and the nonce of the entry. -/
def exportFile (e : EntryV2) : Result ExportFile := do
  let fileId ← blobId e
  match e.key, e.nonce with
  | none, _ => .error (.format "missing blob key".toList)
  | some _, none => .error (.format "missing blob nonce".toList)
  | some key, some nonce => .ok ⟨fileId, key, nonce, e.blake3, e.size, e.chunkSize⟩

/-- The loop of `export_plan`: the entries of the container, the files to stream, and the size of the data. -/
def exportEntries : List EntryV2 → Nat → Result (List Entry × List ExportFile × Nat)
  | [], offset => .ok ([], [], offset)
  | e :: es, offset =>
    if isTrashed e.path then exportEntries es offset
    else
      match e.kind with
      | .dir => do
        let (entries, files, total) ← exportEntries es offset
        .ok (⟨e.path, .dir, 0, e.mtime, e.mode, zeroHash, 0⟩ :: entries, files, total)
      | .file => do
        let file ← exportFile e
        refuseIf (offset + e.size > u64Max) (.format "size overflow".toList)
        let (entries, files, total) ← exportEntries es (offset + e.size)
        .ok (⟨e.path, .file, e.size, e.mtime, e.mode, e.blake3, offset⟩ :: entries, file :: files, total)

/-- `V2ExportPlan`, without its reader. -/
structure V2ExportPlan (C : FsecPrims P) where
  files : List ExportFile
  plan : ContainerPlan C

/-- `export_plan` -/
def exportPlan (C : FsecPrims P) (r : VaultReaderV2 P) (sender : Identity C) (recipients : List Peer.PublicIdentity)
    (options : ExportOptions) (draws : Draws) : Result (V2ExportPlan C) := do
  let (entries, files, total) ← exportEntries r.manifest.entries 0
  let plan ← ContainerPlan.new C ⟨r.manifest.vaultName, r.manifest.createdAt, entries⟩ total sender recipients options draws
  .ok ⟨files, plan⟩

/-- `V2PlaintextReader::advance` -/
def advance (r : VaultReaderV2 P) (blobs : Str → Option Bytes) (f : ExportFile) : Result (StreamDecryptReader P) := do
  let file ← openBlob blobs f.fileId f.size f.chunkSize
  StreamDecryptReader.newWith r.suite.aeadAlg f.key f.nonce r.headerBytes file f.chunkSize

/-- What reading a `V2PlaintextReader` to its end gives. -/
def plaintext (r : VaultReaderV2 P) (blobs : Str → Option Bytes) : List ExportFile → ByteStream
  | [] => ⟨[], none⟩
  | f :: fs =>
    match advance r blobs f with
    | .error e => ⟨[], some e⟩
    | .ok dec =>
      match dec.left P.openBytes with
      | (bytes, .error e) => ⟨bytes, some e⟩
      | (bytes, .ok ()) =>
        if P.hashContent bytes ≠ f.blake3 then ⟨bytes, some .auth⟩
        else
          let rest := plaintext r blobs fs
          ⟨bytes ++ rest.bytes, rest.fault⟩

/-- `write_to` into a buffer. -/
def V2ExportPlan.writeTo (p : V2ExportPlan C) (r : VaultReaderV2 P) (blobs : Str → Option Bytes) : Result Bytes :=
  p.plan.write (plaintext r blobs p.files)

/-- `export_plan` and then `write_to`. -/
def streamExport (C : FsecPrims P) (r : VaultReaderV2 P) (blobs : Str → Option Bytes) (sender : Identity C)
    (recipients : List Peer.PublicIdentity) (options : ExportOptions) (draws : Draws) : Result Bytes := do
  let plan ← exportPlan C r sender recipients options draws
  plan.writeTo r blobs

/-! ### The plain export -/

/-- `read_entry`; `fits` tells which sizes can be reserved. -/
def readEntry (fits : Nat → Bool) (r : VaultReaderV2 P) (blobs : Str → Option Bytes) (path : Str) : Result Bytes := do
  let entry ← r.fileEntry path
  refuseIf (fits entry.size = false) (.format "file too large to buffer".toList)
  r.readEntryToWriter blobs path

/-- One round of `materialize`. -/
def materializeEntry (fits : Nat → Bool) (r : VaultReaderV2 P) (blobs : Str → Option Bytes) (vault : Vault) (e : EntryV2) :
    Result Vault :=
  match e.kind with
  | .dir => do
    let () ← (vault.addDir e.path).1
    .ok (vault.addDir e.path).2
  | .file => do
    let content ← readEntry fits r blobs e.path
    let () ← (vault.addFile e.path content e.mtime e.mode).1
    .ok (vault.addFile e.path content e.mtime e.mode).2

/-- The loop of `materialize`. -/
def materializeFrom (fits : Nat → Bool) (r : VaultReaderV2 P) (blobs : Str → Option Bytes) (keep : Str → Bool) :
    List EntryV2 → Vault → Result Vault
  | [], vault => .ok vault
  | e :: es, vault =>
    if keep e.path = false then materializeFrom fits r blobs keep es vault
    else do
      let vault ← materializeEntry fits r blobs vault e
      materializeFrom fits r blobs keep es vault

/-- `materialize` -/
def materialize (fits : Nat → Bool) (r : VaultReaderV2 P) (blobs : Str → Option Bytes) (keep : Str → Bool) : Result Vault :=
  materializeFrom fits r blobs keep r.manifest.entries (Vault.new r.manifest.vaultName r.manifest.createdAt)

/-- `to_vault_for_export` -/
def toVaultForExport (fits : Nat → Bool) (r : VaultReaderV2 P) (blobs : Str → Option Bytes) : Result Vault :=
  materialize fits r blobs fun path => !isTrashed path

/-- `to_vault_for_export` and then `export_vault`. -/
def plainExport (C : FsecPrims P) (fits : Nat → Bool) (r : VaultReaderV2 P) (blobs : Str → Option Bytes) (sender : Identity C)
    (recipients : List Peer.PublicIdentity) (options : ExportOptions) (draws : Draws) : Result Bytes := do
  let vault ← toVaultForExport fits r blobs
  exportVault C vault sender recipients options draws

/-! ### What the stream holds -/

section Stream

variable {r : VaultReaderV2 P} {blobs : Str → Option Bytes} {e : EntryV2}

/-- What is decrypted is as long as the ciphertext without the tags of its chunks. -/
private theorem decryptRounds_length (hopen : TagOnly P) {aad : P.Raw} {encChunk : Nat} (hpos : 0 < encChunk) {fuel : Nat}
    {d : StreamDecryptor} {current rest out : Bytes} (hcur : current.length ≤ encChunk)
    (hfull : rest ≠ [] → current.length = encChunk)
    (h : decryptRounds P.openBytes aad encChunk fuel d current rest = (out, .ok ())) :
    ∃ k, 1 ≤ k ∧ current.length + rest.length = out.length + k * tagLen ∧
      (k - 1) * encChunk < current.length + rest.length ∧ current.length + rest.length ≤ k * encChunk := by
  have htag : 0 < tagLen := by decide
  induction fuel generalizing d current rest out with
  | zero => simp [decryptRounds] at h
  | succ fuel ih =>
    unfold decryptRounds at h
    by_cases hend : rest.take encChunk = []
    · rw [if_pos hend] at h
      have hrest : rest = [] := by
        rcases List.take_eq_nil_iff.1 hend with hz | hn
        · omega
        · exact hn
      unfold StreamDecryptor.decryptLast at h
      cases hpt : P.openBytes d.alg d.key (chunkNonce d.streamNonce d.position true) aad current with
      | none => simp [hpt] at h
      | some pt =>
        simp only [hpt, Prod.mk.injEq, and_true] at h
        have hlen := hopen _ _ _ _ _ _ hpt
        rw [← h]
        refine ⟨1, le_rfl, ?_, ?_, ?_⟩ <;> rw [hrest, List.length_nil] <;> omega
    · rw [if_neg hend] at h
      have hne : rest ≠ [] := fun hnil => hend (by rw [hnil, List.take_nil])
      unfold StreamDecryptor.decryptNext at h
      by_cases hmax : d.position = u32Max
      · simp [hmax] at h
      · rw [if_neg hmax] at h
        cases hpt : P.openBytes d.alg d.key (chunkNonce d.streamNonce d.position false) aad current with
        | none => simp [hpt] at h
        | some pt =>
          simp only [hpt] at h
          generalize htail : decryptRounds P.openBytes aad encChunk fuel _ _ _ = tail at h
          obtain ⟨tail, res⟩ := tail
          simp only [Prod.mk.injEq] at h
          obtain ⟨hout, rfl⟩ := h
          have hlen := hopen _ _ _ _ _ _ hpt
          have hfirst := hfull hne
          have hsum : (rest.take encChunk).length + (rest.drop encChunk).length = rest.length := by
            rw [← List.length_append, List.take_append_drop]
          have htake : (rest.take encChunk).length ≤ encChunk := List.length_take_le _ _
          have hmore : rest.drop encChunk ≠ [] → (rest.take encChunk).length = encChunk := by
            intro hd
            rw [Ne, List.drop_eq_nil_iff] at hd
            rw [List.length_take]
            omega
          obtain ⟨k, hk, htotal, hlow, hhigh⟩ := ih htake hmore htail
          rw [hsum] at htotal hlow hhigh
          obtain ⟨k, rfl⟩ : ∃ m, k = m + 1 := ⟨k - 1, by omega⟩
          rw [Nat.add_sub_cancel] at hlow
          refine ⟨k + 1 + 1, by omega, ?_, ?_, ?_⟩
          · rw [← hout, List.length_append, Nat.succ_mul]
            omega
          · rw [Nat.add_sub_cancel, Nat.succ_mul]
            omega
          · rw [Nat.succ_mul]
            omega

/-- A blob that decrypts gives as many bytes as its entry says. -/
private theorem length_of_rounds (hopen : TagOnly P) {aad : P.Raw} {size chunkSize : Nat} {d : StreamDecryptor}
    {file out : Bytes} (hs : 0 < chunkSize) (hfile : file.length = size + numChunks size chunkSize * tagLen)
    (h : decryptRounds P.openBytes aad (chunkSize + tagLen) (file.length + 1) d (file.take (chunkSize + tagLen))
      (file.drop (chunkSize + tagLen)) = (out, .ok ())) : out.length = size := by
  have htag : 0 < tagLen := by decide
  have hsum : (file.take (chunkSize + tagLen)).length + (file.drop (chunkSize + tagLen)).length = file.length := by
    rw [← List.length_append, List.take_append_drop]
  have hmore : file.drop (chunkSize + tagLen) ≠ [] → (file.take (chunkSize + tagLen)).length = chunkSize + tagLen := by
    intro hd
    rw [Ne, List.drop_eq_nil_iff] at hd
    rw [List.length_take]
    omega
  obtain ⟨k, hk, htotal, hlow, hhigh⟩ := decryptRounds_length hopen (by omega) (List.length_take_le _ _) hmore h
  rw [hsum] at htotal hlow hhigh
  obtain ⟨n, hn⟩ : ∃ n, numChunks size chunkSize = n := ⟨_, rfl⟩
  have hpos := numChunks_pos (n := size) hs
  rw [hn] at hfile hpos
  -- the ciphertext has room for exactly `n` chunks
  obtain ⟨hlow', hhigh'⟩ : (n - 1) * (chunkSize + tagLen) < file.length ∧ file.length ≤ n * (chunkSize + tagLen) := by
    rcases Nat.eq_zero_or_pos size with hzero | hsize
    · have hone : n = 1 := by
        rw [← hn, hzero]
        rfl
      rw [hfile, hone, hzero]
      omega
    · obtain ⟨hle, hlt⟩ := numChunks_bounds hs hsize
      rw [hn] at hle hlt
      obtain ⟨m, rfl⟩ : ∃ m, n = m + 1 := ⟨n - 1, by omega⟩
      rw [Nat.succ_mul] at hle hlt
      rw [hfile, Nat.add_sub_cancel, Nat.succ_mul, Nat.succ_mul, Nat.mul_add]
      omega
  have h1 : k - 1 < n := Nat.lt_of_mul_lt_mul_right (lt_of_lt_of_le hlow hhigh')
  have h2 : n - 1 < k := Nat.lt_of_mul_lt_mul_right (lt_of_lt_of_le hlow' hhigh)
  obtain rfl : k = n := by omega
  omega

theorem exportFile_eq_ok {alg : AeadAlg} (hok : e.FileOk alg) : ∃ id key nonce, e.fileId = some id ∧
    validateBlobId id = .ok () ∧ e.key = some key ∧ e.nonce = some nonce ∧ nonce.length = alg.streamNonceLen ∧
    exportFile e = .ok ⟨id, key, nonce, e.blake3, e.size, e.chunkSize⟩ := by
  obtain ⟨⟨id, hid, hvalid⟩, -, -, hkey, nonce, hnonce, hlen⟩ := hok
  obtain ⟨key, hkey⟩ := Option.ne_none_iff_exists'.1 hkey
  refine ⟨id, key, nonce, hid, hvalid, hkey, hnonce, hlen, ?_⟩
  unfold exportFile blobId
  simp only [hid, hvalid, hkey, hnonce, bind, Except.bind]

/-- The plaintext of an entry is as long as the entry says. -/
theorem entryPlaintext_length (hopen : TagOnly P) (hok : e.FileOk r.suite.aeadAlg) {out : Bytes}
    (h : r.entryPlaintext blobs e = .ok (.ok out)) : out.length = e.size := by
  obtain ⟨id, key, nonce, hid, hvalid, hkey, hnonce, hlen, -⟩ := exportFile_eq_ok hok
  have hsize := hok.chunkSize
  unfold VaultReaderV2.entryPlaintext blobId at h
  simp only [hid, hvalid, hkey, hnonce, if_neg (Nat.pos_iff_ne_zero.1 hsize.1), bind, Except.bind] at h
  cases hblob : openBlob blobs id e.size e.chunkSize with
  | error err => simp [hblob] at h
  | ok file =>
    simp only [hblob, streamDecrypt_eq_ok_iff hlen hsize] at h
    exact length_of_rounds hopen hsize.1 (openBlob_length hblob) h

/-- The stream of a blob gives what the reader reads. -/
theorem advance_iff (hok : e.FileOk r.suite.aeadAlg) {f : ExportFile} (hf : exportFile e = .ok f) {out : Bytes} :
    (∃ dec, advance r blobs f = .ok dec ∧ dec.left P.openBytes = (out, .ok ())) ↔
      r.entryPlaintext blobs e = .ok (.ok out) := by
  obtain ⟨id, key, nonce, hid, hvalid, hkey, hnonce, hlen, hf'⟩ := exportFile_eq_ok hok
  obtain rfl := Except.ok.inj (hf.symm.trans hf')
  have hsize := hok.chunkSize
  unfold advance VaultReaderV2.entryPlaintext blobId
  simp only [hid, hvalid, hkey, hnonce, if_neg (Nat.pos_iff_ne_zero.1 hsize.1), bind, Except.bind]
  cases openBlob blobs id e.size e.chunkSize with
  | error err => simp
  | ok file =>
    simp only [streamDecrypt_eq_ok_iff hlen hsize]
    constructor
    · rintro ⟨dec, hdec, hleft⟩
      obtain ⟨-, hbytes, hres⟩ := StreamDecryptReader.newWith_left P.openBytes hdec
      rw [hleft] at hbytes hres
      unfold decryptStreamWith at hbytes hres
      rw [if_neg (not_not.2 hlen), if_neg (by omega)] at hbytes hres
      dsimp only at hbytes hres
      generalize decryptRounds P.openBytes r.headerBytes (e.chunkSize + tagLen) (file.length + 1)
        ⟨r.suite.aeadAlg, key, nonce, 0⟩ (file.take (e.chunkSize + tagLen)) (file.drop (e.chunkSize + tagLen)) = res at *
      obtain ⟨tail, res⟩ := res
      obtain rfl : out = tail := hbytes
      cases res with
      | error err => cases hres
      | ok u => rfl
    · intro hrounds
      obtain ⟨dec, hdec⟩ : ∃ dec, StreamDecryptReader.newWith r.suite.aeadAlg key nonce r.headerBytes file e.chunkSize =
          .ok dec := by
        unfold StreamDecryptReader.newWith
        rw [if_neg (not_not.2 hlen), if_neg (by omega)]
        exact ⟨_, rfl⟩
      obtain ⟨-, hbytes, hres⟩ := StreamDecryptReader.newWith_left P.openBytes hdec
      unfold decryptStreamWith at hbytes hres
      rw [if_neg (not_not.2 hlen), if_neg (by omega)] at hbytes hres
      dsimp only at hbytes hres
      rw [hrounds] at hbytes hres
      refine ⟨dec, hdec, Prod.ext hbytes ?_⟩
      cases hleft : (dec.left P.openBytes).2 with
      | error err => simp [hleft, Except.map] at hres
      | ok u => rfl

/-- The stream goes on with the next file once the hash of this one is right. -/
theorem plaintext_cons {f : ExportFile} {fs : List ExportFile} {bytes : Bytes} :
    plaintext r blobs (f :: fs) = ⟨bytes, none⟩ ↔
      ∃ out rest, (∃ dec, advance r blobs f = .ok dec ∧ dec.left P.openBytes = (out, .ok ())) ∧
        P.hashContent out = f.blake3 ∧ plaintext r blobs fs = ⟨rest, none⟩ ∧ bytes = out ++ rest := by
  rw [plaintext]
  cases hadv : advance r blobs f with
  | error err => simp
  | ok dec =>
    dsimp only
    rcases hleft : dec.left P.openBytes with ⟨out, res⟩
    cases res with
    | error err => simp [hleft]
    | ok u =>
      dsimp only
      by_cases hhash : P.hashContent out = f.blake3
      · rw [if_neg (not_not.2 hhash)]
        rcases hrest : plaintext r blobs fs with ⟨rest, fault⟩
        constructor
        · intro h
          simp only [ByteStream.mk.injEq] at h
          exact ⟨out, rest, ⟨dec, rfl, hleft⟩, hhash, by rw [h.2], h.1.symm⟩
        · rintro ⟨out', rest', ⟨dec', hdec, hleft'⟩, -, hfs, rfl⟩
          obtain rfl := Except.ok.inj hdec
          rw [hleft, Prod.mk.injEq] at hleft'
          rw [ByteStream.mk.injEq] at hfs
          rw [hleft'.1, hfs.1, hfs.2]
      · rw [if_pos hhash]
        constructor
        · intro h
          cases h
        · rintro ⟨out', rest', ⟨dec', hdec, hleft'⟩, hhash', -⟩
          obtain rfl := Except.ok.inj hdec
          rw [hleft, Prod.mk.injEq] at hleft'
          exact absurd (hleft'.1 ▸ hhash') hhash

/-- The entries that an export takes: those that are not in the trash. -/
def keptOf (es : List EntryV2) : List EntryV2 := es.filter fun e => !isTrashed e.path

theorem keptOf_cons (e : EntryV2) (es : List EntryV2) :
    keptOf (e :: es) = if isTrashed e.path then keptOf es else e :: keptOf es := by
  unfold keptOf
  rw [List.filter_cons]
  cases isTrashed e.path <;> simp

variable {es : List EntryV2} {vs : List VaultEntry} {offset : Nat}

/-- The entries of the container for entries of a vault, from the data offset on. -/
def transportEntries : List EntryV2 → Nat → List Entry
  | [], _ => []
  | e :: es, offset =>
    match e.kind with
    | .dir => ⟨e.path, .dir, 0, e.mtime, e.mode, zeroHash, 0⟩ :: transportEntries es offset
    | .file => ⟨e.path, .file, e.size, e.mtime, e.mode, e.blake3, offset⟩ :: transportEntries es (offset + e.size)

/-- The manifest that `export_plan` makes for the container. -/
def transportManifest (r : VaultReaderV2 P) : Manifest :=
  ⟨r.manifest.vaultName, r.manifest.createdAt, transportEntries (keptOf r.manifest.entries) 0⟩

/-- When all entries authenticate, the plan lists them as they are stored, and the stream holds their contents. -/
theorem exportEntries_eq (hok : ∀ e ∈ keptOf es, e.kind = .file → e.FileOk r.suite.aeadAlg)
    (hvs : List.Forall₂ (r.Authenticates blobs) (keptOf es) vs) (hsize : offset + contentSize vs ≤ u64Max) :
    ∃ files, exportEntries es offset = .ok (transportEntries (keptOf es) offset, files, offset + contentSize vs) ∧
      plaintext r blobs files = ⟨contentsOf vs, none⟩ := by
  induction es generalizing vs offset with
  | nil =>
    cases hvs
    exact ⟨[], rfl, rfl⟩
  | cons e es ih =>
    unfold exportEntries
    rw [keptOf_cons] at hok hvs ⊢
    by_cases htrash : isTrashed e.path = true
    · rw [if_pos htrash] at hok hvs ⊢
      rw [if_pos htrash]
      exact ih hok hvs hsize
    · rw [if_neg htrash] at hok hvs ⊢
      rw [if_neg htrash]
      cases hvs with
      | @cons _ v _ vs hev hvs =>
        have ih := fun o => @ih vs o (fun e' he' => hok e' (List.mem_cons_of_mem _ he')) hvs
        rw [contentSize_cons] at hsize ⊢
        unfold transportEntries
        cases hk : e.kind with
        | dir =>
          have hnil := hev.dir hk
          rw [hnil, List.length_nil, Nat.zero_add] at hsize ⊢
          obtain ⟨files, hexport, hplain⟩ := ih offset hsize
          refine ⟨files, ?_, ?_⟩
          · simp only [hexport, bind, Except.bind]
          · rw [hplain]
            simp [contentsOf, hnil]
        | file =>
          obtain ⟨hstream, hlen, hhash⟩ := hev.file hk
          obtain ⟨id, key, nonce, -, -, -, -, -, hfile⟩ := exportFile_eq_ok (hok e List.mem_cons_self hk)
          obtain ⟨files, hexport, hplain⟩ := ih (offset + v.content.length) (by omega)
          refine ⟨_, ?_, plaintext_cons.2 ⟨v.content, contentsOf vs,
            (advance_iff (hok e List.mem_cons_self hk) hfile).2 hstream, hhash, hplain, by simp [contentsOf]⟩⟩
          dsimp only
          rw [bind_eq_ok]
          refine ⟨_, hfile, ?_⟩
          simp only [bind_eq_ok, refuseIf_eq_ok, exists_const, ← hlen]
          refine ⟨by omega, _, hexport, ?_⟩
          rw [Nat.add_assoc]

/-- When the stream does not break off, all entries authenticate. -/
theorem authenticates_of_plaintext (hopen : TagOnly P) (hok : ∀ e ∈ keptOf es, e.kind = .file → e.FileOk r.suite.aeadAlg)
    (hpaths : ∀ e ∈ keptOf es, ∃ n, normalizeStoredPath e.path = .ok n) {entries : List Entry} {files : List ExportFile}
    {total : Nat} {bytes : Bytes} (h : exportEntries es offset = .ok (entries, files, total))
    (hplain : plaintext r blobs files = ⟨bytes, none⟩) :
    ∃ vs, List.Forall₂ (r.Authenticates blobs) (keptOf es) vs := by
  induction es generalizing offset entries files total bytes with
  | nil => exact ⟨[], .nil⟩
  | cons e es ih =>
    unfold exportEntries at h
    rw [keptOf_cons] at hok hpaths ⊢
    by_cases htrash : isTrashed e.path = true
    · rw [if_pos htrash] at hok hpaths h ⊢
      exact ih hok hpaths h hplain
    · rw [if_neg htrash] at hok hpaths h ⊢
      have hok' : ∀ e' ∈ keptOf es, e'.kind = .file → e'.FileOk r.suite.aeadAlg :=
        fun e' he' => hok e' (List.mem_cons_of_mem _ he')
      have hpaths' : ∀ e' ∈ keptOf es, ∃ n, normalizeStoredPath e'.path = .ok n :=
        fun e' he' => hpaths e' (List.mem_cons_of_mem _ he')
      obtain ⟨path, hpath⟩ := hpaths e List.mem_cons_self
      cases hk : e.kind with
      | dir =>
        simp only [hk] at h
        obtain ⟨⟨entries', files', total'⟩, hrest, heq⟩ := bind_eq_ok.1 h
        simp only [Except.ok.injEq, Prod.mk.injEq] at heq
        obtain ⟨-, rfl, -⟩ := heq
        obtain ⟨vs, hvs⟩ := ih hok' hpaths' hrest hplain
        refine ⟨⟨path, .dir, e.mtime, e.mode, []⟩ :: vs, .cons ⟨hpath, hk.symm, rfl, rfl, ?_, fun _ => rfl⟩ hvs⟩
        rw [hk]
        nofun
      | file =>
        simp only [hk] at h
        obtain ⟨file, hfile, h⟩ := bind_eq_ok.1 h
        obtain ⟨-, -, h⟩ := bind_eq_ok.1 h
        obtain ⟨⟨entries', files', total'⟩, hrest, heq⟩ := bind_eq_ok.1 h
        simp only [Except.ok.injEq, Prod.mk.injEq] at heq
        obtain ⟨-, rfl, -⟩ := heq
        obtain ⟨out, rest, hadv, hhash, hplain', -⟩ := plaintext_cons.1 hplain
        obtain ⟨vs, hvs⟩ := ih hok' hpaths' hrest hplain'
        have hok := hok e List.mem_cons_self hk
        have hstream := (advance_iff hok hfile).1 hadv
        have hlen := entryPlaintext_length hopen hok hstream
        obtain ⟨id, key, nonce, -, -, -, -, -, hfile'⟩ := exportFile_eq_ok hok
        obtain rfl := Except.ok.inj (hfile.symm.trans hfile')
        refine ⟨⟨path, .file, e.mtime, e.mode, out⟩ :: vs, .cons ⟨hpath, hk.symm, rfl, rfl, fun _ => ⟨hstream, hlen, hhash⟩,
          ?_⟩ hvs⟩
        rw [hk]
        nofun

/-- The files among entries that authenticate are as large as the entries say. -/
theorem contentSize_of_authenticates (hvs : List.Forall₂ (r.Authenticates blobs) es vs) : contentSize vs = totalSize es := by
  induction hvs with
  | nil => rfl
  | @cons e v es vs hev hvs ih =>
    rw [contentSize_cons, totalSize_cons, ih]
    cases hk : e.kind with
    | dir => simp [hev.dir hk]
    | file => simp [(hev.file hk).2.1]

theorem dirs_of_authenticates (hvs : List.Forall₂ (r.Authenticates blobs) es vs) :
    ∀ v ∈ vs, v.kind = .dir → v.content = [] := by
  induction hvs with
  | nil => simp
  | @cons e v es vs hev hvs ih =>
    intro w hw hk
    rcases List.mem_cons.1 hw with rfl | hw
    · exact hev.dir (hev.kind ▸ hk)
    · exact ih w hw hk

/-- What is sent is not more than the vault holds. -/
theorem totalSize_kept (hvalid : ValidEntries r.suite.aeadAlg r.manifest.entries) :
    totalSize (keptOf r.manifest.entries) ≤ u64Max :=
  (totalSize_le_of_sublist List.filter_sublist).trans hvalid.total

/-- The streaming export writes a container with the entries as they are stored, and fails where one does not
authenticate. -/
theorem streamExport_ok_iff (hopen : TagOnly P) (hvalid : ValidEntries r.suite.aeadAlg r.manifest.entries)
    {sender : Identity C} {recipients : List Peer.PublicIdentity} {options : ExportOptions} {draws : Draws} {out : Bytes} :
    streamExport C r blobs sender recipients options draws = .ok out ↔
      ∃ vs, List.Forall₂ (r.Authenticates blobs) (keptOf r.manifest.entries) vs ∧
        writeContainer C (transportManifest r) (contentSize vs) ⟨contentsOf vs, none⟩ sender recipients options draws =
          .ok out := by
  have hok : ∀ e ∈ keptOf r.manifest.entries, e.kind = .file → e.FileOk r.suite.aeadAlg :=
    fun e he => hvalid.files e (List.mem_of_mem_filter he)
  have hsize := totalSize_kept hvalid
  -- where all entries authenticate the stream is that of their contents
  have hsame : ∀ vs, List.Forall₂ (r.Authenticates blobs) (keptOf r.manifest.entries) vs →
      streamExport C r blobs sender recipients options draws =
        writeContainer C (transportManifest r) (contentSize vs) ⟨contentsOf vs, none⟩ sender recipients options draws := by
    intro vs hvs
    have htotal := contentSize_of_authenticates hvs
    have hfirst : 0 + contentSize vs ≤ u64Max := by omega
    obtain ⟨files, hexport, hplain⟩ := exportEntries_eq hok hvs hfirst
    rw [Nat.zero_add] at hexport
    unfold streamExport exportPlan writeContainer transportManifest V2ExportPlan.writeTo
    rw [hexport]
    simp only [bind, Except.bind]
    cases ContainerPlan.new C ⟨r.manifest.vaultName, r.manifest.createdAt,
      transportEntries (keptOf r.manifest.entries) 0⟩ (contentSize vs) sender recipients options draws with
    | error err => rfl
    | ok plan => simp only [hplain]
  constructor
  · intro h
    obtain ⟨p, hplan, hwrite⟩ := bind_eq_ok.1 h
    obtain ⟨⟨entries, files, total⟩, hexport, hplan⟩ := bind_eq_ok.1 hplan
    obtain ⟨plan, -, heq⟩ := bind_eq_ok.1 hplan
    obtain rfl := Except.ok.inj heq
    obtain ⟨encData, trailer, hw⟩ := ContainerPlan.write_eq_ok hwrite
    rcases hplain : plaintext r blobs files with ⟨bytes, fault⟩
    have hfault : fault = none := by
      have henc := hw.encData_eq
      unfold ContainerPlan.encData at henc
      rw [hplain] at henc
      cases fault with
      | none => rfl
      | some err => cases henc
    obtain ⟨vs, hvs⟩ := authenticates_of_plaintext hopen hok (fun e he => hvalid.paths e (List.mem_of_mem_filter he)) hexport
      (hfault ▸ hplain)
    exact ⟨vs, hvs, (hsame vs hvs).symm.trans h⟩
  · rintro ⟨vs, hvs, h⟩
    exact (hsame vs hvs).trans h

end Stream

end FileSec.Fsec
