import FileSec.Ensure

/-!
# What the operations do

Each operation of a batch that succeeds makes one `Change` of the entries; one that fails leaves entries and index as
they were, up to parents it had to add before it could see that it fails, which does not happen in a closed tree.
`Op.run_spec` says this once for all operations.
-/

namespace FileSec

open SepPath Prog

variable {P : Prims}

/-- The changes of the entries; `bytes` is what the new blob holds. -/
inductive Change where
  | put (p : Str) (a : EntryAttrs) (bytes : Bytes)
  | mkdir (p : Str)
  | remove (p : Str)
  | rename (p q : Str)
  | setAttr (p : Str) (mtime : Option Int) (mode : Option Nat)

/-- The entry at `p` carried over with the subtree at `src`. -/
def moveEntry (src dst : Str) (e : EntryV2) : EntryV2 := { e with path := renamePath src dst e.path }

/-- The entries after a change. -/
def Change.apply (es : List EntryV2) : Change → List EntryV2
  | .put p a _ =>
    match Keyed.index EntryV2.path es p with
    | some i => es.set i { a with path := p }
    | none => withParents es p ++ [{ a with path := p }]
  | .mkdir p => if (entryAt es p).isSome then es else withParents es p ++ [dirEntry p]
  | .remove p => es.filter fun e => ¬ AtOrBelow '/' p e.path
  | .rename p q => if p = q then es else (withParents es q).map (moveEntry p q)
  | .setAttr p mtime mode =>
    match Keyed.index EntryV2.path es p with
    | some i => es.modify i fun e => { e with mtime := mtime, mode := mode }
    | none => es

/-- What the operation has checked before it makes a change. -/
def Change.Pre (es : List EntryV2) : Change → Prop
  | .put p _ _ => NormalPath p ∧ (∀ d, entryAt es p = some d → d.kind = .file) ∧
      (entryAt es p = none → NoFileAbove es p)
  | .mkdir p => NormalPath p ∧ (∀ d, entryAt es p = some d → d.kind = .dir) ∧
      (entryAt es p = none → NoFileAbove es p)
  | .remove p => NormalPath p
  | .rename p q => p = q ∨ NormalPath p ∧ NormalPath q ∧ p ≠ q ∧ ¬ Below '/' p q ∧ entryAt es p ≠ none ∧
      entryAt es q = none ∧ NoFileAbove es q
  | .setAttr p _ _ => NormalPath p ∧ entryAt es p ≠ none

/-- The blobs a change leaves without a reference. -/
def Change.superseded (es : List EntryV2) : Change → List Str
  | .put p _ _ => ((entryAt es p).bind (·.fileId)).toList
  | .remove p => (es.filter fun e => AtOrBelow '/' p e.path).filterMap (·.fileId)
  | _ => []

/-- The change an operation makes when it succeeds. -/
inductive Op.Makes (P : Prims) : Op → Change → Prop
  | putFile {vaultPath p first bytes io mtime mode} (blob : StagedBlob) (hp : normalizePath vaultPath = .ok p)
      (hlen : bytes.length = first.length) (hhash : P.hashContent bytes = P.hashContent first) :
      Op.Makes P (.putFile vaultPath (.ok first) (.ok (.ok bytes)) io mtime mode)
        (.put p (fileAttrs blob (P.hashContent bytes) bytes.length mtime mode) bytes)
  | putBytes {vaultPath p bytes io mtime mode} (blob : StagedBlob) (hp : normalizePath vaultPath = .ok p) :
      Op.Makes P (.putBytes vaultPath bytes io mtime mode)
        (.put p (fileAttrs blob (P.hashContent bytes) bytes.length mtime mode) bytes)
  | mkdir {vaultPath p} (hp : normalizePath vaultPath = .ok p) : Op.Makes P (.mkdir vaultPath) (.mkdir p)
  | addDirTrusted {path p} (hp : normalizeStoredPath path = .ok p) : Op.Makes P (.addDirTrusted path) (.mkdir p)
  | putStreamTrusted {path p blake3 size bytes io mtime mode} (blob : StagedBlob)
      (hp : normalizeStoredPath path = .ok p) (hlen : bytes.length = size) (hhash : P.hashContent bytes = blake3) :
      Op.Makes P (.putStreamTrusted path blake3 size (.ok bytes) io mtime mode)
        (.put p (fileAttrs blob (P.hashContent bytes) bytes.length mtime mode) bytes)
  | remove {vaultPath p} (hp : normalizeStoredPath vaultPath = .ok p) : Op.Makes P (.remove vaultPath) (.remove p)
  | rename {vaultFrom vaultTo p q} (hp : normalizeStoredPath vaultFrom = .ok p)
      (hq : normalizePath vaultTo = .ok q) : Op.Makes P (.rename vaultFrom vaultTo) (.rename p q)
  | setAttr {vaultPath p mtime mode} (hp : normalizeStoredPath vaultPath = .ok p) :
      Op.Makes P (.setAttr vaultPath mtime mode) (.setAttr p mtime mode)

/-- The path whose parents an operation may have to add. -/
def Op.target : Op → Option Str
  | .putFile vaultPath _ _ _ _ _ => (normalizePath vaultPath).toOption
  | .putBytes vaultPath _ _ _ _ => (normalizePath vaultPath).toOption
  | .mkdir vaultPath => (normalizePath vaultPath).toOption
  | .addDirTrusted path => (normalizeStoredPath path).toOption
  | .putStreamTrusted path _ _ _ _ _ _ => (normalizeStoredPath path).toOption
  | .rename vaultFrom vaultTo =>
    if normalizeStoredPath vaultFrom = normalizePath vaultTo then none else (normalizePath vaultTo).toOption
  | .remove _ | .setAttr _ _ _ => none

/-! ### Renamed paths -/

theorem renamePath_eq (src dst path : Str) :
    renamePath src dst path = if AtOrBelow '/' src path then reroot src dst path else path := by
  unfold renamePath
  by_cases h : path = src
  · subst h
    simp [AtOrBelow]
  · rw [if_neg h]
    cases hp : (src ++ ['/']).isPrefixOf? path with
    | none =>
      have : ¬ Below '/' src path := by
        intro hb
        obtain ⟨t, rfl⟩ := below_iff.1 hb
        rw [show src ++ '/' :: t = (src ++ ['/']) ++ t by simp] at hp
        rw [List.isPrefixOf?_eq_some_iff_append_eq.2 rfl] at hp
        simp at hp
      rw [if_neg (by simp [AtOrBelow, h, this])]
    | some rest =>
      have e : path = src ++ '/' :: rest := by
        rw [← List.isPrefixOf?_eq_some_iff_append_eq.1 hp]
        simp
      subst e
      have hb : AtOrBelow '/' src (src ++ '/' :: rest) := Or.inr (below_append src rest)
      rw [if_pos hb, reroot_append]

theorem moveEntry_path (src dst : Str) (e : EntryV2) :
    (moveEntry src dst e).path = if AtOrBelow '/' src e.path then reroot src dst e.path else e.path :=
  renamePath_eq src dst e.path

/-! ### Effects -/

/-- The blob `blob` was written, with the contents `bytes`. -/
structure Wrote (b b' : VaultBatch P) (blob : StagedBlob) (bytes : Bytes) : Prop where
  id : b.host.rng.blobId 0 = some blob.fileId
  nonce : blob.nonce.length = b.reader.suite.aeadAlg.streamNonceLen
  host : ∃ ciphertext, encryptStreamWith P b.reader.suite.aeadAlg blob.key blob.nonce b.reader.headerBytes bytes
      defaultChunkSize = .ok ciphertext ∧
    b'.host = { b.host with blobs := b.host.blobs.write blob.fileId ciphertext, rng := fun i => b.host.rng (i + 3) }

/-- The blobs a change writes. -/
def Change.Writes (b b' : VaultBatch P) : Change → Prop
  | .put _ a bytes => ∃ blob blake3 size mtime mode, a = fileAttrs blob blake3 size mtime mode ∧
      Wrote b b' blob bytes ∧ b'.staged = b.staged ++ [blob.fileId]
  | _ => b'.host = b.host ∧ b'.staged = b.staged

/-- A successful operation has made the change `c`. -/
structure Op.Did (op : Op) (c : Change) (b b' : VaultBatch P) : Prop where
  makes : op.Makes P c
  pre : c.Pre b.manifest.entries
  manifest : b'.manifest = { b.manifest with entries := c.apply b.manifest.entries }
  index : b'.index = indexEntries b'.manifest
  superseded : b'.superseded = b.superseded ++ c.superseded b.manifest.entries
  changed : b'.changed = true ∨
    b'.changed = b.changed ∧ c.apply b.manifest.entries = b.manifest.entries ∧ c.superseded b.manifest.entries = []
  writes : c.Writes b b'

/-- A failing operation has left the batch as it was, but for `ps`, the parents of `target` it has added before it came
across a file. -/
structure VaultBatch.Stuck (target : Option Str) (ps : List Str) (b b' : VaultBatch P) : Prop where
  parents : ps.Sublist ((target.map (missingParents b.manifest.entries)).getD [])
  above : ps ≠ [] → ∃ p f d, target = some p ∧ Below '/' f p ∧ entryAt b.manifest.entries f = some d ∧
    d.kind = .file ∧ ∀ a ∈ ps, Below '/' a f
  manifest : b'.manifest = { b.manifest with entries := b.manifest.entries ++ ps.map dirEntry }
  index : b'.index = indexEntries b'.manifest
  superseded : b'.superseded = b.superseded
  changed : b'.changed = b.changed

/-- In a closed tree nothing above a file is missing. -/
theorem VaultBatch.Stuck.closed {target : Option Str} {ps : List Str} {b b' : VaultBatch P} (h : b.Stuck target ps b')
    (hcl : ClosedEntries b.manifest.entries) : ps = [] := by
  by_contra hne
  obtain ⟨p, f, d, rfl, -, hf, -, hall⟩ := h.above hne
  obtain ⟨a, ha⟩ := List.exists_mem_of_ne_nil _ hne
  obtain ⟨e, he, -⟩ := hcl a f d (hall a ha) hf
  have hmissing := h.parents.subset ha
  simp [missingParents, he] at hmissing

/-- Failing before any change. -/
theorem VaultBatch.Indexed.stuck {b b' : VaultBatch P} (h : b.Indexed) (target : Option Str)
    (hm : b'.manifest = b.manifest) (hi : b'.index = b.index) (hs : b'.superseded = b.superseded)
    (hc : b'.changed = b.changed) : b.Stuck target [] b' :=
  ⟨List.nil_sublist _, fun h => absurd rfl h, by simp [hm], by rw [hi, hm, h.index], hs, hc⟩

/-! ### The parts of the operations -/

private theorem countOp_spec (b : VaultBatch P) :
    wp countOp (fun _ b' => b' = { b with ops := b.ops + 1 }) b := by
  simp only [countOp, wp_bind, wp_modify, wp_get]
  split
  · simp
  · simp

private theorem countOp_ok (b : VaultBatch P) (hlimit : ∀ n, b.limit = some n → b.ops < n) :
    wp countOp (fun r b' => r = .ok () ∧ b' = { b with ops := b.ops + 1 }) b := by
  simp only [countOp, wp_bind, wp_modify, wp_get]
  split
  · rename_i n hn
    have hlt := hlimit n hn
    have hle : ¬ b.ops + 1 > n := by omega
    simp [hle]
  · simp

/-- What a successful `write_blob` leaves: the blob under the id drawn first. -/
private theorem writeBlob_spec (r : VaultReaderV2 P) (blake3 : Bytes) (size : Nat) (source : Result Bytes) (io : BlobIo)
    (h : Host P) :
    wp (r.writeBlob blake3 size source io) (fun res h' => match res with
      | .ok blob => ∃ bytes ciphertext, source = .ok bytes ∧ bytes.length = size ∧ P.hashContent bytes = blake3 ∧
          h.rng.blobId 0 = some blob.fileId ∧ blob.nonce.length = r.suite.aeadAlg.streamNonceLen ∧
          encryptStreamWith P r.suite.aeadAlg blob.key blob.nonce r.headerBytes bytes defaultChunkSize =
            .ok ciphertext ∧
          h' = { h with blobs := h.blobs.write blob.fileId ciphertext, rng := fun i => h.rng (i + 3) }
      | .error _ => True) h := by
  unfold VaultReaderV2.writeBlob
  simp only [wp_bind, wp_draw]
  cases hid : randomVec 16 (h.rng 0) with
  | error e => trivial
  | ok id =>
    cases hkey : randomVec 32 (h.rng (0 + 1)) with
    | error e => trivial
    | ok key =>
      cases hnonce : randomVec r.suite.aeadAlg.streamNonceLen (h.rng (0 + 1 + 1)) with
      | error e => trivial
      | ok nonce =>
        unfold encryptBlob
        cases io.fault with
        | some e => trivial
        | none =>
          simp only [wp_bind, wp_liftM]
          cases hs : source with
          | error e => trivial
          | ok bytes =>
            cases hc : encryptStreamWith P r.suite.aeadAlg key nonce r.headerBytes bytes defaultChunkSize with
            | error e => simp only [hc]
            | ok ciphertext =>
              simp only [hc, wp_modify, wp_pure, wp_ite, wp_bind, wp_throw]
              have hblob := blobId_of_randomVec hid
              refine ⟨fun _ => trivial, fun hok => ?_⟩
              rw [not_or, not_ne_iff, not_ne_iff] at hok
              exact ⟨bytes, ciphertext, rfl, hok.1, hok.2, hblob, randomVec_length hnonce, hc, rfl⟩

private theorem place_spec {b : VaultBatch P} (hb : b.Indexed) {p : Str} (hp : NormalPath p)
    (hkind : ∀ d, entryAt b.manifest.entries p = some d → d.kind = .file) (blob : StagedBlob) (bytes : Bytes)
    (blake3 : Bytes) (size : Nat) (mtime : Option Int) (mode : Option Nat) :
    wp (place p blob blake3 size mtime mode) (fun r b' =>
      b'.host = b.host ∧ b'.staged = b.staged ++ [blob.fileId] ∧
      match r with
      | .ok () => ∀ c, c = Change.put p (fileAttrs blob blake3 size mtime mode) bytes →
          c.Pre b.manifest.entries ∧
          b'.manifest = { b.manifest with entries := c.apply b.manifest.entries } ∧
          b'.index = indexEntries b'.manifest ∧
          b'.superseded = b.superseded ++ c.superseded b.manifest.entries ∧ b'.changed = true
      | .error _ => ∃ ps, b.Stuck (some p) ps b') b := by
  unfold place
  simp only [wp_bind, wp_modify, wp_get]
  cases hi : b.index p with
  | some i =>
    have hix := hi
    rw [hb.index] at hix
    have hat : entryAt b.manifest.entries p = b.manifest.entries[i]? := Keyed.lookup_eq_getElem hb.nodup hix
    have hsome : entryAt b.manifest.entries p ≠ none := by
      rw [Ne, ← hb.index_eq_none, hi]
      simp
    simp only [wp_bind, wp_modify]
    refine ⟨trivial, trivial, ?_⟩
    rintro c rfl
    have hix' : Keyed.index EntryV2.path b.manifest.entries p = some i := hix
    refine ⟨⟨hp, hkind, fun h => absurd h hsome⟩, ?_, ?_, ?_, trivial⟩
    · simp only [Change.apply, hix']
    · rw [hb.index]
      unfold indexEntries
      exact Keyed.index_congr (Keyed.map_key_set hix hb.nodup rfl).symm
    · simp only [Change.superseded, hat]
  | none =>
    have hnone := hb.index_eq_none.1 hi
    have hb' : VaultBatch.Indexed { b with staged := b.staged ++ [blob.fileId] } := ⟨hb.index, hb.nodup⟩
    simp only [wp_bind]
    refine wp_mono (ensureDirs_spec hb' hp) ?_
    intro r b' h
    cases r with
    | ok u =>
      obtain ⟨hno, rfl⟩ := h
      simp only [wp_modify]
      refine ⟨rfl, rfl, ?_⟩
      rintro c rfl
      have hix : Keyed.index EntryV2.path b.manifest.entries p = none := by rwa [hb.index] at hi
      refine ⟨⟨hp, hkind, fun _ => hno⟩, ?_, ?_, ?_, trivial⟩
      · simp only [VaultBatch.push, VaultBatch.withEntries, Change.apply, hix]
      · simp only [VaultBatch.push, VaultBatch.withEntries, indexEntries, Keyed.index_concat]
      · simp only [VaultBatch.push, VaultBatch.withEntries, Change.superseded, hnone]
        simp
    | error e =>
      obtain ⟨ps, hps, ⟨f, d, hab⟩, rfl⟩ := h
      exact ⟨rfl, rfl, ps, by simpa using hps, fun _ => ⟨p, f, d, rfl, hab⟩, rfl, rfl, rfl, rfl⟩

private theorem insertDir_spec {b : VaultBatch P} (hb : b.Indexed) {p : Str} (hp : NormalPath p)
    (hnone : entryAt b.manifest.entries p = none) :
    wp (insertDir p) (fun r b' =>
      b'.host = b.host ∧ b'.staged = b.staged ∧
      match r with
      | .ok () => (Change.mkdir p).Pre b.manifest.entries ∧
          b'.manifest = { b.manifest with entries := (Change.mkdir p).apply b.manifest.entries } ∧
          b'.index = indexEntries b'.manifest ∧ b'.superseded = b.superseded ∧ b'.changed = true
      | .error _ => ∃ ps, b.Stuck (some p) ps b') b := by
  unfold insertDir
  simp only [wp_bind]
  refine wp_mono (ensureDirs_spec hb hp) ?_
  intro r b' h
  cases r with
  | ok u =>
    obtain ⟨hno, rfl⟩ := h
    simp only [wp_modify]
    refine ⟨rfl, rfl, ⟨hp, by simp [hnone], fun _ => hno⟩, ?_, ?_, rfl, trivial⟩
    · simp [VaultBatch.push, VaultBatch.withEntries, Change.apply, hnone]
    · simp only [VaultBatch.push, VaultBatch.withEntries, indexEntries, Keyed.index_concat]
  | error e =>
    obtain ⟨ps, hps, ⟨f, d, hab⟩, rfl⟩ := h
    exact ⟨rfl, rfl, ps, by simpa using hps, fun _ => ⟨p, f, d, rfl, hab⟩, rfl, rfl, rfl, rfl⟩

private theorem rejectDir_wp {b : VaultBatch P} (hb : b.Indexed) {p : Str} {Q : Result Unit → VaultBatch P → Prop}
    (herr : ∀ e, Q (.error e) b)
    (hok : (∀ d, entryAt b.manifest.entries p = some d → d.kind = .file) → Q (.ok ()) b) :
    wp (rejectDir p) Q b := by
  unfold rejectDir
  simp only [wp_bind, wp_get, wp_ite, wp_throw, wp_pure, hb.kindAt]
  refine ⟨fun _ => herr _, fun h => hok ?_⟩
  intro d hd
  rw [hd] at h
  cases hk : d.kind with
  | file => rfl
  | dir => simp [hk] at h

/-- The common end of the three operations that put a file. -/
private theorem writeAndPlace_spec {b : VaultBatch P} (hb : b.Indexed) {p : Str} (hp : NormalPath p)
    (hkind : ∀ d, entryAt b.manifest.entries p = some d → d.kind = .file) (blake3 : Bytes) (size : Nat)
    (source : Result Bytes) (io : BlobIo) (mtime : Option Int) (mode : Option Nat) :
    wp (do
      let blob ← VaultBatch.writeBlob blake3 size source io
      place p blob blake3 size mtime mode) (fun r b' => match r with
      | .ok () => ∃ blob bytes, source = .ok bytes ∧ bytes.length = size ∧ P.hashContent bytes = blake3 ∧
          ∀ (op : Op) c, c = Change.put p (fileAttrs blob (P.hashContent bytes) bytes.length mtime mode) bytes →
            op.Makes P c → op.Did c b b'
      | .error _ => ∃ ps, b.Stuck (some p) ps b') b := by
  simp only [wp_bind, VaultBatch.writeBlob, wp_get, wp_zoom]
  refine wp_mono (writeBlob_spec b.reader blake3 size source io b.host) ?_
  intro res h' hres
  cases res with
  | error e => exact ⟨[], hb.stuck _ rfl rfl rfl rfl⟩
  | ok blob =>
    obtain ⟨bytes, ciphertext, hs, rfl, rfl, hid, hnonce, hct, rfl⟩ := hres
    have hb' : VaultBatch.Indexed { b with host := { b.host with
        blobs := b.host.blobs.write blob.fileId ciphertext, rng := fun i => b.host.rng (i + 3) } } :=
      ⟨hb.index, hb.nodup⟩
    refine wp_mono (place_spec hb' hp hkind blob bytes _ _ mtime mode) ?_
    rintro r b' ⟨hhost, hstaged, hr⟩
    cases r with
    | error e =>
      obtain ⟨ps, h1, h2, h3, h4, h5, h6⟩ := hr
      exact ⟨ps, h1, h2, h3, h4, h5, h6⟩
    | ok u =>
      refine ⟨blob, bytes, hs, rfl, rfl, ?_⟩
      rintro op c rfl hmakes
      obtain ⟨hpre, hman, hix, hsup, hch⟩ := hr _ rfl
      exact ⟨hmakes, hpre, hman, hix, hsup, Or.inl hch, blob, _, _, mtime, mode, rfl,
        ⟨hid, hnonce, ciphertext, hct, hhost⟩, hstaged⟩

/-! ### The operations -/

/-- What an operation leaves, whatever its outcome. -/
def Op.Post (op : Op) (b : VaultBatch P) (r : Result Unit) (b' : VaultBatch P) : Prop :=
  match r with
  | .ok () => ∃ c, op.Did c b b'
  | .error _ => ∃ ps, b.Stuck op.target ps b'

/-- An operation that fails before it touches the batch. -/
private theorem VaultBatch.Indexed.failed {b : VaultBatch P} (hb : b.Indexed) (op : Op) (e : Error) :
    op.Post b (.error e) b := ⟨[], hb.stuck _ rfl rfl rfl rfl⟩

private theorem counted_spec {b : VaultBatch P} (hb : b.Indexed) (op : Op) {rest : BatchM P Unit}
    (h : ∀ b : VaultBatch P, b.Indexed → wp rest (op.Post b) b) : wp (do countOp; rest) (op.Post b) b := by
  simp only [wp_bind]
  refine wp_mono (countOp_spec b) ?_
  rintro r _ rfl
  have hb' : VaultBatch.Indexed { b with ops := b.ops + 1 } := ⟨hb.index, hb.nodup⟩
  cases r with
  | error e => exact ⟨[], hb.stuck _ rfl rfl rfl rfl⟩
  | ok u =>
    refine wp_mono (h _ hb') ?_
    intro r b' hr
    cases r with
    | error e =>
      obtain ⟨ps, h1, h2, h3, h4, h5, h6⟩ := hr
      exact ⟨ps, h1, h2, h3, h4, h5, h6⟩
    | ok u =>
      obtain ⟨c, h1, h2, h3, h4, h5, h6, h7⟩ := hr
      refine ⟨c, h1, h2, h3, h4, h5, h6, ?_⟩
      cases c with
      | put p a bytes =>
        obtain ⟨blob, x1, x2, x3, x4, x5, ⟨w1, w2, w3⟩, x6⟩ := h7
        exact ⟨blob, x1, x2, x3, x4, x5, ⟨w1, w2, w3⟩, x6⟩
      | mkdir p => exact h7
      | remove p => exact h7
      | rename p q => exact h7
      | setAttr p mtime mode => exact h7

/-- The three operations that put a file, after `reject_dir`. -/
private theorem put_post {b : VaultBatch P} (hb : b.Indexed) {op : Op} {p : Str} (hp : NormalPath p)
    (htarget : op.target = some p)
    (hkind : ∀ d, entryAt b.manifest.entries p = some d → d.kind = .file) {blake3 : Bytes} {size : Nat}
    {source : Result Bytes} {io : BlobIo} {mtime : Option Int} {mode : Option Nat}
    (hmakes : ∀ blob bytes, source = .ok bytes → bytes.length = size → P.hashContent bytes = blake3 →
      op.Makes P (.put p (fileAttrs blob (P.hashContent bytes) bytes.length mtime mode) bytes)) :
    wp (do
      let blob ← VaultBatch.writeBlob blake3 size source io
      place p blob blake3 size mtime mode) (op.Post b) b := by
  refine wp_mono (writeAndPlace_spec hb hp hkind blake3 size source io mtime mode) ?_
  intro r b' hr
  cases r with
  | error e =>
    unfold Op.Post
    rwa [htarget]
  | ok u =>
    obtain ⟨blob, bytes, hs, hlen, hhash, hdid⟩ := hr
    exact ⟨_, hdid op _ rfl (hmakes blob bytes hs hlen hhash)⟩

private theorem putFile_spec {b : VaultBatch P} (hb : b.Indexed) (vaultPath : Str) (hashed : Result Bytes)
    (source : Result (Result Bytes)) (io : BlobIo) (mtime : Option Int) (mode : Option Nat) :
    wp (putFile vaultPath hashed source io mtime mode)
      ((Op.putFile vaultPath hashed source io mtime mode).Post b) b := by
  refine counted_spec hb _ fun b hb => ?_
  simp only [wp_bind, wp_liftM]
  cases hn : normalizePath vaultPath with
  | error e => exact hb.failed _ e
  | ok p =>
    refine rejectDir_wp hb (fun e => hb.failed _ e) fun hkind => ?_
    cases hashed with
    | error e => exact hb.failed _ e
    | ok first =>
      cases source with
      | error e => exact hb.failed _ e
      | ok stream =>
        have hpost := @put_post P b hb (.putFile vaultPath (.ok first) (.ok stream) io mtime mode) p
          (normalPath_of_normalizePath hn) (by simp [Op.target, hn, Except.toOption]) hkind
          (P.hashContent first) first.length stream io mtime mode
          (by
            rintro blob bytes rfl hlen hhash
            exact .putFile blob hn hlen hhash)
        simpa only [wp_bind] using hpost

private theorem putBytes_spec {b : VaultBatch P} (hb : b.Indexed) (vaultPath : Str) (bytes : Bytes) (io : BlobIo)
    (mtime : Option Int) (mode : Option Nat) :
    wp (putBytes vaultPath bytes io mtime mode) ((Op.putBytes vaultPath bytes io mtime mode).Post b) b := by
  refine counted_spec hb _ fun b hb => ?_
  simp only [wp_bind, wp_liftM]
  cases hn : normalizePath vaultPath with
  | error e => exact hb.failed _ e
  | ok p =>
    refine rejectDir_wp hb (fun e => hb.failed _ e) fun hkind => ?_
    have hpost := @put_post P b hb (.putBytes vaultPath bytes io mtime mode) p
      (normalPath_of_normalizePath hn) (by simp [Op.target, hn, Except.toOption]) hkind
      (P.hashContent bytes) bytes.length (.ok bytes) io mtime mode
      (by
        rintro blob bytes' ⟨⟩ - -
        exact .putBytes blob hn)
    simpa only [wp_bind] using hpost

private theorem putStreamTrusted_spec {b : VaultBatch P} (hb : b.Indexed) (path : Str) (blake3 : Bytes) (size : Nat)
    (source : Result Bytes) (io : BlobIo) (mtime : Option Int) (mode : Option Nat) :
    wp (putStreamTrusted path blake3 size source io mtime mode)
      ((Op.putStreamTrusted path blake3 size source io mtime mode).Post b) b := by
  unfold putStreamTrusted
  simp only [wp_bind, wp_liftM]
  cases hn : normalizeStoredPath path with
  | error e => exact hb.failed _ e
  | ok p =>
    refine rejectDir_wp hb (fun e => hb.failed _ e) fun hkind => ?_
    have hpost := @put_post P b hb (.putStreamTrusted path blake3 size source io mtime mode) p
      (normalPath_of_normalizeStoredPath hn) (by simp [Op.target, hn, Except.toOption]) hkind
      blake3 size source io mtime mode
      (by
        rintro blob bytes rfl rfl rfl
        exact .putStreamTrusted blob hn rfl rfl)
    simpa only [wp_bind] using hpost

/-- The two operations that make a directory, after normalisation. -/
private theorem dir_post {b : VaultBatch P} (hb : b.Indexed) {op : Op} {p : Str} (hp : NormalPath p)
    (htarget : op.target = some p) (hmakes : op.Makes P (.mkdir p)) (err : Error) :
    wp (match b.kindAt p with
      | some .dir => pure ()
      | some .file => throw err
      | none => insertDir p) (op.Post b) b := by
  rw [hb.kindAt]
  cases hd : entryAt b.manifest.entries p with
  | none =>
    refine wp_mono (insertDir_spec hb hp hd) ?_
    rintro r b' ⟨hhost, hstaged, hr⟩
    cases r with
    | error e =>
      unfold Op.Post
      rwa [htarget]
    | ok u =>
      obtain ⟨hpre, hman, hix, hsup, hch⟩ := hr
      exact ⟨.mkdir p, hmakes, hpre, hman, hix, by simp [hsup, Change.superseded], Or.inl hch, hhost, hstaged⟩
  | some d =>
    cases hk : d.kind with
    | file => simpa [hk] using hb.failed op err
    | dir =>
      simp only [Option.map_some, hk, wp_pure]
      have hsame : (Change.mkdir p).apply b.manifest.entries = b.manifest.entries := by simp [Change.apply, hd]
      refine ⟨.mkdir p, hmakes, ⟨hp, ?_, by simp [hd]⟩, by rw [hsame], hb.index,
        by simp [Change.superseded], Or.inr ⟨rfl, hsame, rfl⟩, rfl, rfl⟩
      intro d' hd'
      rw [hd, Option.some.injEq] at hd'
      exact hd' ▸ hk

private theorem mkdir_spec {b : VaultBatch P} (hb : b.Indexed) (vaultPath : Str) :
    wp (mkdir vaultPath) ((Op.mkdir vaultPath).Post b) b := by
  refine counted_spec hb _ fun b hb => ?_
  simp only [wp_bind, wp_liftM]
  cases hn : normalizePath vaultPath with
  | error e => exact hb.failed _ e
  | ok p =>
    simp only [wp_get]
    exact dir_post hb (normalPath_of_normalizePath hn) (by simp [Op.target, hn, Except.toOption]) (.mkdir hn) _

private theorem addDirTrusted_spec {b : VaultBatch P} (hb : b.Indexed) (path : Str) :
    wp (addDirTrusted path) ((Op.addDirTrusted path).Post b) b := by
  unfold addDirTrusted
  simp only [wp_bind, wp_liftM]
  cases hn : normalizeStoredPath path with
  | error e => exact hb.failed _ e
  | ok p =>
    simp only [wp_get]
    exact dir_post hb (normalPath_of_normalizeStoredPath hn) (by simp [Op.target, hn, Except.toOption])
      (.addDirTrusted hn) _

private theorem remove_spec {b : VaultBatch P} (hb : b.Indexed) (vaultPath : Str) :
    wp (remove vaultPath) ((Op.remove vaultPath).Post b) b := by
  refine counted_spec hb _ fun b hb => ?_
  simp only [wp_bind, wp_liftM]
  cases hn : normalizeStoredPath vaultPath with
  | error e => exact hb.failed _ e
  | ok p =>
    have hp := normalPath_of_normalizeStoredPath hn
    simp only [wp_get, wp_ite, wp_modify, wp_pure]
    refine ⟨fun _ => ?_, fun hlen => ?_⟩
    · exact ⟨.remove p, .remove hn, hp, rfl, rfl, rfl, Or.inl rfl, rfl, rfl⟩
    · rw [not_ne_iff, List.length_filter_eq_length_iff] at hlen
      have hkept : (Change.remove p).apply b.manifest.entries = b.manifest.entries := by
        simp only [Change.apply]
        rw [List.filter_eq_self]
        exact hlen
      have hsup : (Change.remove p).superseded b.manifest.entries = [] := by
        simp only [Change.superseded]
        have : (b.manifest.entries.filter fun e => AtOrBelow '/' p e.path) = [] := by
          rw [List.filter_eq_nil_iff]
          intro e he
          have hne := of_decide_eq_true (hlen e he)
          exact fun hb => hne (of_decide_eq_true hb)
        rw [this]
        rfl
      exact ⟨.remove p, .remove hn, hp, by rw [hkept], hb.index, by rw [hsup]; simp,
        Or.inr ⟨rfl, hkept, hsup⟩, rfl, rfl⟩

private theorem rename_spec {b : VaultBatch P} (hb : b.Indexed) (vaultFrom vaultTo : Str) :
    wp (rename vaultFrom vaultTo) ((Op.rename vaultFrom vaultTo).Post b) b := by
  refine counted_spec hb _ fun b hb => ?_
  simp only [wp_bind, wp_liftM]
  cases hs : normalizeStoredPath vaultFrom with
  | error e => exact hb.failed _ e
  | ok p =>
    have hp := normalPath_of_normalizeStoredPath hs
    cases ht : normalizePath vaultTo with
    | error e => exact hb.failed _ e
    | ok q =>
      have hq := normalPath_of_normalizePath ht
      simp only [wp_ite, wp_pure, wp_throw, wp_bind, wp_get]
      refine ⟨fun heq => ?_, fun hne => ⟨fun _ => hb.failed _ _, fun hinto => ⟨fun _ => hb.failed _ _, fun hfrom =>
        ⟨fun _ => hb.failed _ _, fun hto => ?_⟩⟩⟩⟩
      · have hsame : (Change.rename p q).apply b.manifest.entries = b.manifest.entries := by
          simp [Change.apply, heq]
        exact ⟨.rename p q, .rename hs ht, Or.inl heq, by rw [hsame], hb.index,
          by simp [Change.superseded], Or.inr ⟨rfl, hsame, rfl⟩, rfl, rfl⟩
      · rw [hb.index_eq_none] at hfrom
        rw [not_ne_iff, hb.index_eq_none] at hto
        refine wp_mono (ensureDirs_spec hb hq) ?_
        intro r b' h
        cases r with
        | error e =>
          obtain ⟨ps, hps, ⟨f, d, hab⟩, rfl⟩ := h
          have htarget : (Op.rename vaultFrom vaultTo).target = some q := by
            simp [Op.target, hs, ht, hne, Except.toOption]
          exact ⟨ps, by simpa [htarget] using hps, fun _ => ⟨q, f, d, htarget, hab⟩, rfl, rfl, rfl, rfl⟩
        | ok u =>
          obtain ⟨hno, rfl⟩ := h
          simp only [wp_modify]
          refine ⟨.rename p q, .rename hs ht, Or.inr ⟨hp, hq, hne, hinto, hfrom, hto, hno⟩, ?_,
            rfl, by simp [Change.superseded, VaultBatch.withEntries, VaultBatch.reindex], Or.inl rfl, rfl, rfl⟩
          simp only [VaultBatch.reindex, VaultBatch.withEntries, Change.apply, if_neg hne]
          rfl

/-- A rename that nothing stands in the way of succeeds. -/
theorem rename_ok {b : VaultBatch P} (hb : b.Indexed) (hlimit : ∀ n, b.limit = some n → b.ops < n)
    {vaultFrom vaultTo p q : Str} (hs : normalizeStoredPath vaultFrom = .ok p) (ht : normalizePath vaultTo = .ok q)
    (hpre : (Change.rename p q).Pre b.manifest.entries) :
    wp (rename vaultFrom vaultTo) (fun r _ => r = .ok ()) b := by
  unfold rename
  simp only [wp_bind]
  refine wp_mono (countOp_ok b hlimit) ?_
  rintro r _ ⟨rfl, rfl⟩
  have hb' : VaultBatch.Indexed { b with ops := b.ops + 1 } := ⟨hb.index, hb.nodup⟩
  simp only [wp_liftM, hs, ht, wp_ite, wp_pure, wp_throw, wp_bind, wp_get]
  refine ⟨fun _ => trivial, fun hne => ?_⟩
  rcases hpre with heq | ⟨-, hq, -, hinto, hfrom, hto, hno⟩
  · exact absurd heq hne
  · refine ⟨fun h => absurd h hinto, fun _ => ⟨fun h => absurd (hb'.index_eq_none.1 h) hfrom, fun _ =>
      ⟨fun h => absurd (hb'.index_eq_none.2 hto) h, fun _ => ?_⟩⟩⟩
    refine wp_mono (ensureDirs_spec hb' hq) ?_
    intro r b' h
    cases r with
    | ok u => simp only [wp_modify]
    | error e =>
      obtain ⟨-, -, ⟨f, d, hf, hd, hk, -⟩, -⟩ := h
      rw [hno f d hf hd] at hk
      cases hk

private theorem setAttr_spec {b : VaultBatch P} (hb : b.Indexed) (vaultPath : Str) (mtime : Option Int)
    (mode : Option Nat) : wp (setAttr vaultPath mtime mode) ((Op.setAttr vaultPath mtime mode).Post b) b := by
  refine counted_spec hb _ fun b hb => ?_
  simp only [wp_bind, wp_liftM]
  cases hn : normalizeStoredPath vaultPath with
  | error e => exact hb.failed _ e
  | ok p =>
    have hp := normalPath_of_normalizeStoredPath hn
    simp only [wp_get]
    cases hi : b.index p with
    | none => exact hb.failed _ _
    | some i =>
      have hix : Keyed.index EntryV2.path b.manifest.entries p = some i := by rwa [hb.index] at hi
      have hsome : entryAt b.manifest.entries p ≠ none := by
        rw [Ne, ← hb.index_eq_none, hi]
        simp
      simp only [wp_modify]
      refine ⟨.setAttr p mtime mode, .setAttr hn, ⟨hp, hsome⟩, ?_, ?_,
        by simp [Change.superseded], Or.inl rfl, rfl, rfl⟩
      · simp only [Change.apply, hix]
      · rw [hb.index]
        unfold indexEntries
        refine Keyed.index_congr (Eq.symm ?_)
        exact Keyed.map_key_modify _ i fun _ => rfl

/-- Every operation on a batch whose index is right. -/
theorem Op.run_spec {b : VaultBatch P} (hb : b.Indexed) (op : Op) : wp (op.run P) (op.Post b) b := by
  cases op with
  | putFile vaultPath hashed source io mtime mode => exact putFile_spec hb vaultPath hashed source io mtime mode
  | putBytes vaultPath bytes io mtime mode => exact putBytes_spec hb vaultPath bytes io mtime mode
  | mkdir vaultPath => exact mkdir_spec hb vaultPath
  | addDirTrusted path => exact addDirTrusted_spec hb path
  | putStreamTrusted path blake3 size source io mtime mode =>
    exact putStreamTrusted_spec hb path blake3 size source io mtime mode
  | remove vaultPath => exact remove_spec hb vaultPath
  | rename vaultFrom vaultTo => exact rename_spec hb vaultFrom vaultTo
  | setAttr vaultPath mtime mode => exact setAttr_spec hb vaultPath mtime mode

end FileSec
