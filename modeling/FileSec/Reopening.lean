import FileSec.Legality
import FileSec.Retention
import FileSec.Shape

/-!
# What was committed can be opened again

A commit on a vault that opens leaves one that opens, if each call of its closure is legal for the entries it finds and
the sealed manifest is not too large; for a commit of one operation these are also necessary (`commitWith_reopens`).
-/

namespace FileSec

open CrashDir Prog SepPath

variable {P : Prims}

/-- A batch whose index is exact and whose entries are valid. -/
structure VaultBatch.Valid (b : VaultBatch P) : Prop where
  index : b.index = indexEntries b.manifest
  entries : ValidEntries b.reader.suite.aeadAlg b.manifest.entries

/-- The manifest file that seals the batch, with the nonce that is drawn for it, is not too large to be opened. -/
def VaultBatch.SealsSmall (b : VaultBatch P) : Prop :=
  ∀ state nonce, b.reader.nextState b.manifest = .ok state →
    randomVec b.reader.suite.aeadAlg.nonceLen (b.host.rng 0) = .ok nonce →
      P.rawLen (b.reader.sealedRaw b.manifest state nonce) ≤ maxManifestLen

/-- Each call of the closure is legal for the entries it finds, and the manifest it leaves is not too large. -/
structure CommitCall.Legal (c : CommitCall) (s : Session P) : Prop where
  calls : c.edits.Along (fun b op => op.Legal P b.manifest.entries) (VaultBatch.new s.reader c.limit s.host)
  small : (s.edited c.limit c.edits).2.changed = true → (s.edited c.limit c.edits).2.SealsSmall

/-! ### Operations -/

section Op

variable {b b' : VaultBatch P} {op : Op} {c c' : Change} {alg : AeadAlg} {es : List EntryV2} {p : Str}

theorem VaultBatch.Valid.indexed (hb : b.Valid) : b.Indexed := ⟨hb.index, hb.entries.nodup⟩

theorem Op.Did.blob (h : op.Did c b b') : c.Blob b.reader.suite.aeadAlg := by
  cases c with
  | mkdir | remove | rename | setAttr => trivial
  | put p a bytes =>
    have hsize : a.size = bytes.length := by cases h.makes <;> rfl
    obtain ⟨blob, blake3, size, mtime, mode, rfl, hwrote, -⟩ := h.writes
    refine ⟨rfl, hsize, fun hok => ?_, fun hchunks => ?_⟩
    · rw [← hsize]
      exact hok.chunks
    · have hpos : 0 < defaultChunkSize ∧ defaultChunkSize ≤ maxChunkSize := by decide
      exact ⟨⟨_, rfl, validateBlobId_blobId hwrote.id⟩, hpos, hsize ▸ hchunks, Option.some_ne_none _, _, rfl,
        hwrote.nonce⟩

/-- No file lies above an entry of a valid manifest. -/
theorem ValidEntries.noFileAbove (hv : ValidEntries alg es) (hp : NormalPath p) (hat : entryAt es p ≠ none) :
    NoFileAbove es p := by
  intro f d hb hd
  obtain ⟨e, he⟩ := Option.ne_none_iff_exists'.1 hat
  obtain ⟨hmd, rfl⟩ := Keyed.lookup_mem hd
  obtain ⟨hme, rfl⟩ := Keyed.lookup_mem he
  rcases hv.apart_or_eq hmd hme with h | h
  · have hclash := (h _ _ (hp.of_below hb).normalizeStoredPath hp.normalizeStoredPath).2.1
    cases hk : d.kind with
    | dir => rfl
    | file => exact absurd hb (hclash hk)
  · exact absurd (Prod.mk.inj h).1 hb.ne

/-- An operation that has made a change has met no file above its target. -/
private theorem Op.Makes.noFileAbove (hm : op.Makes P c) (hv : ValidEntries alg es) (hpre : c.Pre es)
    (ht : op.target = some p) : NoFileAbove es p := by
  have hnew : ∀ {q : Str}, NormalPath q → (entryAt es q = none → NoFileAbove es q) → NoFileAbove es q := by
    intro q hq hno
    by_cases hat : entryAt es q = none
    · exact hno hat
    · exact hv.noFileAbove hq hat
  cases hm with
  | putFile blob hp =>
    obtain rfl : _ = p := by simpa [Op.target, hp, Except.toOption] using ht
    exact hnew hpre.1 hpre.2.2
  | putBytes blob hp =>
    obtain rfl : _ = p := by simpa [Op.target, hp, Except.toOption] using ht
    exact hnew hpre.1 hpre.2.2
  | putStreamTrusted blob hp =>
    obtain rfl : _ = p := by simpa [Op.target, hp, Except.toOption] using ht
    exact hnew hpre.1 hpre.2.2
  | mkdir hp =>
    obtain rfl : _ = p := by simpa [Op.target, hp, Except.toOption] using ht
    exact hnew hpre.1 hpre.2.2
  | addDirTrusted hp =>
    obtain rfl : _ = p := by simpa [Op.target, hp, Except.toOption] using ht
    exact hnew hpre.1 hpre.2.2
  | remove => simp [Op.target] at ht
  | setAttr => simp [Op.target] at ht
  | rename hp hq =>
    rcases hpre with rfl | ⟨-, -, hne, -, -, -, hno⟩
    · simp [Op.target, hp, hq] at ht
    · obtain rfl : _ = p := by simpa [Op.target, hp, hq, hne, Except.toOption] using ht
      exact hno

/-- The changes an operation can make differ in the blob only, which legality does not depend on. -/
private theorem Op.Makes.legal (hm : op.Makes P c) (hm' : op.Makes P c') (h : c.Legal es) : c'.Legal es := by
  cases hm with
  | putFile blob hp =>
    cases hm' with
    | putFile blob' hp' =>
      rw [hp, Except.ok.injEq] at hp'
      exact hp' ▸ ⟨h.fit, h.sized⟩
  | putBytes blob hp =>
    cases hm' with
    | putBytes blob' hp' =>
      rw [hp, Except.ok.injEq] at hp'
      exact hp' ▸ ⟨h.fit, h.sized⟩
  | putStreamTrusted blob hp =>
    cases hm' with
    | putStreamTrusted blob' hp' =>
      rw [hp, Except.ok.injEq] at hp'
      exact hp' ▸ ⟨h.fit, h.sized⟩
  | mkdir hp =>
    cases hm' with
    | mkdir hp' =>
      rw [hp, Except.ok.injEq] at hp'
      exact hp' ▸ h
  | addDirTrusted hp =>
    cases hm' with
    | addDirTrusted hp' =>
      rw [hp, Except.ok.injEq] at hp'
      exact hp' ▸ h
  | remove hp =>
    cases hm' with
    | remove hp' =>
      rw [hp, Except.ok.injEq] at hp'
      exact hp' ▸ h
  | setAttr hp =>
    cases hm' with
    | setAttr hp' =>
      rw [hp, Except.ok.injEq] at hp'
      exact hp' ▸ h
  | rename hp hq =>
    cases hm' with
    | rename hp' hq' =>
      rw [hp, Except.ok.injEq] at hp'
      rw [hq, Except.ok.injEq] at hq'
      exact hp' ▸ hq' ▸ h

/-- Adding parents that fit keeps the entries valid, whether or not all of them are added. -/
private theorem ValidEntries.addDirs (hv : ValidEntries alg es) {f : Str} (hf : NormalPath f)
    (hfit : Fit es ((missingParents es f).map (·, .dir))) {ps : List Str} (hnd : ps.Nodup)
    (hps : ps ⊆ missingParents es f) : ValidEntries alg (es ++ ps.map dirEntry) := by
  have hfit' : Fit es (ps.map (·, .dir)) := by
    refine ⟨?_, fun x hx => hfit.paths x (List.map_subset _ hps hx),
      fun e he x hx => hfit.apart e he x (List.map_subset _ hps hx)⟩
    have hle := (List.subperm_of_subset hnd hps).length_le
    have hcount := hfit.count
    simp only [List.length_map] at hcount ⊢
    omega
  have hsites : (es ++ ps.map dirEntry).map EntryV2.site = es.map EntryV2.site ++ ps.map (·, .dir) := by
    rw [List.map_append, List.map_map]
    rfl
  have hapart : (ps.map fun a => (a, EntryKind.dir)).Pairwise Apart :=
    dirs_apart hnd fun a ha => hf.of_below (mem_missingParents.1 (hps ha)).1
  refine (validEntries_iff hv (.refl _) (.of_eq hsites) hapart).2 ⟨hfit', fun e he hk => ?_, ?_⟩
  · rcases List.mem_append.1 he with he | he
    · exact hv.files e he hk
    · obtain ⟨a, -, rfl⟩ := List.mem_map.1 he
      simp [dirEntry, dirAttrs] at hk
  · rw [totalSize_append, totalSize_dirs]
    exact hv.total

theorem normal_target (h : op.target = some p) : NormalPath p := by
  have hloose : ∀ {path : Str}, (normalizeStoredPath path).toOption = some p → NormalPath p := by
    intro path hp
    cases hn : normalizeStoredPath path with
    | error e => simp [hn, Except.toOption] at hp
    | ok n =>
      obtain rfl : n = p := by simpa [hn, Except.toOption] using hp
      exact normalPath_of_normalizeStoredPath hn
  have hstrict : ∀ {path : Str}, (normalizePath path).toOption = some p → NormalPath p := by
    intro path hp
    cases hn : normalizePath path with
    | error e => simp [hn, Except.toOption] at hp
    | ok n =>
      obtain rfl : n = p := by simpa [hn, Except.toOption] using hp
      exact normalPath_of_normalizePath hn
  cases op with
  | putFile | putBytes | mkdir => exact hstrict h
  | addDirTrusted | putStreamTrusted => exact hloose h
  | remove | setAttr => simp [Op.target] at h
  | rename vaultFrom vaultTo =>
    simp only [Op.target] at h
    split at h
    · simp at h
    · exact hstrict h

/-- A legal call leaves a valid batch valid, whatever becomes of it. -/
theorem Op.run_valid (hb : b.Valid) (hl : op.Legal P b.manifest.entries) :
    wp (op.run P) (fun _ b' => b'.Valid ∧ b'.reader = b.reader) b := by
  refine wp_mono (wp_and (Op.run_spec hb.indexed op) (op.run_blind.drew b)) ?_
  rintro r b' ⟨hspec, hreader, -⟩
  refine ⟨?_, hreader⟩
  cases r with
  | ok u =>
    obtain ⟨c, hdid⟩ := hspec
    refine ⟨hdid.index, ?_⟩
    rw [hreader, hdid.manifest]
    exact (valid_apply_iff hb.entries hdid.pre hdid.blob).2 (hl.change c hdid.makes hdid.pre)
  | error e =>
    obtain ⟨ps, hstuck⟩ := hspec
    refine ⟨hstuck.index, ?_⟩
    rw [hreader, hstuck.manifest]
    by_cases hps : ps = []
    · rw [hps]
      simpa using hb.entries
    · obtain ⟨p, f, d, ht, hfp, hf, hk, habove⟩ := hstuck.above hps
      have hsub : ps.Sublist (missingParents b.manifest.entries p) := by simpa [ht] using hstuck.parents
      refine hb.entries.addDirs ((normal_target ht).of_below hfp) (hl.blocked p f d ht hfp hf hk)
        (hsub.nodup (missingParents_nodup _ _)) fun a ha => ?_
      exact mem_missingParents.2 ⟨habove a ha, (mem_missingParents.1 (hsub.subset ha)).2⟩

/-- A call that has left a valid batch valid was legal. -/
theorem Op.legal_of_valid (hb : b.Valid) (hrun : exec (op.run P) b = (.ok (), b'))
    (hv : ValidEntries b.reader.suite.aeadAlg b'.manifest.entries) : op.Legal P b.manifest.entries := by
  obtain ⟨c, hdid⟩ : (∃ c, op.Did c b b') := of_wp (Op.run_spec hb.indexed op) hrun
  rw [hdid.manifest] at hv
  have hlegal := (valid_apply_iff hb.entries hdid.pre hdid.blob).1 hv
  refine ⟨fun c' hm' _ => hdid.makes.legal hm' hlegal, fun p f d ht hfp hf hk => ?_⟩
  rw [hdid.makes.noFileAbove hb.entries hdid.pre ht f d hfp hf] at hk
  simp at hk

theorem Edits.run_valid (hb : b.Valid) {edits : Edits}
    (h : edits.Along (fun b op => op.Legal P b.manifest.entries) b) :
    wp (edits.run P) (fun _ b' => b'.Valid ∧ b'.reader = b.reader) b := by
  induction edits generalizing b with
  | done r =>
    simp only [Edits.run, wp_liftM]
    exact ⟨hb, trivial⟩
  | call op next ih =>
    simp only [Edits.run, wp_bind, wp_attempt]
    obtain ⟨hb', hreader⟩ := Op.run_valid hb h.1
    have hrest := wp_mono (ih _ hb' h.2) fun _ _ h => And.intro h.1 (h.2.trans hreader)
    exact hrest

end Op

/-! ### Commits -/

section Commit

variable {identity : Identity} {h : Host P} {r : VaultReaderV2 P} {c : CommitCall} {s : Session P}

/-- Running the closure that calls one operation is running the operation. -/
theorem exec_single (op : Op) (b : VaultBatch P) : exec ((Edits.ofList [op]).run P) b = exec (op.run P) b := by
  simp only [Edits.ofList, Edits.run, exec_bind, exec_attempt]
  rcases exec (op.run P) b with ⟨r, b'⟩
  cases r <;> rfl

/-- A reader of a vault that opens as it is. -/
theorem valid_new (hopen : openVault P h.top.shown identity = .ok r.reopened)
    (limit : Option Nat) : (VaultBatch.new r limit h).Valid := by
  have hvalid := valid_of_openVault hopen
  exact ⟨rfl, validateManifestV2_iff.1 hvalid⟩

/-- After a commit that succeeds the vault opens, as the reader, exactly if the entries are valid and the manifest is not
too large. -/
private theorem commitWith_opens (hopen : openVault P h.top.shown identity = .ok r.reopened)
    (hok : exec (commitWith c.limit c.edits c.io) ⟨r, h⟩ = (.ok (), s)) {b : VaultBatch P}
    (hb : b = (Session.edited ⟨r, h⟩ c.limit c.edits).2) :
    (b.changed = false ∧ openVault P s.host.top.shown identity = .ok s.reader.reopened) ∨
      b.changed = true ∧ ∀ r', openVault P s.host.top.shown identity = .ok r' ↔
        b.SealsSmall ∧ ValidEntries r.suite.aeadAlg b.manifest.entries ∧ r' = s.reader.reopened := by
  have hbel : r.Belongs identity := ⟨(belongs_of_openVault hopen).header, (belongs_of_openVault hopen).owner⟩
  have hheader := header_of_openVault hopen
  obtain ⟨_, _, _, _, -, hlen, -⟩ := openVault_eq_ok.1 hopen
  rw [reopened_headerBytes] at hheader hlen
  obtain ⟨k, hed⟩ := edited_spec ⟨r, h⟩ c.limit c.edits
  have hreader : (Session.edited ⟨r, h⟩ c.limit c.edits).2.reader = r := by
    have hdrew : wp (c.edits.run P) (fun _ b' => b'.reader = r) (VaultBatch.new r c.limit h) :=
      wp_mono (c.edits.run_blind.drew (VaultBatch.new r c.limit h)) fun _ _ h => h.1
    exact hdrew
  have hout := of_wp (commitWith_outcome ⟨r, h⟩ c.limit c.edits c.io) hok
  rw [← hb] at hed hreader hout
  cases hout with
  | unchanged _ hch =>
    refine Or.inl ⟨hch, ?_⟩
    have htop : b.host.top = h.top := hed.drew.top
    simpa only [htop] using hopen
  | @sealed state nonce h' _ hch hsealed =>
    refine Or.inr ⟨hch, fun r' => ?_⟩
    obtain ⟨hnext, hdrawn, -, rfl⟩ := hsealed
    have hsmall : b.SealsSmall ↔ P.rawLen (r.sealedRaw b.manifest state nonce) ≤ maxManifestLen := by
      unfold VaultBatch.SealsSmall
      rw [hreader]
      constructor
      · exact fun h => h state nonce hnext hdrawn
      · rintro h state' nonce' hstate hnonce
        rw [hnext, Except.ok.injEq] at hstate
        rw [hdrawn, Except.ok.injEq] at hnonce
        exact hstate ▸ hnonce ▸ h
    have hall : ∀ h' : Host P, h'.top = (b.host.top.write .manifest (r.sealedRaw b.manifest state nonce)).sync
        c.io.vaultSync → (openVault P h'.top.shown identity = .ok r' ↔
          b.SealsSmall ∧ ValidEntries r.suite.aeadAlg b.manifest.entries ∧
            r' = (r.committed b state c.io.vaultSync).reopened) := by
      intro h' htop
      have hheader' : h'.top.shown .header = some r.headerBytes := by
        rw [htop, shown_sync, shown_write_of_ne (by decide), hed.drew.top, hheader]
      have hraw : h'.top.shown .manifest = some (r.sealedRaw b.manifest state nonce) := by
        rw [htop, shown_sync, shown_write_self]
      rw [openVault_sealed hbel hnext (randomVec_length hdrawn) hheader' hraw, validateManifestV2_iff, hsmall,
        and_iff_right hlen]
      rfl
    refine hall _ ?_
    split <;> rfl

/-- On a vault that opens, a commit that succeeds leaves one that opens, as the reader, if it is legal; and if the commit
is of one operation, it leaves one that opens only if it is legal. -/
theorem commitWith_reopens (hopen : openVault P h.top.shown identity = .ok r.reopened)
    (hok : exec (commitWith c.limit c.edits c.io) ⟨r, h⟩ = (.ok (), s)) :
    (c.Legal ⟨r, h⟩ → openVault P s.host.top.shown identity = .ok s.reader.reopened) ∧
      ∀ op, c.edits = .ofList [op] → (∃ r', openVault P s.host.top.shown identity = .ok r') → c.Legal ⟨r, h⟩ := by
  have hnew := valid_new hopen c.limit
  refine ⟨fun hl => ?_, fun op hop hopens => ?_⟩
  · rcases commitWith_opens hopen hok rfl with ⟨-, hsame⟩ | ⟨hch, hiff⟩
    · exact hsame
    · obtain ⟨hb, hreader⟩ : (Session.edited ⟨r, h⟩ c.limit c.edits).2.Valid ∧
          (Session.edited ⟨r, h⟩ c.limit c.edits).2.reader = r := Edits.run_valid hnew hl.calls
      have hentries := hb.entries
      rw [hreader] at hentries
      exact (hiff _).2 ⟨hl.small hch, hentries, rfl⟩
  · rcases c with ⟨limit, edits, io⟩
    obtain rfl : edits = .ofList [op] := hop
    have hrun : exec (op.run P) (VaultBatch.new r limit h) = Session.edited ⟨r, h⟩ limit (.ofList [op]) :=
      (exec_single op _).symm
    have hedited : (Session.edited ⟨r, h⟩ limit (.ofList [op])).1 = .ok () := by
      cases of_wp (commitWith_outcome ⟨r, h⟩ limit (.ofList [op]) io) hok with
      | sealed hres => exact hres
      | unchanged hres => exact hres
    have hrun' : exec (op.run P) (VaultBatch.new r limit h) =
        (.ok (), (Session.edited ⟨r, h⟩ limit (.ofList [op])).2) := Prod.ext (hrun ▸ hedited) (hrun ▸ rfl)
    rcases commitWith_opens hopen hok rfl with ⟨hch, -⟩ | ⟨-, hiff⟩
    · obtain ⟨ch, hdid⟩ : ∃ ch, op.Did ch _ _ := of_wp (Op.run_spec hnew.indexed op) hrun'
      have hsame : ch.apply r.manifest.entries = r.manifest.entries := by
        rcases hdid.changed with h | ⟨-, h, -⟩
        · rw [hch] at h
          simp at h
        · exact h
      refine ⟨Edits.along_single (Op.legal_of_valid hnew hrun' ?_), fun h => ?_⟩
      · rw [hdid.manifest]
        exact hsame.symm ▸ hnew.entries
      · rw [hch] at h
        simp at h
    · obtain ⟨r', hr'⟩ := hopens
      obtain ⟨hsmall, hentries, -⟩ := (hiff r').1 hr'
      exact ⟨Edits.along_single (Op.legal_of_valid hnew hrun' hentries), fun _ => hsmall⟩

/-- The machine seals what the closure has changed: the epoch can grow, a nonce is drawn and the manifest is written. -/
def CommitCall.Seals (c : CommitCall) (s : Session P) : Prop :=
  (s.edited c.limit c.edits).2.changed = true → ∃ state nonce,
    s.reader.nextState (s.edited c.limit c.edits).2.manifest = .ok state ∧
    randomVec s.reader.suite.aeadAlg.nonceLen ((s.edited c.limit c.edits).2.host.rng 0) = .ok nonce ∧
    c.io.writeFault = none

/-- A manifest is sealed if the machine seals it. -/
private theorem sealAndWrite_ok {m : ManifestV2} {io : SealIo} {state : P.State} {nonce : Bytes}
    (hnext : r.nextState m = .ok state) (hdrawn : randomVec r.suite.aeadAlg.nonceLen (h.rng 0) = .ok nonce)
    (hfault : io.writeFault = none) : wp (r.sealAndWrite m io) (fun res _ => ∃ x, res = .ok x) h := by
  unfold VaultReaderV2.nextState at hnext
  unfold VaultReaderV2.sealAndWrite writeAtomic
  cases hid : vaultObjectId P r.headerBytes with
  | error e => simp [hid, bind, Except.bind] at hnext
  | ok objectId =>
    simp only [hid, bind, Except.bind] at hnext
    simp only [wp_bind, wp_modify, wp_liftM, hnext, wp_draw, hdrawn, hfault, wp_pure]
    exact ⟨_, rfl⟩

/-- A commit succeeds exactly if its closure does and the machine seals what it has changed. -/
theorem commitWith_ok_iff (c : CommitCall) (s : Session P) :
    (exec (commitWith c.limit c.edits c.io) s).1 = .ok () ↔ (s.edited c.limit c.edits).1 = .ok () ∧ c.Seals s := by
  constructor
  · intro hok
    obtain ⟨s', hrun⟩ : ∃ s', exec (commitWith c.limit c.edits c.io) s = (.ok (), s') := ⟨_, Prod.ext hok rfl⟩
    have hout := of_wp (commitWith_outcome s c.limit c.edits c.io) hrun
    unfold CommitCall.Seals
    cases hout with
    | sealed hedited hch hsealed => exact ⟨hedited, fun _ => ⟨_, _, hsealed.next, hsealed.drawn, hsealed.fault⟩⟩
    | unchanged hedited hch =>
      refine ⟨hedited, fun h => ?_⟩
      rw [hch] at h
      cases h
  · rintro ⟨hok, hseals⟩
    have hwp : wp (commitWith c.limit c.edits c.io) (fun res _ => res = .ok ()) s := by
      unfold CommitCall.Seals at hseals
      unfold commitWith concludeCommit
      simp only [wp_bind, wp_get, wp_modify, wp_attempt, wp_liftM]
      rw [← Session.edited]
      generalize s.edited c.limit c.edits = p at hok hseals
      obtain ⟨edited, b⟩ := p
      simp only at hok hseals
      subst hok
      cases hch : b.changed with
      | false => simp only [Bool.false_eq_true, ↓reduceIte, wp_pure]
      | true =>
        obtain ⟨state, nonce, hnext, hdrawn, hfault⟩ := hseals hch
        simp only [↓reduceIte, wp_bind, onHost, wp_zoom]
        refine wp_mono (sealAndWrite_ok hnext hdrawn hfault) ?_
        rintro res h ⟨⟨state, durable⟩, rfl⟩
        simp only [wp_pure, wp_modify, wp_bind, reclaim]
        split <;> simp
    exact hwp

end Commit

/-! The directory of a file is renamed, to a short path and to one of 64 components. -/

set_option maxRecDepth 10000 in
private theorem withFile_opens : (openVault Sym Sym.withFile.host.top.shown Sym.alice).toOption.isSome = true := by decide

private def openedFile : VaultReaderV2 Sym := (openVault Sym Sym.withFile.host.top.shown Sym.alice).toOption.get withFile_opens

private def renameTo (dst : Str) : CommitCall := ⟨none, .ofList [.rename "d".toList dst], .fine⟩

private def afterRename (dst : Str) : Result Unit × Session Sym :=
  exec (commitWith (renameTo dst).limit (renameTo dst).edits (renameTo dst).io) ⟨openedFile, Sym.withFile.host⟩

set_option maxRecDepth 10000 in
theorem commitWith_reopens_renamed :
    openVault Sym (afterRename "e".toList).2.host.top.shown Sym.alice = .ok (afterRename "e".toList).2.reader.reopened := by
  have hopen := eq_ok_get withFile_opens
  rw [← reopened_of_openVault hopen] at hopen
  have hok : (afterRename "e".toList).1 = .ok () := by decide
  have hopens : (openVault Sym (afterRename "e".toList).2.host.top.shown Sym.alice).toOption.isSome = true := by decide
  have h := commitWith_reopens (c := renameTo "e".toList) hopen (Prod.ext hok rfl)
  exact h.1 (h.2 _ rfl ⟨_, eq_ok_get hopens⟩)

set_option maxRecDepth 100000 in
theorem commitWith_reopens_fails : openVault Sym Sym.withFile.host.top.shown Sym.alice = .ok openedFile ∧
    (afterRename Sym.deepPath).1 = .ok () ∧
    (openVault Sym (afterRename Sym.deepPath).2.host.top.shown Sym.alice).map (fun _ => ()) =
      .error (.vault "path is too deep".toList) := by
  refine ⟨eq_ok_get withFile_opens, ?_, ?_⟩
  · decide +kernel
  · decide +kernel

end FileSec
