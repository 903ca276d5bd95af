import FileSec.Copying
import FileSec.Store.Opened
import FileSec.Store.Upgrade

/-!
# What an upgrade stages

Staging changes nothing but `migration/`.  When it returns, each live path of the journal has a staged copy that the new
identity opens, and the copy holds what the live object held: the re-sealed keystore, the payload of a record, and of a
vault its name and every entry with its bytes (`stageMigration_spec`).
-/

namespace FileSec

open CrashDir Folders Prog

variable {S : StorePrims} {s s' : Store S}

/-! ### Object ids -/

private theorem hexDigit_of_unhexDigit {c : Char} {n : Nat} (h : unhexDigit c = some n) : n < 16 ∧ hexDigit n = c := by
  unfold unhexDigit at h
  have hchar : ∀ {m : Nat}, m = c.toNat → Char.ofNat m = c := by
    rintro m rfl
    exact Char.ofNat_toNat c
  split at h
  · rename_i hc
    have h₁ : 48 ≤ c.toNat := hc.1
    have h₂ : c.toNat ≤ 57 := hc.2
    obtain rfl := Option.some.inj h
    unfold hexDigit
    rw [if_pos (by omega)]
    exact ⟨by omega, hchar (by omega)⟩
  · split at h
    · rename_i hc
      have h₁ : 97 ≤ c.toNat := hc.1
      have h₂ : c.toNat ≤ 102 := hc.2
      obtain rfl := Option.some.inj h
      unfold hexDigit
      rw [if_neg (by omega)]
      exact ⟨by omega, hchar (by omega)⟩
    · cases h

/-- What has been decoded is encoded as it was. -/
theorem hex_of_unhex {id : Str} {bytes : Bytes} (h : unhex id = some bytes) : hex bytes = id := by
  induction id using unhex.induct generalizing bytes with
  | case1 =>
    obtain rfl := Option.some.inj h
    rfl
  | case2 c => cases h
  | case3 hi lo rest ih =>
    unfold unhex at h
    cases hhi : unhexDigit hi with
    | none => simp [hhi] at h
    | some m =>
      cases hlo : unhexDigit lo with
      | none => simp [hhi, hlo] at h
      | some n =>
        cases hrest : unhex rest with
        | none => simp [hhi, hlo, hrest] at h
        | some tail =>
          simp only [hhi, hlo, hrest, bind, Option.bind, Option.some.injEq] at h
          obtain ⟨hm, hmc⟩ := hexDigit_of_unhexDigit hhi
          obtain ⟨hn, hnc⟩ := hexDigit_of_unhexDigit hlo
          have hbyte : (UInt8.ofNat (16 * m + n)).toNat = 16 * m + n := by
            rw [UInt8.toNat_ofNat']
            omega
          have hcons : hex bytes = hexDigit ((UInt8.ofNat (16 * m + n)).toNat / 16) ::
              hexDigit ((UInt8.ofNat (16 * m + n)).toNat % 16) :: hex tail := by
            rw [← h]
            rfl
          rw [hcons, ih hrest, hbyte, show (16 * m + n) / 16 = m by omega, show (16 * m + n) % 16 = n by omega, hmc, hnc]

theorem isMigratableLivePath_vaultLive {id : Str} (hchars : id.all isVaultIdChar = true) (hne : id ≠ [])
    (hlen : byteLen id ≤ 64) : isMigratableLivePath (vaultLive id) = true := by
  have hstrip : "vaults/".toList.isPrefixOf? (vaultLive id) = some (vaultDirV2 id) :=
    List.isPrefixOf?_eq_some_iff_append_eq.2 rfl
  have hsuffix : ".fsv2".toList.isSuffixOf? (vaultDirV2 id) = some id := by
    unfold List.isSuffixOf? vaultDirV2
    rw [List.reverse_append, List.isPrefixOf?_eq_some_iff_append_eq.2 rfl, Option.map_some, List.reverse_reverse]
  unfold isMigratableLivePath
  rw [hstrip, Option.bind_some, hsuffix]
  simp [hchars, hne, hlen]

/-- The path of a vault whose id is the name of sixteen bytes is one that a migration may replace. -/
theorem isMigratableLivePath_hex {bytes : Bytes} (h : bytes.length = 16) :
    isMigratableLivePath (vaultLive (hex bytes)) = true := by
  obtain ⟨hall, hlen⟩ := hex_all bytes
  refine isMigratableLivePath_vaultLive (List.all_eq_true.2 fun c hc => ?_) (fun hnil => ?_) (by omega)
  · have hblob := List.all_eq_true.1 hall c hc
    unfold isBlobIdChar at hblob
    unfold isVaultIdChar Char.isAlphanum Char.isAlpha Char.isLower Char.isDigit
    simp only [Bool.or_eq_true, Bool.and_eq_true, decide_eq_true_eq] at hblob ⊢
    rcases hblob with ⟨h₁, h₂⟩ | ⟨h₁, h₂⟩
    · exact Or.inl (Or.inr ⟨h₁, h₂⟩)
    · exact Or.inl (Or.inl (Or.inr ⟨h₁, UInt32.le_trans h₂ (by decide)⟩))
  · rw [hnil] at hlen
    simp [h] at hlen

theorem vaultLive_injective : Function.Injective vaultLive := by
  intro id id' h
  exact List.append_cancel_right (List.append_cancel_left h)

theorem vaultLive_ne {id rel : Str} (h : "vaults/".toList.isPrefixOf? rel = none) : vaultLive id ≠ rel := by
  rintro rfl
  have hstrip : "vaults/".toList.isPrefixOf? (vaultLive id) = some (vaultDirV2 id) :=
    List.isPrefixOf?_eq_some_iff_append_eq.2 rfl
  rw [hstrip] at h
  cases h

/-! ### Where staging works -/

section Where

variable {live : Str} {entry : DirEntry S.toPrims} {raw : S.Raw}

/-- Besides `migration/` and the draws, at most the staged copy of one live path has changed. -/
structure Store.StagedOne (live : Str) (s s' : Store S) : Prop extends s.Beneath s' where
  there : s.migration.isSome = true → s'.migration.isSome = true
  others : ∀ l, l ≠ live → s'.stagedAt l = s.stagedAt l

instance : IsPreorder (Store S) (Store.StagedOne live) where
  refl s := ⟨beneath_later s 0, id, fun _ _ => rfl⟩
  trans _ _ _ h h' := ⟨Trans.trans h.toBeneath h'.toBeneath, fun ht => h'.there (h.there ht),
    fun l hl => (h'.others l hl).trans (h.others l hl)⟩

theorem stagedOne_later (s : Store S) (k : Nat) : s.StagedOne live (s.later k) :=
  ⟨beneath_later s k, id, fun _ _ => rfl⟩

theorem stagedOne_stage (s : Store S) (live : Str) (entry : DirEntry S.toPrims) :
    s.StagedOne live (s.stage live entry) := by
  refine ⟨⟨rfl, rfl, rfl, rfl, rfl, rfl, .refl _, fun hc => ?_⟩, fun ht => ?_, fun l hl => ?_⟩
  · unfold Store.hasOldCopies Store.stage at *
    cases hm : s.migration with
    | none => rfl
    | some d => simpa [hm] using hc
  · unfold Store.stage
    rw [Option.isSome_map]
    exact ht
  · unfold Store.stagedAt Store.stage
    cases hm : s.migration with
    | none => rfl
    | some d => exact AList.lookup_insert_ne hl

theorem stagedAt_stage (h : s.migration.isSome = true) : (s.stage live entry).stagedAt live = some entry := by
  obtain ⟨d, hd⟩ := Option.isSome_iff_exists.1 h
  unfold Store.stagedAt Store.stage
  rw [hd]
  exact AList.lookup_insert _

theorem call_stagedOne (text : Str) : Respects (Store.StagedOne live) (call text : StoreM S Unit) := by
  intro s
  rw [wp_call]
  exact ⟨fun _ => stagedOne_later s 1, fun _ => stagedOne_later s 1⟩

theorem drawBytes_stagedOne (n : Nat) : Respects (Store.StagedOne live) (drawBytes S n) :=
  .bind .get fun _ => .bind (.modify fun _ => ⟨⟨rfl, rfl, rfl, rfl, rfl, rfl, ⟨1, rfl⟩, id⟩, id, fun _ _ => rfl⟩)
    fun _ => .lift _

theorem stageFile_stagedOne (live : Str) (raw : S.Raw) : Respects (Store.StagedOne live) (stageFile live raw) :=
  .bind (call_stagedOne _) fun _ => .bind (.attempt (call_stagedOne _)) fun _ =>
    .modify fun s => stagedOne_stage s live (.file raw)

theorem stageFile_ok (h : s.migration.isSome = true) :
    wp (stageFile live raw) (fun r s' => r = .ok () → s'.stagedAt live = some (.file raw)) s := by
  unfold stageFile
  simp only [wp_bind, wp_call, wp_attempt, wp_modify]
  have hstaged : ∀ k, ((s.later k).stage live (.file raw)).stagedAt live = some (.file raw) :=
    fun k => stagedAt_stage (show (s.later k).migration.isSome = true from h)
  exact ⟨fun _ => ⟨fun _ _ => hstaged 2, fun _ _ => hstaged 2⟩, fun _ hr => by cases hr⟩

theorem readStagedFile_stagedOne (l : Str) (max : Nat) (label : Str) :
    Respects (Store.StagedOne live) (readStagedFile l max label : StoreM S S.Raw) :=
  .bind (call_stagedOne _) fun _ => .bind .get fun _ => .lift _

theorem stagedFile_of_stagedAt (h : s.stagedAt live = some (.file raw)) : s.stagedFile live = some raw := by
  unfold Store.stagedFile
  rw [h]

theorem loadStagedBlob_stagedOne (identity : Identity) (l name : Str) :
    Respects (Store.StagedOne live) (loadStagedBlob identity l name : StoreM S _) := by
  refine .bind .get fun s => ?_
  cases s.stagedFile l with
  | none => exact .pure _
  | some raw =>
    exact .bind (call_stagedOne _) fun _ => .ite (.throw _)
      (.bind (call_stagedOne _) fun _ => .bind (.lift _) fun _ => .pure _)

end Where

/-! ### The keystore -/

/-- The entry is a copy of the keystore, whose state is `state`. -/
structure KeystoreCopy (ks : S.KeystoreFile) (state : StateMetadata S.Digest) (entry : DirEntry S.toPrims) : Prop where
  state : S.keystoreState ks = some state
  file : ∃ raw, entry = .file raw ∧ S.keystoreToBytes ks = .ok raw ∧ S.rawLen raw ≤ maxKeystoreFileLen

theorem stageKeystore_stagedOne (ks : S.KeystoreFile) :
    Respects (Store.StagedOne keystoreFile) (stageKeystore ks : StoreM S _) :=
  .bind (.lift _) fun _ => .bind (.lift _) fun _ => .bind (stageFile_stagedOne _ _) fun _ =>
    .bind (readStagedFile_stagedOne _ _ _) fun _ => .bind (.lift _) fun _ => .ite (.throw _) (.pure _)

theorem stageKeystore_ok {ks : S.KeystoreFile} (h : s.migration.isSome = true) :
    wp (stageKeystore ks) (fun r s' => ∀ state, r = .ok state →
      ∃ entry, s'.stagedAt keystoreFile = some entry ∧ KeystoreCopy ks state entry) s := by
  unfold stageKeystore keystoreStateOr
  cases hstate : S.keystoreState ks with
  | none => rintro _ ⟨⟩
  | some state =>
    simp only [lift_ok_bind, wp_bind, wp_liftM]
    cases hraw : S.keystoreToBytes ks with
    | error e => rintro _ ⟨⟩
    | ok raw =>
      simp only [Result.text_ok]
      refine wp_mono (stageFile_ok h) ?_
      intro r s₁ hstaged
      cases r with
      | error e => rintro _ ⟨⟩
      | ok u =>
        have hstaged := hstaged rfl
        unfold readStagedFile
        simp only [wp_bind, wp_call, wp_get, wp_liftM]
        refine ⟨fun _ => ?_, fun _ => by rintro _ ⟨⟩⟩
        have hfile : s₁.tick.stagedFile keystoreFile = some raw :=
          stagedFile_of_stagedAt (show s₁.tick.stagedAt keystoreFile = _ from hstaged)
        have hread : S.keystoreFromBytes raw = .ok ks := S.keystoreFromBytes_toBytes ks raw hraw
        rw [hfile]
        unfold readBounded
        by_cases hlen : S.rawLen raw > maxKeystoreFileLen
        · simp only [if_pos hlen, Result.labelled]
          rintro _ ⟨⟩
        · simp only [if_neg hlen, Result.labelled, hread, Result.text_ok, wp_ite, wp_throw, wp_pure]
          refine ⟨fun _ => by rintro _ ⟨⟩, fun _ => ?_⟩
          rintro _ ⟨⟩
          exact ⟨.file raw, hstaged, hstate, raw, rfl, hraw, Nat.not_lt.1 hlen⟩

/-! ### Records -/

section Record

variable {T : Type} {o : RecordKind S T} {identity : Identity} {payload : T}

/-- The file holds a record that authenticates for the identity. -/
def RecordKind.Reads (o : RecordKind S T) (identity : Identity) (raw : S.Raw) (record : ProtectedState S.Digest T) :
    Prop :=
  ∃ blob, readContainer S identity raw o.entryName = .ok blob ∧ o.authenticate identity blob = .ok record

/-- The entry is a record of the payload for the identity, at its first state. -/
structure RecordKind.Copy (o : RecordKind S T) (identity : Identity) (payload : T) (state : StateMetadata S.Digest)
    (entry : DirEntry S.toPrims) : Prop where
  next : o.next identity none payload = .ok state
  file : ∃ raw, entry = .file raw ∧ S.rawLen raw ≤ maxSelfBlobContainerLen ∧
    o.Reads identity raw ⟨protectedStateVersion, state, payload⟩

theorem saveStagedBlob_stagedOne (identity : Identity) (live name : Str) (bytes : S.Raw) :
    Respects (Store.StagedOne live) (saveStagedBlob identity live name bytes : StoreM S Unit) :=
  .bind (drawBytes_stagedOne _) fun _ => .bind (.lift _) fun _ => stageFile_stagedOne _ _

theorem stageProtected_stagedOne (o : RecordKind S T) (identity : Identity) (payload : T) :
    Respects (Store.StagedOne o.path) (stageProtected o identity payload) := by
  refine .bind (.lift _) fun _ => .bind (saveStagedBlob_stagedOne _ _ _ _) fun _ =>
    .bind (loadStagedBlob_stagedOne _ _ _) fun blob => ?_
  cases blob with
  | none => exact .throw _
  | some blob => exact .bind (.lift _) fun _ => .ite (.throw _) (.pure _)

theorem saveStagedBlob_ok {live name : Str} {bytes : S.Raw} (h : s.migration.isSome = true) :
    wp (saveStagedBlob identity live name bytes) (fun r s' => r = .ok () → ∃ raw seed,
      s'.stagedAt live = some (.file raw) ∧
        S.exportBlob identity (selfSuite identity) name bytes seed = .ok raw) s := by
  unfold saveStagedBlob
  have hdraw : Respects (Store.StagedOne live) (drawBytes S 32) := drawBytes_stagedOne 32
  rw [wp_bind]
  refine wp_mono (hdraw s) ?_
  intro r s₁ hone
  cases r with
  | error e => rintro ⟨⟩
  | ok seed =>
    simp only [wp_bind, wp_liftM]
    cases hraw : S.exportBlob identity (selfSuite identity) name bytes seed with
    | error e => rintro ⟨⟩
    | ok raw =>
      simp only [Result.text_ok]
      refine wp_mono (stageFile_ok (hone.there h)) ?_
      intro r s₂ hstaged hr
      exact ⟨raw, seed, hstaged hr, hraw⟩

/-- What `load_blob` finds in a container that has just been made. -/
theorem readContainer_exportBlob {name : Str} {bytes raw : S.Raw} {seed : Bytes} {blob : S.Raw × SuiteId}
    (h : S.exportBlob identity (selfSuite identity) name bytes seed = .ok raw)
    (hread : readContainer S identity raw name = .ok blob) : blob.1 = bytes := by
  obtain ⟨c, hopen, -, hentry, hentries⟩ := S.openContainer_exportBlob _ _ _ _ _ _ h
  unfold readContainer at hread
  rw [hopen] at hread
  simp only [hentries] at hread
  split at hread
  · cases hread
  · split at hread
    · cases hread
    · rw [hentry] at hread
      have hblob : (bytes, c.suite) = blob := Except.ok.inj hread
      rw [← hblob]

/-- What authenticates is what has been encoded. -/
theorem authenticate_encode {blob : S.Raw × SuiteId} {record check : ProtectedState S.Digest T}
    (hblob : blob.1 = o.record.encode record) (h : o.authenticate identity blob = .ok check) : check = record := by
  unfold RecordKind.authenticate at h
  rw [hblob, RawCodec.decode_encode] at h
  simp only at h
  split at h
  · cases h
  · cases hv : record.state.verifyPayload S.hashState (o.payload.encode record.payload) with
    | error e =>
      rw [hv] at h
      cases h
    | ok u =>
      rw [hv] at h
      exact (Except.ok.inj h).symm

theorem stageProtected_ok (h : s.migration.isSome = true) :
    wp (stageProtected o identity payload) (fun r s' => ∀ state, r = .ok state →
      ∃ entry, s'.stagedAt o.path = some entry ∧ o.Copy identity payload state entry) s := by
  unfold stageProtected
  rw [wp_bind, wp_liftM]
  cases hnext : o.next identity none payload with
  | error e => rintro _ ⟨⟩
  | ok state =>
    simp only [wp_bind]
    refine wp_mono (saveStagedBlob_ok h) ?_
    intro r s₁ hsaved
    cases r with
    | error e => rintro _ ⟨⟩
    | ok u =>
      obtain ⟨raw, seed, hstaged, hraw⟩ := hsaved rfl
      unfold loadStagedBlob
      simp only [wp_bind, wp_get, stagedFile_of_stagedAt hstaged, wp_call, wp_ite, wp_throw, wp_liftM, wp_pure]
      refine ⟨fun _ => ⟨fun _ => by rintro _ ⟨⟩, fun hlen => ⟨fun _ => ?_, fun _ => by rintro _ ⟨⟩⟩⟩, fun _ => by rintro _ ⟨⟩⟩
      cases hread : readContainer S identity raw o.entryName with
      | error e => rintro _ ⟨⟩
      | ok blob =>
        have hblob := readContainer_exportBlob hraw hread
        simp only
        cases hauth : o.authenticate identity blob with
        | error e => rintro _ ⟨⟩
        | ok check =>
          obtain rfl := authenticate_encode hblob hauth
          refine ⟨fun hne => absurd rfl hne, fun _ => ?_⟩
          rintro _ ⟨⟩
          exact ⟨.file raw, hstaged, hnext, raw, rfl, Nat.not_lt.1 hlen, blob, hread, hauth⟩

end Record

/-! ### Vaults -/

section Built

variable {P : Prims} {identity : Identity} {id : Str} {source : VaultReaderV2 P} {blobs : Str → Option Bytes} {h h' : Host P}
  {r q : VaultReaderV2 P}

/-- What has been built opens as its reader or not at all. -/
theorem opened_of_built {builder : Builder P} (hrun : exec (builder.run identity) h = (.ok r, h'))
    (hopen : openVault P h'.top.shown identity = .ok q) : q = r.reopened := by
  obtain ⟨s, hs, edits, io, hcommit⟩ := Builder.run_ok hrun
  obtain ⟨k, hed⟩ := edited_spec s none edits
  have hout := of_wp (commitWith_outcome s none edits io) hcommit
  generalize Session.edited s none edits = edited at hed hout
  obtain ⟨res, b⟩ := edited
  have htop : b.host.top = s.host.top := hed.drew.top
  cases hout with
  | unchanged hres hch => exact ((hs.opens_iff (by rw [htop])).1 hopen).2.2
  | @sealed state nonce h₁ hres hch hsealed =>
    obtain ⟨hnext, hdrawn, -, rfl⟩ := hsealed
    have hall : ∀ H : Host P, H.top = (b.host.top.write .manifest (s.reader.sealedRaw b.manifest state nonce)).sync
        io.vaultSync → openVault P H.top.shown identity = .ok q →
        q = (s.reader.committed b state io.vaultSync).reopened := by
      intro H hH hq
      have hheader : H.top.shown .header = some s.reader.headerBytes := by
        rw [hH, CrashDir.shown_sync, shown_write_of_ne (by decide), htop]
        exact hs.header.1
      have hraw : H.top.shown .manifest = some (s.reader.sealedRaw b.manifest state nonce) := by
        rw [hH, CrashDir.shown_sync, shown_write_self]
      exact ((openVault_sealed hs.belongs hnext (randomVec_length hdrawn) hheader hraw).1 hq).2.2.2
    refine hall _ ?_ hopen
    split <;> rfl

/-- A vault that is created with an object id is the one of that id, which names sixteen bytes. -/
theorem createFor_objectId (identity : Identity) (suite : SuiteId) (name : Str) (createdAt : Int) (id : Str)
    (io : CreateIo) (h : Host P) :
    wp (createFor P identity suite name createdAt (some id) io) (fun res _ => ∀ r, res = .ok r →
      io.makesDir id = true ∧ isMigratableLivePath (vaultLive id) = true ∧ vaultObjectId P r.headerBytes = .ok id) h := by
  simp only [createFor, createWithObjectId]
  cases hid : unhex id with
  | none => rintro _ ⟨⟩
  | some bytes =>
    simp only [wp_ite, wp_throw]
    refine ⟨fun _ => by rintro _ ⟨⟩, fun hlen => ?_⟩
    have hlen : bytes.length = 16 := not_not.1 hlen
    unfold createInner
    cases hfault : io.dirFault with
    | some e => rintro _ ⟨⟩
    | none =>
      have hmakes : io.makesDir id = true := by
        unfold CreateIo.makesDir
        simp [hfault, hid, hlen]
      simp only [wp_bind, wp_draw]
      cases randomVec 32 (h.rng 0) with
      | error e => rintro _ ⟨⟩
      | ok key =>
        simp only [wp_liftM]
        cases P.wrapForRecipient key identity.publicPart suite io.wrapSeed with
        | error e => rintro _ ⟨⟩
        | ok stanza =>
          unfold writeAtomic
          cases io.headerFault with
          | some e => rintro _ ⟨⟩
          | none =>
            simp only [wp_bind, wp_modify, wp_pure]
            refine wp_mono (sealAndWrite_spec _ _ _ _) ?_
            intro res h₁ _
            cases res with
            | error e => rintro _ ⟨⟩
            | ok sealed =>
              rintro _ ⟨⟩
              refine ⟨hmakes, hex_of_unhex hid ▸ isMigratableLivePath_hex hlen, ?_⟩
              show vaultObjectId P (P.encodeHeader _) = .ok id
              unfold vaultObjectId
              rw [P.decodeHeader_encodeHeader]
              exact congrArg Except.ok (hex_of_unhex hid)

/-- A vault built from another one with an object id is the one of that id. -/
theorem fromReaderV2_objectId (identity : Identity) (suite : SuiteId) (source : VaultReaderV2 P)
    (blobs : Str → Option Bytes) (id : Str) (io : BuildIo) (h : Host P) :
    wp (fromReaderV2 identity suite source blobs (some id) io) (fun res _ => ∀ r, res = .ok r →
      io.create.makesDir id = true ∧ isMigratableLivePath (vaultLive id) = true ∧ r.Coherent identity id) h := by
  unfold fromReaderV2
  rw [wp_bind]
  refine wp_mono (wp_and (createFor_objectId identity suite _ _ id io.create h)
    (createFor_spec identity suite _ _ (some id) io.create h)) ?_
  rintro res h₁ ⟨hid, hcreated⟩
  cases res with
  | error e => rintro _ ⟨⟩
  | ok me =>
    obtain ⟨hmakes, hpath, hheader⟩ := hid me rfl
    have hs : Session.Created ⟨me, h₁⟩ identity h := hcreated
    obtain ⟨id', hcoh⟩ := hs.coherent
    obtain rfl : id' = id := Except.ok.inj (hcoh.header.symm.trans hheader)
    have hfill := VaultReaderV2.Coherent.commitWith (s := ⟨me, h₁⟩) hcoh none
      (rekeyEdits source blobs io.blob 0 source.manifest.entries) io.commit
    refine wp_fill.2 (wp_mono hfill ?_)
    intro res s' hcoh' r hr
    cases res with
    | error e => cases hr
    | ok u =>
      obtain rfl := Except.ok.inj hr
      exact ⟨hmakes, hpath, hcoh'⟩

/-- A vault that is built from a valid one is a copy of it. -/
theorem fromReaderV2_converted {objectId : Option Str} (hvalid : validateManifestV2 source.manifest source.suite.aeadAlg = .ok ())
    (fresh : h.rng.Fresh fun _ => False)
    (hsize : ∀ e ∈ source.manifest.entries, e.kind = .file → numChunks e.size defaultChunkSize ≠ u32Max + 1)
    (suite : SuiteId) (io : BuildIo) :
    wp (fromReaderV2 identity suite source blobs objectId io) (fun res h' => ∀ r, res = .ok r →
      ∃ vs, List.Forall₂ (source.Lists blobs) source.manifest.entries vs ∧
        r.Converted h' identity source.manifest.label vs) h := by
  have hvalid := validateManifestV2_iff.1 hvalid
  have hbuilt := createFill_converted (x := .ok ())
    (f := fun _ => rekeyEdits source blobs io.blob 0 source.manifest.entries) fresh identity io.commit suite
    source.manifest.vaultName source.manifest.createdAt objectId io.create (fun _ _ => rekeyEdits_fills hsize)
    fun vs hvs => authenticates_sound hvalid hvs
  simp only [lift_ok_bind] at hbuilt
  refine wp_mono hbuilt ?_
  rintro res h' hres r rfl
  obtain ⟨vs, hvs, hconv⟩ := hres
  have hall := List.forall₂_iff_zip.1 hvs
  exact ⟨vs, List.forall₂_iff_zip.2 ⟨hall.1, fun hz => (hall.2 hz).lists (hvalid.files _ (List.of_mem_zip hz).1)⟩, hconv⟩

theorem VaultReaderV2.Copies.reopened {vs : List VaultEntry} (h : r.Copies blobs vs) : r.reopened.Copies blobs vs := by
  refine ⟨h.distinct, h.listed, fun v hv hk => ?_, h.only⟩
  have hsame : r.reopened.readEntryToWriter blobs v.path = r.readEntryToWriter blobs v.path :=
    readEntryToWriter_congr rfl rfl rfl fun _ _ _ _ => rfl
  exact hsame.trans (h.contents v hv hk)

end Built

section Vault

variable {identity : Identity} {id live : Str} {source : VaultReaderV2 S.toPrims} {blobs : Str → Option Bytes}

/-- The reader is that of a vault in the directory, and holds what the source holds: its name, and each of its entries
with its bytes. -/
structure VaultReaderV2.Rekeyed (r : VaultReaderV2 S.toPrims) (d : VaultDir S.toPrims) (identity : Identity) (id : Str)
    (source : VaultReaderV2 S.toPrims) (blobs : Str → Option Bytes) : Prop where
  opens : openVault S.toPrims d.top.shown identity = .ok r
  coherent : r.Coherent identity id
  label : r.manifest.label = source.manifest.label
  length : r.manifest.entries.length = source.manifest.entries.length
  copies : ∃ vs, List.Forall₂ (source.Lists blobs) source.manifest.entries vs ∧ r.Copies d.blobs.shown vs

/-- The entry is a vault of the identity with this id and state, and holds what the source holds. -/
structure VaultCopy (identity : Identity) (id : Str) (source : VaultReaderV2 S.toPrims) (blobs : Str → Option Bytes)
    (state : StateMetadata S.Digest) (entry : DirEntry S.toPrims) : Prop where
  path : isMigratableLivePath (vaultLive id) = true
  dir : ∃ d, ∃ r : VaultReaderV2 S.toPrims, entry = .dir d ∧ r.Rekeyed d identity id source blobs ∧ r.state = some state

theorem stagedHost_rng (s : Store S) (live : Str) : (s.stagedHost live).rng = s.rng := by
  unfold Store.stagedHost
  split <;> rfl

/-- Building works on the machine that the staged copy shows. -/
theorem wp_buildStaged {live : Str} {identity : Identity} {builder : Builder S.toPrims} {makesDir : Bool} {s : Store S}
    {Q : StoreResult (VaultReaderV2 S.toPrims) → Store S → Prop} : wp (buildStaged live identity builder makesDir) Q s ↔
      wp (builder.run identity) (fun r h => Q (Result.text r)
        { (if (s.stagedAt live).isSome || makesDir then s.stage live (.dir ⟨h.top, h.blobs⟩) else s) with rng := h.rng })
        (s.stagedHost live) := Iff.rfl

theorem buildStaged_stagedOne (live : Str) (identity : Identity) (builder : Builder S.toPrims) (makesDir : Bool) :
    Respects (Store.StagedOne live) (buildStaged live identity builder makesDir) := by
  intro s
  rw [wp_buildStaged]
  refine wp_mono (builder_ahead builder identity (s.stagedHost live)) ?_
  intro r h hahead
  have hahead : s.rng.Ahead h.rng := stagedHost_rng s live ▸ hahead
  have hstage : s.StagedOne live
      (if (s.stagedAt live).isSome || makesDir then s.stage live (.dir ⟨h.top, h.blobs⟩) else s) := by
    split
    · exact stagedOne_stage s live _
    · exact Std.Refl.refl s
  exact ⟨⟨hstage.account, hstage.backend, hstage.secure, hstage.root, hstage.vaults, hstage.quarantined, hahead,
    hstage.copies⟩, hstage.there, hstage.others⟩

theorem readStagedVault_stagedOne (l : Str) (identity : Identity) :
    Respects (Store.StagedOne live) (readStagedVault l identity : StoreM S _) :=
  .bind (call_stagedOne _) fun _ => .bind (call_stagedOne _) fun _ => .bind .get fun _ => .lift _

theorem stageVault_stagedOne (identity : Identity) (io : BuildIo) (id : Str) (source : VaultReaderV2 S.toPrims) :
    Respects (Store.StagedOne (vaultLive id)) (stageVault identity io id source) := by
  refine .bind .get fun s => .bind (buildStaged_stagedOne _ _ _ _) fun built => ?_
  cases built.state with
  | none => exact .throw _
  | some state => exact .bind (readStagedVault_stagedOne _ _) fun check => .ite (.throw _) (.pure _)

/-- What a staged vault is read as. -/
theorem readStagedVault_ok (live : Str) (identity : Identity) (s : Store S) :
    wp (readStagedVault live identity) (fun r s' => (∃ k, s' = s.later k) ∧ ∀ q, r = .ok q →
      openVault S.toPrims (s.stagedHost live).top.shown identity = .ok q) s := by
  unfold readStagedVault
  simp only [wp_bind, wp_call, wp_get, wp_liftM]
  exact ⟨fun _ => ⟨fun _ => ⟨⟨2, rfl⟩, fun q hq => Result.text_eq_ok.1 hq⟩, fun _ => ⟨⟨2, rfl⟩, by rintro _ ⟨⟩⟩⟩,
    fun _ => ⟨⟨1, rfl⟩, by rintro _ ⟨⟩⟩⟩

/-- The manifest is valid, and no file in it has one chunk more than a chunk index can count. -/
structure VaultReaderV2.Copyable {P : Prims} (r : VaultReaderV2 P) : Prop where
  valid : validateManifestV2 r.manifest r.suite.aeadAlg = .ok ()
  view : r.view = viewOf r.manifest
  size : ∀ e ∈ r.manifest.entries, e.kind = .file → numChunks e.size defaultChunkSize ≠ u32Max + 1

theorem stageVault_ok (fresh : s.rng.Fresh fun _ => False) (hthere : s.migration.isSome = true) (hcopy : source.Copyable)
    (io : BuildIo) :
    wp (stageVault identity io id source) (fun r s' => ∀ state, r = .ok state → ∃ entry,
      s'.stagedAt (vaultLive id) = some entry ∧
        VaultCopy identity id source (s.host (vaultDirV2 id)).blobs.shown state entry) s := by
  unfold stageVault
  simp only [wp_bind, wp_get]
  rw [wp_buildStaged]
  have hhost : (s.stagedHost (vaultLive id)).rng.Fresh fun _ => False := (stagedHost_rng s (vaultLive id)).symm ▸ fresh
  refine wp_mono (wp_and (fromReaderV2_objectId identity (selfSuite identity) source (s.host (vaultDirV2 id)).blobs.shown id
    io _) (wp_and (fromReaderV2_converted hcopy.valid hhost hcopy.size (selfSuite identity) io) (wp_self _ _))) ?_
  rintro res h' ⟨hid, hconv, hrun⟩
  cases res with
  | error e => rintro _ ⟨⟩
  | ok r =>
    obtain ⟨hmakes, hpath, hcoh⟩ := hid r rfl
    obtain ⟨vs, hvs, hconv⟩ := hconv r rfl
    simp only [Result.text_ok, hmakes, Bool.or_true, if_true]
    cases hstate : r.state with
    | none => rintro _ ⟨⟩
    | some state =>
      generalize hbuilt : ({ s.stage (vaultLive id) (.dir ⟨h'.top, h'.blobs⟩) with rng := h'.rng } : Store S) = t
      have hstaged : t.stagedAt (vaultLive id) = some (.dir ⟨h'.top, h'.blobs⟩) := by
        rw [← hbuilt]
        exact stagedAt_stage hthere
      have htop : (t.stagedHost (vaultLive id)).top = h'.top := by
        unfold Store.stagedHost
        rw [hstaged]
      simp only [wp_bind]
      refine wp_mono (readStagedVault_ok (vaultLive id) identity t) ?_
      rintro res _ ⟨⟨k, rfl⟩, hopen⟩
      cases res with
      | error e => rintro _ ⟨⟩
      | ok check =>
        have hopen := hopen check rfl
        rw [htop] at hopen
        obtain rfl := opened_of_built hrun hopen
        simp only [wp_ite, wp_throw, wp_pure]
        refine ⟨fun _ => (by rintro _ ⟨⟩), fun hok => ?_⟩
        rintro _ ⟨⟩
        have hlen : r.reopened.view.length = source.view.length := not_not.1 fun h => hok (Or.inr h)
        rw [view_of_openVault hopen, hcopy.view, viewOf, viewOf, List.length_map, List.length_map] at hlen
        refine ⟨.dir ⟨h'.top, h'.blobs⟩, hstaged, hpath, ⟨h'.top, h'.blobs⟩, r.reopened, rfl, ?_, hstate⟩
        exact ⟨hopen, hcoh.pending [], hconv.label, hlen, vs, hvs, hconv.copies.reopened⟩

end Vault

/-! ### The whole -/

section Whole

variable {old identity : Identity} {plan : UpgradePlan S}

/-- The loop over the vaults. -/
theorem stageVaults_spec (io : Str → BuildIo) {vaults : List (Str × VaultReaderV2 S.toPrims)}
    (hcopy : ∀ p ∈ vaults, p.2.Copyable) (hnd : (vaults.map (·.1)).Nodup) (fresh : s.rng.Fresh fun _ => False)
    (hthere : s.migration.isSome = true) :
    wp (stageVaults identity io vaults) (fun r s' => s.Beneath s' ∧ s'.migration.isSome = true ∧
      (∀ l, l ∉ vaults.map (fun p => vaultLive p.1) → s'.stagedAt l = s.stagedAt l) ∧
      ∀ staged, r = .ok staged → staged.map (·.1) = vaults.map (fun p => vaultLive p.1) ∧
        ∀ q ∈ staged, ∃ p ∈ vaults, q.1 = vaultLive p.1 ∧ ∃ entry, s'.stagedAt q.1 = some entry ∧
          VaultCopy identity p.1 p.2 (s.host (vaultDirV2 p.1)).blobs.shown q.2 entry) s := by
  induction vaults generalizing s with
  | nil =>
    refine ⟨beneath_later s 0, hthere, fun _ _ => rfl, ?_⟩
    rintro _ ⟨⟩
    exact ⟨rfl, by simp⟩
  | cons p vaults ih =>
    obtain ⟨id, current⟩ := p
    rw [List.map_cons, List.nodup_cons] at hnd
    unfold stageVaults
    rw [wp_bind]
    refine wp_mono (wp_and (stageVault_stagedOne identity (io id) id current s)
      (stageVault_ok fresh hthere (hcopy _ List.mem_cons_self) (io id))) ?_
    rintro r s₁ ⟨hone, hfirst⟩
    have hthere₁ := hone.there hthere
    have hothers : ∀ l, l ∉ (vaultLive id) :: vaults.map (fun p => vaultLive p.1) → s₁.stagedAt l = s.stagedAt l :=
      fun l hl => hone.others l fun he => hl (he ▸ List.mem_cons_self)
    cases r with
    | error e => exact ⟨hone.toBeneath, hthere₁, hothers, by rintro _ ⟨⟩⟩
    | ok state =>
      obtain ⟨entry, hstaged, hentry⟩ := hfirst state rfl
      simp only [wp_bind]
      refine wp_mono (ih (fun q hq => hcopy q (List.mem_cons_of_mem _ hq)) hnd.2 (fresh.ahead hone.rng) hthere₁) ?_
      rintro r s₂ ⟨hb, hthere₂, hkeep, hrest⟩
      have hall : ∀ l, l ∉ (vaultLive id) :: vaults.map (fun p => vaultLive p.1) → s₂.stagedAt l = s.stagedAt l :=
        fun l hl => (hkeep l fun hin => hl (List.mem_cons_of_mem _ hin)).trans (hothers l hl)
      cases r with
      | error e => exact ⟨Trans.trans hone.toBeneath hb, hthere₂, hall, by rintro _ ⟨⟩⟩
      | ok staged =>
        obtain ⟨hlives, hstates⟩ := hrest staged rfl
        refine ⟨Trans.trans hone.toBeneath hb, hthere₂, hall, ?_⟩
        rintro _ ⟨⟩
        refine ⟨by rw [List.map_cons, List.map_cons, hlives], fun q hq => ?_⟩
        rcases List.mem_cons.1 hq with rfl | hq
        · refine ⟨(id, current), List.mem_cons_self, rfl, entry, (hkeep _ fun hin => ?_).trans hstaged, hentry⟩
          obtain ⟨p, hp, hlive⟩ := List.mem_map.1 hin
          exact hnd.1 (List.mem_map.2 ⟨p, hp, vaultLive_injective hlive⟩)
        · obtain ⟨p, hp, hlive, entry', hstaged', hcopied⟩ := hstates q hq
          refine ⟨p, List.mem_cons_of_mem _ hp, hlive, entry', hstaged', ?_⟩
          have hget : s₁.vaults.get (vaultDirV2 p.1) = s.vaults.get (vaultDirV2 p.1) := by rw [hone.vaults]
          rw [← (host_congr hget).2]
          exact hcopied

/-- The live paths of the objects of a plan. -/
def UpgradePlan.lives (plan : UpgradePlan S) : List Str :=
  keystoreFile :: contactsFile :: indexFile :: plan.vaults.map fun p => vaultLive p.1

/-- The entry is what the plan puts at a live path, and its state is `state`; the blobs of the vaults are those that `s₀`
holds. -/
inductive UpgradePlan.Copies (plan : UpgradePlan S) (s₀ : Store S) :
    Str → StateMetadata S.Digest → DirEntry S.toPrims → Prop
  | keystore {state : StateMetadata S.Digest} {entry : DirEntry S.toPrims} (h : KeystoreCopy plan.resealed state entry) :
      plan.Copies s₀ keystoreFile state entry
  | contacts {state : StateMetadata S.Digest} {entry : DirEntry S.toPrims}
      (h : (contactsRecord S).Copy plan.new plan.contacts state entry) : plan.Copies s₀ contactsFile state entry
  | registry {state : StateMetadata S.Digest} {entry : DirEntry S.toPrims}
      (h : (registryRecord S).Copy plan.new plan.registry state entry) : plan.Copies s₀ indexFile state entry
  | vault {p : Str × VaultReaderV2 S.toPrims} {state : StateMetadata S.Digest} {entry : DirEntry S.toPrims}
      (hp : p ∈ plan.vaults) (h : VaultCopy plan.new p.1 p.2 (s₀.host (vaultDirV2 p.1)).blobs.shown state entry) :
      plan.Copies s₀ (vaultLive p.1) state entry

/-- The vaults of the plan are different ones, and can be copied. -/
structure UpgradePlan.Sound (plan : UpgradePlan S) : Prop where
  distinct : (plan.vaults.map (·.1)).Nodup
  copyable : ∀ p ∈ plan.vaults, p.2.Copyable

theorem UpgradePlan.Sound.lives_nodup (h : plan.Sound) : plan.lives.Nodup := by
  have hvault : ∀ {rel : Str}, "vaults/".toList.isPrefixOf? rel = none → rel ∉ plan.vaults.map fun p => vaultLive p.1 := by
    intro rel hrel hin
    obtain ⟨p, -, hp⟩ := List.mem_map.1 hin
    exact vaultLive_ne hrel hp
  have hrest : (plan.vaults.map fun p => vaultLive p.1).Nodup := by
    have hmap := h.distinct.map vaultLive_injective
    rw [List.map_map] at hmap
    exact hmap
  unfold UpgradePlan.lives
  rw [List.nodup_cons, List.nodup_cons, List.nodup_cons, List.mem_cons, List.mem_cons, List.mem_cons]
  refine ⟨?_, ?_, hvault (by decide), hrest⟩
  · rintro (he | he | hin)
    · exact absurd he (by decide)
    · exact absurd he (by decide)
    · exact hvault (by decide) hin
  · rintro (he | hin)
    · exact absurd he (by decide)
    · exact hvault (by decide) hin

theorem createStaging_spec (s : Store S) :
    wp createStaging (fun r s' => s.Beneath s' ∧ (r = .ok () → s'.migration.isSome = true)) s := by
  unfold createStaging
  simp only [wp_bind, wp_call, wp_modify]
  refine ⟨fun _ => ⟨⟨rfl, rfl, rfl, rfl, rfl, rfl, .refl _, fun hc => ?_⟩, fun _ => rfl⟩,
    fun _ => ⟨beneath_later s 1, by simp⟩⟩
  show (Option.getD s.migration ⟨∅, none, none⟩).oldCopies.isSome = false
  unfold Store.hasOldCopies at hc
  cases hm : s.migration with
  | none => rfl
  | some d => simpa [hm] using hc

/-- **Staging.**  Whatever becomes of it, nothing but `migration/` has changed; when it returns a journal, every object of
the plan has its copy. -/
theorem stageMigration_spec (io : Str → BuildIo) (hplan : plan.Sound) (fresh : s.rng.Fresh fun _ => False) :
    wp (stageMigration old plan io) (fun r s' => s.Beneath s' ∧ ∀ journal, r = .ok journal →
      s'.migration.isSome = true ∧ ∃ staged, journal = journalOf old plan.new staged ∧
        staged.map (·.1) = plan.lives ∧ ∀ q ∈ staged, ∃ entry, s'.stagedAt q.1 = some entry ∧
          plan.Copies s q.1 q.2 entry) s := by
  unfold stageMigration
  rw [wp_bind]
  refine wp_mono (createStaging_spec s) ?_
  rintro r s₁ ⟨hb₁, hthere⟩
  cases r with
  | error e => exact ⟨hb₁, by rintro _ ⟨⟩⟩
  | ok u =>
    have h₁ := hthere rfl
    simp only [wp_bind]
    refine wp_mono (wp_and (stageKeystore_stagedOne plan.resealed s₁) (stageKeystore_ok h₁)) ?_
    rintro r s₂ ⟨hone₂, hok₂⟩
    have hb₂ : s.Beneath s₂ := Trans.trans hb₁ hone₂.toBeneath
    cases r with
    | error e => exact ⟨hb₂, by rintro _ ⟨⟩⟩
    | ok keystore =>
      obtain ⟨ek, hek, hkeystore⟩ := hok₂ keystore rfl
      have h₂ := hone₂.there h₁
      simp only
      refine wp_mono (wp_and (stageProtected_stagedOne (contactsRecord S) plan.new plan.contacts s₂)
        (stageProtected_ok h₂)) ?_
      rintro r s₃ ⟨hone₃, hok₃⟩
      have hb₃ : s.Beneath s₃ := Trans.trans hb₂ hone₃.toBeneath
      cases r with
      | error e => exact ⟨hb₃, by rintro _ ⟨⟩⟩
      | ok contacts =>
        obtain ⟨ec, hec, hcontacts⟩ := hok₃ contacts rfl
        have h₃ := hone₃.there h₂
        simp only
        refine wp_mono (wp_and (stageProtected_stagedOne (registryRecord S) plan.new plan.registry s₃)
          (stageProtected_ok h₃)) ?_
        rintro r s₄ ⟨hone₄, hok₄⟩
        have hb₄ : s.Beneath s₄ := Trans.trans hb₃ hone₄.toBeneath
        cases r with
        | error e => exact ⟨hb₄, by rintro _ ⟨⟩⟩
        | ok registry =>
          obtain ⟨er, her, hregistry⟩ := hok₄ registry rfl
          simp only
          refine wp_mono (stageVaults_spec io hplan.copyable hplan.distinct (fresh.ahead hb₄.rng) (hone₄.there h₃)) ?_
          rintro r s₅ ⟨hb₅, h₅, hkeep, hvaults⟩
          have hb : s.Beneath s₅ := Trans.trans hb₄ hb₅
          cases r with
          | error e => exact ⟨hb, by rintro _ ⟨⟩⟩
          | ok vaults =>
            obtain ⟨hlives, hstates⟩ := hvaults vaults rfl
            refine ⟨hb, ?_⟩
            rintro _ ⟨⟩
            refine ⟨h₅, _, rfl, by simp only [List.map_cons, hlives, UpgradePlan.lives], fun q hq => ?_⟩
            -- the loop over the vaults has left the three files alone
            have hfile : ∀ {rel : Str}, "vaults/".toList.isPrefixOf? rel = none → s₅.stagedAt rel = s₄.stagedAt rel := by
              intro rel hrel
              refine hkeep rel fun hin => ?_
              obtain ⟨p, -, hp⟩ := List.mem_map.1 hin
              exact vaultLive_ne hrel hp
            have hci : contactsFile ≠ indexFile := by decide
            have hki : keystoreFile ≠ indexFile := by decide
            have hkc : keystoreFile ≠ contactsFile := by decide
            have hk : s₅.stagedAt keystoreFile = some ek :=
              (hfile (by decide)).trans ((hone₄.others _ hki).trans ((hone₃.others _ hkc).trans hek))
            have hc : s₅.stagedAt contactsFile = some ec :=
              (hfile (by decide)).trans ((hone₄.others _ hci).trans hec)
            have hr : s₅.stagedAt indexFile = some er :=
              (hfile (by decide)).trans her
            rcases List.mem_cons.1 hq with rfl | hq
            · exact ⟨ek, hk, .keystore hkeystore⟩
            · rcases List.mem_cons.1 hq with rfl | hq
              · exact ⟨ec, hc, .contacts hcontacts⟩
              · rcases List.mem_cons.1 hq with rfl | hq
                · exact ⟨er, hr, .registry hregistry⟩
                · obtain ⟨p, hp, hlive, entry, hstaged, hcopied⟩ := hstates q hq
                  have hget : s₄.vaults.get (vaultDirV2 p.1) = s.vaults.get (vaultDirV2 p.1) := by rw [hb₄.vaults]
                  rw [(host_congr hget).2] at hcopied
                  exact ⟨entry, hstaged, hlive ▸ .vault hp hcopied⟩

end Whole

end FileSec
