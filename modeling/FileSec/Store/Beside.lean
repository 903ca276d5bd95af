import FileSec.Store.Readers
import FileSec.Store.Within

/-!
# What the transactions on a vault leave alone

The transactions on one vault respect `Store.Within` for its directories, its files and its anchor.
-/

namespace FileSec

open CrashDir Folders Prog

variable {S : StorePrims} {R V : Str → Prop} {A : StateObjectType → Str → Prop} {identity : Identity} {id : Str}

/-! ### Draws -/

section Draws

variable {P : Prims}

/-- The generator of one machine is ahead of another's. -/
def Host.Ahead (h h' : Host P) : Prop := h.rng.Ahead h'.rng

/-- The same of the machines of two sessions. -/
def Session.Ahead (s s' : Session P) : Prop := s.host.Ahead s'.host

instance : IsPreorder (Host P) Host.Ahead where
  refl h := .refl h.rng
  trans _ _ _ := .trans

instance : IsPreorder (Session P) Session.Ahead where
  refl s := .refl s.host.rng
  trans _ _ _ := .trans

theorem commitWith_ahead (limit : Option Nat) (edits : Edits) (io : CommitIo) :
    Respects Session.Ahead (commitWith (P := P) limit edits io) := by
  intro s
  refine wp_mono (commitWith_outcome s limit edits io) ?_
  obtain ⟨k, hed⟩ := edited_spec s limit edits
  have hb : s.host.rng.Ahead (s.edited limit edits).2.host.rng := ⟨k, hed.drew.rng⟩
  intro r s' ho
  cases ho with
  | @sealed state nonce h hok hchanged hsealed =>
    have hh : (s.edited limit edits).2.host.rng.Ahead h.rng := by
      rw [hsealed.host]
      exact ⟨1, rfl⟩
    show s.host.rng.Ahead (if io.vaultSync then { h with blobs := _ } else h : Host P).rng
    split
    · exact hb.trans hh
    · exact hb.trans hh
  | unchanged hok hchanged => exact hb
  | failed hhost =>
    rcases hhost with rfl | ⟨j, rfl⟩
    · exact hb
    · exact hb.trans ⟨j, rfl⟩

theorem collectGarbage_ahead (io : GcIo) : Respects Session.Ahead (collectGarbage (P := P) io) := by
  intro s
  refine wp_mono (collectGarbage_spec io s) ?_
  intro r s' h
  exact ⟨0, h.rng⟩

private theorem draw_ahead (n : Nat) : Respects Host.Ahead (draw P n) := by
  intro h
  rw [wp_draw]
  exact ⟨1, rfl⟩

private theorem writeAtomic_ahead (file : VaultFile) (raw : P.Raw) (fault : Option Error) (sync : Bool) :
    Respects Host.Ahead (writeAtomic file raw fault sync) := by
  unfold writeAtomic
  cases fault with
  | some e => exact .throw _
  | none => exact .bind (.modify fun h => .refl h.rng) fun _ => .pure _

private theorem createInner_ahead (identity : Identity) (suite : SuiteId) (name : Str) (createdAt : Int)
    (vaultId : Bytes) (io : CreateIo) : Respects Host.Ahead (createInner P identity suite name createdAt vaultId io) := by
  unfold createInner
  cases io.dirFault with
  | some e => exact .throw _
  | none =>
    refine .bind (draw_ahead _) fun _ => .bind (.lift _) fun _ => .bind (writeAtomic_ahead _ _ _ _) fun _ => ?_
    refine .bind (fun h => wp_mono (sealAndWrite_spec _ _ _ _) ?_) fun _ => .pure _
    intro r h' hr
    cases r with
    | ok sealed =>
      obtain ⟨-, nonce, hsealed⟩ := hr
      rw [hsealed.host]
      exact ⟨1, rfl⟩
    | error e =>
      obtain ⟨k, rfl⟩ := hr
      exact ⟨k, rfl⟩

private theorem createFor_ahead (identity : Identity) (suite : SuiteId) (name : Str) (createdAt : Int)
    (objectId : Option Str) (io : CreateIo) :
    Respects Host.Ahead (createFor P identity suite name createdAt objectId io) := by
  cases objectId with
  | none => exact .bind (draw_ahead _) fun _ => createInner_ahead _ _ _ _ _ _
  | some id =>
    show Respects Host.Ahead (createWithObjectId P identity suite name createdAt id io)
    unfold createWithObjectId
    cases unhex id with
    | none => exact .throw _
    | some vaultId => exact .ite (.throw _) (createInner_ahead _ _ _ _ _ _)

private theorem fill_ahead (r : VaultReaderV2 P) (edits : Edits) (io : CommitIo) :
    Respects Host.Ahead (r.fill edits io) := by
  intro h
  exact commitWith_ahead none edits io ⟨r, h⟩

theorem builder_ahead (b : Builder P) (identity : Identity) : Respects Host.Ahead (b.run identity) := by
  cases b with
  | create suite name createdAt objectId io => exact createFor_ahead _ _ _ _ _ _
  | fromVault suite vault objectId io => exact .bind (createFor_ahead _ _ _ _ _ _) fun _ => fill_ahead _ _ _
  | fromReaderV1 suite reader objectId io =>
    exact .bind (createFor_ahead _ _ _ _ _ _) fun _ => .bind (.lift _) fun _ => fill_ahead _ _ _
  | fromReaderV2 suite source blobs objectId io =>
    exact .bind (createFor_ahead _ _ _ _ _ _) fun _ => fill_ahead _ _ _

end Draws

/-! ### Working in a directory -/

theorem host_rng (s : Store S) (name : Str) : (s.host name).rng = s.rng := by
  unfold Store.host
  split <;> rfl

theorem Store.isDir_iff {s : Store S} {name : Str} : s.isDir name = true ↔ ∃ d, s.vaults.get name = some (.dir d) := by
  unfold Store.isDir
  split
  · rename_i d hd
    simp [hd]
  · rename_i h
    simp only [Bool.false_eq_true, false_iff, not_exists]
    exact fun d hd => h d hd

theorem isDir_setHost {s : Store S} {name : Str} (h : s.isDir name = true) (host : Host S.toPrims) :
    (s.setHost name host).isDir name = true := by
  obtain ⟨d, hd⟩ := Store.isDir_iff.1 h
  unfold Store.setHost
  rw [if_pos h]
  exact Store.isDir_iff.2 ⟨_, get_adjust_self (by simp [hd])⟩

theorem host_setHost {s : Store S} {name : Str} (h : s.isDir name = true) (host : Host S.toPrims) :
    (s.setHost name host).host name = host := by
  obtain ⟨d, hd⟩ := Store.isDir_iff.1 h
  unfold Store.setHost
  rw [if_pos h]
  have hget : (s.vaults.adjust name (.dir ⟨host.top, host.blobs⟩)).get name = some (.dir ⟨host.top, host.blobs⟩) :=
    get_adjust_self (by simp [hd])
  unfold Store.host
  simp only [hget]

theorem within_setHost {name : Str} (hV : V name) (s : Store S) {h : Host S.toPrims} (hh : s.rng.Ahead h.rng) :
    s.Within R V A (s.setHost name h) := by
  unfold Store.setHost
  split
  · exact within_of_files rfl rfl rfl rfl rfl (agreeOff_refl _ _) (agreeOff_adjust hV) hh
  · exact within_of_files rfl rfl rfl rfl rfl (agreeOff_refl _ _) (agreeOff_refl _ _) hh

theorem wp_inVault {α : Type} {name : Str} {reader : VaultReaderV2 S.toPrims} {p : SessionM S.toPrims α} {s : Store S}
    {Q : StoreResult (Result α × VaultReaderV2 S.toPrims) → Store S → Prop} :
    wp (inVault name reader p) Q s ↔
      wp p (fun r t => Q (.ok (r, t.reader)) (s.setHost name t.host)) ⟨reader, s.host name⟩ := Iff.rfl

theorem inVault_within {α : Type} {name : Str} (hV : V name) (reader : VaultReaderV2 S.toPrims)
    {p : SessionM S.toPrims α} (hp : Respects Session.Ahead p) :
    Respects (Store.Within R V A) (inVault name reader p) := by
  intro s
  rw [wp_inVault]
  refine wp_mono (hp _) ?_
  intro r t ht
  refine within_setHost hV s ?_
  rw [← host_rng s name]
  exact ht

theorem commitIn_within {name : Str} (hV : V name) (writer : VaultReaderV2 S.toPrims) (c : CommitCall) :
    Respects (Store.Within R V A) (commitIn name writer c) :=
  .bind .get fun _ => .bind (inVault_within hV _ (commitWith_ahead _ _ _)) fun _ => .bind (.lift _) fun _ => .pure _

theorem commitIn_returns {name : Str} {writer : VaultReaderV2 S.toPrims} (hw : writer.Coherent identity id)
    (c : CommitCall) : Returns (fun w => w.Coherent identity id) (commitIn name writer c) := by
  refine .bind fun s => .bind_of (A := fun p => p.2.Coherent identity id) ?_ fun p hp => ?_
  · intro s
    rw [wp_inVault]
    refine wp_mono (VaultReaderV2.Coherent.commitWith (s := ⟨writer, s.host name⟩) hw _ _ _) ?_
    rintro r t ht p ⟨⟩
    exact ht
  · exact .bind fun _ => .pure hp

/-! ### Mutating -/

theorem stateOr_of_coherent {r : VaultReaderV2 S.toPrims} (h : r.Coherent identity id) :
    ∃ state pt, r.stateOr = .ok state ∧ StateOf S.toPrims identity id state pt ∧
      S.decodeManifest pt = some r.manifest := by
  obtain ⟨state, pt, hs, hof, -, hdec⟩ := h.state
  refine ⟨state, pt, ?_, hof, hdec⟩
  unfold VaultReaderV2.stateOr
  rw [hs]

theorem ensureCurrentVault_within (reader : VaultReaderV2 S.toPrims) :
    Respects (Store.Within R V A) (ensureCurrentVault reader) := by
  refine .bind (.lift _) fun state => .bind (currentAnchor_within _ _ _) fun anchor => ?_
  cases anchor with
  | none => exact .pure _
  | some anchor => exact .ite (.throw _) (.pure _)

theorem commitVaultReader_within {reader : VaultReaderV2 S.toPrims} (hr : reader.Coherent identity id)
    (hA : A .vaultManifest id) : Respects (Store.Within R V A) (commitVaultReader reader) := by
  obtain ⟨state, pt, hs, hof, -⟩ := stateOr_of_coherent hr
  unfold commitVaultReader
  rw [hs]
  refine .bind_of (.lift _) (Q := fun s => s = state) (.lift fun s h => (Except.ok.inj h).symm) ?_
  rintro _ rfl
  refine commitState_within ?_
  rw [hof.objectType, hof.objectId]
  exact hA

theorem mutateVault_within {reader : VaultReaderV2 S.toPrims} (hr : reader.Coherent identity id)
    (hV : V (vaultDirV2 id)) (hA : A .vaultManifest id) (c : CommitCall) :
    Respects (Store.Within R V A) (mutateVault reader c) := by
  obtain ⟨state, pt, hs, hof, -⟩ := stateOr_of_coherent hr
  unfold mutateVault
  rw [hs]
  refine .bind_of (.lift _) (Q := fun s => s = state) (.lift fun s h => (Except.ok.inj h).symm) ?_
  rintro _ rfl
  rw [hof.objectId]
  refine .bind (ensureCurrentVault_within _) fun _ => ?_
  exact .bind_of (commitIn_within hV _ _) (commitIn_returns hr c) fun w hw => commitVaultReader_within hw hA

theorem commitChunks_within {writer : VaultReaderV2 S.toPrims} (hw : writer.Coherent identity id) {name : Str}
    (hV : V name) (hA : A .vaultManifest id) (chunks : List (List Op × CommitIo)) :
    Respects (Store.Within R V A) (commitChunks name writer chunks) := by
  induction chunks generalizing writer with
  | nil => exact .pure _
  | cons chunk chunks ih =>
    refine .bind_of (commitIn_within hV _ _) (commitIn_returns hw _) fun w hw' => ?_
    exact .bind (commitVaultReader_within hw' hA) fun _ => ih hw'

theorem mutateVaultInBatches_within {reader : VaultReaderV2 S.toPrims} (hr : reader.Coherent identity id)
    (hV : V (vaultDirV2 id)) (hA : A .vaultManifest id) (items : List Op) (io : Nat → CommitIo) :
    Respects (Store.Within R V A) (mutateVaultInBatches reader items io) := by
  obtain ⟨state, pt, hs, hof, -⟩ := stateOr_of_coherent hr
  unfold mutateVaultInBatches
  rw [hs]
  refine .bind_of (.lift _) (Q := fun s => s = state) (.lift fun s h => (Except.ok.inj h).symm) ?_
  rintro _ rfl
  rw [hof.objectId]
  exact .bind (ensureCurrentVault_within _) fun _ => commitChunks_within hr hV hA _

/-! ### Wiping and renaming -/

theorem within_vaults {s : Store S} {vaults : Folder Str (DirEntry S.toPrims)} (h : s.vaults.AgreeOff V vaults) :
    s.Within R V A { s with vaults := vaults } :=
  within_of_files rfl rfl rfl rfl rfl (agreeOff_refl _ _) h (.refl _)

theorem within_onDir {name : Str} (hV : V name) (s : Store S) (f : VaultDir S.toPrims → VaultDir S.toPrims) :
    s.Within R V A (s.onDir name f) := by
  unfold Store.onDir
  split
  · exact within_vaults (agreeOff_adjust hV)
  · exact within_refl s

theorem wipeFile_within {name : Str} (hV : V name) :
    Respects (Store.Within R V A) (wipeFile name : StoreM S Unit) := by
  refine .bind .get fun s => ?_
  cases s.vaults.get name with
  | none => exact .pure _
  | some node =>
    cases node with
    | dir d => exact .throw _
    | file raw =>
      refine .bind (drawBytes_within _) fun noise => .bind (call_within _) fun _ => ?_
      refine .bind (.modify fun s => within_vaults (agreeOff_adjust hV)) fun _ => ?_
      exact .bind (call_within _) fun _ => .modify fun s => within_vaults (agreeOff_remove hV)

theorem wipeIn_within {name : Str} (hV : V name) (overwrite : Bytes → VaultDir S.toPrims → VaultDir S.toPrims)
    (unlink : VaultDir S.toPrims → VaultDir S.toPrims) :
    Respects (Store.Within R V A) (wipeIn name overwrite unlink) := by
  refine .bind (drawBytes_within _) fun noise => .bind (call_within _) fun _ => ?_
  refine .bind (.modify fun s => within_onDir hV s _) fun _ => .bind (call_within _) fun _ => ?_
  exact .modify fun s => within_onDir hV s _

theorem wipeBlobs_within {name : Str} (hV : V name) (blobs : List Str) :
    Respects (Store.Within R V A) (wipeBlobs name blobs : StoreM S Unit) := by
  induction blobs with
  | nil => exact .pure _
  | cons blob blobs ih => exact .bind (.attempt (wipeIn_within hV _ _)) fun _ => ih

theorem removeDirAll_within {name : Str} (hV : V name) (io : WipeIo) :
    Respects (Store.Within R V A) (removeDirAll name io : StoreM S Unit) := by
  refine .bind (.attempt (call_within _)) fun removed => ?_
  cases removed with
  | ok u => exact .modify fun s => within_vaults (agreeOff_remove hV)
  | error e => exact .bind (.modify fun s => within_onDir hV s _) fun _ => .throw _

theorem wipeVaultDir_within {name : Str} (hV : V name) (io : WipeIo) :
    Respects (Store.Within R V A) (wipeVaultDir name io : StoreM S Unit) := by
  refine .bind .get fun s => .ite ?_ (.pure _)
  refine .bind (wipeBlobs_within hV _) fun _ => .bind (.attempt (wipeIn_within hV _ _)) fun _ => ?_
  refine .bind (.attempt (wipeIn_within hV _ _)) fun _ => ?_
  exact .bind (.attempt (removeDirAll_within hV io)) fun _ => .pure _

theorem syncVaults_within : Respects (Store.Within R V A) (syncVaults : StoreM S Unit) :=
  .bind (.attempt (call_within _)) fun _ => .modify fun _ => within_vaults (agreeOff_sync _ _ _)

theorem renameVault_within {m n : Str} (hm : V m) (hn : V n) :
    Respects (Store.Within R V A) (renameVault m n : StoreM S Unit) := by
  refine .bind (call_within _) fun _ => .bind .get fun s => ?_
  cases s.vaults.get m with
  | none => exact .throw _
  | some node => exact .ite (.modify fun s => within_vaults (agreeOff_rename hm hn)) (.throw _)

theorem renameIfThere_within {m n : Str} (hm : V m) (hn : V n) :
    Respects (Store.Within R V A) (renameIfThere m n : StoreM S Unit) :=
  .bind .get fun _ => .ite (renameVault_within hm hn) (.pure _)

theorem buildIn_within {name : Str} (hV : V name) (identity : Identity) (id : Str) (io : BuildIo)
    (source : VaultSource) : Respects (Store.Within R V A) (buildIn name identity id io source : StoreM S _) := by
  intro s
  show s.Within R V A (exec (buildIn name identity id io source) s).2
  have hrng : s.rng.Ahead (exec ((source.builder S.toPrims identity id io).run identity) (s.host name)).2.rng := by
    rw [← host_rng s name]
    exact builder_ahead _ identity (s.host name)
  unfold buildIn
  simp only [exec, ExceptT.run, ExceptT.mk, StateT.run]
  split
  · exact within_setHost hV s hrng
  · exact within_of_files rfl rfl rfl rfl rfl (agreeOff_refl _ _) (agreeOff_put hV) hrng

/-! ### Opening -/

theorem readVault_within (name : Str) (identity : Identity) :
    Respects (Store.Within R V A) (readVault name identity : StoreM S _) :=
  .bind (call_within _) fun _ => .bind (call_within _) fun _ => .bind .get fun _ => .lift _

theorem readVault_returns (name : Str) (identity : Identity) :
    Returns (fun r => ∃ id, r.Coherent identity id) (readVault name identity : StoreM S _) :=
  .bind fun _ => .bind fun _ => .bind fun _ => .lift fun _ h => coherent_of_openVault (Result.text_eq_ok.1 h)

theorem openVaultDir_within (hV : V (vaultDirV2 id)) (hV' : V (vaultPath id)) (hA : A .vaultManifest id) (io : GcIo) :
    Respects (Store.Within R V A) (openVaultDir identity id io : StoreM S _) := by
  refine .bind_of (readVault_within _ _) (readVault_returns _ _) fun r hr => ?_
  obtain ⟨id', hr⟩ := hr
  obtain ⟨state, pt, hs, hof, -⟩ := stateOr_of_coherent hr
  rw [hs]
  refine .bind_of (.lift _) (Q := fun s => s = state) (.lift fun s h => (Except.ok.inj h).symm) ?_
  rintro _ rfl
  rw [hof.objectId]
  by_cases hid : id' = id
  · rw [if_neg (by simp [hid])]
    refine .bind (judge_within ?_ ?_) fun _ => ?_
    · rw [hof.objectType, hof.objectId, hid]
      exact hA
    · rintro spot ⟨⟩
      exact hV
    · refine .bind (.attempt (wipeFile_within hV')) fun _ => ?_
      exact .bind (inVault_within hV _ (collectGarbage_ahead io)) fun _ => .pure _
  · rw [if_pos hid]
    exact .bind (.attempt (quarantine_within hV)) fun _ => .throw _

theorem openVaultLocked_within (hV : V (vaultDirV2 id)) (hV' : V (vaultPath id)) (hA : A .vaultManifest id)
    (io : GcIo) : Respects (Store.Within R V A) (openVaultLocked identity id io : StoreM S _) := by
  refine .bind .get fun s => .ite (openVaultDir_within hV hV' hA io) (.ite (.throw _) (.throw _))

end FileSec
