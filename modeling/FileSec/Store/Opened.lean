import FileSec.Retention
import FileSec.Store.Beside
import FileSec.Store.Ideal

/-!
# What opening a vault does

A vault that `open_vault_locked` returns is the one its directory holds: its state has passed the anchor of the vault,
and its manifest and the blobs it refers to stay as they are.
-/

namespace FileSec

open CrashDir Folders Prog

variable {S : StorePrims} {identity : Identity} {id name : Str} {reader : VaultReaderV2 S.toPrims} {s s' : Store S}

/-- A vault that can be opened is a directory. -/
theorem isDir_of_openVault (h : openVault S.toPrims (s.host name).top.shown identity = .ok reader) :
    s.isDir name = true := by
  have hheader := header_of_openVault h
  unfold Store.host at hheader
  split at hheader
  · rename_i d hd
    exact Store.isDir_iff.2 ⟨d, hd⟩
  · cases hheader

theorem isDir_congr (hget : s'.vaults.get name = s.vaults.get name) : s'.isDir name = s.isDir name := by
  unfold Store.isDir
  rw [hget]

/-- A directory that stays as it is shows the same machine, up to the draws. -/
theorem host_congr (hget : s'.vaults.get name = s.vaults.get name) :
    (s'.host name).top = (s.host name).top ∧ (s'.host name).blobs = (s.host name).blobs := by
  unfold Store.host
  rw [hget]
  split <;> exact ⟨rfl, rfl⟩

/-- The store before and after the vault `id` has been opened. -/
structure Store.Opened (s : Store S) (identity : Identity) (id : Str) (reader : VaultReaderV2 S.toPrims)
    (s' : Store S) : Prop where
  opens : openVault S.toPrims (s.host (vaultDirV2 id)).top.shown identity = .ok reader
  coherent : reader.Coherent identity id
  /-- The state has passed the anchor, and what has been done after that touches no anchor. -/
  passed : ∃ state k s₁, reader.state = some state ∧ (s.later k).Passed true state s₁ ∧
    s₁.Within (fun _ => False) (fun n => n = vaultDirV2 id ∨ n = vaultPath id) (fun _ _ => False) s'
  isDir : s'.isDir (vaultDirV2 id) = true
  top : (s'.host (vaultDirV2 id)).top.shown = (s.host (vaultDirV2 id)).top.shown
  rng : s.rng.Ahead s'.rng
  blobs : ∀ b ∈ reader.manifest.blobIds, validateBlobId b = .ok () →
    (s'.host (vaultDirV2 id)).blobs.shown b = (s.host (vaultDirV2 id)).blobs.shown b

/-- Reading a vault only makes calls. -/
theorem readVault_spec (name : Str) (identity : Identity) (s : Store S) :
    wp (readVault name identity) (fun res s' => ∃ k, s' = s.later k ∧ ∀ r, res = .ok r →
      openVault S.toPrims (s.host name).top.shown identity = .ok r) s := by
  unfold readVault
  simp only [wp_bind, wp_call, wp_get, wp_liftM]
  exact ⟨fun _ => ⟨fun _ => ⟨2, rfl, fun r h => Result.text_eq_ok.1 h⟩, fun _ => ⟨2, rfl, by rintro _ ⟨⟩⟩⟩,
    fun _ => ⟨1, rfl, by rintro _ ⟨⟩⟩⟩

/-- Collecting garbage with a reader of the vault takes nothing of it. -/
theorem collectGarbage_opened (hopen : openVault S.toPrims (s.host name).top.shown identity = .ok reader) (io : GcIo) :
    wp (inVault name reader (collectGarbage io)) (fun res s' => ∃ r, res = .ok (r, reader) ∧
      s'.isDir name = true ∧ (s'.host name).top.shown = (s.host name).top.shown ∧
      ∀ b ∈ reader.manifest.blobIds, validateBlobId b = .ok () →
        (s'.host name).blobs.shown b = (s.host name).blobs.shown b) s := by
  have hdir := isDir_of_openVault hopen
  rw [wp_inVault]
  refine wp_mono (collectGarbage_spec io _) ?_
  rintro r t ⟨⟨pending, hreader, hsub⟩, -, htop, -, -, -, hblobs⟩
  -- nothing was pending, so the reader is the same
  have hnil : pending = [] := List.eq_nil_of_subset_nil (pendingReclaim_of_openVault hopen ▸ hsub)
  have hsame : t.reader = reader := by
    rw [hreader, hnil]
    exact reopened_of_openVault hopen
  rw [hsame, host_setHost hdir]
  refine ⟨r, rfl, isDir_setHost hdir _, ?_, fun b hb hv => hblobs b (isGarbage_of_mem hb hv)⟩
  rcases htop with ⟨htop, -⟩ | htop
  · rw [htop]
  · rw [htop, CrashDir.shown_sync]

theorem openVaultLocked_spec (identity : Identity) (id : Str) (io : GcIo) (s : Store S) :
    wp (openVaultLocked identity id io) (fun res s' => ∀ r, res = .ok r → s.Opened identity id r s') s := by
  unfold openVaultLocked
  simp only [wp_bind, wp_get, wp_ite, wp_throw]
  refine ⟨fun _ => ?_, fun _ => ⟨fun _ => by rintro _ ⟨⟩, fun _ => by rintro _ ⟨⟩⟩⟩
  unfold openVaultDir
  rw [wp_bind]
  refine wp_mono (readVault_spec _ _ s) ?_
  rintro res _ ⟨k, rfl, hopen⟩
  cases res with
  | error e => rintro _ ⟨⟩
  | ok r =>
    have hopen := hopen r rfl
    obtain ⟨id', hcoh⟩ := coherent_of_openVault hopen
    obtain ⟨state, pt, hst, hof, -⟩ := stateOr_of_coherent hcoh
    have hstate : r.state = some state := by
      obtain ⟨state', _, hs, -⟩ := hcoh.state
      rw [VaultReaderV2.stateOr, hs] at hst
      rw [hs, Except.ok.inj hst]
    simp only [hst, lift_ok_bind, wp_ite]
    refine ⟨fun _ => ?_, fun hid => ?_⟩
    · simp only [wp_bind, wp_attempt, wp_throw]
      rintro _ ⟨⟩
    · rw [hof.objectId, not_ne_iff] at hid
      subst hid
      rw [wp_bind]
      refine wp_mono (judge_spec true state _ (s.later k)) ?_
      intro res s₁ hpassed
      cases res with
      | error e => rintro _ ⟨⟩
      | ok u =>
        have hpre : (s.later k).Within (fun _ => False) (fun _ => False) (fun _ _ => True) s₁ :=
          hpassed.within trivial
        simp only [wp_bind, wp_attempt]
        refine wp_mono (wipeFile_within (R := fun _ => False) (V := fun n => n = vaultPath id') (A := fun _ _ => False)
          rfl s₁) ?_
        intro _ s₂ hw
        -- the directory is still as it was
        have hget : s₂.vaults.get (vaultDirV2 id') = s.vaults.get (vaultDirV2 id') :=
          (hw.vaults.get _ (vaultPath_ne_vaultDirV2 id').symm).trans (hpre.vaults.get _ not_false)
        obtain ⟨htop, hblobs⟩ := host_congr hget
        have hopen₂ := hopen
        rw [← htop] at hopen₂
        refine wp_mono (wp_and (collectGarbage_opened hopen₂ io) (inVault_within (R := fun _ => False)
          (V := fun n => n = vaultDirV2 id') (A := fun _ _ => False) rfl r (collectGarbage_ahead io) s₂)) ?_
        rintro _ s₃ ⟨⟨res, rfl, hdir, htop₃, hblobs₃⟩, hw₃⟩ _ ⟨⟩
        have hpost := (hw.mono (fun _ h => h) (fun _ h => Or.inr h) fun _ _ h => h).trans
          (hw₃.mono (fun _ h => h) (fun _ h => Or.inl h) fun _ _ h => h)
        refine ⟨hopen, hcoh, ⟨state, k, s₁, hstate, hpassed, hpost⟩, hdir, ?_, hpre.rng.trans hpost.rng, ?_⟩
        · exact htop₃.trans (congrArg Dir.shown htop)
        · intro b hb hv
          exact (hblobs₃ b hb hv).trans (by rw [hblobs])

/-! ### A vault to evaluate on -/

namespace Sym

/-- An object id. -/
def vaultId : Str := "00112233445566778899aabbccddeeff".toList

/-- A machine that does all it is asked to while a vault is created. -/
def calmBuild : BuildIo := ⟨.fine, fun _ => .fine, .fine⟩

/-- The wiping of nothing. -/
def noWipe : WipeIo := ⟨[], [], []⟩

/-- A machine that does all it is asked to while a vault directory is created. -/
def calmDir : CreateDirIo := ⟨calmBuild, noWipe, noWipe⟩

/-- A collection that finds no file. -/
def calmGc : GcIo := ⟨true, true, .ok []⟩

/-- The owner's store with a vault that holds the file `d/x`, and a generator that makes `n` draws that differ from the
ones so far. -/
def withVault (backend : AnchorBackend) (n : Nat) : Store store :=
  { (exec (saveVault (S := store) alice vaultId ⟨"v".toList, 0, [⟨"d/x".toList, .file, none, none, [1]⟩]⟩ calmDir)
      (machine backend 50)).2 with
    rng := fun i => if i < n then some fun _ => UInt8.ofNat (i + 50) else none }

end Sym

end FileSec
