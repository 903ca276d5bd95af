import FileSec.Store.Lifecycle
import FileSec.Lib.Runs

/-!
# The session and its jobs

The unlocked session of the app: the UI thread, which starts at most one job, installs its report and handles the
events of the network, and the job thread, which works on the copy of the registry taken when it started (`app.rs`).
A job is cut where it releases the locks of the store, so the steps of a `Session` interleave as the threads do.
-/

namespace FileSec

open Prog

variable {S : StorePrims}

/-! ### What a job reports -/

/-- `live_counts` of the entries of a vault. -/
def VaultReaderV2.liveCounts {P : Prims} (r : VaultReaderV2 P) : Nat × Nat :=
  let live := r.manifest.entries.filter fun e => e.kind = .file && !isTrashed e.path
  (live.length, (live.map (·.size)).sum)

/-- `Outcome`, as far as the registry and the open vault go. -/
inductive Outcome (P : Prims) where
  /-- `Noop`, and every outcome that leaves both alone. -/
  | noop
  | created (registry : Registry) (id : Str) (reader : VaultReaderV2 P)
  | setOpen (id : Str) (reader : VaultReaderV2 P)
  /-- `ReplaceOpen`, `CreatedTextFile`, `SavedTextFile` and `EndCheckout`. -/
  | replaceOpen (id : Str) (reader : VaultReaderV2 P) (registry : Registry)
  | deleted (registry : Registry) (closedId : Str)
  /-- `id` is the one drawn for the vault. -/
  | imported (registry : Registry) (id : Str)

/-! ### Jobs -/

/-- What a job has still to do. -/
inductive Task (S : StorePrims) : Type 1 where
  | report (outcome : Outcome S.toPrims)
  /-- Work that holds a lock of the store throughout. -/
  | locked {α : Type} (p : StoreM S α) (next : StoreResult α → Task S)
  /-- `save_registry` -/
  | save (registry : Registry) (next : StoreResult Unit → Task S)

/-- Work after whose failure the job ends with an error. -/
def Task.orReport {α : Type} (p : StoreM S α) (next : α → Task S) : Task S :=
  .locked p fun
    | .ok a => next a
    | .error _ => .report .noop

/-- Save the registry and report. -/
def Task.saveAndReport (registry : Registry) (outcome : Outcome S.toPrims) : Task S :=
  .save registry fun
    | .ok () => .report outcome
    | .error _ => .report .noop

/-- `new_vault_id` -/
def newVaultId : StoreM S Str := do
  let bytes ← drawBytes S 16
  pure (hex bytes)

/-- The job of `spawn_create_vault`. -/
def createVaultJob (identity : Identity) (name : Str) (registry : Registry) (now : Int) (io : CreateDirIo)
    (gc : GcIo) : Task S :=
  .orReport newVaultId fun id =>
  .orReport (saveVault identity id ⟨name, now, []⟩ io) fun () =>
  .orReport (openVaultLocked identity id gc) fun reader =>
    let registry := registry.upsert ⟨id, name, reader.manifest.createdAt, now, 0, 0⟩
    .saveAndReport registry (.created registry id reader)

/-- The job of `spawn_open_vault`. -/
def openVaultJob (identity : Identity) (id : Str) (gc : GcIo) : Task S :=
  .orReport (openVaultLocked identity id gc) fun reader => .report (.setOpen id reader)

/-- The job of `spawn_delete_vault`: the sections of `delete_vault`. -/
def deleteVaultJob (identity : Identity) (registry : Registry) (id : Str) (io : WipeIo) : Task S :=
  let updated := registry.remove id
  .orReport (tombstoneVault id) fun () =>
  .save updated fun
    | .ok () => .locked (retireTombstone identity id io) fun _ => .report (.deleted updated id)
    | .error _ => .locked (restoreTombstone id) fun _ => .report .noop

/-- `reopen_after_save`, with the report made of what it returns. -/
def reopenAfterSave (identity : Identity) (id : Str) (registry : Registry) (now : Int) (gc : GcIo) : Task S :=
  .orReport (openVaultLocked identity id gc) fun reader =>
    let (files, size) := reader.liveCounts
    let registry := registry.upsert ⟨id, reader.manifest.vaultName, reader.manifest.createdAt, now, files, size⟩
    .saveAndReport registry (.replaceOpen id reader registry)

/-- A job that edits the open vault: `edit` is its work on the store, which `reopen_after_save` follows. -/
def editVaultJob (identity : Identity) (id : Str) (registry : Registry) (edit : StoreM S Unit) (now : Int)
    (gc : GcIo) : Task S :=
  .orReport edit fun () => reopenAfterSave identity id registry now gc

/-- The job of `spawn_import`; `opened` is what `verify_and_open` returns. -/
def importJob (identity : Identity) (registry : Registry) (opened : Result VaultReader) (space : Bool) (now : Int)
    (io : CreateDirIo) : Task S :=
  match opened with
  | .error _ => .report .noop
  | .ok reader =>
    .orReport newVaultId fun id =>
    .orReport (importReaderToVault identity id reader space io) fun () =>
      let files := reader.entries.filter (·.kind = .file)
      let registry := registry.upsert ⟨id, reader.name, reader.createdAt, now, files.length, (files.map (·.size)).sum⟩
      .saveAndReport registry (.imported registry id)

/-- The job from here to its end, with nothing in between. -/
def Task.finish (identity : Identity) : Task S → Store S → Outcome S.toPrims × Store S
  | .report outcome, s => (outcome, s)
  | .locked p next, s => (next (exec p s).1).finish identity (exec p s).2
  | .save registry next, s =>
    (next (exec (saveRegistry identity registry) s).1).finish identity (exec (saveRegistry identity registry) s).2

/-- With nothing in between, the sections of a deletion are `delete_vault`. -/
theorem deleteVaultJob_finish (identity : Identity) (registry : Registry) (id : Str) (io : WipeIo) (s : Store S) :
    (deleteVaultJob identity registry id io : Task S).finish identity s =
      (match (exec (deleteVault identity registry id io) s).1 with
        | .ok updated => .deleted updated id
        | .error _ => .noop, (exec (deleteVault identity registry id io) s).2) := by
  unfold deleteVaultJob deleteVault Task.orReport
  simp only [Task.finish, exec_bind]
  rcases exec (tombstoneVault id) s with ⟨r, s₁⟩
  cases r with
  | error e => rfl
  | ok u =>
    simp only [Task.finish, exec_attempt]
    rcases exec (saveRegistry identity (registry.remove id)) s₁ with ⟨r, s₂⟩
    cases r with
    | ok u =>
      simp only [Task.finish, exec_bind, exec_attempt]
      rfl
    | error e =>
      simp only [Task.finish, exec_bind, exec_attempt]
      rcases exec (restoreTombstone id) s₂ with ⟨r, s₃⟩
      cases r with
      | ok u => rfl
      | error e => rfl

/-- `Job`, with the copy of the registry it works on. -/
structure Job (S : StorePrims) where
  copy : Registry
  /-- Whether the job has saved a registry. -/
  saved : Bool
  task : Task S

/-! ### The session -/

/-- What became of a vault last. -/
inductive Fate where
  /-- Created, imported or received. -/
  | made
  | deleted
  deriving DecidableEq

/-- `App` with an unlocked session. -/
structure App (S : StorePrims) where
  identity : Identity
  store : Store S
  registry : Registry
  /-- `open` -/
  opened : Option (Str × VaultReaderV2 S.toPrims)
  job : Option (Job S)
  /-- The registry that was saved last. -/
  savedRegistry : Registry
  /-- What the reports and events have said of each vault. -/
  fate : Str → Option Fate

/-- What the user can ask for. -/
inductive Request (S : StorePrims) where
  | createVault (name : Str) (now : Int) (io : CreateDirIo) (gc : GcIo)
  | openVault (id : Str) (gc : GcIo)
  | deleteVault (id : Str) (io : WipeIo)
  | editVault (edit : Str → VaultReaderV2 S.toPrims → StoreM S Unit) (now : Int) (gc : GcIo)
  | importVault (opened : Result VaultReader) (space : Bool) (now : Int) (io : CreateDirIo)

/-- The job that a request starts, if it is one the app can be asked for. -/
def App.taskFor (a : App S) : Request S → Option (Task S)
  | .createVault name now io gc => if name = [] then none else some (createVaultJob a.identity name a.registry now io gc)
  -- the vaults to choose from are those of the registry
  | .openVault id gc => if a.registry.lists id then some (openVaultJob a.identity id gc) else none
  | .deleteVault id io => some (deleteVaultJob a.identity a.registry id io)
  | .editVault edit now gc =>
    a.opened.map fun (id, reader) => editVaultJob a.identity id a.registry (edit id reader) now gc
  | .importVault opened space now io => some (importJob a.identity a.registry opened space now io)

/-- `apply` to the outcome of a report. -/
def App.install (a : App S) : Outcome S.toPrims → App S
  | .noop => a
  | .created registry id reader =>
    { a with registry := registry, opened := some (id, reader), fate := Function.update a.fate id (some .made) }
  | .setOpen id reader => { a with opened := some (id, reader) }
  | .replaceOpen id reader registry => { a with registry := registry, opened := some (id, reader) }
  | .deleted registry closedId =>
    { a with
      registry := registry
      opened := a.opened.filter fun o => o.1 ≠ closedId
      fate := Function.update a.fate closedId (some .deleted) }
  | .imported registry id => { a with registry := registry, fate := Function.update a.fate id (some .made) }

/-- What happens to the app; `works` says which calls of the operating system succeed. -/
inductive AppEvent (S : StorePrims) : Type 1 where
  /-- `spawn_job` -/
  | spawn (request : Request S)
  /-- The next section of the job. -/
  | work (works : Nat → Bool)
  /-- The UI thread takes the report of the job. -/
  | apply
  /-- `apply_net_event` for `Received`. -/
  | received (vault : VaultMeta) (works : Nat → Bool)
  /-- `Action::CloseVault` and `Action::Nav` -/
  | closeVault
  /-- Some other thread uses the store. -/
  | elsewhere (p : StoreM S Unit) (works : Nat → Bool)

/-- `spawn_job`, while no job is running. -/
def App.spawn (a : App S) (request : Request S) : App S :=
  match a.job, a.taskFor request with
  | none, some task => { a with job := some ⟨a.registry, false, task⟩ }
  | _, _ => a

/-- One section of the job. -/
def App.work (a : App S) (works : Nat → Bool) : App S :=
  match a.job with
  | none => a
  | some job =>
    match job.task with
    | .report _ => a
    | .locked p next =>
      let (r, store) := exec p (a.store.withWorks works)
      { a with store := store, job := some { job with task := next r } }
    | .save registry next =>
      let (r, store) := exec (saveRegistry a.identity registry) (a.store.withWorks works)
      { a with
        store := store
        savedRegistry := if r.isOk then registry else a.savedRegistry
        job := some { job with saved := r.isOk, task := next r } }

/-- Take the report of the job, if it has one. -/
def App.apply (a : App S) : App S :=
  match a.job with
  | some ⟨_, _, .report outcome⟩ => { a with job := none }.install outcome
  | _ => a

/-- `apply_net_event` for `Received`; whether the registry could be saved is ignored. -/
def App.received (a : App S) (vault : VaultMeta) (works : Nat → Bool) : App S :=
  let registry := a.registry.upsert vault
  let (r, store) := exec (saveRegistry a.identity registry) (a.store.withWorks works)
  { a with
    store := store
    registry := registry
    savedRegistry := if r.isOk then registry else a.savedRegistry
    fate := Function.update a.fate vault.id (some .made) }

/-- The app after an event. -/
def App.step (a : App S) : AppEvent S → App S
  | .spawn request => a.spawn request
  | .work works => a.work works
  | .apply => a.apply
  | .received vault works => a.received vault works
  | .closeVault => { a with opened := none }
  | .elsewhere p works => { a with store := (exec p (a.store.withWorks works)).2 }

/-- The app after the events. -/
abbrev App.run (a : App S) (events : List (AppEvent S)) : App S := Runs.run App.step a events

end FileSec
