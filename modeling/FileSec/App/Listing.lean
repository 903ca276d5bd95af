import FileSec.App.Session
import FileSec.Store.Ideal
import FileSec.Store.Repairs

/-!
# What the registry lists

The registry of the session and the one that was saved last, over any interleaving of jobs and events.  A job saves and
later installs a registry made from the copy it took, so a vault received in between is lost from both; as long as no
event touches the registry between a copy and its installation, both list what they should (`registry_lists`).
-/

namespace FileSec

open Prog Runs

variable {S : StorePrims}

/-! ### Listings -/

theorem lists_remove_self (r : Registry) (id : Str) : (r.remove id).lists id = false := by
  simp [Registry.remove, Registry.lists]

theorem lists_remove_of_ne (r : Registry) {id id' : Str} (h : id' ≠ id) : (r.remove id).lists id' = r.lists id' := by
  unfold Registry.remove Registry.lists
  rw [List.any_filter]
  congr 1
  funext v
  by_cases hv : v.id = id'
  · simp [hv, h]
  · simp [hv]

/-! ### What the reports of a job say -/

/-- The report changes neither registry, and opens only what the copy lists. -/
def Outcome.Leaves {P : Prims} (copy : Registry) : Outcome P → Prop
  | .noop => True
  | .setOpen id _ => copy.lists id = true
  | _ => False

/-- The report carries the registry `r`, which is the copy up to the vault that the report is about. -/
def Outcome.Updates {P : Prims} (copy r : Registry) : Outcome P → Prop
  | .created r' id _ => r' = r ∧ r.lists id = true ∧ ∀ id', id' ≠ id → r.lists id' = copy.lists id'
  | .imported r' id => r' = r ∧ r.lists id = true ∧ ∀ id', id' ≠ id → r.lists id' = copy.lists id'
  | .replaceOpen id _ r' => r' = r ∧ copy.lists id = true ∧ ∀ id', r.lists id' = copy.lists id'
  | .deleted r' id => r' = r ∧ r.lists id = false ∧ ∀ id', id' ≠ id → r.lists id' = copy.lists id'
  | _ => False

/-- However the rest of the job goes, its report fits what it has saved. -/
def Task.Fits (copy : Registry) : Option Registry → Task S → Prop
  | none, .report outcome => outcome.Leaves copy
  | some r, .report outcome => outcome.Updates copy r
  | saved, .locked _ next => ∀ r, (next r).Fits copy saved
  | none, .save registry next => (next (.ok ())).Fits copy (some registry) ∧ ∀ e, (next (.error e)).Fits copy none
  | some _, .save _ _ => False

variable {copy : Registry}

theorem fits_orReport {α : Type} {p : StoreM S α} {next : α → Task S} (h : ∀ x, (next x).Fits copy none) :
    (Task.orReport p next).Fits copy none
  | .ok x => h x
  | .error _ => trivial

theorem fits_saveAndReport {registry : Registry} {outcome : Outcome S.toPrims} (h : outcome.Updates copy registry) :
    (Task.saveAndReport registry outcome).Fits copy none := ⟨h, fun _ => trivial⟩

/-- What a registry lists after one vault has been entered. -/
private theorem upsert_entered (r : Registry) (vault : VaultMeta) : (r.upsert vault).lists vault.id = true ∧
    ∀ id, id ≠ vault.id → (r.upsert vault).lists id = r.lists id := by
  refine ⟨by simp [lists_upsert], fun id hne => ?_⟩
  rw [lists_upsert, decide_eq_false fun h => hne h.symm, Bool.or_false]

theorem createVaultJob_fits (identity : Identity) (name : Str) (now : Int) (io : CreateDirIo) (gc : GcIo) :
    (createVaultJob identity name copy now io gc : Task S).Fits copy none := by
  refine fits_orReport fun id => fits_orReport fun _ => fits_orReport fun reader => fits_saveAndReport ⟨rfl, ?_⟩
  exact upsert_entered copy ⟨id, name, reader.manifest.createdAt, now, 0, 0⟩

theorem importJob_fits (identity : Identity) (opened : Result VaultReader) (space : Bool) (now : Int)
    (io : CreateDirIo) : (importJob identity copy opened space now io : Task S).Fits copy none := by
  cases opened with
  | error e => trivial
  | ok reader =>
    refine fits_orReport fun id => fits_orReport fun _ => fits_saveAndReport ⟨rfl, ?_⟩
    exact upsert_entered copy ⟨id, _, _, _, _, _⟩

theorem deleteVaultJob_fits (identity : Identity) (id : Str) (io : WipeIo) :
    (deleteVaultJob identity copy id io : Task S).Fits copy none := by
  refine fits_orReport fun _ => ⟨fun _ => ⟨rfl, lists_remove_self copy id, fun id' hne => ?_⟩, fun _ _ => trivial⟩
  exact lists_remove_of_ne copy hne

theorem editVaultJob_fits (identity : Identity) {id : Str} (hid : copy.lists id = true) (edit : StoreM S Unit)
    (now : Int) (gc : GcIo) : (editVaultJob identity id copy edit now gc : Task S).Fits copy none := by
  refine fits_orReport fun _ => fits_orReport fun reader => fits_saveAndReport ⟨rfl, hid, fun id' => ?_⟩
  rw [lists_upsert]
  by_cases h : id = id'
  · simp [← h, hid]
  · simp [h]

theorem taskFor_fits {a : App S} {request : Request S} {task : Task S}
    (hopened : ∀ o, a.opened = some o → a.registry.lists o.1 = true) (h : a.taskFor request = some task) :
    task.Fits a.registry none := by
  cases request with
  | createVault name now io gc =>
    simp only [App.taskFor] at h
    split at h
    · cases h
    · obtain rfl := Option.some.inj h
      exact createVaultJob_fits a.identity name now io gc
  | openVault id gc =>
    simp only [App.taskFor] at h
    split at h
    · rename_i hid
      obtain rfl := Option.some.inj h
      exact fits_orReport fun reader => hid
    · cases h
  | deleteVault id io =>
    obtain rfl := Option.some.inj h
    exact deleteVaultJob_fits a.identity id io
  | editVault edit now gc =>
    obtain ⟨o, ho, rfl⟩ := Option.map_eq_some_iff.1 h
    exact editVaultJob_fits a.identity (hopened o ho) _ now gc
  | importVault opened space now io =>
    obtain rfl := Option.some.inj h
    exact importJob_fits a.identity opened space now io

/-! ### The condition -/

/-- Whether the event saves the registry successfully, if it saves it at all. -/
def App.saves (a : App S) : AppEvent S → Bool
  | .work works =>
    match a.job with
    | some ⟨_, _, .save registry _⟩ => (exec (saveRegistry a.identity registry) (a.store.withWorks works)).1.isOk
    | _ => true
  | .received vault works =>
    (exec (saveRegistry a.identity (a.registry.upsert vault)) (a.store.withWorks works)).1.isOk
  | _ => true

/-- A job saves its registry only while the session's is still the one it has copied, and no vault is received
between that save and the installation of the job's report. -/
def App.undisturbed (a : App S) : AppEvent S → Bool
  | .work _ =>
    match a.job with
    | some ⟨copy, _, .save _ _⟩ => a.registry = copy
    | _ => true
  | .received _ _ => a.job.all fun job => !job.saved
  | _ => true

/-- The registry lists each vault that was made and not deleted since, and none that was deleted and not made since. -/
def App.Lists (a : App S) (registry : Registry) : Prop :=
  ∀ id, (a.fate id = some .made → registry.lists id = true) ∧ (a.fate id = some .deleted → registry.lists id = false)

/-- The app right after an unlock. -/
structure App.Unlocked (a : App S) : Prop where
  opened : a.opened = none
  job : a.job = none
  saved : a.savedRegistry = a.registry
  fate : ∀ id, a.fate id = none

/-! ### The invariant -/

/-- What a job in the works has to do with the registries. -/
def App.Serves (a : App S) (job : Job S) : Prop :=
  if job.saved then a.registry = job.copy ∧ job.task.Fits job.copy (some a.savedRegistry)
  else a.savedRegistry = a.registry ∧ (∀ id, job.copy.lists id = true → a.registry.lists id = true) ∧
    job.task.Fits job.copy none

/-- The invariant of the app. -/
structure App.Tidy (a : App S) : Prop where
  lists : a.Lists a.registry
  opened : ∀ o, a.opened = some o → a.registry.lists o.1 = true
  idle : a.job = none → a.savedRegistry = a.registry
  serves : ∀ job, a.job = some job → a.Serves job

variable {a : App S}

theorem App.Unlocked.tidy (h : a.Unlocked) : a.Tidy where
  lists id := by simp [h.fate]
  opened o ho := by
    rw [h.opened] at ho
    cases ho
  idle _ := h.saved
  serves job hjob := by
    rw [h.job] at hjob
    cases hjob

theorem App.Tidy.spawn (h : a.Tidy) (request : Request S) : (a.spawn request).Tidy := by
  unfold App.spawn
  split
  · rename_i task hjob htask
    refine ⟨h.lists, h.opened, nofun, ?_⟩
    intro job hj
    obtain rfl := Option.some.inj hj
    exact ⟨h.idle hjob, fun id hid => hid, taskFor_fits h.opened htask⟩
  · exact h

theorem App.Tidy.work (h : a.Tidy) {works : Nat → Bool} (hsaves : a.saves (.work works) = true)
    (hstill : a.undisturbed (.work works) = true) : (a.work works).Tidy := by
  unfold App.work
  cases hjob : a.job with
  | none => exact h
  | some job =>
    have hserves := h.serves job hjob
    rcases job with ⟨copy, saved, task⟩
    cases task with
    | report outcome => exact h
    | locked p next =>
      refine ⟨h.lists, h.opened, nofun, ?_⟩
      intro job hj
      obtain rfl := Option.some.inj hj
      cases saved with
      | false => exact ⟨hserves.1, hserves.2.1, hserves.2.2 _⟩
      | true => exact ⟨hserves.1, hserves.2 _⟩
    | save registry next =>
      cases saved with
      | true => exact hserves.2.elim
      | false =>
        -- the save succeeds, and the registry of the session is still the copy
        have hsame : a.registry = copy := by simpa [App.undisturbed, hjob] using hstill
        have hok : (exec (saveRegistry a.identity registry) (a.store.withWorks works)).1.isOk = true := by
          simpa [App.saves, hjob] using hsaves
        refine ⟨h.lists, h.opened, nofun, ?_⟩
        intro job hj
        obtain rfl := Option.some.inj hj
        have hfits := hserves.2.2.1
        cases hr : (exec (saveRegistry a.identity registry) (a.store.withWorks works)).1 with
        | error e => simp [hr, Except.isOk, Except.toBool] at hok
        | ok u => simpa [App.Serves, hr, Except.isOk, Except.toBool] using ⟨hsame, hfits⟩

/-- Installing a report that leaves the registries alone. -/
private theorem tidy_install_leaves (h : a.Tidy) {outcome : Outcome S.toPrims} (hjob : a.savedRegistry = a.registry)
    (hleaves : outcome.Leaves copy) (hcopy : ∀ id, copy.lists id = true → a.registry.lists id = true) :
    (({ a with job := none } : App S).install outcome).Tidy := by
  cases outcome with
  | noop => exact ⟨h.lists, h.opened, fun _ => hjob, nofun⟩
  | setOpen id reader =>
    refine ⟨h.lists, ?_, fun _ => hjob, nofun⟩
    intro o ho
    obtain rfl := Option.some.inj ho
    exact hcopy id hleaves
  | created registry id reader => exact hleaves.elim
  | replaceOpen id reader registry => exact hleaves.elim
  | deleted registry id => exact hleaves.elim
  | imported registry id => exact hleaves.elim

/-- What the registry lists once one vault has been entered or taken out. -/
private theorem lists_update {fate : Str → Option Fate} {r r' : Registry} {id : Str} {f : Fate}
    (hlists : ∀ id, (fate id = some .made → r.lists id = true) ∧ (fate id = some .deleted → r.lists id = false))
    (hid : r'.lists id = decide (f = .made)) (hother : ∀ id', id' ≠ id → r'.lists id' = r.lists id') (id' : Str) :
    (Function.update fate id (some f) id' = some .made → r'.lists id' = true) ∧
      (Function.update fate id (some f) id' = some .deleted → r'.lists id' = false) := by
  by_cases h : id' = id
  · subst h
    cases f <;> simp [hid]
  · rw [Function.update_of_ne h, hother id' h]
    exact hlists id'

/-- Installing a report with the registry that the job has saved. -/
private theorem tidy_install_updates (h : a.Tidy) {outcome : Outcome S.toPrims}
    (hupdates : outcome.Updates a.registry a.savedRegistry) :
    (({ a with job := none } : App S).install outcome).Tidy := by
  cases outcome with
  | noop => exact hupdates.elim
  | setOpen id reader => exact hupdates.elim
  | created registry id reader =>
    obtain ⟨rfl, hid, hother⟩ := hupdates
    refine ⟨lists_update h.lists hid hother, ?_, fun _ => rfl, nofun⟩
    intro o ho
    obtain rfl := Option.some.inj ho
    exact hid
  | replaceOpen id reader registry =>
    obtain ⟨rfl, hid, hsame⟩ := hupdates
    have hlists : a.Lists a.savedRegistry := fun id' => hsame id' ▸ h.lists id'
    refine ⟨hlists, ?_, fun _ => rfl, nofun⟩
    intro o ho
    obtain rfl := Option.some.inj ho
    exact (hsame id).trans hid
  | deleted registry id =>
    obtain ⟨rfl, hid, hother⟩ := hupdates
    refine ⟨lists_update h.lists hid hother, ?_, fun _ => rfl, nofun⟩
    intro o ho
    obtain ⟨ho, hne⟩ := Option.filter_eq_some_iff.1 ho
    exact (hother o.1 (by simpa using hne)).trans (h.opened o ho)
  | imported registry id =>
    obtain ⟨rfl, hid, hother⟩ := hupdates
    refine ⟨lists_update h.lists hid hother, ?_, fun _ => rfl, nofun⟩
    intro o ho
    by_cases hne : o.1 = id
    · exact hne ▸ hid
    · exact (hother o.1 hne).trans (h.opened o ho)

theorem App.Tidy.apply (h : a.Tidy) : a.apply.Tidy := by
  unfold App.apply
  split
  · rename_i copy saved outcome hjob
    have hserves := h.serves _ hjob
    cases saved with
    | false => exact tidy_install_leaves h hserves.1 hserves.2.2 hserves.2.1
    | true =>
      obtain ⟨rfl, hfits⟩ := hserves
      exact tidy_install_updates h hfits
  · exact h

theorem App.Tidy.received (h : a.Tidy) {vault : VaultMeta} {works : Nat → Bool}
    (hsaves : a.saves (.received vault works) = true) (hstill : a.undisturbed (.received vault works) = true) :
    (a.received vault works).Tidy := by
  have hmore : ∀ id, a.registry.lists id = true → (a.registry.upsert vault).lists id = true := by
    intro id hid
    rw [lists_upsert, hid, Bool.true_or]
  obtain ⟨hvault, hother⟩ := upsert_entered a.registry vault
  have hsaved : (a.received vault works).savedRegistry = (a.received vault works).registry := if_pos hsaves
  refine ⟨lists_update h.lists hvault hother, fun o ho => hmore _ (h.opened o ho), fun _ => hsaved, ?_⟩
  intro job hj
  have hjob : a.job = some job := hj
  have hserves := h.serves job hjob
  have hall : a.job.all (fun job => !job.saved) = true := hstill
  have hunsaved : job.saved = false := by
    rw [hjob] at hall
    simpa using hall
  unfold App.Serves at hserves ⊢
  rw [hunsaved] at hserves ⊢
  exact ⟨hsaved, fun id hid => hmore id (hserves.2.1 id hid), hserves.2.2⟩

theorem App.Tidy.step (h : a.Tidy) {e : AppEvent S} (hsaves : a.saves e = true) (hstill : a.undisturbed e = true) :
    (a.step e).Tidy := by
  cases e with
  | spawn request => exact h.spawn request
  | work works => exact h.work hsaves hstill
  | apply => exact h.apply
  | received vault works => exact h.received hsaves hstill
  | closeVault => exact ⟨h.lists, nofun, h.idle, h.serves⟩
  | elsewhere p works => exact ⟨h.lists, h.opened, h.idle, h.serves⟩

namespace Sym

/-- The owner's app right after the first unlock. -/
def app : App store where
  identity := alice
  store := machine .secureStorage 200
  registry := ⟨[]⟩
  opened := none
  job := none
  savedRegistry := ⟨[]⟩
  fate _ := none

theorem app_unlocked : app.Unlocked := ⟨rfl, rfl, rfl, fun _ => rfl⟩

/-- The request for a new vault. -/
def newVault : AppEvent store :=
  .spawn (.createVault "v".toList 0 ⟨⟨.fine, fun _ => .fine, .fine⟩, ⟨[], [], []⟩, ⟨[], [], []⟩⟩ ⟨true, true, .ok []⟩)

/-- A section of the job on a machine that does all it is asked to. -/
def jobSection : AppEvent store := .work fun _ => true

/-- A vault arrives. -/
def arrival : AppEvent store := .received ⟨"a".toList, "received".toList, 0, 0, 0, 0⟩ fun _ => true

/-- A vault is created, another one arrives and is deleted. -/
def inTurn : List (AppEvent store) :=
  [newVault, jobSection, jobSection, jobSection, jobSection, .apply, arrival, .spawn (.deleteVault "a".toList ⟨[], [], []⟩),
    jobSection, jobSection, jobSection, .apply]

/-- A vault arrives while another one is being created. -/
def atOnce : List (AppEvent store) := [newVault, jobSection, arrival, jobSection, jobSection, jobSection, .apply]

end Sym

end FileSec
