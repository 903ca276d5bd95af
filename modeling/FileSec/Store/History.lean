import FileSec.Store.Forward
import FileSec.Store.Ideal

/-!
# Histories of loads and saves

Any sequence of loads and saves on a store, with files put in place of its objects in between.  A crash in the middle of
an operation is one whose calls of the operating system fail from some point on.
-/

namespace FileSec

open CrashDir Folders Prog

variable {S : StorePrims}

/-- The loads and saves of a store. -/
inductive StoreOp (S : StorePrims) where
  | saveKeystore (ks : S.KeystoreFile)
  | loadKeystore
  | confirmUnlockedKeystore (ks : S.KeystoreFile) (identity : Identity)
  | saveContacts (identity : Identity) (book : S.ContactBook)
  | loadContacts (identity : Identity)
  | saveRegistry (identity : Identity) (registry : Registry)
  | loadRegistry (identity : Identity)
  | saveVault (identity : Identity) (id : Str) (vault : Vault) (io : CreateDirIo)
  | importVault (identity : Identity) (id : Str) (reader : VaultReader) (space : Bool) (io : CreateDirIo)
  | mutateVault (reader : VaultReaderV2 S.toPrims) (c : CommitCall)
  | mutateVaultInBatches (reader : VaultReaderV2 S.toPrims) (items : List Op) (io : Nat → CommitIo)
  | openVault (identity : Identity) (id : Str) (io : GcIo)

/-- Run a save. -/
def asSave (p : StoreM S Unit) : StoreM S (Option (StateMetadata S.Digest)) := do
  p
  pure none

/-- Run an operation; a load returns the state it has accepted. -/
def StoreOp.run : StoreOp S → StoreM S (Option (StateMetadata S.Digest))
  | .saveKeystore ks => asSave (FileSec.saveKeystore ks)
  | .loadKeystore => do
    let ks ← FileSec.loadKeystore
    pure (S.keystoreState ks)
  | .confirmUnlockedKeystore ks identity => do
    FileSec.confirmUnlockedKeystore ks identity
    pure (S.keystoreState ks)
  | .saveContacts identity book => asSave (FileSec.saveContacts identity book)
  | .loadContacts identity => do
    let record ← loadProtectedRecord (contactsRecord S) identity
    pure (record.map (·.state))
  | .saveRegistry identity registry => asSave (FileSec.saveRegistry identity registry)
  | .loadRegistry identity => do
    let record ← loadProtectedRecord (registryRecord S) identity
    pure (record.map (·.state))
  | .saveVault identity id vault io => asSave (FileSec.saveVault identity id vault io)
  | .importVault identity id reader space io => asSave (importReaderToVault identity id reader space io)
  | .mutateVault reader c => asSave (FileSec.mutateVault reader c)
  | .mutateVaultInBatches reader items io => asSave (FileSec.mutateVaultInBatches reader items io)
  | .openVault identity id io => do
    let reader ← openVaultLocked identity id io
    pure reader.state

theorem StoreOp.accepting (op : StoreOp S) : Accepting op.run := by
  cases op with
  | saveKeystore ks => exact accepting_save (saveKeystore_onward ks)
  | loadKeystore => exact loadKeystore_accepting
  | confirmUnlockedKeystore ks identity => exact confirmUnlockedKeystore_accepting ks identity
  | saveContacts identity book =>
    exact accepting_save (saveProtectedBlob_onward (contactsRecord S) identity book contactsFile_ne)
  | loadContacts identity => exact loadProtectedRecord_accepting (contactsRecord S) identity contactsFile_ne
  | saveRegistry identity registry =>
    exact accepting_save (saveProtectedBlob_onward (registryRecord S) identity registry indexFile_ne)
  | loadRegistry identity => exact loadProtectedRecord_accepting (registryRecord S) identity indexFile_ne
  | saveVault identity id vault io => exact accepting_save (createVaultDir_onward identity id (.memory vault) io)
  | importVault identity id reader space io =>
    exact accepting_save (.ite (createVaultDir_onward identity id (.container reader) io) (.throw _))
  | mutateVault reader c => exact accepting_save (mutateVault_onward reader c)
  | mutateVaultInBatches reader items io => exact accepting_save (mutateVaultInBatches_onward reader items io)
  | openVault identity id io => exact openVaultLocked_accepting identity id io

/-! ### Histories -/

/-- What happens to a store; `works` says which calls of the operating system succeed in an operation. -/
inductive StoreEvent (S : StorePrims) where
  | call (op : StoreOp S) (works : Nat → Bool)
  /-- Put any file in the data directory, or take one away; the file of the anchors is out of reach. -/
  | replaceFile (name : Str) (raw : Option S.Raw)
  /-- The same in the directory `vaults/`. -/
  | replaceEntry (name : Str) (node : Option (DirEntry S.toPrims))

/-- Replace what lies under a name. -/
def overwritten {κ : Type} (d : Folder Str κ) (name : Str) : Option κ → Folder Str κ
  | some c => d.put name c
  | none => d.remove name

/-- The store after an event. -/
def Store.step (s : Store S) : StoreEvent S → Store S
  | .call op works => (exec op.run (s.withWorks works)).2
  | .replaceFile name raw => if name = anchorsFile then s else s.withRoot (overwritten s.root name raw)
  | .replaceEntry name node => { s with vaults := overwritten s.vaults name node }

/-- A state that a load has accepted, and the anchor of its object when the load began. -/
structure Acceptance (S : StorePrims) where
  anchor : StoreResult (Option (StateAnchor S.Digest))
  state : StateMetadata S.Digest

/-- What an event accepts. -/
def Store.accepts (s : Store S) : StoreEvent S → Option (Acceptance S)
  | .call op works =>
    match (exec op.run (s.withWorks works)).1 with
    | .ok (some state) => some ⟨s.anchor state.objectType state.objectId, state⟩
    | _ => none
  | _ => none

/-- What a history accepts, in order. -/
def Store.accepted : Store S → List (StoreEvent S) → List (Acceptance S)
  | _, [] => []
  | s, e :: events => (s.accepts e).toList ++ Store.accepted (s.step e) events

/-- The acceptance is of a state of the given object. -/
def Acceptance.Of (x : Acceptance S) (objectType : StateObjectType) (objectId : Str) : Prop :=
  x.state.objectType = objectType ∧ x.state.objectId = objectId

instance (x : Acceptance S) (objectType : StateObjectType) (objectId : Str) : Decidable (x.Of objectType objectId) :=
  inferInstanceAs (Decidable (_ ∧ _))

/-- The first state is not after the second one, and not beside it. -/
def Acceptance.Before (x y : Acceptance S) : Prop :=
  x.state.epoch ≤ y.state.epoch ∧
    (x.state.epoch = y.state.epoch → x.state.currentStateHash = y.state.currentStateHash)

/-! ### Accepted states -/

variable {s : Store S}

private theorem apart_replaced {root : Folder Str S.Raw} {name : Str} {raw : Option S.Raw} (hname : name ≠ anchorsFile)
    (hroot : root = overwritten s.root name raw) : s.Apart (s.withRoot root) := by
  have hput : s.root.AgreeOff (· ≠ anchorsFile) root := by
    cases raw with
    | none => exact hroot ▸ agreeOff_remove hname
    | some c => exact hroot ▸ agreeOff_put hname
  refine within_of_files rfl rfl rfl rfl ?_ hput (agreeOff_refl _ _) (.refl _)
  exact hput.get anchorsFile (by simp)

theorem step_onward (e : StoreEvent S) : s.Onward (s.step e) := by
  cases e with
  | call op works => exact (op.accepting (s.withWorks works)).1
  | replaceFile name raw =>
    by_cases hname : name = anchorsFile
    · simp only [Store.step, if_pos hname]
      exact fun ty id => forward_refl _
    · simp only [Store.step, if_neg hname]
      exact (apart_replaced hname rfl).onward
  | replaceEntry name node => exact fun ty id => forward_refl _

theorem accepts_accepted {e : StoreEvent S} {x : Acceptance S} (h : s.accepts e = some x) :
    x.anchor = s.anchor x.state.objectType x.state.objectId ∧ s.Accepted x.state (s.step e) := by
  cases e with
  | call op works =>
    simp only [Store.accepts] at h
    split at h
    · rename_i state hr
      obtain rfl := Option.some.inj h
      have hacc := (op.accepting (s.withWorks works)).2 state hr
      exact ⟨rfl, hacc.read, hacc.admits⟩
    · simp at h
  | replaceFile name raw => simp [Store.accepts] at h
  | replaceEntry name node => simp [Store.accepts] at h

/-- What a history accepts later is read from anchors that are at least as far as those at its start. -/
theorem forward_accepted {events : List (StoreEvent S)} {x : Acceptance S} (h : x ∈ s.accepted events) :
    Forward (s.anchor x.state.objectType x.state.objectId) x.anchor ∧
      ∃ anchor, x.anchor = .ok anchor ∧ ∀ a, anchor = some a → a.Admits x.state := by
  induction events generalizing s with
  | nil => simp [Store.accepted] at h
  | cons e events ih =>
    rcases List.mem_append.1 h with h | h
    · obtain ⟨hx, hacc⟩ := accepts_accepted (Option.mem_toList.1 h)
      obtain ⟨anchor, ha⟩ := hacc.read
      rw [hx]
      exact ⟨forward_refl _, anchor, ha, fun a haa => (hacc.admits a (haa ▸ ha)).1⟩
    · obtain ⟨hforward, hadms⟩ := ih h
      exact ⟨(step_onward e _ _).trans hforward, hadms⟩

private theorem before_of_accepted {events : List (StoreEvent S)} {x y : Acceptance S} {s' : Store S}
    {a : StateAnchor S.Digest} (ha : s.anchor x.state.objectType x.state.objectId = .ok (some a))
    (hx : s.Accepted x.state s') (hy : y ∈ s'.accepted events)
    (hof : y.Of x.state.objectType x.state.objectId) : x.Before y := by
  obtain ⟨hforward, anchor, hanchor, hadms⟩ := forward_accepted hy
  rw [hof.1, hof.2] at hforward
  obtain ⟨b, hb, hbb⟩ := hforward anchor hanchor
  rcases (hx.admits a ha).2 with hs | ⟨e, he⟩
  · obtain ⟨c, rfl, hc⟩ := hbb _ (Except.ok.inj (hb.symm.trans hs))
    have hpass := hadms c rfl
    -- the anchor read for `y` is that of `x`, or of a higher epoch
    have hle : c.epoch ≤ y.state.epoch ∧ (c.epoch = y.state.epoch → c.currentStateHash = y.state.currentStateHash) := by
      rcases hpass with hp | hp
      · obtain ⟨-, hepoch, hhash, -⟩ := checkCandidate_ok_false_iff.1 hp
        exact ⟨hepoch.symm.le, fun _ => hhash.symm⟩
      · obtain ⟨-, hlt, -⟩ := checkCandidate_ok_true_iff.1 hp
        exact ⟨hlt.le, fun h => absurd h hlt.ne⟩
    rcases hc with rfl | hlt
    · exact hle
    · have hlt' : x.state.epoch < c.epoch := hlt
      exact ⟨by omega, fun h => by omega⟩
  · rw [he] at hb
    simp at hb

/-- From the first anchor of an object on, the states of it that loads accept have epochs that do not decrease and
hashes that agree when the epochs do, and each is the one anchored at that moment or its direct successor. -/
theorem accepted_chain (s : Store S) (events : List (StoreEvent S)) (objectType : StateObjectType) (objectId : Str)
    (a : StateAnchor S.Digest) (h : s.anchor objectType objectId = .ok (some a)) :
    ((s.accepted events).filter (·.Of objectType objectId)).Pairwise Acceptance.Before ∧
      ∀ x ∈ s.accepted events, x.Of objectType objectId → ∃ b, x.anchor = .ok (some b) ∧
        (b = StateAnchor.fromMetadata x.state ∨
          b.SameObject x.state ∧ b.epoch < x.state.epoch ∧ x.state.epoch = min (b.epoch + 1) u64Max ∧
            x.state.previousStateHash = b.currentStateHash) := by
  refine ⟨?_, fun x hx hof => ?_⟩
  · induction events generalizing s a with
    | nil => exact .nil
    | cons e events ih =>
      have hstep := step_onward (s := s) e objectType objectId
      -- after the event the object still has an anchor, or nothing is accepted any more
      have hrest : ((Store.accepted (s.step e) events).filter (·.Of objectType objectId)).Pairwise
          Acceptance.Before := by
        cases hx : (s.step e).anchor objectType objectId with
        | error err =>
          rw [List.filter_eq_nil_iff.2]
          · exact .nil
          · intro y hy hof
            have hof' : y.Of objectType objectId := by simpa using hof
            obtain ⟨hforward, anchor, hanchor, -⟩ := forward_accepted hy
            obtain ⟨b, hb, -⟩ := hforward anchor hanchor
            rw [hof'.1, hof'.2, hx] at hb
            simp at hb
        | ok anchor =>
          obtain ⟨b, hb, hbb⟩ := hstep anchor hx
          obtain ⟨c, rfl, -⟩ := hbb a (Except.ok.inj (hb.symm.trans h))
          exact ih (s.step e) c hx
      unfold Store.accepted
      rw [List.filter_append, List.pairwise_append]
      refine ⟨?_, hrest, ?_⟩
      · cases s.accepts e with
        | none => exact .nil
        | some x => exact (List.pairwise_singleton _ x).sublist List.filter_sublist
      · intro x hx y hy
        rw [List.mem_filter] at hx hy
        obtain ⟨-, hacc⟩ := accepts_accepted (Option.mem_toList.1 hx.1)
        have hofx : x.Of objectType objectId := by simpa using hx.2
        have hofy : y.Of objectType objectId := by simpa using hy.2
        refine before_of_accepted (a := a) ?_ hacc hy.1 ?_
        · rw [hofx.1, hofx.2]
          exact h
        · rw [hofx.1, hofx.2]
          exact hofy
  · obtain ⟨hforward, anchor, hanchor, hadms⟩ := forward_accepted hx
    rw [hof.1, hof.2] at hforward
    obtain ⟨b, hb, hbb⟩ := hforward anchor hanchor
    obtain ⟨c, rfl, -⟩ := hbb a (Except.ok.inj (hb.symm.trans h))
    refine ⟨c, hanchor, ?_⟩
    rcases hadms c rfl with hp | hp
    · exact Or.inl (eq_fromMetadata hp)
    · exact Or.inr (checkCandidate_ok_true_iff.1 hp)

/-- A save that is cut off before the anchor, the load after it, and a load of the file from before. -/
def Sym.interrupted : List (StoreEvent Sym.store) :=
  [.call (.saveContacts Sym.alice (SymTerm.Term.nat 6)) fun i => i < 4, .call (.loadContacts Sym.alice) fun _ => true,
    .replaceFile contactsFile (Sym.bookFile (Sym.withBook .secureStorage)),
    .call (.loadContacts Sym.alice) fun _ => true]

theorem interrupted_anchored : ((Sym.withBook .secureStorage).anchor .contacts
    "contacts".toList).toOption.join.isSome = true := by decide

/-- The successor without an anchor is accepted once, and after it the older file is not. -/
theorem accepted_chain_interrupted :
    (((Sym.withBook .secureStorage).accepted Sym.interrupted).filter (·.Of .contacts "contacts".toList)).Pairwise
      Acceptance.Before ∧ ((Sym.withBook .secureStorage).accepted Sym.interrupted).map (·.state.epoch) = [2] :=
  ⟨(accepted_chain _ Sym.interrupted .contacts "contacts".toList _ (eq_ok_some interrupted_anchored)).1,
    by decide⟩

end FileSec
