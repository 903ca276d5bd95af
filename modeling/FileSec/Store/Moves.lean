import FileSec.Store.Migration

/-!
# One move of a migration

Each live object is renamed to an old copy and its staged copy is renamed into place.  `Store.MoveState` says how far a
move has come; from wherever it has come, `applyMove` takes it further or leaves it there, and a round that succeeds has
done it (`applyMove_spec`).
-/

namespace FileSec

open CrashDir Folders Prog

variable {S : StorePrims} {s s' : Store S}

/-! ### Paths -/

theorem liveSpot_vault (leaf : Str) : liveSpot ("vaults/".toList ++ leaf) = .vault leaf := by
  unfold liveSpot
  rw [List.isPrefixOf?_eq_some_iff_append_eq.2 rfl]

private theorem liveSpot_cases (rel : Str) :
    (∃ leaf, rel = "vaults/".toList ++ leaf ∧ liveSpot rel = .vault leaf) ∨ liveSpot rel = .root rel := by
  cases h : "vaults/".toList.isPrefixOf? rel with
  | none =>
    refine Or.inr ?_
    unfold liveSpot
    rw [h]
  | some leaf =>
    have hrel := List.isPrefixOf?_eq_some_iff_append_eq.1 h
    exact Or.inl ⟨leaf, hrel.symm, hrel ▸ liveSpot_vault leaf⟩

theorem liveSpot_injective : Function.Injective liveSpot := by
  intro rel rel' h
  rcases liveSpot_cases rel with ⟨leaf, hrel, hspot⟩ | hspot
  · rcases liveSpot_cases rel' with ⟨leaf', hrel', hspot'⟩ | hspot'
    · rw [hspot, hspot', Spot.vault.injEq] at h
      rw [hrel, hrel', h]
    · rw [hspot, hspot'] at h
      cases h
  · rcases liveSpot_cases rel' with ⟨leaf', hrel', hspot'⟩ | hspot'
    · rw [hspot, hspot'] at h
      cases h
    · rw [hspot, hspot', Spot.root.injEq] at h
      exact h

/-- The files of the anchors and of the marker are not ones that a migration replaces. -/
theorem liveSpot_ne_anchorsFile {live : Str} (h : isMigratableLivePath live = true) :
    liveSpot live ≠ .root anchorsFile := by
  intro hspot
  have hself : liveSpot anchorsFile = .root anchorsFile := by decide
  have hlive : live = anchorsFile := liveSpot_injective (hspot.trans hself.symm)
  rw [hlive] at h
  exact absurd h (by decide)

theorem liveSpot_ne_marker {live : Str} (h : isMigratableLivePath live = true) :
    liveSpot live ≠ .root anchorsBackendFile := by
  intro hspot
  have hself : liveSpot anchorsBackendFile = .root anchorsBackendFile := by decide
  have hlive : live = anchorsBackendFile := liveSpot_injective (hspot.trans hself.symm)
  rw [hlive] at h
  exact absurd h (by decide)

private theorem append_cons_inj {α : Type} {c : α} {x y u v : List α} (hx : c ∉ x) (hy : c ∉ y)
    (h : x ++ c :: u = y ++ c :: v) : x = y := by
  rcases List.append_eq_append_iff.1 h with ⟨z, hz, hv⟩ | ⟨z, hz, hv⟩
  · cases z with
    | nil => simpa using hz.symm
    | cons a z =>
      rw [List.cons_append, List.cons.injEq] at hv
      exact absurd (hz ▸ List.mem_append_right x (hv.1 ▸ List.mem_cons_self)) hy
  · cases z with
    | nil => simpa using hz
    | cons a z =>
      rw [List.cons_append, List.cons.injEq] at hv
      exact absurd (hz ▸ List.mem_append_right y (hv.1 ▸ List.mem_cons_self)) hx

/-- Old copies of different moves have different names. -/
theorem oldCopyName_inj {i j : Nat} {live live' : Str} (h : oldCopyName i live = oldCopyName j live') : i = j := by
  have hdigit : ∀ n, '-' ∉ Nat.toDigits 10 n := by
    intro n hn
    have := Nat.isDigit_of_mem_toDigits (by omega) (by omega) hn
    exact absurd this (by decide)
  have hdigits := append_cons_inj (hdigit i) (hdigit j) h
  have hi := @Nat.ofDigitChars_ten_toDigits i
  rw [hdigits, Nat.ofDigitChars_ten_toDigits] at hi
  exact hi.symm

/-! ### One move -/

section Places

variable {spot spot' : Spot} {entry : DirEntry S.toPrims} {live name : Str}

theorem node_place_self (h : spot.fits entry = true) : (s.place spot entry).node spot = some entry := by
  cases spot with
  | root name =>
    cases entry with
    | file raw =>
      show ((s.root.put name raw).get name).map DirEntry.file = _
      rw [get_put_self]
      rfl
    | dir d => cases h
  | vault name => exact get_put_self

theorem node_place_of_ne (h : spot' ≠ spot) : (s.place spot entry).node spot' = s.node spot' := by
  cases spot with
  | root name =>
    cases entry with
    | file raw =>
      cases spot' with
      | root name' =>
        have hne : name' ≠ name := fun he => h (he ▸ rfl)
        show ((s.root.put name raw).get name').map DirEntry.file = (s.root.get name').map DirEntry.file
        rw [get_put_of_ne hne]
      | vault name' => rfl
    | dir d => rfl
  | vault name =>
    cases spot' with
    | root name' => rfl
    | vault name' => exact get_put_of_ne fun he => h (he ▸ rfl)

theorem node_take_self : (s.take spot).node spot = none := by
  cases spot with
  | root name =>
    show ((s.root.remove name).get name).map DirEntry.file = none
    rw [get_remove_self]
    rfl
  | vault name => exact get_remove_self

theorem node_take_of_ne (h : spot' ≠ spot) : (s.take spot).node spot' = s.node spot' := by
  cases spot with
  | root name =>
    cases spot' with
    | root name' =>
      have hne : name' ≠ name := fun he => h (he ▸ rfl)
      show ((s.root.remove name).get name').map DirEntry.file = (s.root.get name').map DirEntry.file
      rw [get_remove_of_ne hne]
    | vault name' => rfl
  | vault name =>
    cases spot' with
    | root name' => rfl
    | vault name' => exact get_remove_of_ne fun he => h (he ▸ rfl)

end Places

/-- How far a move has come: `new` is what was staged for the live path and `old` what was live. -/
inductive Store.MoveState (s : Store S) (live name : Str) (new : DirEntry S.toPrims)
    (old : Option (DirEntry S.toPrims)) : Prop
  | pending (hs : s.stagedAt live = some new) (hl : s.node (liveSpot live) = old) (ho : s.oldCopyAt name = none)
  | aside (hs : s.stagedAt live = some new) (hl : s.node (liveSpot live) = none) (ho : s.oldCopyAt name = old)
  | done (hs : s.stagedAt live = none) (hl : s.node (liveSpot live) = some new) (ho : s.oldCopyAt name = old)

/-- What a move from one state to another leaves alone. -/
structure Store.MovedOne (live name : Str) (s s' : Store S) : Prop where
  account : s'.account = s.account
  backend : s'.backend = s.backend
  secure : s'.secure = s.secure
  quarantined : s'.quarantined = s.quarantined
  rng : s'.rng = s.rng
  node : ∀ spot, spot ≠ liveSpot live → s'.node spot = s.node spot
  staged : ∀ live', live' ≠ live → s'.stagedAt live' = s.stagedAt live'
  oldCopy : ∀ name', name' ≠ name → s'.oldCopyAt name' = s.oldCopyAt name'
  hasOldCopies : s'.hasOldCopies = s.hasOldCopies
  journal : s'.journalFile = s.journalFile

section MovedOne

variable {live name : Str} {entry : DirEntry S.toPrims}

theorem movedOne_refl (s : Store S) : Store.MovedOne live name s s :=
  ⟨rfl, rfl, rfl, rfl, rfl, fun _ _ => rfl, fun _ _ => rfl, fun _ _ => rfl, rfl, rfl⟩

theorem movedOne_later (s : Store S) (k : Nat) : Store.MovedOne live name s (s.later k) :=
  ⟨rfl, rfl, rfl, rfl, rfl, fun spot _ => by cases spot <;> rfl, fun _ _ => rfl, fun _ _ => rfl, rfl, rfl⟩

theorem Store.MovedOne.trans {s'' : Store S} (h : Store.MovedOne live name s s') (h' : Store.MovedOne live name s' s'') :
    Store.MovedOne live name s s'' :=
  ⟨h'.account.trans h.account, h'.backend.trans h.backend, h'.secure.trans h.secure,
    h'.quarantined.trans h.quarantined, h'.rng.trans h.rng,
    fun spot hs => (h'.node spot hs).trans (h.node spot hs),
    fun l hl => (h'.staged l hl).trans (h.staged l hl), fun n hn => (h'.oldCopy n hn).trans (h.oldCopy n hn),
    h'.hasOldCopies.trans h.hasOldCopies, h'.journal.trans h.journal⟩

theorem node_later (s : Store S) (k : Nat) (spot : Spot) : (s.later k).node spot = s.node spot := by
  cases spot <;> rfl

private theorem node_withMigration (s : Store S) (m : Option (MigrationDir S.toPrims)) (spot : Spot) :
    ({ s with migration := m } : Store S).node spot = s.node spot := by
  cases spot <;> rfl

private theorem place_fields (s : Store S) (spot : Spot) (entry : DirEntry S.toPrims) :
    (s.place spot entry).account = s.account ∧ (s.place spot entry).backend = s.backend ∧
      (s.place spot entry).secure = s.secure ∧ (s.place spot entry).quarantined = s.quarantined ∧
      (s.place spot entry).rng = s.rng ∧ (s.place spot entry).migration = s.migration := by
  cases spot with
  | root name => cases entry <;> exact ⟨rfl, rfl, rfl, rfl, rfl, rfl⟩
  | vault name => exact ⟨rfl, rfl, rfl, rfl, rfl, rfl⟩

private theorem take_fields (s : Store S) (spot : Spot) :
    (s.take spot).account = s.account ∧ (s.take spot).backend = s.backend ∧ (s.take spot).secure = s.secure ∧
      (s.take spot).quarantined = s.quarantined ∧ (s.take spot).rng = s.rng := by
  cases spot <;> exact ⟨rfl, rfl, rfl, rfl, rfl⟩

theorem hasOldCopies_iff : s.hasOldCopies = true ↔ ∃ d copies, s.migration = some d ∧ d.oldCopies = some copies := by
  unfold Store.hasOldCopies
  cases s.migration with
  | none => simp
  | some d => simp [Option.isSome_iff_exists]

/-- Setting the live entry aside. -/
theorem movedAside_spec (hcopies : s.hasOldCopies = true) :
    Store.MovedOne live name s (s.movedAside live name entry) ∧
      (s.movedAside live name entry).node (liveSpot live) = none ∧
      (s.movedAside live name entry).oldCopyAt name = some entry ∧
      (s.movedAside live name entry).stagedAt live = s.stagedAt live := by
  obtain ⟨d, copies, hd, hcopy⟩ := hasOldCopies_iff.1 hcopies
  obtain ⟨hacc, hback, hsec, hquar, hrng⟩ := take_fields s (liveSpot live)
  have hmig : (s.movedAside live name entry).migration =
      some { d with oldCopies := some (copies.insert name entry) } := by
    unfold Store.movedAside
    simp only [hd, Option.map_some, hcopy]
  have hstaged : ∀ l, (s.movedAside live name entry).stagedAt l = s.stagedAt l := by
    intro l
    unfold Store.stagedAt
    rw [hmig, hd]
    rfl
  have hold : ∀ n, (s.movedAside live name entry).oldCopyAt n = (copies.insert name entry).lookup n := by
    intro n
    unfold Store.oldCopyAt
    rw [hmig]
    rfl
  refine ⟨⟨hacc, hback, hsec, hquar, hrng, fun spot hs => ?_, fun l _ => hstaged l, fun n hn => ?_, ?_, ?_⟩, ?_, ?_,
    hstaged live⟩
  · exact (node_withMigration _ _ _).trans (node_take_of_ne hs)
  · rw [hold, AList.lookup_insert_ne hn]
    unfold Store.oldCopyAt
    rw [hd]
    simp only [Option.bind_some, hcopy]
  · rw [hcopies]
    exact hasOldCopies_iff.2 ⟨_, _, hmig, rfl⟩
  · unfold Store.journalFile
    rw [hmig, hd]
    rfl
  · exact (node_withMigration _ _ _).trans node_take_self
  · rw [hold]
    exact AList.lookup_insert _

/-- Putting the staged entry into place. -/
theorem movedIntoPlace_spec (hfits : (liveSpot live).fits entry = true) :
    Store.MovedOne live name s (s.movedIntoPlace live entry) ∧
      (s.movedIntoPlace live entry).node (liveSpot live) = some entry ∧
      (s.movedIntoPlace live entry).stagedAt live = none ∧
      ∀ n, (s.movedIntoPlace live entry).oldCopyAt n = s.oldCopyAt n := by
  obtain ⟨hacc, hback, hsec, hquar, hrng, -⟩ := place_fields s (liveSpot live) entry
  have hmig : (s.movedIntoPlace live entry).migration =
      s.migration.map fun d => { d with staged := d.staged.erase live } := rfl
  have hold : ∀ n, (s.movedIntoPlace live entry).oldCopyAt n = s.oldCopyAt n := by
    intro n
    unfold Store.oldCopyAt
    rw [hmig]
    cases s.migration <;> rfl
  refine ⟨⟨hacc, hback, hsec, hquar, hrng, fun spot hs => ?_, fun l hl => ?_, fun n _ => hold n, ?_, ?_⟩, ?_, ?_, hold⟩
  · exact (node_withMigration _ _ _).trans (node_place_of_ne hs)
  · unfold Store.stagedAt
    rw [hmig]
    cases s.migration with
    | none => rfl
    | some d => exact AList.lookup_erase_ne hl
  · unfold Store.hasOldCopies
    rw [hmig]
    cases s.migration <;> rfl
  · unfold Store.journalFile
    rw [hmig]
    cases s.migration <;> rfl
  · exact (node_withMigration _ _ _).trans (node_place_self hfits)
  · unfold Store.stagedAt
    rw [hmig]
    cases s.migration with
    | none => rfl
    | some d => exact AList.lookup_erase _ _

end MovedOne

section ApplyMove

variable {live name : Str} {new : DirEntry S.toPrims} {old : Option (DirEntry S.toPrims)}

theorem Store.MoveState.later (h : s.MoveState live name new old) (k : Nat) :
    (s.later k).MoveState live name new old := by
  cases h with
  | pending hs hl ho => exact .pending hs ((node_later s k _).trans hl) ho
  | aside hs hl ho => exact .aside hs ((node_later s k _).trans hl) ho
  | done hs hl ho => exact .done hs ((node_later s k _).trans hl) ho

/-- A move of another live path does not matter. -/
theorem Store.MoveState.movedOne {live' name' : Str} (h : s.MoveState live name new old)
    (hmoved : Store.MovedOne live' name' s s') (hlive : live ≠ live') (hname : name ≠ name') :
    s'.MoveState live name new old := by
  have hstaged := hmoved.staged live hlive
  have hnode := hmoved.node (liveSpot live) fun he => hlive (liveSpot_injective he)
  have hold := hmoved.oldCopy name hname
  cases h with
  | pending hs hl ho => exact .pending (hstaged.trans hs) (hnode.trans hl) (hold.trans ho)
  | aside hs hl ho => exact .aside (hstaged.trans hs) (hnode.trans hl) (hold.trans ho)
  | done hs hl ho => exact .done (hstaged.trans hs) (hnode.trans hl) (hold.trans ho)

/-- The last step of a move. -/
private theorem moveIntoPlace_spec (hfits : (liveSpot live).fits new = true) (hs : s.stagedAt live = some new)
    (hl : s.node (liveSpot live) = none) (ho : s.oldCopyAt name = old) :
    wp (moveIntoPlace live) (fun r s' => Store.MovedOne live name s s' ∧ s'.MoveState live name new old ∧
      (r = .ok () → s'.stagedAt live = none ∧ s'.node (liveSpot live) = some new)) s := by
  unfold moveIntoPlace
  simp only [wp_bind, wp_call, wp_get]
  refine ⟨fun _ => ?_, fun _ => ?_⟩
  · have hs₁ : s.tick.stagedAt live = some new := hs
    simp only [hs₁, hfits, if_true, wp_modify]
    obtain ⟨hmoved, hnode, hnone, hold⟩ := movedIntoPlace_spec (s := s.tick) hfits
    refine ⟨(movedOne_later s 1).trans hmoved, .done hnone hnode ((hold name).trans ho), fun _ => ⟨hnone, hnode⟩⟩
  · exact ⟨movedOne_later s 1, .aside hs ((node_later s 1 _).trans hl) ho, by simp⟩

/-- One move, however it ends: nothing else changes, and a move that succeeds is done. -/
theorem applyMove_spec {move : (Str × Str) × Nat} (hlive : isMigratableLivePath move.1.2 = true)
    (hstaged : move.1.1 = stagedPath move.1.2) (hfits : (liveSpot move.1.2).fits new = true)
    (hcopies : s.hasOldCopies = true) (h : s.MoveState move.1.2 (oldCopyName move.2 move.1.2) new old) :
    wp (applyMove move) (fun r s' => Store.MovedOne move.1.2 (oldCopyName move.2 move.1.2) s s' ∧
      s'.MoveState move.1.2 (oldCopyName move.2 move.1.2) new old ∧
      (r = .ok () ∨ s.stagedAt move.1.2 = none →
        s'.stagedAt move.1.2 = none ∧ s'.node (liveSpot move.1.2) = some new)) s := by
  obtain ⟨⟨staged, live⟩, index⟩ := move
  simp only at hlive hstaged hfits h ⊢
  unfold applyMove
  rw [if_neg (by simp [hlive, hstaged]), wp_bind, wp_get]
  simp only
  cases h with
  | pending hs hl ho =>
    cases old with
    | none =>
      simp only [hs, hl, ho, Option.isSome_some, Option.isSome_none]
      refine wp_mono (moveIntoPlace_spec hfits hs hl ho) ?_
      rintro r s' ⟨hmoved, hstate, hdone⟩
      exact ⟨hmoved, hstate, fun hr => hdone (by simpa using hr)⟩
    | some entry =>
      simp only [hs, hl, ho, Option.isSome_some, Option.isSome_none, wp_bind]
      unfold moveAside
      simp only [wp_bind, wp_call, wp_get]
      refine ⟨fun _ => ?_, fun _ => ?_⟩
      · have hl₁ : s.tick.node (liveSpot live) = some entry := (node_later s 1 _).trans hl
        have hcopies₁ : s.tick.hasOldCopies = true := hcopies
        simp only [hl₁, hcopies₁, if_true, wp_modify]
        obtain ⟨hmoved, hnode, hold, hkeep⟩ :=
          @movedAside_spec S s.tick live (oldCopyName index live) entry hcopies₁
        refine wp_mono (moveIntoPlace_spec hfits (hkeep.trans hs) hnode hold) ?_
        rintro r s' ⟨hmoved', hstate, hdone⟩
        exact ⟨(movedOne_later s 1).trans (hmoved.trans hmoved'), hstate, fun hr => hdone (by simpa using hr)⟩
      · exact ⟨movedOne_later s 1, .pending hs ((node_later s 1 _).trans hl) ho, by simp⟩
  | aside hs hl ho =>
    simp only [hs, hl, Option.isSome_some, Option.isSome_none]
    refine wp_mono (moveIntoPlace_spec hfits hs hl ho) ?_
    rintro r s' ⟨hmoved, hstate, hdone⟩
    exact ⟨hmoved, hstate, fun hr => hdone (by simpa using hr)⟩
  | done hs hl ho =>
    simp only [hs, hl, Option.isSome_some, Option.isSome_none]
    exact ⟨movedOne_refl s, .done hs hl ho, fun _ => ⟨hs, hl⟩⟩

/-- On a machine that does all it is asked to, the move succeeds. -/
theorem applyMove_ok {move : (Str × Str) × Nat} (hlive : isMigratableLivePath move.1.2 = true)
    (hstaged : move.1.1 = stagedPath move.1.2) (hfits : (liveSpot move.1.2).fits new = true)
    (hcopies : s.hasOldCopies = true) (h : s.MoveState move.1.2 (oldCopyName move.2 move.1.2) new old)
    (hw : s.Working) : wp (applyMove move) (fun r s' => r = .ok () ∧ s'.Working) s := by
  obtain ⟨⟨staged, live⟩, index⟩ := move
  simp only at hlive hstaged hfits h ⊢
  have hplace : ∀ t : Store S, t.Working → t.stagedAt live = some new →
      wp (moveIntoPlace live) (fun r s' => r = .ok () ∧ s'.Working) t := by
    intro t ht hs
    unfold moveIntoPlace
    simp only [wp_bind, wp_call, wp_get, ht 0, Bool.true_eq_false, false_implies, and_true, true_implies]
    have hs₁ : t.tick.stagedAt live = some new := hs
    simp only [hs₁, hfits, if_true, wp_modify, true_and]
    have hworks : (t.tick.movedIntoPlace live new).works = t.tick.works := by
      unfold Store.movedIntoPlace Store.place
      cases liveSpot live <;> cases new <;> rfl
    exact fun i => hworks ▸ ht (i + 1)
  unfold applyMove
  rw [if_neg (by simp [hlive, hstaged]), wp_bind, wp_get]
  simp only
  cases h with
  | pending hs hl ho =>
    cases old with
    | none =>
      simp only [hs, hl, ho, Option.isSome_some, Option.isSome_none]
      exact hplace s hw hs
    | some entry =>
      simp only [hs, hl, ho, Option.isSome_some, Option.isSome_none, wp_bind]
      unfold moveAside
      simp only [wp_bind, wp_call, wp_get, hw 0, Bool.true_eq_false, false_implies, and_true, true_implies]
      have hl₁ : s.tick.node (liveSpot live) = some entry := (node_later s 1 _).trans hl
      have hcopies₁ : s.tick.hasOldCopies = true := hcopies
      simp only [hl₁, hcopies₁, if_true, wp_modify]
      obtain ⟨-, -, -, hkeep⟩ :=
        @movedAside_spec S s.tick live (oldCopyName index live) entry hcopies₁
      refine hplace _ ?_ (hkeep.trans hs)
      have hworks : (s.tick.movedAside live (oldCopyName index live) entry).works = s.tick.works := by
        unfold Store.movedAside Store.take
        cases liveSpot live <;> rfl
      exact fun i => hworks ▸ hw (i + 1)
  | aside hs hl ho =>
    simp only [hs, hl, Option.isSome_some, Option.isSome_none]
    exact hplace s hw hs
  | done hs hl ho =>
    simp only [hs, hl, Option.isSome_some, Option.isSome_none]
    exact ⟨rfl, hw⟩

end ApplyMove

end FileSec
