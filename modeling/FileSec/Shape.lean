import FileSec.Symbolic
import FileSec.Tree
import FileSec.World

/-!
# The shape of a vault

In a vault that one of the builders has made, the paths of a batch are distinct, each entry has its parents, which are
directories, the index is exact and no blob is referred to twice.  Every operation keeps this whatever its outcome, and
one that fails changes nothing (`batch_shape`).
-/

namespace FileSec

open CrashDir Prog SepPath

variable {P : Prims}

/-- The manifest of a tree whose files have blobs of their own. -/
structure ManifestV2.Shaped (m : ManifestV2) : Prop where
  nodup : (pathsOf m.entries).Nodup
  closed : ClosedEntries m.entries
  ids : m.blobIds.Nodup

/-- A batch whose index is exact and whose entries form a tree. -/
structure VaultBatch.Shaped (b : VaultBatch P) : Prop extends b.Indexed where
  closed : ClosedEntries b.manifest.entries

/-! ### Operations -/

theorem Op.Makes.kind {op : Op} {c : Change} (h : op.Makes P c) {p : Str} {a : EntryAttrs} {bytes : Bytes}
    (hc : c = .put p a bytes) : a.kind = .file := by
  cases h <;> cases hc <;> rfl

/-- Every operation keeps the shape, and one that fails changes neither the entries nor the index. -/
theorem Op.run_shaped {b : VaultBatch P} (hb : b.Shaped) (op : Op) :
    wp (op.run P) (fun r b' => b'.Shaped ∧
      ∀ e, r = .error e → b'.manifest.entries = b.manifest.entries ∧ b'.index = b.index) b := by
  refine wp_mono (Op.run_spec hb.toIndexed op) ?_
  intro r b' hr
  have hcl := closedEntries_iff.1 hb.closed
  cases r with
  | ok u =>
    obtain ⟨c, hdid⟩ := hr
    have hentries : b'.manifest.entries = c.apply b.manifest.entries := by rw [hdid.manifest]
    refine ⟨⟨⟨hdid.index, ?_⟩, ?_⟩, by simp⟩
    · rw [hentries]
      exact nodup_apply hb.nodup hcl hdid.pre
    · rw [hentries, closedEntries_iff]
      exact closed_apply hb.nodup hcl hdid.pre fun p a bytes hc => hdid.makes.kind hc
  | error e =>
    obtain ⟨ps, hstuck⟩ := hr
    have hentries : b'.manifest = b.manifest := by
      rw [hstuck.manifest, hstuck.closed hb.closed]
      simp
    have hindex : b'.index = b.index := by rw [hstuck.index, hb.index, hentries]
    exact ⟨⟨⟨by rw [hindex, hb.index, hentries], hentries ▸ hb.nodup⟩, hentries ▸ hb.closed⟩,
      fun _ _ => ⟨by rw [hentries], hindex⟩⟩

/-- Call operations one after the other, whatever becomes of each. -/
def callAll (P : Prims) : List Op → BatchM P Unit
  | [] => pure ()
  | op :: ops => do
    let _ ← attempt (op.run P)
    callAll P ops

/-- The batch after these calls. -/
def VaultBatch.after (b : VaultBatch P) (ops : List Op) : VaultBatch P := (exec (callAll P ops) b).2

theorem VaultBatch.after_shaped {b : VaultBatch P} (hb : b.Shaped) (ops : List Op) : (b.after ops).Shaped := by
  induction ops generalizing b with
  | nil => exact hb
  | cons op ops ih => exact ih (Op.run_shaped hb op).1

theorem callAll_blind (ops : List Op) : BatchBlind (callAll P ops) := by
  induction ops with
  | nil => exact .pure _
  | cons op ops ih => exact .bind (.attempt op.run_blind) fun _ => ih

theorem Edits.run_shaped {b : VaultBatch P} (hb : b.Shaped) (edits : Edits) :
    wp (edits.run P) (fun _ b' => b'.Shaped) b := by
  induction edits generalizing b with
  | done r =>
    simp only [Edits.run, wp_liftM]
    exact hb
  | call op next ih =>
    simp only [Edits.run, wp_bind, wp_attempt]
    exact wp_mono (Op.run_shaped hb op) fun r b' hr => ih r hr.1

theorem ManifestV2.Shaped.new {r : VaultReaderV2 P} (h : r.manifest.Shaped) (limit : Option Nat) (host : Host P) :
    (VaultBatch.new r limit host).Shaped := ⟨⟨rfl, h.nodup⟩, h.closed⟩

/-! ### Runs -/

/-- Every manifest in sight is that of a tree, and the blob ids to come are new to it. -/
structure World.Shaped (w : World P) (identity : Identity) : Prop where
  disk : ∀ r, openVault P w.host.top.shown identity = .ok r → r.manifest.Shaped ∧
    w.host.rng.Fresh (· ∈ r.manifest.blobIds)
  reader : ∀ r, w.reader = some r → r.Belongs identity ∧ w.host.top.shown .header = some r.headerBytes ∧
    r.manifest.Shaped ∧ w.host.rng.Fresh (· ∈ r.manifest.blobIds)

/-- A closure on a shaped reader leaves the manifest of a tree, and ids to come that are new to it. -/
theorem Session.edited_shaped {s : Session P} (hm : s.reader.manifest.Shaped)
    (hf : s.host.rng.Fresh (· ∈ s.reader.manifest.blobIds)) (limit : Option Nat) (edits : Edits) :
    (s.edited limit edits).2.manifest.Shaped ∧
      ∃ k, s.host.Drew k (s.edited limit edits).2.host ∧
        Rng.Fresh (fun i => s.host.rng (i + k)) (· ∈ (s.edited limit edits).2.ids) := by
  obtain ⟨k, hdrew, -, hids, -, -⟩ := edited_spec s limit edits
  obtain ⟨hnd, hfresh⟩ := hf.ids hm.ids hids
  have hb : (s.edited limit edits).2.Shaped := Edits.run_shaped (hm.new limit s.host) edits
  exact ⟨⟨hb.nodup, hb.closed, hnd.sublist (List.sublist_append_left _ _)⟩, k, hdrew, hfresh⟩

/-- A commit on a shaped reader leaves a shaped vault. -/
theorem commitWith_shaped {w : World P} {identity : Identity} (hw : w.Shaped identity) {r : VaultReaderV2 P}
    (hr : w.reader = some r) (limit : Option Nat) (edits : Edits) (io : CommitIo) :
    wp (commitWith limit edits io) (fun _ s => World.Shaped ⟨s.host, some s.reader⟩ identity) ⟨r, w.host⟩ := by
  obtain ⟨hbel, hheader, hm, hf⟩ := hw.reader r hr
  refine wp_mono (commitWith_outcome ⟨r, w.host⟩ limit edits io) ?_
  obtain ⟨hm', k, hdrew, hf'⟩ := Session.edited_shaped (s := ⟨r, w.host⟩) hm hf limit edits
  generalize Session.edited ⟨r, w.host⟩ limit edits = p at hm' hdrew hf'
  obtain ⟨edited, b⟩ := p
  intro res s hout
  simp only at hm' hdrew hf' hout
  -- a commit that seals nothing leaves the manifests alone
  have hsame : ∀ h : Host P, h.top = w.host.top → (∃ j, h.rng = fun i => w.host.rng (i + j)) →
      World.Shaped ⟨h, some r⟩ identity := by
    rintro h htop ⟨j, hrng⟩
    refine ⟨?_, ?_⟩
    · intro r' hr'
      simp only [htop] at hr'
      simp only [hrng]
      exact ⟨(hw.disk r' hr').1, (hw.disk r' hr').2.skip j⟩
    · rintro r' ⟨⟩
      simp only [htop, hrng]
      exact ⟨hbel, hheader, hm, hf.skip j⟩
  cases hout with
  | unchanged => exact hsame b.host hdrew.top ⟨k, hdrew.rng⟩
  | @failed e h hhost =>
    rcases hhost with rfl | ⟨j, rfl⟩
    · exact hsame _ hdrew.top ⟨k, hdrew.rng⟩
    · refine hsame _ hdrew.top ⟨j + k, ?_⟩
      simp only [hdrew.rng]
      funext i
      rw [Nat.add_assoc]
  | @sealed state nonce h _ _ hsealed =>
    obtain ⟨hnext, hdrawn, -, rfl⟩ := hsealed
    have hnonce := randomVec_length hdrawn
    have hf'' : Rng.Fresh (fun i => w.host.rng (i + (1 + k))) (· ∈ b.manifest.blobIds) := by
      have := (hf'.mono fun id hid => List.mem_append_left _ hid).skip 1
      simpa only [Nat.add_assoc] using this
    have hrng : (fun i => b.host.rng (i + 1)) = fun i => w.host.rng (i + (1 + k)) := by
      simp only [hdrew.rng]
      funext i
      rw [Nat.add_assoc]
    have htop : ∀ h : Host P, h.top = (b.host.top.write .manifest (r.sealedRaw b.manifest state nonce)).sync
        io.vaultSync → (h.rng = fun i => b.host.rng (i + 1)) →
        World.Shaped ⟨h, some (r.committed b state io.vaultSync)⟩ identity := by
      intro h htop hrng'
      have hshown : h.top.shown .header = some r.headerBytes := by
        rw [htop, shown_sync, shown_write_of_ne (by decide), hdrew.top, hheader]
      refine ⟨?_, ?_⟩
      · intro r' hr'
        have hsealed : h.top.shown .manifest = some (r.sealedRaw b.manifest state nonce) := by
          rw [htop, shown_sync, shown_write_self]
        obtain ⟨-, -, -, rfl⟩ := (openVault_sealed hbel hnext hnonce hshown hsealed).1 hr'
        simp only [hrng', hrng]
        exact ⟨hm', hf''⟩
      · rintro r' ⟨⟩
        simp only [hrng', hrng]
        exact ⟨⟨hbel.header, hbel.owner⟩, hshown, hm', hf''⟩
    refine htop _ ?_ ?_
    · split <;> rfl
    · split <;> rfl

theorem World.Shaped.step {w : World P} {identity : Identity} (hw : w.Shaped identity) {e : Event} (he : e.Calm) :
    (w.step identity e).Shaped identity := by
  cases e with
  | commit c => exact World.onReader_induction (World.Shaped · identity) hw fun r hr => commitWith_shaped hw hr c.limit c.edits c.io
  | collectGarbage io =>
    refine World.onReader_induction (World.Shaped · identity) hw fun r hr => wp_mono (collectGarbage_spec io _) ?_
    rintro res ⟨r', h'⟩ ⟨⟨pending, rfl, -⟩, hrng, htop, -⟩
    have hshown : h'.top.shown = w.host.top.shown := by
      rcases htop with ⟨htop, -⟩ | htop
      · rw [htop]
      · rw [htop, shown_sync]
    obtain ⟨hbel, hheader, hm, hf⟩ := hw.reader r hr
    refine ⟨fun r' hr' => ?_, ?_⟩
    · simp only [hshown] at hr'
      rw [hrng]
      exact hw.disk r' hr'
    · rintro r' ⟨⟩
      rw [hrng, hshown]
      exact ⟨⟨hbel.header, hbel.owner⟩, hheader, hm, hf⟩
  | reopen =>
    refine ⟨hw.disk, fun r hr => ?_⟩
    have hopen := openVault_of_toOption hr
    exact ⟨belongs_of_openVault hopen, header_of_openVault hopen, hw.disk r hopen⟩
  | crash => exact he.elim

theorem World.Shaped.run {w : World P} {identity : Identity} (hw : w.Shaped identity) {events : List Event}
    (he : ∀ e ∈ events, e.Calm) : (w.run identity events).Shaped identity :=
  World.run_induction (World.Shaped · identity) hw fun _ e hmem hw => hw.step (he e hmem)

/-- A vault without entries has the shape of a tree. -/
theorem ManifestV2.Shaped.of_empty {m : ManifestV2} (h : m.entries = []) : m.Shaped := by
  refine ⟨by simp [h], fun a p e _ he => ?_, by simp [ManifestV2.blobIds, h]⟩
  simp [h, Keyed.lookup] at he

theorem Session.Created.shaped {s : Session P} {identity : Identity} {h : Host P} (hs : s.Created identity h)
    (fresh : h.rng.Fresh fun _ => False) : World.Shaped ⟨s.host, some s.reader⟩ identity := by
  obtain ⟨state, nonce, -, hnext, hnonce, hshown, -⟩ := hs.sealed
  obtain ⟨k, hk⟩ := hs.rng
  have hm := ManifestV2.Shaped.of_empty hs.empty
  have hf : s.host.rng.Fresh (· ∈ s.reader.manifest.blobIds) := by
    rw [hk]
    exact (fresh.skip k).mono fun id hid => by simp [ManifestV2.blobIds, hs.empty] at hid
  refine ⟨fun r hr => ?_, ?_⟩
  · have hbel : VaultReaderV2.Belongs { s.reader with state := none } identity := ⟨hs.belongs.header, hs.belongs.owner⟩
    obtain ⟨-, -, -, rfl⟩ := (openVault_sealed hbel hnext hnonce hs.header.1 hshown).1 hr
    exact ⟨hm, hf⟩
  · rintro r ⟨⟩
    exact ⟨hs.belongs, hs.header.1, hm, hf⟩

theorem Builder.run_shaped {builder : Builder P} {identity : Identity} {h h' : Host P} {r : VaultReaderV2 P}
    (fresh : h.rng.Fresh fun _ => False) (hrun : exec (builder.run identity) h = (.ok r, h')) :
    World.Shaped ⟨h', some r⟩ identity := by
  obtain ⟨s, hs, edits, io, hcommit⟩ := Builder.run_ok hrun
  exact of_wp (commitWith_shaped (hs.shaped fresh) rfl none edits io) hcommit

/-- In a vault that a builder has made, whatever commits, garbage collections and reopenings came since, after any calls
of operations on a batch the paths are distinct, the proper ancestors of each entry are there and are directories, no
file is above another entry, the index maps each path to its place, and no two entries share a blob.  A call that fails
leaves entries and index as they were. -/
theorem batch_shape {builder : Builder P} {identity : Identity} {h h' : Host P} {r r' : VaultReaderV2 P}
    {events : List Event} (fresh : h.rng.Fresh fun _ => False)
    (hbuild : exec (builder.run identity) h = (.ok r, h')) (hcalm : ∀ e ∈ events, e.Calm)
    (hr' : (World.run identity ⟨h', some r⟩ events).reader = some r') (limit : Option Nat) (ops : List Op) :
    ∀ b, b = (VaultBatch.new r' limit (World.run identity ⟨h', some r⟩ events).host).after ops →
      (pathsOf b.manifest.entries).Nodup ∧
      (∀ e ∈ b.manifest.entries, ∀ a, Below '/' a e.path → ∃ d ∈ b.manifest.entries, d.path = a ∧ d.kind = .dir) ∧
      (∀ f ∈ b.manifest.entries, f.kind = .file → ∀ e ∈ b.manifest.entries, ¬ Below '/' f.path e.path) ∧
      (∀ p i, b.index p = some i ↔ ∃ e, b.manifest.entries[i]? = some e ∧ e.path = p) ∧
      b.manifest.blobIds.Nodup ∧
      ∀ (op : Op) e, (exec (op.run P) b).1 = .error e →
        (exec (op.run P) b).2.manifest.entries = b.manifest.entries ∧ (exec (op.run P) b).2.index = b.index := by
  rintro b rfl
  obtain ⟨-, -, hm, hf⟩ := ((Builder.run_shaped fresh hbuild).run hcalm).reader r' hr'
  generalize (World.run identity ⟨h', some r⟩ events).host = host at hf ⊢
  have hb := VaultBatch.after_shaped (hm.new limit host) ops
  have hids : ((VaultBatch.new r' limit host).after ops).manifest.blobIds.Nodup := by
    obtain ⟨res, b, g, ⟨-, k, -, -, hsub, -⟩, hrun⟩ := callAll_blind ops (VaultBatch.new r' limit host)
    have hnew : (VaultBatch.new r' limit host).ids = r'.manifest.blobIds := List.append_nil _
    have hb : (VaultBatch.new r' limit host).after ops = b.setBlobs (g host.blobs) := congrArg Prod.snd (hrun host.blobs)
    rw [hnew] at hsub
    rw [hb]
    exact (hf.ids hm.ids hsub).1.sublist (List.sublist_append_left _ _)
  generalize (VaultBatch.new r' limit host).after ops = b at hb hids
  have hat : ∀ e ∈ b.manifest.entries, entryAt b.manifest.entries e.path = some e :=
    fun e he => (Keyed.lookup_eq_some_iff hb.nodup).2 ⟨he, rfl⟩
  have habove : ∀ e ∈ b.manifest.entries, ∀ a, Below '/' a e.path →
      ∃ d ∈ b.manifest.entries, d.path = a ∧ d.kind = .dir := by
    intro e he a ha
    obtain ⟨d, hd, hk⟩ := hb.closed a e.path e ha (hat e he)
    obtain ⟨hmem, hpath⟩ := Keyed.lookup_mem hd
    exact ⟨d, hmem, hpath, hk⟩
  refine ⟨hb.nodup, habove, ?_, ?_, hids, fun op e he => ?_⟩
  · intro f hf hk e he hbelow
    obtain ⟨d, hd, hpath, hdir⟩ := habove e he f.path hbelow
    have : d = f := by
      have h1 := hat d hd
      rw [hpath, hat f hf, Option.some.injEq] at h1
      exact h1.symm
    subst this
    rw [hk] at hdir
    simp at hdir
  · intro p i
    rw [hb.index]
    exact Keyed.index_eq_some_iff hb.nodup
  · exact (Op.run_shaped hb op).2 e he

/-! A vault imported from entries without parents, opened again after a commit. -/

private def imported : Result (VaultReaderV2 Sym) × Host Sym :=
  exec ((Builder.fromVault .classic ⟨"v".toList, 0, [⟨"a/b".toList, .file, none, none, [1]⟩]⟩ none
    ⟨.fine, fun _ => .fine, .fine⟩).run Sym.alice) (Sym.host 12)

private def importedEvents : List Event :=
  [.commit ⟨none, .ofList [.rename "a".toList "c".toList], .fine⟩, .reopen]

set_option maxRecDepth 10000 in
private theorem imported_ok : imported.1.toOption.isSome = true := by decide

private def importedWorld : World Sym :=
  World.run Sym.alice ⟨imported.2, some (imported.1.toOption.get imported_ok)⟩ importedEvents

set_option maxRecDepth 10000 in
private theorem importedWorld_ok : importedWorld.reader.isSome = true := by decide

private def importedBatch : VaultBatch Sym :=
  VaultBatch.after (VaultBatch.new (importedWorld.reader.get importedWorld_ok) none importedWorld.host)
    [.mkdir "c/d".toList]

set_option maxRecDepth 10000 in
theorem batch_shape_imported : (pathsOf importedBatch.manifest.entries).Nodup ∧
    (exec (Op.run Sym (.mkdir "c/b/x".toList)) importedBatch).2.manifest.entries = importedBatch.manifest.entries := by
  have hbuild : imported = (.ok (imported.1.toOption.get imported_ok), imported.2) := Prod.ext (eq_ok_get imported_ok) rfl
  have fresh : (Sym.host 12).rng.Fresh fun _ => False :=
    Rng.fresh_of_finite 12 (fun i hi => if_neg (by omega)) (by decide) fun _ _ => id
  have hcalm : ∀ e ∈ importedEvents, e.Calm := by
    rintro e (_ | ⟨_, _ | ⟨_, h⟩⟩)
    · trivial
    · trivial
    · cases h
  have h := batch_shape fresh hbuild hcalm (Option.some_get importedWorld_ok).symm none [.mkdir "c/d".toList]
    importedBatch rfl
  have herr : (exec (Op.run Sym (.mkdir "c/b/x".toList)) importedBatch).1 =
      .error (.vault "a file exists at c/b; it cannot contain other entries".toList) := by decide
  exact ⟨h.1, (h.2.2.2.2.2 _ _ herr).1⟩

end FileSec
