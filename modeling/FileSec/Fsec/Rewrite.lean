import FileSec.Fsec.Layout
import FileSec.Fsec.RoundTrip
import FileSec.Fsec.Sources
import FileSec.Fsec.Symbolic

/-!
# Rewriting a container

`remove_paths` and `replace_file` write a new container from an old one: the entries that stay get new offsets, and the
data of the files that stay are cut out of the old stream (`format.rs`).  The offsets are computed from the sizes alone,
so they are right because the old files lie one after the other (`Laid.relocate`, `Laid.select`).
-/

universe u

namespace FileSec.Fsec

open SepPath

variable {P : Prims} (C : FsecPrims P)

/-- `write_container` from a reader. -/
def writeContainerFrom (manifest : Manifest) (dataPlaintextLen : Nat) {R : ByteReader.{u}} (data : R.State)
    (sender : Identity C) (recipients : List Peer.PublicIdentity) (options : ExportOptions) (draws : Draws) :
    Result Bytes := do
  let plan ← ContainerPlan.new C manifest dataPlaintextLen sender recipients options draws
  plan.writeFrom data

/-- The loop over the entries of the old manifest: those that stay, with their new offsets, the segments of the old data,
and the size of the new. -/
def keepEntries (dropped : Entry → Bool) : List Entry → Nat → Result (List Entry × List (Nat × Bool) × Nat)
  | [], offset => .ok ([], [], offset)
  | e :: es, offset =>
    match e.kind, dropped e with
    | .file, true => do
      let (entries, segments, total) ← keepEntries dropped es offset
      .ok (entries, (e.size, false) :: segments, total)
    | .file, false => do
      refuseIf (offset + e.size > u64Max) (.format "size overflow".toList)
      let (entries, segments, total) ← keepEntries dropped es (offset + e.size)
      .ok ({ e with dataOffset := offset } :: entries, (e.size, true) :: segments, total)
    | .dir, true => keepEntries dropped es offset
    | .dir, false => do
      let (entries, segments, total) ← keepEntries dropped es offset
      .ok ({ e with dataOffset := 0 } :: entries, segments, total)

/-- The paths to remove, normalised, each with the prefix of what is below it. -/
def removeMatchers : List Str → Result (List (Str × Str))
  | [] => .ok []
  | p :: ps => do
    let norm ← normalizePath p
    let matchers ← removeMatchers ps
    .ok ((norm, norm ++ ['/']) :: matchers)

/-- `is_removed` -/
def isRemoved (matchers : List (Str × Str)) (path : Str) : Bool :=
  matchers.any fun m => path = m.1 || m.2.isPrefixOf path

/-- `VaultReader::remove_paths` into a buffer. -/
def VaultReader.removePaths (r : VaultReader) (disk : Disk) (file : Bytes) (sender : Identity C)
    (recipients : List Peer.PublicIdentity) (options : ExportOptions) (draws : Draws) (remove : List Str) :
    Result Bytes := do
  let matchers ← removeMatchers remove
  let (entries, segments, offset) ← keepEntries (fun e => isRemoved matchers e.path) r.manifest.entries 0
  let manifest : Manifest := ⟨r.manifest.vaultName, r.manifest.createdAt, entries⟩
  let plaintext ← r.plaintextReaderOn C disk file
  let data := selectReader ⟨_, plaintext⟩ segments
  writeContainerFrom C manifest offset data.state sender recipients options draws

/-- `VaultReader::replace_file` into a buffer. -/
def VaultReader.replaceFile (r : VaultReader) (disk : Disk) (file : Bytes) (sender : Identity C)
    (recipients : List Peer.PublicIdentity) (options : ExportOptions) (draws : Draws) (path : Str) (newSource : SourceFile)
    (mtime : Option Int) (mode : Option Nat) : Result Bytes := do
  let target ← normalizePath path
  refuseIf ((r.manifest.entries.any fun e => e.path = target && e.kind = .file) = false)
    (.vault ("not a file in vault: ".toList ++ target))
  let (newBlake3, newSize) ← hashFile P newSource.hashed
  let (entries, segments, offset) ← keepEntries (fun e => e.kind = .file && e.path = target) r.manifest.entries 0
  refuseIf (offset + newSize > u64Max) (.format "size overflow".toList)
  let manifest : Manifest := ⟨r.manifest.vaultName, r.manifest.createdAt,
    entries ++ [⟨target, .file, newSize, mtime, mode, newBlake3, offset⟩]⟩
  let plaintext ← r.plaintextReaderOn C disk file
  let kept := selectReader ⟨_, plaintext⟩ segments
  writeContainerFrom C manifest (offset + newSize) (R := PieceSource.chain Error UInt8) [kept, newSource.streamed] sender
    recipients options draws

/-! ### Offsets -/

/-- The entries with the offsets that their files have one after the other. -/
def relocate : Nat → List Entry → List Entry
  | _, [] => []
  | offset, e :: es =>
    match e.kind with
    | .file => { e with dataOffset := offset } :: relocate (offset + e.size) es
    | .dir => { e with dataOffset := 0 } :: relocate offset es

/-- The size of the files. -/
def filesSize (es : List Entry) : Nat := ((es.filter fun e => e.kind = .file).map (·.size)).sum

/-- The segments of the data of the entries. -/
def segmentsOf (dropped : Entry → Bool) (es : List Entry) : List (Nat × Bool) :=
  (es.filter fun e => e.kind = .file).map fun e => (e.size, !dropped e)

/-- The bytes of an entry in the data. -/
def sliceOf (data : Bytes) (e : Entry) : Bytes := (data.drop e.dataOffset).take e.size

/-- The bytes of the files in the data. -/
def slicesOf (data : Bytes) (es : List Entry) : Bytes := (es.filter fun e => e.kind = .file).flatMap (sliceOf data)

variable {C} {es : List Entry} {offset stop : Nat} {data : Bytes} {dropped : Entry → Bool}

theorem filesSize_cons (e : Entry) (es : List Entry) :
    filesSize (e :: es) = (if e.kind = .file then e.size else 0) + filesSize es := by
  unfold filesSize
  rw [List.filter_cons]
  cases e.kind <;> simp

theorem Laid.size_eq (h : Laid offset es stop) : offset + filesSize es = stop := by
  induction h with
  | nil => rfl
  | file hkind _ _ ih =>
    rw [filesSize_cons, if_pos hkind]
    omega
  | dir hkind _ ih =>
    rw [filesSize_cons, hkind]
    simpa using ih

theorem filesSize_filter_le (keep : Entry → Bool) (es : List Entry) : filesSize (es.filter keep) ≤ filesSize es := by
  unfold filesSize
  exact ((List.filter_sublist.filter _).map _).sum_le_sum fun _ _ => Nat.zero_le _

/-- What the loop over the old entries makes of them. -/
theorem keepEntries_eq (hmax : offset + filesSize (es.filter fun e => !dropped e) ≤ u64Max) :
    keepEntries dropped es offset =
      .ok (relocate offset (es.filter fun e => !dropped e), segmentsOf dropped es,
        offset + filesSize (es.filter fun e => !dropped e)) := by
  induction es generalizing offset with
  | nil => rfl
  | cons e es ih =>
    unfold keepEntries
    rw [List.filter_cons] at hmax ⊢
    unfold segmentsOf
    rw [List.filter_cons]
    cases hk : e.kind with
    | file =>
      cases hd : dropped e with
      | true =>
        simp only [hd, Bool.not_true, Bool.false_eq_true, if_false] at hmax ⊢
        rw [ih hmax]
        simp [bind, Except.bind, segmentsOf, hd]
      | false =>
        simp only [hd, Bool.not_false, if_true, filesSize_cons, hk] at hmax ⊢
        have hle : ¬ offset + e.size > u64Max := by omega
        rw [ih (by omega)]
        simp only [refuseIf, if_neg hle, bind, Except.bind, relocate, hk, Nat.add_assoc, segmentsOf, decide_true, if_true,
          List.map_cons, hd, Bool.not_false]
    | dir =>
      cases hd : dropped e with
      | true =>
        simp only [hd, Bool.not_true, Bool.false_eq_true, if_false] at hmax ⊢
        rw [ih hmax]
        simp [segmentsOf]
      | false =>
        simp only [hd, Bool.not_false, if_true, filesSize_cons, hk, reduceCtorEq, if_false, Nat.zero_add] at hmax ⊢
        rw [ih hmax]
        simp [bind, Except.bind, relocate, hk, segmentsOf]

theorem laid_relocate (offset : Nat) (es : List Entry) : Laid offset (relocate offset es) (offset + filesSize es) := by
  induction es generalizing offset with
  | nil => exact .nil offset
  | cons e es ih =>
    unfold relocate
    rw [filesSize_cons]
    cases hk : e.kind with
    | file =>
      simp only [if_true]
      refine .file rfl rfl ?_
      rw [← Nat.add_assoc]
      exact ih _
    | dir =>
      simp only [reduceCtorEq, if_false, Nat.zero_add]
      exact .dir rfl (ih _)

/-- The entries are the same but for their offsets, and the bytes of their files the same in other data. -/
def Moved (data data' : Bytes) (e e' : Entry) : Prop :=
  e' = { e with dataOffset := e'.dataOffset } ∧ (e.kind = .file → sliceOf data' e' = sliceOf data e)

/-- Relocated files find their bytes where they have been put. -/
theorem relocate_moved {data : Bytes} (hin : ∀ e ∈ es, e.kind = .file → e.dataOffset + e.size ≤ data.length)
    (front back : Bytes) :
    (slicesOf data es).length = filesSize es ∧
      List.Forall₂ (Moved data (front ++ slicesOf data es ++ back)) es (relocate front.length es) := by
  induction es generalizing front with
  | nil => exact ⟨rfl, .nil⟩
  | cons e es ih =>
    have hin' : ∀ e ∈ es, e.kind = .file → e.dataOffset + e.size ≤ data.length :=
      fun e' he' => hin e' (List.mem_cons_of_mem _ he')
    unfold relocate
    rw [filesSize_cons]
    cases hk : e.kind with
    | file =>
      have hslices : slicesOf data (e :: es) = sliceOf data e ++ slicesOf data es := by simp [slicesOf, hk]
      have hlen : (sliceOf data e).length = e.size := by
        have := hin e List.mem_cons_self hk
        unfold sliceOf
        rw [List.length_take, List.length_drop]
        omega
      obtain ⟨hsize, hrest⟩ := ih hin' (front ++ sliceOf data e)
      rw [hslices, List.length_append, hlen, hsize]
      refine ⟨by simp, .cons ⟨by rw [hk], fun _ => ?_⟩ ?_⟩
      · change ((front ++ (sliceOf data e ++ slicesOf data es) ++ back).drop front.length).take e.size = sliceOf data e
        rw [List.append_assoc, List.append_assoc, List.drop_left, List.take_left' hlen]
      · rw [List.length_append, hlen] at hrest
        rw [← List.append_assoc]
        exact hrest
    | dir =>
      have hslices : slicesOf data (e :: es) = slicesOf data es := by simp [slicesOf, hk]
      obtain ⟨hsize, hrest⟩ := ih hin' front
      rw [hslices, hsize]
      refine ⟨by simp, .cons ⟨by rw [hk], fun hfile => ?_⟩ hrest⟩
      rw [hk] at hfile
      cases hfile

/-- Selecting segments of data in which the files lie one after the other gives the bytes of those that are kept. -/
theorem Laid.select (h : Laid offset es stop) (data : Bytes) (dropped : Entry → Bool) (early : Error) (res : Result Unit) :
    (stop ≤ data.length → PieceReader.selectLeft early (segmentsOf dropped es) (data.drop offset, res) =
      (slicesOf data (es.filter fun e => !dropped e), .ok ())) ∧
    (offset ≤ data.length → (PieceReader.selectLeft early (segmentsOf dropped es) (data.drop offset, res)).2 = .ok () →
      stop ≤ data.length) := by
  induction h with
  | nil offset => exact ⟨fun _ => rfl, fun hle _ => hle⟩
  | @file offset stop e es hkind hoffset htail ih =>
    have hsegments : segmentsOf dropped (e :: es) = (e.size, !dropped e) :: segmentsOf dropped es := by
      simp [segmentsOf, hkind]
    rw [hsegments]
    have hle := htail.le
    by_cases hin : e.size ≤ (data.drop offset).length
    · rw [PieceReader.selectLeft_of_le hin, List.drop_drop]
      dsimp only
      rw [List.length_drop] at hin
      constructor
      · intro hstop
        rw [ih.1 hstop, List.filter_cons]
        cases hd : dropped e with
        | true => simp
        | false => simp [slicesOf, hkind, sliceOf, hoffset]
      · intro hoff
        exact ih.2 (by omega)
    · rw [Nat.not_le] at hin
      rw [PieceReader.selectLeft_of_lt hin]
      rw [List.length_drop] at hin
      refine ⟨fun hstop => by omega, fun _ hok => ?_⟩
      cases res <;> cases hok
  | @dir offset stop e es hkind htail ih =>
    have hsegments : segmentsOf dropped (e :: es) = segmentsOf dropped es := by simp [segmentsOf, hkind]
    have hslices : slicesOf data ((e :: es).filter fun e => !dropped e) = slicesOf data (es.filter fun e => !dropped e) := by
      rw [List.filter_cons]
      cases hd : dropped e with
      | true => simp
      | false => simp [slicesOf, hkind]
    rw [hsegments, hslices]
    exact ih

/-! ### Containers with paths in normal form -/

/-- The paths are in normal form, distinct, and none is below a file. -/
structure PlainShape (es : List Entry) : Prop where
  normal : ∀ e ∈ es, normalizePath e.path = .ok e.path
  nodup : (es.map (·.path)).Nodup
  tree : ∀ e ∈ es, ∀ e' ∈ es, e.kind = .file → ¬ Below '/' e.path e'.path

/-- What a list of entries looks like to the reader when the paths are in normal form. -/
def sites (es : List Entry) : List (Str × EntryKind) := es.map fun e => (e.path, e.kind)

theorem normalizes_sites (h : ∀ e ∈ es, normalizePath e.path = .ok e.path) : List.Forall₂ Normalizes es (sites es) := by
  induction es with
  | nil => exact .nil
  | cons e es ih => exact .cons ⟨h e List.mem_cons_self, rfl⟩ (ih fun e' he' => h e' (List.mem_cons_of_mem _ he'))

private theorem sites_of_normalizes (h : ∀ e ∈ es, normalizePath e.path = .ok e.path) {shape : List (Str × EntryKind)}
    (hn : List.Forall₂ Normalizes es shape) : shape = sites es := by
  induction hn with
  | nil => rfl
  | @cons e x es shape hx _ ih =>
    have hpath : e.path = x.1 := Except.ok.inj ((h e List.mem_cons_self).symm.trans hx.1)
    rw [ih fun e' he' => h e' (List.mem_cons_of_mem _ he')]
    unfold sites
    rw [List.map_cons, hpath, ← hx.2]

/-- With paths in normal form, the reader accepts exactly the shape of a tree. -/
theorem shaped_iff (h : ∀ e ∈ es, normalizePath e.path = .ok e.path) : (∃ shape, Shaped es shape) ↔ PlainShape es := by
  constructor
  · rintro ⟨shape, hn, hnd, htree⟩
    obtain rfl := sites_of_normalizes h hn
    refine ⟨h, ?_, fun e he e' he' => ?_⟩
    · rwa [sites, List.map_map] at hnd
    · exact htree _ (List.mem_map_of_mem he) _ (List.mem_map_of_mem he')
  · rintro ⟨-, hnd, htree⟩
    refine ⟨sites es, normalizes_sites h, ?_, ?_⟩
    · rwa [sites, List.map_map]
    · intro x hx y hy
      obtain ⟨e, he, rfl⟩ := List.mem_map.1 hx
      obtain ⟨e', he', rfl⟩ := List.mem_map.1 hy
      exact htree e he e' he'

theorem PlainShape.filter (h : PlainShape es) (keep : Entry → Bool) : PlainShape (es.filter keep) :=
  ⟨fun e he => h.normal e (List.mem_of_mem_filter he), h.nodup.sublist (List.filter_sublist.map _),
    fun e he e' he' => h.tree e (List.mem_of_mem_filter he) e' (List.mem_of_mem_filter he')⟩

theorem PlainShape.of_sites {es' : List Entry} (h : PlainShape es) (hs : sites es' = sites es) : PlainShape es' := by
  have hmem : ∀ e' ∈ es', ∃ e ∈ es, e.path = e'.path ∧ e.kind = e'.kind := by
    intro e' he'
    have hx : (e'.path, e'.kind) ∈ sites es := hs ▸ List.mem_map_of_mem he'
    obtain ⟨e, he, heq⟩ := List.mem_map.1 hx
    rw [Prod.mk.injEq] at heq
    exact ⟨e, he, heq.1, heq.2⟩
  have hpaths : es'.map (·.path) = es.map (·.path) := by
    have := congrArg (List.map Prod.fst) hs
    rwa [sites, sites, List.map_map, List.map_map] at this
  refine ⟨fun e' he' => ?_, hpaths ▸ h.nodup, fun e' he' f' hf' hk => ?_⟩
  · obtain ⟨e, he, hpath, -⟩ := hmem e' he'
    rw [← hpath]
    exact h.normal e he
  · obtain ⟨e, he, hpath, hkind⟩ := hmem e' he'
    obtain ⟨f, hf, hpath', -⟩ := hmem f' hf'
    rw [← hpath, ← hpath']
    exact h.tree e he f hf (hkind.trans hk)

@[simp] theorem sites_cons (e : Entry) (es : List Entry) : sites (e :: es) = (e.path, e.kind) :: sites es := rfl

theorem sites_relocate (offset : Nat) (es : List Entry) : sites (relocate offset es) = sites es := by
  induction es generalizing offset with
  | nil => rfl
  | cons e es ih =>
    unfold relocate
    cases hk : e.kind with
    | file => rw [sites_cons, sites_cons, ih, hk]
    | dir => rw [sites_cons, sites_cons, ih, hk]

theorem length_relocate (offset : Nat) (es : List Entry) : (relocate offset es).length = es.length := by
  have := congrArg List.length (sites_relocate offset es)
  rwa [sites, sites, List.length_map, List.length_map] at this

/-! ### Reading what is held -/

variable {r : VaultReader} {file : Bytes}

/-- A file that the manifest lists reads as its slice of the data, if the hash is right. -/
theorem readEntryToWriter_eq (h : r.Holds C file data) (hl : Laid 0 r.manifest.entries data.length)
    (hmax : data.length ≤ u64Max) (hnd : (r.manifest.entries.map (·.path)).Nodup) {e : Entry} (he : e ∈ r.manifest.entries)
    (hk : e.kind = .file) (hnormal : normalizePath e.path = .ok e.path) :
    r.readEntryToWriter C file e.path =
      if P.hashContent (sliceOf data e) = e.blake3 then .ok (sliceOf data e) else .error .auth := by
  have hfind : r.fileEntry e.path = .ok e := by
    have hlookup : r.manifest.entries.find? (fun e' => e'.path = e.path) = some e :=
      (Keyed.lookup_eq_some_iff hnd).2 ⟨he, rfl⟩
    unfold VaultReader.fileEntry
    simp only [hnormal, hlookup, hk, bind, Except.bind, ne_eq, not_true_eq_false, if_false]
  unfold VaultReader.readEntryToWriter
  simp only [hfind, bind, Except.bind]
  exact decryptEntryToWriter_eq h (hl.bounds he hk).2 hmax

/-- The data section authenticates: its stream gives as many bytes as the manifest says. -/
def VaultReader.Intact (C : FsecPrims P) (r : VaultReader) (file : Bytes) : Prop :=
  ∃ stream, r.plaintextReader C file = .ok stream ∧ r.totalPlaintext ≤ (stream.left P.openBytes).1.length

/-- What an accepted container is: its files lie one after the other in what it holds, if its data authenticate. -/
structure Accepted (C : FsecPrims P) (r : VaultReader) (file : Bytes) : Prop where
  laid : Laid 0 r.manifest.entries r.totalPlaintext
  total_le : r.totalPlaintext ≤ u64Max
  count : r.manifest.entries.length ≤ maxManifestEntries
  shape : ∃ shape, Shaped r.manifest.entries shape
  fits : r.Fits file

theorem accepted_of_open {identity : Identity C} (h : openVaultFromPath C file identity = .ok r) : Accepted C r file := by
  obtain ⟨header, suite, cek, manifest, layout, hp, rfl⟩ := openVaultFromPath_eq_ok.1 h
  obtain ⟨-, hcount, hshape, hl, hnum, -, hle, -⟩ := validateManifestLayout_iff.1 hp.layout
  exact ⟨hl, le_trans (Nat.le_add_right _ _) hle, hcount, hshape, hp.fits⟩

/-! ### Writing -/

section Write

variable {manifest : Manifest} {total : Nat} {sender identity : Identity C} {recipients : List Peer.PublicIdentity}
  {options : ExportOptions} {draws : Draws} {out : Bytes} {R : ByteReader.{u}} {source : R.State}

/-- A container can be written when the source does not fail, the plan can be made and the stream takes the data. -/
theorem writeContainerFrom_ok_iff (hlen : (R.left source).2 = .ok () → (R.left source).1.length = total) :
    (∃ out, writeContainerFrom C manifest total source sender recipients options draws = .ok out) ↔
      (R.left source).2 = .ok () ∧ (∃ plan, ContainerPlan.new C manifest total sender recipients options draws = .ok plan) ∧
        options.chunkSize ≤ maxChunkSize ∧ numChunks total options.chunkSize ≤ u32Max + 1 := by
  unfold writeContainerFrom
  simp only [bind_eq_ok, writeFrom_ok_iff]
  constructor
  · rintro ⟨out, plan, hplan, hsure, hwrite⟩
    obtain ⟨header, hm⟩ := ContainerPlan.new_eq_ok hplan
    exact ⟨hsure, ⟨plan, hplan⟩, (ContainerPlan.write_ok_iff hm (hlen hsure)).1 ⟨out, hwrite⟩⟩
  · rintro ⟨hsure, ⟨plan, hplan⟩, hfits⟩
    obtain ⟨header, hm⟩ := ContainerPlan.new_eq_ok hplan
    obtain ⟨out, hwrite⟩ := (ContainerPlan.write_ok_iff hm (hlen hsure)).2 hfits
    exact ⟨out, plan, hplan, hsure, hwrite⟩

/-- A container that has been written is accepted again exactly when its manifest is within the limits and has the shape
of a tree; it holds what has been streamed into it. -/
theorem opens_iff (hopen : TagOnly P)
    (hwrite : writeContainerFrom C manifest total source sender recipients options draws = .ok out)
    (hl : Laid 0 manifest.entries total) (hlen : (R.left source).1.length = total) (hmem : IsRecipient recipients identity)
    (hcoll : NoCollision recipients identity) :
    ((∃ r, openVaultFromPath C out identity = .ok r) ↔ manifest.entries.length ≤ maxManifestEntries ∧
      (C.encodeManifest manifest).length + tagLen ≤ maxManifestLen ∧ numChunks total options.chunkSize ≤ u32Max ∧
        ∃ shape, Shaped manifest.entries shape) ∧
    ∀ r, openVaultFromPath C out identity = .ok r → r.manifest = manifest ∧ r.Holds C out (R.left source).1 := by
  obtain ⟨plan, hplan, hwrite⟩ := bind_eq_ok.1 hwrite
  obtain ⟨-, hwrite⟩ := writeFrom_ok_iff.1 hwrite
  obtain ⟨header, hm⟩ := ContainerPlan.new_eq_ok hplan
  obtain ⟨encData, trailer, hw⟩ := ContainerPlan.write_eq_ok hwrite
  have hchunk := hw.chunkSize_le
  rw [hm.chunkSize_eq] at hchunk
  have hlayout := layout_iff hl hm.chunkSize_ne hchunk
  rw [← hm.dataLen_eq] at hlayout
  have hlimit : plan.manifestLen ≤ maxManifestLen ↔ (C.encodeManifest manifest).length + tagLen ≤ maxManifestLen := by
    rw [hm.manifestLen_eq, hm.manifestPlaintext_eq]
  -- what is opened is what the plan was made of
  have hopens : ∀ r, openVaultFromPath C out identity = .ok r → plan.manifestLen ≤ maxManifestLen ∧
      ∃ layout, validateManifestLayout manifest options.chunkSize plan.dataLen = .ok layout ∧
        r = readerOf out header options.suite plan.cek manifest layout := by
    intro r hr
    obtain ⟨header', suite, cek, manifest', layout, hp, rfl⟩ := openVaultFromPath_eq_ok.1 hr
    obtain ⟨hmax, rfl, rfl, rfl, rfl, hlay⟩ := hw.of_parses hm hmem hcoll hp
    exact ⟨hmax, layout, hlay, rfl⟩
  constructor
  · constructor
    · rintro ⟨r, hr⟩
      obtain ⟨hmax, layout, hlay, -⟩ := hopens r hr
      obtain ⟨hcount, hchunks, hshape⟩ := hlayout.1 ⟨layout, hlay⟩
      exact ⟨hcount, hlimit.1 hmax, hchunks, hshape⟩
    · rintro ⟨hcount, hmax, hchunks, hshape⟩
      obtain ⟨layout, hlay⟩ := hlayout.2 ⟨hcount, hchunks, hshape⟩
      obtain ⟨hp, -⟩ := hw.parses hm (hlimit.2 hmax) hmem hcoll hlay
      exact ⟨_, openVaultFromPath_eq_ok.2 ⟨header, options.suite, plan.cek, manifest, layout, hp, rfl⟩⟩
  · intro r hr
    obtain ⟨hmax, layout, hlay, rfl⟩ := hopens r hr
    obtain ⟨hp, -⟩ := hw.parses hm hmax hmem hcoll hlay
    refine ⟨rfl, hw.holds hopen hm hmax hp ?_⟩
    rw [layout_eq hl hlay]
    exact hlen

end Write

/-! ### The old data, cut to segments -/

/-- The files that stay give their bytes, and the reader fails exactly when the old data do not authenticate. -/
private theorem selectReader_left (hopen : TagOnly P) (h : Accepted C r file) {disk : Disk}
    {s : (StreamDecryptReaderOn.pieces P disk.sure).State} (hs : r.plaintextReaderOn C disk file = .ok s)
    (dropped : Entry → Bool) :
    ((selectReader ⟨_, s⟩ (segmentsOf dropped r.manifest.entries)).left.2 = .ok () ↔ r.Intact C file) ∧
      (r.Intact C file → ∃ data, r.Holds C file data ∧
        (selectReader ⟨_, s⟩ (segmentsOf dropped r.manifest.entries)).left =
          (slicesOf data (r.manifest.entries.filter fun e => !dropped e), .ok ())) := by
  obtain ⟨stream, hstream, hleft⟩ := plaintextReaderOn_left hs
  obtain ⟨hall, hless⟩ := h.laid.select (stream.left P.openBytes).1 dropped
    (.io "source stream ended early".toList) (readError (stream.left P.openBytes).2)
  have hselect : (selectReader ⟨_, s⟩ (segmentsOf dropped r.manifest.entries)).left =
      PieceReader.selectLeft (.io "source stream ended early".toList) (segmentsOf dropped r.manifest.entries)
        ((stream.left P.openBytes).1.drop 0, readError (stream.left P.openBytes).2) := by
    change PieceReader.selectLeft (.io "source stream ended early".toList)
      ((0, false) :: segmentsOf dropped r.manifest.entries) ((StreamDecryptReaderOn.pieces P disk.sure).left s) = _
    rw [PieceReader.selectLeft_of_le (Nat.zero_le _), hleft]
    rfl
  have hintact : r.Intact C file ↔ r.totalPlaintext ≤ (stream.left P.openBytes).1.length := by
    constructor
    · rintro ⟨stream', hstream', hlen⟩
      rw [hstream, Except.ok.injEq] at hstream'
      rwa [hstream']
    · exact fun hlen => ⟨stream, hstream, hlen⟩
  rw [hselect, hintact]
  refine ⟨⟨hless (Nat.zero_le _), fun hlen => by rw [hall hlen]⟩, fun hlen => ⟨_, ?_, hall hlen⟩⟩
  exact holds_of_stream hopen h.fits hstream hlen

/-- A file that has been moved reads as before. -/
private theorem readEntryToWriter_moved {r' : VaultReader} {file' data' : Bytes} (h : r.Holds C file data)
    (hl : Laid 0 r.manifest.entries data.length) (hmax : data.length ≤ u64Max) (hshape : PlainShape r.manifest.entries)
    (h' : r'.Holds C file' data') (hl' : Laid 0 r'.manifest.entries data'.length) (hmax' : data'.length ≤ u64Max)
    (hshape' : PlainShape r'.manifest.entries) {e e' : Entry} (he : e ∈ r.manifest.entries) (he' : e' ∈ r'.manifest.entries)
    (hmoved : Moved data data' e e') (hk : e.kind = .file) :
    r'.readEntryToWriter C file' e'.path = r.readEntryToWriter C file e.path := by
  obtain ⟨hsame, hslice⟩ := hmoved
  have hpath : e'.path = e.path := by rw [hsame]
  have hkind : e'.kind = .file := by
    rw [hsame]
    exact hk
  have hhash : e'.blake3 = e.blake3 := by rw [hsame]
  rw [readEntryToWriter_eq h' hl' hmax' hshape'.nodup he' hkind (hshape'.normal e' he'),
    readEntryToWriter_eq h hl hmax hshape.nodup he hk (hshape.normal e he), hslice hk, hhash]

/-! ### What is written -/

/-- The container opens for the identity with this manifest, and each file in it reads as `content` says. -/
def ReadsAs (C : FsecPrims P) (out : Bytes) (identity : Identity C) (manifest : Manifest) (content : Str → Result Bytes) :
    Prop :=
  ∃ r, openVaultFromPath C out identity = .ok r ∧ r.manifest = manifest ∧
    ∀ e ∈ manifest.entries, e.kind = .file → r.readEntryToWriter C out e.path = content e.path

/-- Rewriting returns exactly when the request is valid, the old data authenticate, the plan can be made and the stream
takes the data; and what it returns, within the limits of the format, opens with this manifest and these contents. -/
structure Rewrites (C : FsecPrims P) (r : VaultReader) (file : Bytes) (sender : Identity C)
    (recipients : List Peer.PublicIdentity) (options : ExportOptions) (draws : Draws) (identity : Identity C)
    (valid : Prop) (manifest : Manifest) (content : Str → Result Bytes) (result : Result Bytes) : Prop where
  returns : (∃ out, result = .ok out) ↔ valid ∧ r.Intact C file ∧
    (∃ plan, ContainerPlan.new C manifest (filesSize manifest.entries) sender recipients options draws = .ok plan) ∧
      options.chunkSize ≤ maxChunkSize ∧ numChunks (filesSize manifest.entries) options.chunkSize ≤ u32Max + 1
  reads : ∀ out, result = .ok out → (C.encodeManifest manifest).length + tagLen ≤ maxManifestLen →
    numChunks (filesSize manifest.entries) options.chunkSize ≤ u32Max → ReadsAs C out identity manifest content

/-- One of the paths names the path or something above it, at a component boundary. -/
def Named (remove : List Str) (path : Str) : Prop := ∃ p ∈ remove, ∃ norm, normalizePath p = .ok norm ∧ AtOrBelow '/' norm path

private theorem isRemoved_iff {remove : List Str} {matchers : List (Str × Str)} (h : removeMatchers remove = .ok matchers)
    (path : Str) : isRemoved matchers path = true ↔ Named remove path := by
  induction remove generalizing matchers with
  | nil =>
    obtain rfl := Except.ok.inj h
    simp [isRemoved, Named]
  | cons p remove ih =>
    obtain ⟨norm, hnorm, h⟩ := bind_eq_ok.1 h
    obtain ⟨rest, hrest, h⟩ := bind_eq_ok.1 h
    obtain rfl := Except.ok.inj h
    have hcons : isRemoved ((norm, norm ++ ['/']) :: rest) path = true ↔
        (path = norm ∨ norm ++ ['/'] <+: path) ∨ isRemoved rest path = true := by
      simp [isRemoved, List.isPrefixOf_iff_prefix]
    rw [hcons, ih hrest]
    constructor
    · rintro (hp | ⟨q, hq, n, hn, hat⟩)
      · exact ⟨p, List.mem_cons_self, norm, hnorm, hp⟩
      · exact ⟨q, List.mem_cons_of_mem _ hq, n, hn, hat⟩
    · rintro ⟨q, hq, n, hn, hat⟩
      rcases List.mem_cons.1 hq with rfl | hq
      · rw [hnorm, Except.ok.injEq] at hn
        exact Or.inl (hn ▸ hat)
      · exact Or.inr ⟨q, hq, n, hn, hat⟩

private theorem removeMatchers_ok_iff {remove : List Str} :
    (∃ matchers, removeMatchers remove = .ok matchers) ↔ ∀ p ∈ remove, ∃ norm, normalizePath p = .ok norm := by
  induction remove with
  | nil => simp [removeMatchers]
  | cons p remove ih =>
    simp only [removeMatchers, bind_eq_ok, Except.ok.injEq, List.forall_mem_cons, ← ih]
    constructor
    · rintro ⟨matchers, norm, hnorm, rest, hrest, -⟩
      exact ⟨⟨norm, hnorm⟩, rest, hrest⟩
    · rintro ⟨⟨norm, hnorm⟩, rest, hrest⟩
      exact ⟨_, norm, hnorm, rest, hrest, rfl⟩

instance (remove : List Str) (path : Str) : Decidable (Named remove path) :=
  decidable_of_iff (remove.any fun p => match normalizePath p with
    | .ok norm => path = norm || (norm ++ ['/']).isPrefixOf path
    | .error _ => false) (by
    simp only [List.any_eq_true, Named]
    refine exists_congr fun p => and_congr_right fun _ => ?_
    cases normalizePath p with
    | error e => simp
    | ok norm => simp [AtOrBelow, Below, List.isPrefixOf_iff_prefix])

/-- The manifest without the entries at or below the named paths. -/
def Manifest.without (m : Manifest) (remove : List Str) : Manifest :=
  ⟨m.vaultName, m.createdAt, relocate 0 (m.entries.filter fun e => ¬ Named remove e.path)⟩

/-- The manifest with another file for the one at the target, at the end. -/
def Manifest.replaced (P : Prims) (m : Manifest) (target : Str) (bytes : Bytes) (mtime : Option Int) (mode : Option Nat) :
    Manifest :=
  ⟨m.vaultName, m.createdAt, relocate 0 ((m.entries.filter fun e => e.path ≠ target) ++
    [⟨target, .file, bytes.length, mtime, mode, P.hashContent bytes, 0⟩])⟩

section Rewrites

variable {sender identity : Identity C} {recipients : List Peer.PublicIdentity} {options : ExportOptions} {draws : Draws}

@[simp] theorem filesSize_relocate (offset : Nat) (es : List Entry) : filesSize (relocate offset es) = filesSize es :=
  Nat.add_left_cancel (laid_relocate offset es).size_eq

theorem relocate_append (offset : Nat) (es es' : List Entry) :
    relocate offset (es ++ es') = relocate offset es ++ relocate (offset + filesSize es) es' := by
  induction es generalizing offset with
  | nil => rfl
  | cons e es ih =>
    cases hk : e.kind with
    | file => simp only [List.cons_append, relocate, hk, ih, filesSize_cons, if_true, Nat.add_assoc]
    | dir => simp only [List.cons_append, relocate, hk, ih, filesSize_cons, reduceCtorEq, if_false, Nat.zero_add]

/-- The files that stay, in the data that are written. -/
private theorem Accepted.moved (h : Accepted C r file) (hd : r.Holds C file data) (keep : Entry → Bool) (back : Bytes) :
    (slicesOf data (r.manifest.entries.filter keep)).length = filesSize (r.manifest.entries.filter keep) ∧
      List.Forall₂ (Moved data (slicesOf data (r.manifest.entries.filter keep) ++ back))
        (r.manifest.entries.filter keep) (relocate 0 (r.manifest.entries.filter keep)) := by
  have hin : ∀ e ∈ r.manifest.entries.filter keep, e.kind = .file → e.dataOffset + e.size ≤ data.length := by
    intro e he hk
    rw [hd.length]
    exact (h.laid.bounds (List.mem_of_mem_filter he) hk).2
  exact relocate_moved hin [] back

/-- The files that stay are no larger than all of them. -/
private theorem Accepted.kept_le (h : Accepted C r file) (keep : Entry → Bool) :
    filesSize (r.manifest.entries.filter keep) ≤ r.totalPlaintext := by
  have hsize := h.laid.size_eq
  have hle := filesSize_filter_le keep r.manifest.entries
  omega

/-- Writing the files that stay, and others after them. -/
private theorem rewrites_of (hopen : TagOnly P) (ha : Accepted C r file) (hplain : PlainShape r.manifest.entries)
    (hmem : IsRecipient recipients identity) (hcoll : NoCollision recipients identity) {manifest : Manifest}
    {content : Str → Result Bytes} {valid : Prop} {result : Result Bytes} {disk : Disk} (keep : Entry → Bool)
    (added : List Entry) (tail : Bytes) (R : ByteReader.{u})
    (source : (StreamDecryptReaderOn.pieces P disk.sure).State → R.State)
    (hentries : manifest.entries = relocate 0 (r.manifest.entries.filter keep ++ added))
    (htail : tail.length = filesSize added)
    (hless : ∀ out, result = .ok out → filesSize manifest.entries ≤ u64Max)
    (hresult : filesSize manifest.entries ≤ u64Max → ∀ out, result = .ok out ↔ valid ∧ ∃ s,
      r.plaintextReaderOn C disk file = .ok s ∧
        writeContainerFrom C manifest (filesSize manifest.entries) (source s) sender recipients options draws = .ok out)
    (hsource : valid → ∀ s, r.plaintextReaderOn C disk file = .ok s → ((R.left (source s)).2 = .ok () ↔ r.Intact C file) ∧
      (r.Intact C file → ∃ data, r.Holds C file data ∧
        R.left (source s) = (slicesOf data (r.manifest.entries.filter keep) ++ tail, .ok ())))
    (hshape : valid → PlainShape (r.manifest.entries.filter keep ++ added))
    (hcount : valid → (r.manifest.entries.filter keep ++ added).length ≤ maxManifestEntries)
    (hold : ∀ e ∈ r.manifest.entries.filter keep, e.kind = .file → content e.path = r.readEntryToWriter C file e.path)
    (hnew : ∀ e ∈ relocate (filesSize (r.manifest.entries.filter keep)) added, e.kind = .file → ∀ front : Bytes,
      front.length = filesSize (r.manifest.entries.filter keep) →
        content e.path = .ok (sliceOf (front ++ tail) e) ∧ P.hashContent (sliceOf (front ++ tail) e) = e.blake3) :
    Rewrites C r file sender recipients options draws identity valid manifest content result := by
  have hsize : filesSize manifest.entries = filesSize (r.manifest.entries.filter keep) + filesSize added := by
    rw [hentries, filesSize_relocate]
    simp [filesSize]
  -- what the source gives is as long as the manifest says
  have hlen : valid → ∀ s, r.plaintextReaderOn C disk file = .ok s → (R.left (source s)).2 = .ok () →
      (R.left (source s)).1.length = filesSize manifest.entries := by
    intro hv s hs hok
    obtain ⟨hiff, hall⟩ := hsource hv s hs
    obtain ⟨data, hd, heq⟩ := hall (hiff.1 hok)
    rw [heq, List.length_append, (ha.moved hd keep tail).1, htail, hsize]
  constructor
  · constructor
    · rintro ⟨out, h⟩
      obtain ⟨hv, s, hs, hwrite⟩ := (hresult (hless out h) out).1 h
      obtain ⟨hok, hfits⟩ := (writeContainerFrom_ok_iff (hlen hv s hs)).1 ⟨out, hwrite⟩
      exact ⟨hv, (hsource hv s hs).1.1 hok, hfits⟩
    · rintro ⟨hv, hintact, hfits⟩
      obtain ⟨stream, hstream, -⟩ := id hintact
      obtain ⟨s, hs⟩ := plaintextReaderOn_ok disk hstream
      have hok := (hsource hv s hs).1.2 hintact
      obtain ⟨out, hwrite⟩ := (writeContainerFrom_ok_iff (hlen hv s hs)).2 ⟨hok, hfits⟩
      obtain ⟨⟨plan, hplan⟩, hle, hchunks⟩ := hfits
      obtain ⟨header, hm⟩ := ContainerPlan.new_eq_ok hplan
      have hmax : filesSize manifest.entries ≤ u64Max := by
        have h1 := le_numChunks_mul (filesSize manifest.entries) (Nat.pos_of_ne_zero hm.chunkSize_ne)
        have h2 := Nat.mul_le_mul hchunks hle
        have hbound : (u32Max + 1) * maxChunkSize ≤ u64Max := by decide
        omega
      exact ⟨out, (hresult hmax out).2 ⟨hv, s, hs, hwrite⟩⟩
  · intro out h hman hchunks
    obtain ⟨hv, s, hs, hwrite⟩ := (hresult (hless out h) out).1 h
    obtain ⟨hok, -⟩ := (writeContainerFrom_ok_iff (hlen hv s hs)).1 ⟨out, hwrite⟩
    obtain ⟨hiff, hall⟩ := hsource hv s hs
    obtain ⟨data, hd, heq⟩ := hall (hiff.1 hok)
    have hshape' : PlainShape manifest.entries := by
      rw [hentries]
      exact (hshape hv).of_sites (sites_relocate _ _)
    have hcount' : manifest.entries.length ≤ maxManifestEntries := by
      rw [hentries, length_relocate]
      exact hcount hv
    have hl : Laid 0 manifest.entries (filesSize manifest.entries) := by
      rw [hentries, filesSize_relocate]
      have := laid_relocate 0 (r.manifest.entries.filter keep ++ added)
      rwa [Nat.zero_add] at this
    obtain ⟨hopens, hreads⟩ := opens_iff hopen hwrite hl (hlen hv s hs hok) hmem hcoll
    obtain ⟨r', hr'⟩ := hopens.2 ⟨hcount', hman, hchunks, (shaped_iff hshape'.normal).2 hshape'⟩
    obtain ⟨hman', hd'⟩ := hreads r' hr'
    refine ⟨r', hr', hman', fun e he hk => ?_⟩
    have ha' := accepted_of_open hr'
    have hl' : Laid 0 r'.manifest.entries (R.left (source s)).1.length := by
      rw [hlen hv s hs hok, hman']
      exact hl
    have hmax' : (R.left (source s)).1.length ≤ u64Max := by
      rw [hd'.length]
      exact ha'.total_le
    rw [← hman'] at he hshape'
    have he' := he
    rw [hman', hentries, relocate_append, Nat.zero_add] at he'
    obtain ⟨hfront, hmoved⟩ := ha.moved hd keep tail
    rcases List.mem_append.1 he' with he' | he'
    · -- a file that stays
      obtain ⟨e₀, he₀, hm⟩ := Keyed.exists_of_forall₂ hmoved he'
      have hk₀ : e₀.kind = .file := by
        rw [hm.1] at hk
        exact hk
      have hpath : e.path = e₀.path := by rw [hm.1]
      have hdata : (R.left (source s)).1 = slicesOf data (r.manifest.entries.filter keep) ++ tail := by rw [heq]
      rw [← hdata] at hm
      have hl₀ : Laid 0 r.manifest.entries data.length := hd.length ▸ ha.laid
      have hmax₀ : data.length ≤ u64Max := hd.length ▸ ha.total_le
      rw [readEntryToWriter_moved hd hl₀ hmax₀ hplain hd' hl' hmax' hshape' (List.mem_of_mem_filter he₀) he hm hk₀, hpath,
        hold e₀ he₀ hk₀]
    · -- a file that comes after them
      obtain ⟨hcontent, hhash⟩ := hnew e he' hk _ hfront
      rw [readEntryToWriter_eq hd' hl' hmax' hshape'.nodup he hk (hshape'.normal e he), heq, if_pos hhash, hcontent]

/-- The reader of the files that stay. -/
private def selecting (P : Prims) (disk : Disk) : ByteReader.{0} :=
  (StreamDecryptReaderOn.pieces P disk.sure).select (.io "source stream ended early".toList)
    defaultChunkSize_pos

/-- Removing paths leaves exactly the entries that are neither named nor below a named one. -/
theorem removePaths_rewrites (hopen : TagOnly P) {owner : Identity C} (haccept : openVaultFromPath C file owner = .ok r)
    (hnormal : ∀ e ∈ r.manifest.entries, normalizePath e.path = .ok e.path) (disk : Disk)
    (hmem : IsRecipient recipients identity) (hcoll : NoCollision recipients identity) (remove : List Str) :
    Rewrites C r file sender recipients options draws identity (∀ p ∈ remove, ∃ norm, normalizePath p = .ok norm)
      (r.manifest.without remove) (r.readEntryToWriter C file)
      (r.removePaths C disk file sender recipients options draws remove) := by
  have ha := accepted_of_open haccept
  have hplain := (shaped_iff hnormal).1 ha.shape
  have hkept_le := ha.kept_le fun e => ¬ Named remove e.path
  have htotal := ha.total_le
  cases hm : removeMatchers remove with
  | error err =>
    have hinvalid : ¬ ∀ p ∈ remove, ∃ norm, normalizePath p = .ok norm := by
      intro hall
      obtain ⟨matchers, hok⟩ := removeMatchers_ok_iff.2 hall
      rw [hm] at hok
      cases hok
    have hresult : r.removePaths C disk file sender recipients options draws remove = .error err := by
      unfold VaultReader.removePaths
      simp only [hm, bind, Except.bind]
    rw [hresult]
    exact ⟨⟨fun ⟨out, h⟩ => (by cases h), fun h => absurd h.1 hinvalid⟩, fun out h => (by cases h)⟩
  | ok matchers =>
    have hvalid : ∀ p ∈ remove, ∃ norm, normalizePath p = .ok norm := removeMatchers_ok_iff.1 ⟨matchers, hm⟩
    -- the loop over the entries does what the manifest says
    have hkeep : (r.manifest.entries.filter fun e => !isRemoved matchers e.path) =
        (r.manifest.entries.filter fun e => ¬ Named remove e.path) := by
      refine List.filter_congr fun e _ => ?_
      rw [Bool.eq_iff_iff, Bool.not_eq_true', Bool.eq_false_iff, Ne, isRemoved_iff hm, decide_eq_true_iff]
    have hloop : keepEntries (fun e => isRemoved matchers e.path) r.manifest.entries 0 =
        .ok ((r.manifest.without remove).entries, segmentsOf (fun e => isRemoved matchers e.path) r.manifest.entries,
          filesSize (r.manifest.without remove).entries) := by
      rw [keepEntries_eq (by rw [hkeep]; omega), hkeep, Nat.zero_add]
      simp only [Manifest.without, filesSize_relocate]
    refine rewrites_of hopen ha hplain hmem hcoll (fun e => ¬ Named remove e.path) [] [] (selecting P disk)
      (fun s => (selectReader ⟨_, s⟩ (segmentsOf (fun e => isRemoved matchers e.path) r.manifest.entries)).state)
      ?_ rfl (fun _ _ => ?_) ?_ ?_ ?_ ?_ ?_ ?_
    · rw [List.append_nil]
      rfl
    · rw [Manifest.without, filesSize_relocate]
      omega
    · intro _ out
      unfold VaultReader.removePaths
      simp only [bind_eq_ok, hm, hloop, Except.ok.injEq, exists_eq_left']
      exact ⟨fun h => ⟨hvalid, h⟩, fun h => h.2⟩
    · intro _ s hs
      obtain ⟨hiff, hall⟩ := selectReader_left hopen ha hs fun e => isRemoved matchers e.path
      rw [hkeep] at hall
      refine ⟨hiff, fun hintact => ?_⟩
      obtain ⟨data, hd, hleft⟩ := hall hintact
      exact ⟨data, hd, by rw [List.append_nil]; exact hleft⟩
    · intro _
      rw [List.append_nil]
      exact hplain.filter _
    · intro _
      rw [List.append_nil]
      exact le_trans (List.length_filter_le _ _) ha.count
    · exact fun e _ _ => rfl
    · exact fun e he => absurd he List.not_mem_nil

/-- Replacing a file leaves all other entries, and the new file in place of the old one. -/
theorem replaceFile_rewrites (hopen : TagOnly P) {owner : Identity C} (haccept : openVaultFromPath C file owner = .ok r)
    (hnormal : ∀ e ∈ r.manifest.entries, normalizePath e.path = .ok e.path) (disk : Disk)
    (hmem : IsRecipient recipients identity) (hcoll : NoCollision recipients identity) {path target : Str}
    (htarget : normalizePath path = .ok target) {newSource : SourceFile} {bytes : Bytes} (hgives : newSource.Gives bytes)
    (mtime : Option Int) (mode : Option Nat) :
    Rewrites C r file sender recipients options draws identity (∃ e ∈ r.manifest.entries, e.path = target ∧ e.kind = .file)
      (r.manifest.replaced P target bytes mtime mode)
      (fun p => if p = target then .ok bytes else r.readEntryToWriter C file p)
      (r.replaceFile C disk file sender recipients options draws path newSource mtime mode) := by
  obtain ⟨hhashed, hstreamed⟩ := hgives
  have ha := accepted_of_open haccept
  have hplain := (shaped_iff hnormal).1 ha.shape
  have hkept_le := ha.kept_le fun e => e.path ≠ target
  have htotal := ha.total_le
  -- among the entries, the path alone tells the file
  have hkeep : (∃ e ∈ r.manifest.entries, e.path = target ∧ e.kind = .file) →
      (r.manifest.entries.filter fun e => !(e.kind = .file && e.path = target)) =
        (r.manifest.entries.filter fun e => e.path ≠ target) := by
    rintro ⟨e₀, he₀, hpath₀, hk₀⟩
    refine List.filter_congr fun e he => ?_
    rw [Bool.eq_iff_iff]
    simp only [Bool.not_eq_true', Bool.and_eq_false_iff, decide_eq_false_iff_not, decide_eq_true_eq, ne_eq]
    constructor
    · rintro (hk | hpath)
      · rintro rfl
        have := List.inj_on_of_nodup_map hplain.nodup he he₀ hpath₀.symm
        exact hk (this ▸ hk₀)
      · exact hpath
    · exact Or.inr
  have hloop : (∃ e ∈ r.manifest.entries, e.path = target ∧ e.kind = .file) →
      keepEntries (fun e => e.kind = .file && e.path = target) r.manifest.entries 0 =
        .ok (relocate 0 (r.manifest.entries.filter fun e => e.path ≠ target),
          segmentsOf (fun e => e.kind = .file && e.path = target) r.manifest.entries,
          filesSize (r.manifest.entries.filter fun e => e.path ≠ target)) := by
    intro hv
    rw [keepEntries_eq (by rw [hkeep hv]; omega), hkeep hv, Nat.zero_add]
  have hexists : (r.manifest.entries.any fun e => e.path = target && e.kind = .file) = true ↔
      ∃ e ∈ r.manifest.entries, e.path = target ∧ e.kind = .file := by simp
  have hsize : filesSize (r.manifest.replaced P target bytes mtime mode).entries =
      filesSize (r.manifest.entries.filter fun e => e.path ≠ target) + bytes.length := by
    rw [Manifest.replaced, filesSize_relocate]
    simp [filesSize]
  have hentries : (r.manifest.replaced P target bytes mtime mode).entries =
      relocate 0 (r.manifest.entries.filter fun e => e.path ≠ target) ++
        [⟨target, .file, bytes.length, mtime, mode, P.hashContent bytes,
          filesSize (r.manifest.entries.filter fun e => e.path ≠ target)⟩] := by
    rw [Manifest.replaced, relocate_append, Nat.zero_add]
    rfl
  have hresult : ∀ out, r.replaceFile C disk file sender recipients options draws path newSource mtime mode = .ok out ↔
      (∃ e ∈ r.manifest.entries, e.path = target ∧ e.kind = .file) ∧
        filesSize (r.manifest.entries.filter fun e => e.path ≠ target) + bytes.length ≤ u64Max ∧
        ∃ s : (StreamDecryptReaderOn.pieces P disk.sure).State, r.plaintextReaderOn C disk file = .ok s ∧
          writeContainerFrom C (r.manifest.replaced P target bytes mtime mode)
            (filesSize (r.manifest.replaced P target bytes mtime mode).entries) (R := PieceSource.chain Error UInt8)
            [selectReader ⟨_, s⟩ (segmentsOf (fun e => e.kind = .file && e.path = target) r.manifest.entries),
              newSource.streamed] sender recipients options draws = .ok out := by
    intro out
    have hmanifest : r.manifest.replaced P target bytes mtime mode =
        ⟨r.manifest.vaultName, r.manifest.createdAt, (r.manifest.replaced P target bytes mtime mode).entries⟩ := rfl
    unfold VaultReader.replaceFile
    rw [hsize, hmanifest, hentries]
    simp only [bind_eq_ok, refuseIf_eq_ok, hashFile_eq_ok, htarget, hhashed, exists_const, Except.ok.injEq, exists_eq_left',
      true_and, not_lt, gt_iff_lt, Bool.not_eq_false, hexists]
    constructor
    · rintro ⟨hv, res, ⟨hlen, rfl⟩, loop, hkept, hmax, h⟩
      rw [hloop hv, Except.ok.injEq] at hkept
      subst hkept
      exact ⟨hv, hmax, h⟩
    · rintro ⟨hv, hmax, h⟩
      exact ⟨hv, _, ⟨by omega, rfl⟩, _, hloop hv, hmax, h⟩
  refine rewrites_of hopen ha hplain hmem hcoll (fun e => e.path ≠ target)
    [⟨target, .file, bytes.length, mtime, mode, P.hashContent bytes, 0⟩] bytes (PieceSource.chain Error UInt8)
    (fun s : (StreamDecryptReaderOn.pieces P disk.sure).State =>
      [selectReader ⟨_, s⟩ (segmentsOf (fun e => e.kind = .file && e.path = target) r.manifest.entries),
        newSource.streamed]) rfl (by simp [filesSize]) ?_ ?_ ?_ ?_ ?_ ?_ ?_
  · intro out h
    rw [hsize]
    exact ((hresult out).1 h).2.1
  · intro hmax out
    rw [hsize] at hmax
    rw [hresult]
    exact ⟨fun h => ⟨h.1, h.2.2⟩, fun h => ⟨h.1, hmax, h.2⟩⟩
  · intro hv s hs
    obtain ⟨hiff, hall⟩ := selectReader_left hopen ha hs fun e => e.kind = .file && e.path = target
    rw [hkeep hv] at hall
    have hsure : newSource.streamed.left.2 = .ok () := by rw [hstreamed]
    refine ⟨?_, fun hintact => ?_⟩
    · rw [← hiff]
      constructor
      · exact fun hok => PieceSource.of_chainLeft_ok hok _ List.mem_cons_self
      · intro hok
        refine congrArg Prod.snd (PieceSource.chainLeft_of_ok fun src hsrc => ?_)
        rcases List.mem_cons.1 hsrc with rfl | hsrc
        · exact hok
        · rw [List.mem_singleton.1 hsrc]
          exact hsure
    · obtain ⟨data, hd, hleft⟩ := hall hintact
      refine ⟨data, hd, (PieceSource.chainLeft_of_ok fun src hsrc => ?_).trans ?_⟩
      · rcases List.mem_cons.1 hsrc with rfl | hsrc
        · rw [hleft]
        · rw [List.mem_singleton.1 hsrc]
          exact hsure
      · rw [List.flatMap_cons, List.flatMap_singleton, hleft, hstreamed]
  · rintro ⟨e₀, he₀, hpath₀, hk₀⟩
    -- each entry stands where one has stood
    have hwas : ∀ e ∈ (r.manifest.entries.filter fun e => e.path ≠ target) ++
        [⟨target, .file, bytes.length, mtime, mode, P.hashContent bytes, 0⟩],
        ∃ e' ∈ r.manifest.entries, e'.path = e.path ∧ e'.kind = e.kind := by
      intro e he
      rcases List.mem_append.1 he with he | he
      · exact ⟨e, List.mem_of_mem_filter he, rfl, rfl⟩
      · rw [List.mem_singleton.1 he]
        exact ⟨e₀, he₀, hpath₀, hk₀⟩
    refine ⟨fun e he => ?_, ?_, fun e he f hf hk => ?_⟩
    · obtain ⟨e', he', hpath, -⟩ := hwas e he
      rw [← hpath]
      exact hnormal e' he'
    · rw [List.map_append, List.map_singleton, List.nodup_append]
      refine ⟨(hplain.filter _).nodup, List.nodup_singleton _, fun p hp q hq => ?_⟩
      obtain ⟨e, he, rfl⟩ := List.mem_map.1 hp
      rw [List.mem_singleton.1 hq]
      simpa using (List.mem_filter.1 he).2
    · obtain ⟨e', he', hpath, hkind⟩ := hwas e he
      obtain ⟨f', hf', hpath', -⟩ := hwas f hf
      rw [← hpath, ← hpath']
      exact hplain.tree e' he' f' hf' (hkind.trans hk)
  · rintro ⟨e₀, he₀, hpath₀, hk₀⟩
    have hlt : (r.manifest.entries.filter fun e => e.path ≠ target).length < r.manifest.entries.length :=
      List.length_filter_lt_length_iff_exists.2 ⟨e₀, he₀, by simpa using hpath₀⟩
    have hcount := ha.count
    rw [List.length_append, List.length_singleton]
    omega
  · intro e he _
    have hpath : e.path ≠ target := by simpa using (List.mem_filter.1 he).2
    exact if_neg hpath
  · intro e he hk front hfront
    obtain rfl := List.mem_singleton.1 he
    have hslice : sliceOf (front ++ bytes) ⟨target, .file, bytes.length, mtime, mode, P.hashContent bytes,
        filesSize (r.manifest.entries.filter fun e => e.path ≠ target)⟩ = bytes := by
      unfold sliceOf
      rw [← hfront, List.drop_left, List.take_length]
    exact ⟨by rw [hslice]; exact if_pos rfl, by rw [hslice]⟩

/-- From every container that the reader accepts, with its paths in normal form, `remove_paths` and `replace_file` write
what they should and nothing else, in whatever pieces the old container and the new file are read. -/
theorem rewrites_exactly (hopen : TagOnly P) {owner : Identity C} (haccept : openVaultFromPath C file owner = .ok r)
    (hnormal : ∀ e ∈ r.manifest.entries, normalizePath e.path = .ok e.path) (disk : Disk) (sender : Identity C)
    (hmem : IsRecipient recipients identity) (hcoll : NoCollision recipients identity) (options : ExportOptions)
    (draws : Draws) :
    (∀ remove, Rewrites C r file sender recipients options draws identity (∀ p ∈ remove, ∃ norm, normalizePath p = .ok norm)
      (r.manifest.without remove) (r.readEntryToWriter C file)
      (r.removePaths C disk file sender recipients options draws remove)) ∧
    ∀ path target newSource bytes mtime mode, normalizePath path = .ok target → newSource.Gives bytes →
      Rewrites C r file sender recipients options draws identity
        (∃ e ∈ r.manifest.entries, e.path = target ∧ e.kind = .file) (r.manifest.replaced P target bytes mtime mode)
        (fun p => if p = target then .ok bytes else r.readEntryToWriter C file p)
        (r.replaceFile C disk file sender recipients options draws path newSource mtime mode) :=
  ⟨fun remove => removePaths_rewrites hopen haccept hnormal disk hmem hcoll remove,
    fun _ _ _ _ mtime mode htarget hgives =>
      replaceFile_rewrites hopen haccept hnormal disk hmem hcoll htarget hgives mtime mode⟩

end Rewrites

/-! ### A container that is rewritten -/

namespace Sym

/-- A container with a directory and a file of three bytes in it, in chunks of two. -/
def noted : Bytes :=
  (exportVault container (Vault.build "v".toList 0 notes) alice [alice.publicPart] ⟨.classic, 2⟩ draws).toOption.get
    exportNotes_ok

private theorem noted_ok : (openVaultFromPath container noted alice).toOption.isSome = true := by decide +kernel

/-- Its reader. -/
def notedReader : VaultReader := (openVaultFromPath container noted alice).toOption.get noted_ok

theorem open_noted : openVaultFromPath container noted alice = .ok notedReader := eq_ok_get noted_ok

/-- A disk that gives its bytes one at a time at first. -/
def disk : Disk where
  reader := .ofPieces Error UInt8
  openAt bytes := (bytes, [1, 1, 1])
  left_openAt _ := rfl
  sure _ := rfl

end Sym

theorem rewrites_exactly_noted :
    (∀ remove, Rewrites Sym.container Sym.notedReader Sym.noted Sym.alice [Sym.alice.publicPart] ⟨.classic, 1⟩ Sym.draws
      Sym.alice (∀ p ∈ remove, ∃ norm, normalizePath p = .ok norm) (Sym.notedReader.manifest.without remove)
      (Sym.notedReader.readEntryToWriter Sym.container Sym.noted)
      (Sym.notedReader.removePaths Sym.container Sym.disk Sym.noted Sym.alice [Sym.alice.publicPart] ⟨.classic, 1⟩ Sym.draws
        remove)) ∧
    ∀ path target newSource bytes mtime mode, normalizePath path = .ok target → newSource.Gives bytes →
      Rewrites Sym.container Sym.notedReader Sym.noted Sym.alice [Sym.alice.publicPart] ⟨.classic, 1⟩ Sym.draws Sym.alice
        (∃ e ∈ Sym.notedReader.manifest.entries, e.path = target ∧ e.kind = .file)
        (Sym.notedReader.manifest.replaced FileSec.Sym target bytes mtime mode)
        (fun p => if p = target then .ok bytes else Sym.notedReader.readEntryToWriter Sym.container Sym.noted p)
        (Sym.notedReader.replaceFile Sym.container Sym.disk Sym.noted Sym.alice [Sym.alice.publicPart] ⟨.classic, 1⟩
          Sym.draws path newSource mtime mode) :=
  rewrites_exactly Sym.tagOnly Sym.open_noted (by decide +kernel) Sym.disk Sym.alice Sym.mem_alice Sym.noCollision_alice
    ⟨.classic, 1⟩ Sym.draws

/-- The file is removed, and the directory stays. -/
example : ((Sym.notedReader.removePaths Sym.container Sym.disk Sym.noted Sym.alice [Sym.alice.publicPart] ⟨.classic, 1⟩
    Sym.draws ["a//f".toList]).toOption.bind fun out => (openVaultFromPath Sym.container out Sym.alice).toOption).map
      (fun r => r.manifest.entries.map (·.path)) = some ["a".toList] := by
  decide +kernel

end FileSec.Fsec
