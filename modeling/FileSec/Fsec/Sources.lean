import FileSec.Fragments
import FileSec.Fsec.Entry

/-!
# What a container is written from

A container that is rewritten is streamed from the old one and from files of the disk, chained and cut to segments
(`format.rs`).  Each of these readers gives its bytes in whatever pieces; `ContainerPlan.writeFrom` writes what they give
in all (`writeFrom_ok_iff`).
-/

universe u

namespace FileSec

variable {P : Prims}

/-! ### The plaintext of a container as a reader -/

/-- An error as `read` passes it on. -/
def readError : Result Unit → Result Unit
  | .ok () => .ok ()
  | .error e => .error (.io e.display)

theorem readError_eq_ok {res : Result Unit} : readError res = .ok () ↔ res = .ok () := by
  cases res with
  | error e => simp [readError]
  | ok u => simp [readError]

section Pieces

variable {R : ByteReader.{0}}

namespace StreamDecryptReaderOn

theorem newWith_running {alg : AeadAlg} {key streamNonce : Bytes} {aad : P.Raw} {s : R.State} {chunkSize : Nat}
    {r : StreamDecryptReaderOn P R} (h : newWith R alg key streamNonce aad s chunkSize = .ok r) : r.flat.Running := by
  unfold newWith at h
  split at h
  · cases h
  · split at h
    · cases h
    · dsimp only at h
      split at h
      · cases h
      · rw [Except.ok.injEq] at h
        subst h
        exact ⟨fun hf => (by cases hf), fun hd => (by cases hd)⟩

/-- What a read does: what reading the bytes does. -/
private theorem read_cases (sure : ∀ s, (R.left s).2 = .ok ()) (n : Nat) {r : StreamDecryptReaderOn P R}
    (hr : r.flat.Running) :
    (∃ bytes r', r.read P.openBytes n = (.ok bytes, r') ∧ r'.flat.Running ∧
      r.flat.left P.openBytes = (bytes ++ (r'.flat.left P.openBytes).1, (r'.flat.left P.openBytes).2) ∧
      bytes.length ≤ n ∧ (bytes = [] → n ≠ 0 → r.flat.left P.openBytes = ([], .ok ()))) ∨
    (∃ e r', r.read P.openBytes n = (.error e, r') ∧ r.flat.left P.openBytes = ([], .error e)) := by
  obtain ⟨hflat, -⟩ := read_flat P.openBytes n (sure r.reader)
  cases hread : r.read P.openBytes n with
  | mk res r' =>
    rw [hread] at hflat
    rcases StreamDecryptReader.read_cases P.openBytes n hr with ⟨bytes, s, heq, hrun, hleft, hend⟩ | ⟨e, s, heq, hleft⟩
    · have hlen := StreamDecryptReader.readLoop_length_le heq
      rw [← hflat, Prod.mk.injEq] at heq
      obtain ⟨rfl, rfl⟩ := heq
      exact Or.inl ⟨bytes, r', rfl, hrun, hleft, hlen, hend⟩
    · rw [← hflat, Prod.mk.injEq] at heq
      obtain ⟨rfl, -⟩ := heq
      exact Or.inr ⟨e, r', rfl, hleft⟩

/-- `impl Read for StreamDecryptReader`, over an input that does not fail. -/
def pieces (P : Prims) {R : ByteReader.{0}} (sure : ∀ s, (R.left s).2 = .ok ()) : ByteReader.{0} where
  State := {r : StreamDecryptReaderOn P R // r.flat.Running}
  read r n :=
    match h : r.1.read P.openBytes n with
    | (.error e, _) => .error (.io e.display)
    | (.ok bytes, r') => .ok (bytes, ⟨r', by
        rcases read_cases sure n r.2 with ⟨bytes', s, heq, hrun, -⟩ | ⟨e, s, heq, -⟩
        · rw [h, Prod.mk.injEq] at heq
          rw [heq.2]
          exact hrun
        · rw [h] at heq
          cases heq⟩)
  left r := ((r.1.flat.left P.openBytes).1, readError (r.1.flat.left P.openBytes).2)
  read_ok := by
    intro r n piece r' hn h
    split at h
    · cases h
    · rename_i bytes s hread
      rw [Except.ok.injEq, Prod.mk.injEq] at h
      obtain ⟨rfl, rfl⟩ := h
      rcases read_cases sure n r.2 with ⟨bytes', s', heq, -, hleft, hlen, hend⟩ | ⟨e, s', heq, -⟩
      · rw [hread, Prod.mk.injEq, Except.ok.injEq] at heq
        obtain ⟨rfl, rfl⟩ := heq
        have hbytes := congrArg Prod.fst hleft
        have hres := congrArg (fun out => readError out.2) hleft
        refine ⟨Prod.ext hbytes hres, hlen, fun hnil => ?_⟩
        rw [hend hnil (Nat.pos_iff_ne_zero.1 hn)]
        rfl
      · rw [hread] at heq
        cases heq
  read_error := by
    intro r n e hn h
    split at h
    · rename_i e' s hread
      rw [Except.error.injEq] at h
      subst h
      rcases read_cases sure n r.2 with ⟨bytes', s', heq, -⟩ | ⟨e'', s', heq, hleft⟩
      · rw [hread] at heq
        cases heq
      · rw [hread, Prod.mk.injEq, Except.error.injEq] at heq
        rw [hleft, heq.1]
        rfl
    · cases h

end StreamDecryptReaderOn

end Pieces

end FileSec

namespace FileSec.Fsec

variable {P : Prims} (C : FsecPrims P)

/-- A reader with its state. -/
abbrev ByteSource := PieceSource.{0} Error UInt8

/-- How the disk gives the bytes of the old container: in whatever pieces, without failing. -/
structure Disk where
  reader : ByteReader.{0}
  openAt : Bytes → reader.State
  left_openAt : ∀ bytes, reader.left (openAt bytes) = (bytes, .ok ())
  sure : ∀ s, (reader.left s).2 = .ok ()

/-- A file of the disk, as it is read to be hashed and then read again to be encrypted. -/
structure SourceFile where
  hashed : ByteSource
  streamed : ByteSource

/-- The file has these bytes, both times. -/
def SourceFile.Gives (f : SourceFile) (bytes : Bytes) : Prop :=
  f.hashed.left = (bytes, .ok ()) ∧ f.streamed.left = (bytes, .ok ())

/-- `hash_file`: the hash and the length. -/
def hashFile (P : Prims) (f : ByteSource) : Result (Bytes × Nat) := do
  let bytes ← f.reader.readToEnd defaultChunkSize f.state
  refuseIf (bytes.length > u64Max) (.format "size overflow".toList)
  .ok (P.hashContent bytes, bytes.length)

/-- `VaultReader::plaintext_reader` -/
def VaultReader.plaintextReaderOn (r : VaultReader) (disk : Disk) (file : Bytes) :
    Result (StreamDecryptReaderOn.pieces P disk.sure).State :=
  match h : StreamDecryptReaderOn.newWith (P := P) disk.reader r.suite.aeadAlg r.cek r.dataStreamNonce (C.aad r.headerBytes)
      (disk.openAt (r.dataSection file)) r.dataChunkSize with
  | .error e => .error e
  | .ok s => .ok ⟨s, StreamDecryptReaderOn.newWith_running h⟩

/-- `SelectReader::new` -/
def selectReader (inner : ByteSource) (segments : List (Nat × Bool)) : ByteSource where
  reader := inner.reader.select (.io "source stream ended early".toList) defaultChunkSize_pos
  state := ⟨inner.state, (0, false), segments⟩

variable {C}

/-- `ContainerPlan::write` into a buffer, from a reader. -/
def ContainerPlan.writeFrom (plan : ContainerPlan C) {R : ByteReader.{u}} (data : R.State) : Result Bytes := do
  refuseIf (plan.encManifest.length ≠ plan.manifestLen) (.format "manifest length mismatch".toList)
  let encData ← encryptStreamFrom P R plan.suite.aeadAlg plan.cek plan.dataStreamNonce (C.aad plan.headerBytes) data
    plan.chunkSize
  refuseIf (encData.length ≠ plan.dataLen) (.format "data length mismatch".toList)
  let hash := P.hashContent (plan.front ++ plan.encManifest ++ encData)
  let pqSignature ← plan.pqSignature hash
  .ok (plan.front ++ plan.encManifest ++ encData ++ (plan.sender.sign hash ++ pqSignature))

/-! ### The pieces make no difference -/

/-- A plan is written from a reader as from the bytes that the reader gives, if it does not fail. -/
theorem writeFrom_ok_iff {plan : ContainerPlan C} {R : ByteReader.{u}} {data : R.State} {out : Bytes} :
    plan.writeFrom data = .ok out ↔ (R.left data).2 = .ok () ∧ plan.write ⟨(R.left data).1, none⟩ = .ok out := by
  unfold ContainerPlan.writeFrom ContainerPlan.write ContainerPlan.encData
  simp only [bind_eq_ok, refuseIf_eq_ok, exists_const, encryptStreamFrom_ok_iff]
  constructor
  · rintro ⟨hm, encData, ⟨hsure, henc⟩, h⟩
    exact ⟨hsure, hm, encData, henc, h⟩
  · rintro ⟨hsure, hm, encData, henc, h⟩
    exact ⟨hm, encData, ⟨hsure, henc⟩, h⟩

/-- Hashing a file of the disk gives the hash and the length of its bytes. -/
theorem hashFile_eq_ok {f : ByteSource} {res : Bytes × Nat} :
    hashFile P f = .ok res ↔
      f.left.2 = .ok () ∧ f.left.1.length ≤ u64Max ∧ res = (P.hashContent f.left.1, f.left.1.length) := by
  have hsize := defaultChunkSize_pos
  unfold hashFile
  rw [PieceReader.readToEnd_spec hsize]
  change (Except.map _ f.left.2 >>= _) = _ ↔ _
  cases hleft : f.left.2 with
  | error e => simp [Except.map, bind, Except.bind]
  | ok u =>
    simp only [Except.map, bind_eq_ok, refuseIf_eq_ok, exists_const, Except.ok.injEq, exists_eq_left', true_and, not_lt,
      gt_iff_lt]
    change f.left.1.length ≤ u64Max ∧ (P.hashContent f.left.1, f.left.1.length) = res ↔ _
    rw [eq_comm (a := res)]

/-- The plaintext that a reader of the container gives, in pieces, is that of its stream. -/
theorem plaintextReaderOn_left {r : VaultReader} {disk : Disk} {file : Bytes}
    {s : (StreamDecryptReaderOn.pieces P disk.sure).State} (h : r.plaintextReaderOn C disk file = .ok s) :
    ∃ stream, r.plaintextReader C file = .ok stream ∧ (StreamDecryptReaderOn.pieces P disk.sure).left s =
      ((stream.left P.openBytes).1, readError (stream.left P.openBytes).2) := by
  have hleft := disk.left_openAt (r.dataSection file)
  unfold VaultReader.plaintextReaderOn at h
  split at h
  · cases h
  · rename_i s' hnew
    obtain rfl := Except.ok.inj h
    obtain ⟨stream, hstream⟩ : ∃ stream, r.plaintextReader C file = .ok stream := by
      unfold StreamDecryptReaderOn.newWith at hnew
      unfold VaultReader.plaintextReader StreamDecryptReader.newWith
      split at hnew
      · cases hnew
      · rename_i hnonce
        split at hnew
        · cases hnew
        · rename_i hsize
          rw [if_neg hnonce, if_neg hsize]
          exact ⟨_, rfl⟩
    have hsure := disk.sure (disk.openAt (r.dataSection file))
    obtain ⟨s, hs, -, hflat⟩ := StreamDecryptReaderOn.newWith_flat hsure stream (by
      rw [hleft]
      exact hstream)
    rw [hnew, Except.ok.injEq] at hs
    subst hs
    exact ⟨stream, hstream, by rw [← hflat]; rfl⟩

/-- Whenever the stream can be opened, so can its reader. -/
theorem plaintextReaderOn_ok {r : VaultReader} {file : Bytes} {stream : StreamDecryptReader P} (disk : Disk)
    (h : r.plaintextReader C file = .ok stream) : ∃ s, r.plaintextReaderOn C disk file = .ok s := by
  have hleft := disk.left_openAt (r.dataSection file)
  have hsure := disk.sure (disk.openAt (r.dataSection file))
  obtain ⟨s, hs, -⟩ := StreamDecryptReaderOn.newWith_flat hsure stream (by
    rw [hleft]
    exact h)
  unfold VaultReader.plaintextReaderOn
  split
  · rename_i e hnew
    rw [hs] at hnew
    cases hnew
  · exact ⟨_, rfl⟩

end FileSec.Fsec
