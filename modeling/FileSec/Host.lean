import FileSec.Lib.CrashDir
import FileSec.Lib.Prog
import FileSec.Stream

/-!
# The machine a vault lives on

The two directories of a vault (`header` and `manifest`, and the blobs below) and the random generator.  Whether an
operation of the machine succeeds is an argument of the model's functions, so a statement about all arguments is one
about all failures.
-/

namespace FileSec

open CrashDir

/-- The files of a vault directory other than its blobs. -/
inductive VaultFile where
  | header
  | manifest
  deriving DecidableEq, Repr

/-- The random generator: what each draw yields from the next one on, `none` when the generator fails. -/
abbrev Rng := Nat → Option (Nat → UInt8)

/-- A machine with one vault directory. -/
structure Host (P : Prims) where
  /-- The vault directory. -/
  top : Dir VaultFile P.Raw
  /-- Its directory of blobs. -/
  blobs : Dir Str Bytes
  rng : Rng

variable {P : Prims}

/-- Programs that use the machine. -/
abbrev HostM (P : Prims) := Prog (Host P) Error

/-- Draw `n` random bytes. -/
def draw (P : Prims) (n : Nat) : HostM P Bytes := do
  let h ← get
  modify fun h => { h with rng := fun i => h.rng (i + 1) }
  randomVec n (h.rng 0)

/-- `util::hex` of the first sixteen bytes of each draw: the blob id the draw would name. -/
def Rng.blobId (rng : Rng) (i : Nat) : Option Str := (rng i).map fun f => hex ((List.range 16).map f)

/-- The blob ids the next `k` draws would name. -/
def Rng.drawn (rng : Rng) (k : Nat) : List Str := (List.range k).filterMap rng.blobId

/-- No blob id the generator is still going to name satisfies `known`, and it names none twice. -/
structure Rng.Fresh (rng : Rng) (known : Str → Prop) : Prop where
  new : ∀ i id, rng.blobId i = some id → ¬ known id
  inj : ∀ i j id, rng.blobId i = some id → rng.blobId j = some id → i = j

/-- A generator that makes `n` draws, the `i`-th one all bytes `i`. -/
def Rng.counting (n : Nat) : Rng := fun i => if i < n then some fun _ => UInt8.ofNat i else none

/-- `read_bounded_file` -/
def readBounded (P : Prims) (file : Option P.Raw) (max : Nat) : Result P.Raw :=
  match file with
  | none => .error (.io "not found".toList)
  | some raw => if P.rawLen raw > max then .error (.format "file too large".toList) else .ok raw

/-! ### Draws -/

theorem exec_draw (n : Nat) (h : Host P) :
    Prog.exec (draw P n) h = (randomVec n (h.rng 0), { h with rng := fun i => h.rng (i + 1) }) := by
  simp [draw, Prog.exec_bind]

@[simp] theorem wp_draw {n : Nat} {h : Host P} {Q : Result Bytes → Host P → Prop} :
    Prog.wp (draw P n) Q h ↔ Q (randomVec n (h.rng 0)) { h with rng := fun i => h.rng (i + 1) } := by
  unfold Prog.wp
  rw [exec_draw]

theorem blobId_shift (rng : Rng) (k i : Nat) : Rng.blobId (fun i => rng (i + k)) i = rng.blobId (i + k) := rfl

theorem mem_drawn {rng : Rng} {k : Nat} {id : Str} : id ∈ rng.drawn k ↔ ∃ i < k, rng.blobId i = some id := by
  simp [Rng.drawn]

theorem drawn_add (rng : Rng) (k n : Nat) : rng.drawn (k + n) = rng.drawn k ++ Rng.drawn (fun i => rng (i + k)) n := by
  unfold Rng.drawn
  rw [List.range_add, List.filterMap_append, List.filterMap_map]
  congr 2
  funext i
  rw [blobId_shift, Nat.add_comm i k]
  rfl

theorem blobId_of_randomVec {rng : Rng} {bytes : Bytes} (h : randomVec 16 (rng 0) = .ok bytes) :
    rng.blobId 0 = some (hex bytes) := by
  unfold Rng.blobId
  cases hr : rng 0 with
  | none => simp [hr, randomVec] at h
  | some f =>
    simp only [hr, randomVec, Except.ok.injEq] at h
    subst h
    rfl

/-- The id of a blob drawn from the generator is a valid blob id. -/
theorem validateBlobId_blobId {rng : Rng} {i : Nat} {id : Str} (h : rng.blobId i = some id) :
    validateBlobId id = .ok () := by
  unfold Rng.blobId at h
  obtain ⟨f, -, rfl⟩ := Option.map_eq_some_iff.1 h
  exact validateBlobId_hex (by simp)

/-! ### Fresh ids -/

theorem Rng.Fresh.mono {rng : Rng} {known known' : Str → Prop} (h : rng.Fresh known)
    (hk : ∀ id, known' id → known id) : rng.Fresh known' :=
  ⟨fun i id hi hid => h.new i id hi (hk id hid), h.inj⟩

/-- After `k` draws their ids count as known. -/
theorem Rng.Fresh.shift {rng : Rng} {known : Str → Prop} (h : rng.Fresh known) (k : Nat) :
    Rng.Fresh (fun i => rng (i + k)) fun id => known id ∨ id ∈ rng.drawn k := by
  refine ⟨?_, ?_⟩
  · simp only [mem_drawn]
    rintro i id hi (hid | ⟨j, hj, hid⟩)
    · exact h.new (i + k) id hi hid
    · have := h.inj (i + k) j id hi hid
      omega
  · intro i j id hi hj
    have := h.inj (i + k) (j + k) id hi hj
    omega

theorem Rng.Fresh.nodup_drawn {rng : Rng} {known : Str → Prop} (h : rng.Fresh known) (k : Nat) :
    (rng.drawn k).Nodup := by
  unfold Rng.drawn
  rw [List.Nodup, List.pairwise_filterMap]
  refine List.pairwise_lt_range.imp ?_
  rintro i j hij id hi id' hj rfl
  have := h.inj i j id hi hj
  omega

theorem Rng.Fresh.not_drawn {rng : Rng} {known : Str → Prop} (h : rng.Fresh known) {k : Nat} {id : Str}
    (hid : id ∈ rng.drawn k) : ¬ known id := by
  obtain ⟨i, -, hi⟩ := mem_drawn.1 hid
  exact h.new i id hi

theorem Rng.Fresh.skip {rng : Rng} {known : Str → Prop} (h : rng.Fresh known) (k : Nat) :
    Rng.Fresh (fun i => rng (i + k)) known := (h.shift k).mono fun _ hid => Or.inl hid

/-- The generator after some more draws. -/
def Rng.Ahead (rng rng' : Rng) : Prop := ∃ k, rng' = fun i => rng (i + k)

theorem Rng.Ahead.refl (rng : Rng) : rng.Ahead rng := ⟨0, rfl⟩

theorem Rng.Ahead.trans {rng rng' rng'' : Rng} (h : rng.Ahead rng') (h' : rng'.Ahead rng'') : rng.Ahead rng'' := by
  obtain ⟨k, rfl⟩ := h
  obtain ⟨j, rfl⟩ := h'
  refine ⟨j + k, ?_⟩
  funext i
  exact congrArg rng (Nat.add_assoc i j k)

theorem Rng.Fresh.ahead {rng rng' : Rng} {known : Str → Prop} (h : rng.Fresh known) (ha : rng.Ahead rng') :
    rng'.Fresh known := by
  obtain ⟨k, rfl⟩ := ha
  exact h.skip k

/-- The blobs a batch knows of are distinct and the ones to come are new, if this was so of the reader's. -/
theorem Rng.Fresh.ids {rng : Rng} {known ids : List Str} (h : rng.Fresh (· ∈ known)) (hnd : known.Nodup) {k : Nat}
    (hids : ids.Subperm (known ++ rng.drawn k)) :
    ids.Nodup ∧ Rng.Fresh (fun i => rng (i + k)) (· ∈ ids) := by
  have hall : (known ++ rng.drawn k).Nodup := by
    rw [List.nodup_append]
    refine ⟨hnd, h.nodup_drawn k, ?_⟩
    rintro id hid _ hid' rfl
    exact h.not_drawn hid' hid
  refine ⟨?_, (h.shift k).mono fun id hid => ?_⟩
  · obtain ⟨l, hl, hsub⟩ := hids
    exact hl.nodup_iff.1 (hsub.nodup hall)
  · rcases List.mem_append.1 (hids.subset hid) with hid | hid
    · exact Or.inl hid
    · exact Or.inr hid

/-- Freshness of a generator that makes at most `n` draws. -/
theorem Rng.fresh_of_finite {rng : Rng} {known : Str → Prop} (n : Nat) (hend : ∀ i, n ≤ i → rng i = none)
    (hnodup : (rng.drawn n).Nodup) (hnew : ∀ id ∈ rng.drawn n, ¬ known id) : rng.Fresh known := by
  have hlt : ∀ {i id}, rng.blobId i = some id → i < n := by
    intro i id hi
    by_contra h
    rw [Rng.blobId, hend i (by omega)] at hi
    simp at hi
  refine ⟨fun i id hi => hnew id ?_, ?_⟩
  · exact mem_drawn.2 ⟨i, hlt hi, hi⟩
  · have hpair : (rng.drawn n).Pairwise (· ≠ ·) := hnodup
    rw [Rng.drawn, List.pairwise_filterMap, List.pairwise_iff_getElem] at hpair
    have hne : ∀ i j id, i < j → rng.blobId i = some id → rng.blobId j = some id → False := by
      intro i j id hij hi hj
      exact hpair i j (by simpa using hlt hi) (by simpa using hlt hj) hij id (by simpa using hi) id (by simpa using hj) rfl
    intro i j id hi hj
    rcases Nat.lt_trichotomy i j with h | h | h
    · exact (hne i j id h hi hj).elim
    · exact h
    · exact (hne j i id h hj hi).elim

end FileSec
