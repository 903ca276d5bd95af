import Mathlib.Data.List.Basic
import Mathlib.Data.List.TakeDrop

/-!
# Readers that give their data in pieces

A reader gives a list piece by piece: each read asks for at most so many elements and gets some of them, at least one
unless the end is reached, or fails.  How many it gets may depend on whatever the reader's state holds.  `readFull` reads
on until it has what it wants or the end is reached; `chain` reads several readers one after the other, and `select`
forwards some segments of a reader and drops the others.  None of them depends on the pieces.
-/

universe u

/-- A reader; `left` says what it still has to give, and how that ends.  Nothing is said of reads that ask for nothing. -/
structure PieceReader (ε α : Type) where
  State : Type u
  read : State → Nat → Except ε (List α × State)
  left : State → List α × Except ε Unit
  read_ok : ∀ {s n piece s'}, 0 < n → read s n = .ok (piece, s') →
    left s = (piece ++ (left s').1, (left s').2) ∧ piece.length ≤ n ∧ (piece = [] → left s = ([], .ok ()))
  read_error : ∀ {s n e}, 0 < n → read s n = .error e → left s = ([], .error e)

namespace PieceReader

variable {ε α : Type} (R : PieceReader.{u} ε α)

/-! ### Reading on -/

/-- The loop of `readFull`; the first argument bounds the number of reads. -/
def readFullLoop : Nat → Nat → R.State → Except ε (List α) × R.State
  | 0, _, s => (.ok [], s)
  | fuel + 1, size, s =>
    if size = 0 then (.ok [], s)
    else
      match R.read s size with
      | .error e => (.error e, s)
      | .ok ([], s) => (.ok [], s)
      | .ok (a :: piece, s) =>
        let out := readFullLoop fuel (size - (a :: piece).length) s
        (out.1.map (a :: piece ++ ·), out.2)

/-- Read up to `size` elements, fewer only at the end.  Where a read fails, what the reads before it gave is lost. -/
def readFull (s : R.State) (size : Nat) : Except ε (List α) × R.State := R.readFullLoop size size s

/-- Read to the end in pieces of at most `size` elements; the first argument bounds the number of reads. -/
def readToEndLoop (size : Nat) : Nat → R.State → Except ε (List α)
  | 0, _ => .ok []
  | fuel + 1, s =>
    match R.read s size with
    | .error e => .error e
    | .ok ([], _) => .ok []
    | .ok (a :: piece, s) =>
      match readToEndLoop size fuel s with
      | .error e => .error e
      | .ok out => .ok (a :: piece ++ out)

/-- Read to the end in pieces of at most `size` elements. -/
def readToEnd (size : Nat) (s : R.State) : Except ε (List α) := R.readToEndLoop size ((R.left s).1.length + 1) s

variable {R} {s s' : R.State}

private theorem readFullLoop_spec {fuel size : Nat} (h : size ≤ fuel) :
    (∃ s', R.readFullLoop fuel size s = (.ok ((R.left s).1.take size), s') ∧
      R.left s' = ((R.left s).1.drop size, (R.left s).2) ∧ ((R.left s).1.length < size → (R.left s).2 = .ok ())) ∨
    ∃ e s', R.readFullLoop fuel size s = (.error e, s') ∧ (R.left s).1.length < size ∧ (R.left s).2 = .error e := by
  induction fuel generalizing size s with
  | zero =>
    obtain rfl : size = 0 := Nat.le_zero.1 h
    exact Or.inl ⟨s, rfl, rfl, fun hlt => absurd hlt (Nat.not_lt_zero _)⟩
  | succ fuel ih =>
    unfold readFullLoop
    by_cases hs : size = 0
    · rw [if_pos hs, hs]
      exact Or.inl ⟨s, rfl, rfl, fun hlt => absurd hlt (Nat.not_lt_zero _)⟩
    · rw [if_neg hs]
      cases hread : R.read s size with
      | error e =>
        have hleft := R.read_error (Nat.pos_of_ne_zero hs) hread
        rw [hleft]
        exact Or.inr ⟨e, s, rfl, Nat.pos_of_ne_zero hs, rfl⟩
      | ok out =>
        obtain ⟨piece, t⟩ := out
        obtain ⟨hleft, hlen, hend⟩ := R.read_ok (Nat.pos_of_ne_zero hs) hread
        cases piece with
        | nil =>
          have hnil := hend rfl
          rw [hnil] at hleft ⊢
          refine Or.inl ⟨t, by simp, ?_, fun _ => rfl⟩
          rw [List.drop_nil, hleft, List.nil_append]
        | cons a piece =>
          dsimp only
          have hrest : size - (a :: piece).length ≤ fuel := by
            rw [List.length_cons]
            omega
          rw [hleft]
          rcases @ih t _ hrest with ⟨s', heq, hs', hfin⟩ | ⟨e, s', heq, hlt, herr⟩
          · rw [heq]
            refine Or.inl ⟨s', ?_, ?_, fun hlt => hfin ?_⟩
            · dsimp only [Except.map]
              rw [List.take_append, List.take_of_length_le hlen]
            · rw [hs', List.drop_append, List.drop_eq_nil_of_le hlen, List.nil_append]
            · rw [List.length_append] at hlt
              omega
          · rw [heq]
            refine Or.inr ⟨e, s', rfl, ?_, herr⟩
            rw [List.length_append]
            omega

/-- What is read, and what is left, whatever the pieces: all that was wanted, or the end, or what it fails with. -/
theorem readFull_spec (s : R.State) (size : Nat) :
    (∃ s', R.readFull s size = (.ok ((R.left s).1.take size), s') ∧ R.left s' = ((R.left s).1.drop size, (R.left s).2) ∧
      ((R.left s).1.length < size → (R.left s).2 = .ok ())) ∨
    ∃ e s', R.readFull s size = (.error e, s') ∧ (R.left s).1.length < size ∧ (R.left s).2 = .error e :=
  readFullLoop_spec (Nat.le_refl size)

private theorem readToEndLoop_spec {size fuel : Nat} (hs : 0 < size) (h : (R.left s).1.length < fuel) :
    R.readToEndLoop size fuel s = (R.left s).2.map fun _ => (R.left s).1 := by
  induction fuel generalizing s with
  | zero => omega
  | succ fuel ih =>
    unfold readToEndLoop
    cases hread : R.read s size with
    | error e =>
      rw [R.read_error hs hread]
      rfl
    | ok out =>
      obtain ⟨piece, t⟩ := out
      obtain ⟨hleft, -, hend⟩ := R.read_ok hs hread
      cases piece with
      | nil =>
        rw [hend rfl]
        rfl
      | cons a piece =>
        rw [hleft, List.length_append, List.length_cons] at h
        dsimp only
        rw [ih (by omega), hleft]
        cases (R.left t).2 with
        | error e => rfl
        | ok u => rfl

/-- Reading to the end gives all there is, or what it fails with. -/
theorem readToEnd_spec {size : Nat} (hs : 0 < size) (s : R.State) :
    R.readToEnd size s = (R.left s).2.map fun _ => (R.left s).1 :=
  readToEndLoop_spec hs (Nat.lt_succ_self _)

/-! ### A list in pieces -/

/-- The reader that gives as many elements as the next entry of a list says, but at least one, and all it can when the
list has ended. -/
def ofPieces (ε α : Type) : PieceReader ε α where
  State := List α × List Nat
  read s n :=
    let k := match s.2 with
      | [] => n
      | k :: _ => min n (max k 1)
    .ok (s.1.take k, s.1.drop k, s.2.tail)
  left s := (s.1, .ok ())
  read_ok := by
    intro s n piece s' hn h
    rw [Except.ok.injEq, Prod.mk.injEq] at h
    obtain ⟨rfl, rfl⟩ := h
    dsimp only
    refine ⟨by rw [List.take_append_drop], ?_, fun hnil => ?_⟩
    · refine Nat.le_trans (List.length_take_le _ _) ?_
      split
      · exact Nat.le_refl n
      · exact Nat.min_le_left _ _
    · have hpos : 0 < (match s.2 with
          | [] => n
          | k :: _ => min n (max k 1)) := by
        split
        · exact hn
        · exact Nat.lt_min.2 ⟨hn, Nat.lt_of_lt_of_le Nat.one_pos (Nat.le_max_right _ _)⟩
      rcases List.take_eq_nil_iff.1 hnil with h | h
      · omega
      · rw [h]
  read_error := by
    intro s n e _ h
    cases h

end PieceReader

/-! ### One reader after the other -/

/-- A reader with its state. -/
structure PieceSource (ε α : Type) where
  reader : PieceReader.{u} ε α
  state : reader.State

namespace PieceSource

variable {ε α : Type}

/-- What the source has to give. -/
def left (src : PieceSource.{u} ε α) : List α × Except ε Unit := src.reader.left src.state

/-- A read of the first source that has something; those that have come to their end are dropped. -/
def chainRead (n : Nat) : List (PieceSource.{u} ε α) → Except ε (List α × List (PieceSource.{u} ε α))
  | [] => .ok ([], [])
  | src :: rest =>
    match src.reader.read src.state n with
    | .error e => .error e
    | .ok ([], _) => chainRead n rest
    | .ok (a :: piece, s) => .ok (a :: piece, ⟨src.reader, s⟩ :: rest)

/-- What the sources have to give together, up to the first that fails. -/
def chainLeft : List (PieceSource.{u} ε α) → List α × Except ε Unit
  | [] => ([], .ok ())
  | src :: rest =>
    match src.left with
    | (bytes, .error e) => (bytes, .error e)
    | (bytes, .ok ()) => (bytes ++ (chainLeft rest).1, (chainLeft rest).2)

private theorem chainLeft_cons_ok {src : PieceSource.{u} ε α} {rest : List (PieceSource.{u} ε α)} {bytes : List α}
    (h : src.left = (bytes, .ok ())) : chainLeft (src :: rest) = (bytes ++ (chainLeft rest).1, (chainLeft rest).2) := by
  rw [chainLeft, h]

private theorem chainLeft_cons_error {src : PieceSource.{u} ε α} {rest : List (PieceSource.{u} ε α)} {bytes : List α}
    {e : ε} (h : src.left = (bytes, .error e)) : chainLeft (src :: rest) = (bytes, .error e) := by
  rw [chainLeft, h]

/-- Sources that do not fail give their data one after the other. -/
theorem chainLeft_of_ok {sources : List (PieceSource.{u} ε α)} (h : ∀ src ∈ sources, src.left.2 = .ok ()) :
    chainLeft sources = (sources.flatMap fun src => src.left.1, .ok ()) := by
  induction sources with
  | nil => rfl
  | cons src rest ih =>
    have hsrc : src.left = (src.left.1, .ok ()) := Prod.ext rfl (h src List.mem_cons_self)
    rw [chainLeft_cons_ok hsrc, ih fun s hs => h s (List.mem_cons_of_mem _ hs)]
    rfl

/-- A chain that does not fail consists of sources that do not. -/
theorem of_chainLeft_ok {sources : List (PieceSource.{u} ε α)} (h : (chainLeft sources).2 = .ok ()) :
    ∀ src ∈ sources, src.left.2 = .ok () := by
  induction sources with
  | nil => exact fun src hsrc => absurd hsrc List.not_mem_nil
  | cons src rest ih =>
    cases hleft : src.left with
    | mk bytes res =>
      cases res with
      | error e =>
        rw [chainLeft_cons_error hleft] at h
        cases h
      | ok u =>
        rw [chainLeft_cons_ok hleft] at h
        intro src' hsrc'
        rcases List.mem_cons.1 hsrc' with rfl | hsrc'
        · rw [hleft]
        · exact ih h src' hsrc'

/-- Several sources as one reader. -/
def chain (ε α : Type) : PieceReader ε α where
  State := List (PieceSource.{u} ε α)
  read sources n := chainRead n sources
  left := chainLeft
  read_ok := by
    intro sources n piece sources' hn h
    induction sources with
    | nil =>
      cases h
      exact ⟨rfl, Nat.zero_le n, fun _ => rfl⟩
    | cons src rest ih =>
      unfold chainRead at h
      cases hread : src.reader.read src.state n with
      | error e =>
        rw [hread] at h
        cases h
      | ok out =>
        obtain ⟨got, s⟩ := out
        rw [hread] at h
        obtain ⟨hleft, hlen, hend⟩ := src.reader.read_ok hn hread
        have hsrc : src.left = (got ++ (src.reader.left s).1, (src.reader.left s).2) := hleft
        cases got with
        | nil =>
          have hnil : src.left = ([], .ok ()) := hend rfl
          rw [chainLeft_cons_ok hnil]
          exact ih h
        | cons a got =>
          cases h
          refine ⟨?_, hlen, fun hnil => absurd hnil (List.cons_ne_nil _ _)⟩
          cases hs : src.reader.left s with
          | mk bytes res =>
            have hnext : (⟨src.reader, s⟩ : PieceSource ε α).left = (bytes, res) := hs
            rw [hs] at hsrc
            cases res with
            | error e => rw [chainLeft_cons_error hsrc, chainLeft_cons_error hnext]
            | ok u => rw [chainLeft_cons_ok hsrc, chainLeft_cons_ok hnext, List.append_assoc]
  read_error := by
    intro sources n e hn h
    induction sources with
    | nil => cases h
    | cons src rest ih =>
      unfold chainRead at h
      cases hread : src.reader.read src.state n with
      | error e' =>
        rw [hread] at h
        cases h
        exact chainLeft_cons_error (src.reader.read_error hn hread)
      | ok out =>
        obtain ⟨got, s⟩ := out
        rw [hread] at h
        cases got with
        | nil =>
          have hnil : src.left = ([], .ok ()) := (src.reader.read_ok hn hread).2.2 rfl
          rw [chainLeft_cons_ok hnil]
          exact ih h
        | cons a got => cases h

end PieceSource

/-! ### Some segments of a reader -/

namespace PieceReader

variable {ε α : Type} (R : PieceReader.{u} ε α)

/-- The reader with what is left of its current segment, whether that is kept, and the segments after it. -/
structure Selecting where
  inner : R.State
  current : Nat × Bool
  segments : List (Nat × Bool)

/-- The data of the kept segments, up to where the data end; `early` is the error if that is inside a segment. -/
def selectLeft (early : ε) : List (Nat × Bool) → List α × Except ε Unit → List α × Except ε Unit
  | [], _ => ([], .ok ())
  | (size, keep) :: rest, (data, res) =>
    if size ≤ data.length then
      let out := selectLeft early rest (data.drop size, res)
      (if keep then data.take size ++ out.1 else out.1, out.2)
    else
      (if keep then data else [], match res with
        | .ok () => .error early
        | .error e => .error e)

/-- Read over the next `remaining` elements; the first argument bounds the number of reads. -/
def discard (early : ε) (scratch : Nat) : Nat → Nat → R.State → Except ε R.State
  | 0, _, s => .ok s
  | fuel + 1, remaining, s =>
    if remaining = 0 then .ok s
    else
      match R.read s (min remaining scratch) with
      | .error e => .error e
      | .ok ([], _) => .error early
      | .ok (a :: piece, s) => discard early scratch fuel (remaining - (a :: piece).length) s

/-- One round of a selecting read: some data and what is left of the segment, or, after the segment, the reader. -/
def selectStep (early : ε) (scratch n : Nat) (current : Nat × Bool) (s : R.State) :
    Except ε (List α × (Nat × Bool) × R.State ⊕ R.State) :=
  if current.1 = 0 then .ok (.inr s)
  else if current.2 then
    if n = 0 then .ok (.inl ([], current, s))
    else
      match R.read s (min current.1 n) with
      | .error e => .error e
      | .ok ([], _) => .error early
      | .ok (a :: piece, s) => .ok (.inl (a :: piece, (current.1 - (a :: piece).length, true), s))
  else
    match R.discard early scratch current.1 current.1 s with
    | .error e => .error e
    | .ok s => .ok (.inr s)

/-- The loop of a selecting read over the segments. -/
def selectLoop (early : ε) (scratch n : Nat) :
    List (Nat × Bool) → Nat × Bool → R.State → Except ε (List α × R.Selecting)
  | segments, current, s =>
    match R.selectStep early scratch n current s with
    | .error e => .error e
    | .ok (.inl (piece, current, s)) => .ok (piece, ⟨s, current, segments⟩)
    | .ok (.inr s) =>
      match segments with
      | [] => .ok ([], ⟨s, (0, current.2), []⟩)
      | segment :: rest => selectLoop early scratch n rest segment s

variable {R} {early : ε} {scratch n : Nat} {s s' : R.State}

/-- A segment that is all there. -/
theorem selectLeft_of_le {size : Nat} {keep : Bool} {rest : List (Nat × Bool)} {left : List α × Except ε Unit}
    (h : size ≤ left.1.length) :
    selectLeft early ((size, keep) :: rest) left =
      (if keep then left.1.take size ++ (selectLeft early rest (left.1.drop size, left.2)).1
        else (selectLeft early rest (left.1.drop size, left.2)).1,
      (selectLeft early rest (left.1.drop size, left.2)).2) := by
  obtain ⟨data, res⟩ := left
  exact if_pos h

/-- A segment in which the data end. -/
theorem selectLeft_of_lt {size : Nat} {keep : Bool} {rest : List (Nat × Bool)} {left : List α × Except ε Unit}
    (h : left.1.length < size) :
    selectLeft early ((size, keep) :: rest) left = (if keep then left.1 else [], match left.2 with
      | .ok () => .error early
      | .error e => .error e) := by
  obtain ⟨data, res⟩ := left
  exact if_neg (Nat.not_le.2 h)

variable (early) in
private theorem discard_spec (hs : 0 < scratch) {fuel remaining : Nat} (h : remaining ≤ fuel) :
    (∃ s', R.discard early scratch fuel remaining s = .ok s' ∧ remaining ≤ (R.left s).1.length ∧
      R.left s' = ((R.left s).1.drop remaining, (R.left s).2)) ∨
    ∃ e, R.discard early scratch fuel remaining s = .error e ∧ (R.left s).1.length < remaining ∧
      (match (R.left s).2 with
        | .ok () => .error early
        | .error e => .error e : Except ε Unit) = .error e := by
  induction fuel generalizing remaining s with
  | zero =>
    obtain rfl : remaining = 0 := Nat.le_zero.1 h
    exact Or.inl ⟨s, rfl, Nat.zero_le _, rfl⟩
  | succ fuel ih =>
    unfold discard
    by_cases hr : remaining = 0
    · rw [if_pos hr, hr]
      exact Or.inl ⟨s, rfl, Nat.zero_le _, rfl⟩
    · rw [if_neg hr]
      have hwant : 0 < min remaining scratch := Nat.lt_min.2 ⟨Nat.pos_of_ne_zero hr, hs⟩
      cases hread : R.read s (min remaining scratch) with
      | error e =>
        rw [R.read_error hwant hread]
        exact Or.inr ⟨e, rfl, Nat.pos_of_ne_zero hr, rfl⟩
      | ok out =>
        obtain ⟨piece, t⟩ := out
        obtain ⟨hleft, hlen, hend⟩ := R.read_ok hwant hread
        cases piece with
        | nil =>
          rw [hend rfl]
          exact Or.inr ⟨early, rfl, Nat.pos_of_ne_zero hr, rfl⟩
        | cons a piece =>
          have hle : (a :: piece).length ≤ remaining := Nat.le_trans hlen (Nat.min_le_left _ _)
          have hpos : 0 < (a :: piece).length := Nat.succ_pos _
          dsimp only
          rw [hleft, List.length_append]
          rcases @ih t (remaining - (a :: piece).length) (by omega) with ⟨s', heq, hin, hs'⟩ | ⟨e, heq, hlt, herr⟩
          · rw [heq]
            refine Or.inl ⟨s', rfl, by omega, ?_⟩
            rw [hs', List.drop_append, List.drop_eq_nil_of_le hle, List.nil_append]
          · rw [heq]
            exact Or.inr ⟨e, rfl, by omega, herr⟩

variable (early) in
/-- What one round does to what is left. -/
private theorem selectStep_spec (hs : 0 < scratch) (hn : 0 < n) (current : Nat × Bool) (segments : List (Nat × Bool)) :
    (∃ piece current' s', R.selectStep early scratch n current s = .ok (.inl (piece, current', s')) ∧
      selectLeft early (current :: segments) (R.left s) =
        (piece ++ (selectLeft early (current' :: segments) (R.left s')).1,
          (selectLeft early (current' :: segments) (R.left s')).2) ∧ piece.length ≤ n ∧ piece ≠ []) ∨
    (∃ s', R.selectStep early scratch n current s = .ok (.inr s') ∧
      selectLeft early (current :: segments) (R.left s) = selectLeft early segments (R.left s')) ∨
    ∃ e, R.selectStep early scratch n current s = .error e ∧
      selectLeft early (current :: segments) (R.left s) = ([], .error e) := by
  obtain ⟨remaining, keep⟩ := current
  unfold selectStep
  by_cases hr : remaining = 0
  · subst hr
    refine Or.inr (Or.inl ⟨s, by simp, ?_⟩)
    rw [selectLeft_of_le (Nat.zero_le _)]
    cases keep <;> simp
  · dsimp only
    rw [if_neg hr]
    cases keep with
    | true =>
      rw [if_pos rfl, if_neg (by omega)]
      have hwant : 0 < min remaining n := Nat.lt_min.2 ⟨Nat.pos_of_ne_zero hr, hn⟩
      cases hread : R.read s (min remaining n) with
      | error e =>
        have hleft := R.read_error hwant hread
        refine Or.inr (Or.inr ⟨e, rfl, ?_⟩)
        rw [hleft, selectLeft_of_lt (Nat.pos_of_ne_zero hr)]
        rfl
      | ok out =>
        obtain ⟨piece, t⟩ := out
        obtain ⟨hleft, hlen, hend⟩ := R.read_ok hwant hread
        cases piece with
        | nil =>
          refine Or.inr (Or.inr ⟨early, rfl, ?_⟩)
          rw [hend rfl, selectLeft_of_lt (Nat.pos_of_ne_zero hr)]
          rfl
        | cons a piece =>
          have hle : (a :: piece).length ≤ remaining := Nat.le_trans hlen (Nat.min_le_left _ _)
          refine Or.inl ⟨a :: piece, _, t, rfl, ?_, Nat.le_trans hlen (Nat.min_le_right _ _), List.cons_ne_nil _ _⟩
          obtain ⟨got, hgot⟩ : ∃ got, a :: piece = got := ⟨_, rfl⟩
          rw [hgot] at hle hleft ⊢
          rw [hleft]
          by_cases hin : remaining ≤ (got ++ (R.left t).1).length
          · have hin' : remaining - got.length ≤ (R.left t).1.length := by
              rw [List.length_append] at hin
              omega
            rw [selectLeft_of_le hin, selectLeft_of_le hin']
            simp only [if_true, List.drop_append, List.drop_eq_nil_of_le hle, List.nil_append, List.take_append,
              List.take_of_length_le hle, List.append_assoc]
          · rw [Nat.not_le] at hin
            have hin' : (R.left t).1.length < remaining - got.length := by
              rw [List.length_append] at hin
              omega
            rw [selectLeft_of_lt hin, selectLeft_of_lt hin']
            rfl
    | false =>
      rw [if_neg Bool.false_ne_true]
      rcases discard_spec early (s := s) hs (Nat.le_refl remaining) with
        ⟨s', heq, hin, hs'⟩ | ⟨e, heq, hlt, herr⟩
      · rw [heq]
        refine Or.inr (Or.inl ⟨s', rfl, ?_⟩)
        rw [selectLeft_of_le hin, hs']
        rfl
      · rw [heq]
        refine Or.inr (Or.inr ⟨e, rfl, ?_⟩)
        rw [selectLeft_of_lt hlt]
        exact Prod.ext rfl herr

variable (early) in
private theorem selectLoop_spec (hs : 0 < scratch) (hn : 0 < n) (segments : List (Nat × Bool)) (current : Nat × Bool)
    (s : R.State) :
    (∃ piece next, R.selectLoop early scratch n segments current s = .ok (piece, next) ∧
      selectLeft early (current :: segments) (R.left s) =
        (piece ++ (selectLeft early (next.current :: next.segments) (R.left next.inner)).1,
          (selectLeft early (next.current :: next.segments) (R.left next.inner)).2) ∧ piece.length ≤ n ∧
      (piece = [] → selectLeft early (current :: segments) (R.left s) = ([], .ok ()))) ∨
    ∃ e, R.selectLoop early scratch n segments current s = .error e ∧
      selectLeft early (current :: segments) (R.left s) = ([], .error e) := by
  induction segments generalizing current s with
  | nil =>
    unfold selectLoop
    rcases selectStep_spec early (s := s) hs hn current [] with
      ⟨piece, current', s', heq, hleft, hlen, hne⟩ | ⟨s', heq, hleft⟩ | ⟨e, heq, hleft⟩
    · rw [heq]
      exact Or.inl ⟨piece, _, rfl, hleft, hlen, fun hnil => absurd hnil hne⟩
    · rw [heq, hleft]
      refine Or.inl ⟨[], _, rfl, ?_, Nat.zero_le n, fun _ => rfl⟩
      simp [selectLeft]
    · rw [heq]
      exact Or.inr ⟨e, rfl, hleft⟩
  | cons segment rest ih =>
    unfold selectLoop
    rcases selectStep_spec early (s := s) hs hn current (segment :: rest) with
      ⟨piece, current', s', heq, hleft, hlen, hne⟩ | ⟨s', heq, hleft⟩ | ⟨e, heq, hleft⟩
    · rw [heq]
      exact Or.inl ⟨piece, _, rfl, hleft, hlen, fun hnil => absurd hnil hne⟩
    · rw [heq, hleft]
      exact ih segment s'
    · rw [heq]
      exact Or.inr ⟨e, rfl, hleft⟩

/-- The segments of `R` that are kept, read through a scratch buffer of the given size. -/
def select (R : PieceReader.{u} ε α) (early : ε) {scratch : Nat} (hs : 0 < scratch) : PieceReader ε α where
  State := R.Selecting
  read t n := R.selectLoop early scratch n t.segments t.current t.inner
  left t := selectLeft early (t.current :: t.segments) (R.left t.inner)
  read_ok := by
    intro t n piece t' hn h
    rcases selectLoop_spec early hs hn t.segments t.current t.inner with
      ⟨piece', next, heq, hleft, hlen, hend⟩ | ⟨e, heq, -⟩
    · rw [heq, Except.ok.injEq, Prod.mk.injEq] at h
      obtain ⟨rfl, rfl⟩ := h
      exact ⟨hleft, hlen, hend⟩
    · rw [heq] at h
      cases h
  read_error := by
    intro t n e hn h
    rcases selectLoop_spec early hs hn t.segments t.current t.inner with
      ⟨piece', next, heq, -⟩ | ⟨e', heq, hleft⟩
    · rw [heq] at h
      cases h
    · rw [heq, Except.error.injEq] at h
      exact h ▸ hleft

end PieceReader
