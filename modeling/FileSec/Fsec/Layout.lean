import FileSec.Validation
import FileSec.Fsec.Written

/-!
# Layouts that the reader accepts

`validate_manifest_layout` accepts a manifest when its normalised paths have the shape of a tree (`Shaped`), its files lie
one after the other (`Laid`), and there are not too many entries and chunks (`layout_iff`).
-/

namespace FileSec.Fsec

open SepPath

variable {P : Prims} {C : FsecPrims P}

/-- The files of the entries lie one after the other between the two offsets. -/
inductive Laid : Nat → List Entry → Nat → Prop
  | nil (offset : Nat) : Laid offset [] offset
  | file {offset stop : Nat} {e : Entry} {es : List Entry} (hkind : e.kind = .file) (hoffset : e.dataOffset = offset)
      (h : Laid (offset + e.size) es stop) : Laid offset (e :: es) stop
  | dir {offset stop : Nat} {e : Entry} {es : List Entry} (hkind : e.kind = .dir) (h : Laid offset es stop) :
      Laid offset (e :: es) stop

/-- What `normalize_path` makes of the path of the entry, with its kind. -/
def Normalizes (e : Entry) (x : Str × EntryKind) : Prop := normalizePath e.path = .ok x.1 ∧ x.2 = e.kind

/-- The normalised paths of the entries have the shape of a tree: they are distinct, and none is below a file. -/
structure Shaped (es : List Entry) (shape : List (Str × EntryKind)) : Prop where
  normalizes : List.Forall₂ Normalizes es shape
  nodup : (shape.map (·.1)).Nodup
  tree : ∀ x ∈ shape, ∀ y ∈ shape, x.2 = .file → ¬ Below '/' x.1 y.1

variable {es es' : List Entry} {shape shape' : List (Str × EntryKind)} {offset mid stop total : Nat}

/-! ### Files one after the other -/

theorem Laid.le (h : Laid offset es stop) : offset ≤ stop := by
  induction h with
  | nil => exact Nat.le_refl _
  | file _ _ _ ih => omega
  | dir _ _ ih => exact ih

theorem Laid.append (h : Laid offset es mid) (h' : Laid mid es' stop) : Laid offset (es ++ es') stop := by
  induction h with
  | nil => exact h'
  | file hkind hoffset _ ih => exact .file hkind hoffset (ih h')
  | dir hkind _ ih => exact .dir hkind (ih h')

/-- Each file lies between the two offsets. -/
theorem Laid.bounds (h : Laid offset es stop) {e : Entry} (he : e ∈ es) (hk : e.kind = .file) :
    offset ≤ e.dataOffset ∧ e.dataOffset + e.size ≤ stop := by
  induction h with
  | nil => cases he
  | file hkind hoffset htail ih =>
    rcases List.mem_cons.1 he with rfl | he
    · have := htail.le
      omega
    · obtain ⟨h1, h2⟩ := ih he
      omega
  | dir hkind htail ih =>
    rcases List.mem_cons.1 he with rfl | he
    · rw [hkind] at hk
      cases hk
    · exact ih he

theorem Laid.unique (h : Laid offset es mid) (h' : Laid offset es stop) : mid = stop := by
  induction h with
  | nil =>
    cases h'
    rfl
  | file hkind _ _ ih =>
    cases h' with
    | file _ _ h' => exact ih h'
    | dir hdir _ =>
      rw [hkind] at hdir
      cases hdir
  | dir hkind _ ih =>
    cases h' with
    | file hfile _ _ =>
      rw [hkind] at hfile
      cases hfile
    | dir _ h' => exact ih h'

/-! ### The walk over the entries -/

private theorem forall_not_mem_append {shape : List (Str × EntryKind)} {x y : Str × EntryKind} :
    y.1 ∉ (shape ++ [x]).map (·.1) ↔ y.1 ∉ shape.map (·.1) ∧ y.1 ≠ x.1 := by
  rw [List.map_append, List.mem_append, not_or, List.map_singleton, List.mem_singleton]

/-- What the walk of `validate_manifest_layout` accepts. -/
theorem layoutEntries_eq_ok {seen : List (Str × EntryKind)} (htotal : offset ≤ u64Max) :
    layoutEntries es seen offset = .ok (shape', stop) ↔
      ∃ shape, List.Forall₂ Normalizes es shape ∧ shape' = seen ++ shape ∧ (shape.map (·.1)).Nodup ∧
        (∀ x ∈ shape, x.1 ∉ seen.map (·.1)) ∧ Laid offset es stop ∧ stop ≤ u64Max := by
  induction es generalizing seen offset with
  | nil =>
    unfold layoutEntries
    rw [Except.ok.injEq, Prod.mk.injEq]
    constructor
    · rintro ⟨rfl, rfl⟩
      exact ⟨[], .nil, by simp, List.nodup_nil, by simp, .nil _, htotal⟩
    · rintro ⟨shape, hn, rfl, -, -, hl, -⟩
      cases hn
      cases hl
      exact ⟨by simp, rfl⟩
  | cons e es ih =>
    unfold layoutEntries
    cases hp : normalizePath e.path with
    | error err =>
      refine iff_of_false (fun h => by cases h) ?_
      rintro ⟨shape, hn, -⟩
      cases hn with
      | cons hx _ =>
        have hx := hx.1
        rw [hp] at hx
        cases hx
    | ok p =>
      dsimp only
      -- what stands at the head of the shape, and how the rest goes on from it
      have hcons : ∀ shape, List.Forall₂ Normalizes (e :: es) shape ↔
          ∃ rest, shape = (p, e.kind) :: rest ∧ List.Forall₂ Normalizes es rest := by
        intro shape
        rw [List.forall₂_cons_left_iff]
        constructor
        · rintro ⟨x, rest, ⟨hx, hk⟩, hrest, rfl⟩
          rw [hp, Except.ok.injEq] at hx
          exact ⟨rest, by rw [hx, ← hk], hrest⟩
        · rintro ⟨rest, rfl, hrest⟩
          exact ⟨_, rest, ⟨hp, rfl⟩, hrest, rfl⟩
      by_cases hseen : p ∈ seen.map (·.1)
      · rw [if_pos hseen]
        refine iff_of_false (fun h => by cases h) ?_
        rintro ⟨shape, hn, -, -, hout, -⟩
        obtain ⟨rest, rfl, -⟩ := (hcons shape).1 hn
        exact hout _ List.mem_cons_self hseen
      · rw [if_neg hseen]
        have hsplit : ∀ rest : List (Str × EntryKind),
            (rest.map (·.1)).Nodup ∧ (∀ x ∈ rest, x.1 ∉ (seen ++ [(p, e.kind)]).map (·.1)) ↔
              (((p, e.kind) :: rest).map (·.1)).Nodup ∧ ∀ x ∈ (p, e.kind) :: rest, x.1 ∉ seen.map (·.1) := by
          intro rest
          rw [List.map_cons, List.nodup_cons]
          constructor
          · rintro ⟨hnd, hout⟩
            refine ⟨⟨fun hmem => ?_, hnd⟩, fun x hx => ?_⟩
            · obtain ⟨x, hx, hxp⟩ := List.mem_map.1 hmem
              exact (forall_not_mem_append.1 (hout x hx)).2 hxp
            · rcases List.mem_cons.1 hx with rfl | hx
              · exact hseen
              · exact (forall_not_mem_append.1 (hout x hx)).1
          · rintro ⟨⟨hp', hnd⟩, hout⟩
            refine ⟨hnd, fun x hx => forall_not_mem_append.2 ⟨hout x (List.mem_cons_of_mem _ hx), fun heq => hp' ?_⟩⟩
            exact List.mem_map.2 ⟨x, hx, heq⟩
        have hrest : ∀ next, next ≤ u64Max →
            (layoutEntries es (seen ++ [(p, e.kind)]) next = .ok (shape', stop) ↔
              ∃ shape, List.Forall₂ Normalizes (e :: es) shape ∧ shape' = seen ++ shape ∧ (shape.map (·.1)).Nodup ∧
                (∀ x ∈ shape, x.1 ∉ seen.map (·.1)) ∧ Laid next es stop ∧ stop ≤ u64Max) := by
          intro next hnext
          rw [ih hnext]
          constructor
          · rintro ⟨rest, hn, rfl, hnd, hout, hl⟩
            obtain ⟨hnd, hout⟩ := (hsplit rest).1 ⟨hnd, hout⟩
            exact ⟨_, (hcons _).2 ⟨rest, rfl, hn⟩, by simp, hnd, hout, hl⟩
          · rintro ⟨shape, hn, rfl, hnd, hout, hl⟩
            obtain ⟨rest, rfl, hrest⟩ := (hcons _).1 hn
            obtain ⟨hnd, hout⟩ := (hsplit rest).2 ⟨hnd, hout⟩
            exact ⟨rest, hrest, by simp, hnd, hout, hl⟩
        cases hk : e.kind with
        | file =>
          rw [hk] at hrest
          have hlaid : Laid offset (e :: es) stop ↔ e.dataOffset = offset ∧ Laid (offset + e.size) es stop := by
            constructor
            · intro h
              cases h with
              | file _ ho h => exact ⟨ho, h⟩
              | dir hdir _ =>
                rw [hk] at hdir
                cases hdir
            · rintro ⟨ho, h⟩
              exact .file hk ho h
          simp only [if_true, hlaid]
          by_cases ho : e.dataOffset = offset
          · rw [if_neg (not_not.2 ho)]
            by_cases hmax : offset + e.size > u64Max
            · rw [if_pos hmax]
              refine iff_of_false (fun h => by cases h) ?_
              rintro ⟨shape, -, -, -, -, ⟨-, hl⟩, hstop⟩
              have := hl.le
              omega
            · rw [if_neg hmax, hrest _ (by omega)]
              simp only [ho, true_and]
          · rw [if_pos ho]
            refine iff_of_false (fun h => by cases h) ?_
            rintro ⟨shape, -, -, -, -, ⟨ho', -⟩, -⟩
            exact ho ho'
        | dir =>
          rw [hk] at hrest
          have hlaid : Laid offset (e :: es) stop ↔ Laid offset es stop := by
            constructor
            · intro h
              cases h with
              | file hfile _ _ =>
                rw [hk] at hfile
                cases hfile
              | dir _ h => exact h
            · exact .dir hk
          simp only [reduceCtorEq, if_false, hlaid]
          exact hrest _ htotal

/-! ### Layouts -/

variable {m : Manifest} {chunkSize dataLen : Nat} {layout : Nat × Nat}

/-- What the reader accepts. -/
theorem validateManifestLayout_iff :
    validateManifestLayout m chunkSize dataLen = .ok layout ↔ chunkSize ≠ 0 ∧ m.entries.length ≤ maxManifestEntries ∧
      (∃ shape, Shaped m.entries shape) ∧ Laid 0 m.entries layout.1 ∧ layout.2 = numChunks layout.1 chunkSize ∧
        layout.2 ≤ u32Max ∧ layout.1 + layout.2 * tagLen ≤ u64Max ∧ dataLen = layout.1 + layout.2 * tagLen := by
  rw [validateManifestLayout_eq_ok]
  simp only [layoutEntries_eq_ok (Nat.zero_le u64Max), checkTreeShape_eq_ok, List.nil_append]
  constructor
  · rintro ⟨hne, hcount, shape', ⟨shape, hn, heq, hnd, -, hl, -⟩, hnum, hmax, htree, hlen, hdata⟩
    rw [heq] at htree
    exact ⟨hne, hcount, ⟨shape, hn, hnd, htree⟩, hl, hnum, hmax, hlen, hdata⟩
  · rintro ⟨hne, hcount, ⟨shape, hn, hnd, htree⟩, hl, hnum, hmax, hlen, hdata⟩
    exact ⟨hne, hcount, shape, ⟨shape, hn, rfl, hnd, by simp, hl, by omega⟩, hnum, hmax, htree, hlen, hdata⟩

/-- A manifest of files one after the other has this layout, if the reader accepts it. -/
theorem layout_eq (hl : Laid 0 m.entries total) (h : validateManifestLayout m chunkSize dataLen = .ok layout) :
    layout = (total, numChunks total chunkSize) := by
  obtain ⟨-, -, -, hl', hnum, -⟩ := validateManifestLayout_iff.1 h
  obtain ⟨layoutTotal, count⟩ := layout
  obtain rfl : total = layoutTotal := hl.unique hl'
  rw [← show count = numChunks total chunkSize from hnum]

/-- The reader accepts a manifest of files one after the other when its paths have the shape of a tree and there are not
too many entries and chunks. -/
theorem layout_iff (hl : Laid 0 m.entries total) (hne : chunkSize ≠ 0) (hle : chunkSize ≤ maxChunkSize) :
    (∃ layout, validateManifestLayout m chunkSize (dataCiphertextLen total chunkSize) = .ok layout) ↔
      m.entries.length ≤ maxManifestEntries ∧ numChunks total chunkSize ≤ u32Max ∧ ∃ shape, Shaped m.entries shape := by
  constructor
  · rintro ⟨layout, h⟩
    have heq := layout_eq hl h
    obtain ⟨-, hcount, hshape, -, hnum, hmax, -⟩ := validateManifestLayout_iff.1 h
    rw [hnum, heq] at hmax
    exact ⟨hcount, hmax, hshape⟩
  · rintro ⟨hcount, hmax, hshape⟩
    refine ⟨(total, numChunks total chunkSize), validateManifestLayout_iff.2 ⟨hne, hcount, hshape, hl, rfl, hmax, ?_, rfl⟩⟩
    have h1 := le_numChunks_mul total (Nat.pos_of_ne_zero hne)
    have h2 := Nat.mul_le_mul hmax hle
    have h3 := Nat.mul_le_mul_right tagLen hmax
    have hbound : u32Max * maxChunkSize + u32Max * tagLen ≤ u64Max := by decide
    dsimp only
    omega

end FileSec.Fsec
