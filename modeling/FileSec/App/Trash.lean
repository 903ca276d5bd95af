import FileSec.App.Additions
import FileSec.Ensure
import FileSec.Lib.Utf8

/-!
# The trash

A deleted entry is moved to a hidden name below `.trash` that says when it was deleted and from where (`app.rs`).  What
the browser and the trash panel list is computed from the paths alone.  The names give their original paths back
(`parseTrashToken_trashDest`).
-/

namespace FileSec

open SepPath

/-! ### Names -/

/-- `parent_dir` -/
def parentDir (path : Str) : Str :=
  match rsplitOnce '/' path with
  | some (parent, _) => parent
  | none => []

/-- `leaf_name` -/
def leafName (path : Str) : Str :=
  match rsplitOnce '/' path with
  | some (_, leaf) => leaf
  | none => path

/-- `split_once` -/
def splitOnce (c : Char) : Str → Option (Str × Str)
  | [] => none
  | a :: s => if a = c then some ([], s) else (splitOnce c s).map fun p => (a :: p.1, p.2)

/-- `pct_encode_seg` -/
def pctEncodeSeg (s : Str) : Str :=
  s.flatMap fun c => if c = '%' then "%25".toList else if c = '/' then "%2F".toList else [c]

/-- `char::to_digit(16)` of a byte -/
def hexValue (b : UInt8) : Option UInt8 :=
  if 0x30 ≤ b ∧ b ≤ 0x39 then some (b - 0x30)
  else if 0x61 ≤ b ∧ b ≤ 0x66 then some (b - 0x57)
  else if 0x41 ≤ b ∧ b ≤ 0x46 then some (b - 0x37)
  else none

/-- The loop of `pct_decode_seg`. -/
def pctDecodeBytes : Bytes → Bytes
  | b :: hi :: lo :: rest =>
    if b = 0x25 then
      match hexValue hi, hexValue lo with
      | some h, some l => (h * 16 + l) :: pctDecodeBytes rest
      | _, _ => b :: pctDecodeBytes (hi :: lo :: rest)
    else b :: pctDecodeBytes (hi :: lo :: rest)
  | bytes => bytes

/-- `pct_decode_seg` -/
def pctDecodeSeg (s : Str) : Str := Utf8.lossy (pctDecodeBytes (asBytes s))

/-- `trash_dest` -/
def trashDest (deletedAt : Int) (randHex orig : Str) : Str :=
  trashDir ++ '/' :: ((toString deletedAt).toList ++ '-' :: (randHex ++ '-' :: pctEncodeSeg orig))

/-- A number of decimal digits. -/
def parseDigits (s : Str) : Option Nat := if s ≠ [] ∧ s.all Char.isDigit then some (Nat.ofDigitChars 10 s 0) else none

/-- `i64::from_str` -/
def parseI64 : Str → Option Int
  | '-' :: digits => (parseDigits digits).bind fun n => if n ≤ 2 ^ 63 then some (-n) else none
  | '+' :: digits => (parseDigits digits).bind fun n => if n < 2 ^ 63 then some n else none
  | digits => (parseDigits digits).bind fun n => if n < 2 ^ 63 then some n else none

/-- `parse_trash_token` -/
def parseTrashToken (trashedPath : Str) : Option (Int × Str) := do
  let token ← ".trash/".toList.isPrefixOf? trashedPath
  let (first, rest) ← splitOnce '-' token
  let deletedAt ← parseI64 first
  let (_, encoded) ← splitOnce '-' rest
  some (deletedAt, pctDecodeSeg encoded)

/-! ### Listings -/

/-- `TrashItem` -/
structure TrashItem where
  trashedPath : Str
  origPath : Str
  deletedAt : Int
  kind : EntryKind
  size : Nat
  files : Nat

/-- The top-level trash entry that a path lies below. -/
def trashTop (path : Str) : Option Str :=
  match ".trash/".toList.isPrefixOf? path with
  | none => none
  | some rest =>
    match splitOnce '/' rest with
    | none => none
    | some (top, _) => some (path.take (".trash/".toList.length + top.length))

/-- One round of `trashed_subtree_totals`. -/
def addTrashed (totals : Str → Option (Nat × Nat)) (e : EntryV2) : Str → Option (Nat × Nat) :=
  if e.kind = .file then
    match trashTop e.path with
    | none => totals
    | some top =>
      let slot := (totals top).getD (0, 0)
      Function.update totals top (some (slot.1 + 1, slot.2 + e.size))
  else totals

/-- `trashed_subtree_totals` -/
def trashedSubtreeTotals (es : List EntryV2) : Str → Option (Nat × Nat) := es.foldl addTrashed fun _ => none

/-- The item of a top-level trash entry. -/
def trashItem (totals : Str → Option (Nat × Nat)) (e : EntryV2) : Option TrashItem := do
  let (deletedAt, origPath) ← parseTrashToken e.path
  let (files, total) := if e.kind = .dir then (totals e.path).getD (0, 0) else (0, e.size)
  some ⟨e.path, origPath, deletedAt, e.kind, total, files⟩

/-- Later items come first, and items of one time in the order of their original paths. -/
def TrashItem.before (a b : TrashItem) : Bool :=
  b.deletedAt < a.deletedAt ∨ (a.deletedAt = b.deletedAt ∧ ¬ b.origPath < a.origPath)

/-- `trashed_items` -/
def trashedItems (es : List EntryV2) : List TrashItem :=
  ((es.filter fun e => parentDir e.path = trashDir).filterMap (trashItem (trashedSubtreeTotals es))).mergeSort
    TrashItem.before

/-- How text is trimmed and folded to lower case. -/
structure Casing where
  isWhitespace : Char → Bool
  lower : Str → Str
  lower_nil : lower [] = []

/-- `str::trim` -/
def Casing.trim (F : Casing) (s : Str) : Str := ((s.dropWhile F.isWhitespace).reverse.dropWhile F.isWhitespace).reverse

/-- `SortMode` -/
inductive SortMode where
  | nameAsc
  | nameDesc
  | sizeDesc
  | sizeAsc

/-- `Row` -/
structure Row where
  path : Str
  kind : EntryKind
  size : Nat
  children : Nat

/-- The order of `sort_rows`. -/
def Row.before (F : Casing) (sort : SortMode) (a b : Row) : Bool :=
  let name := F.lower (leafName a.path)
  let name' := F.lower (leafName b.path)
  if a.kind ≠ b.kind then a.kind = .dir
  else
    match sort with
    | .nameAsc => ¬ name' < name
    | .nameDesc => ¬ name < name'
    | .sizeDesc => b.size < a.size ∨ (a.size = b.size ∧ ¬ name' < name)
    | .sizeAsc => a.size < b.size ∨ (a.size = b.size ∧ ¬ name' < name)

/-- Whether an entry is among the rows. -/
def isVisible (F : Casing) (dir search path : Str) : Bool :=
  if isTrashed path then false
  else
    let q := F.lower (F.trim search)
    if q = [] then parentDir path = dir else q <:+: F.lower (leafName path)

/-- `visible_rows` -/
def visibleRows (F : Casing) (es : List EntryV2) (dir search : Str) (sort : SortMode) : List Row :=
  ((es.filter fun e => isVisible F dir search e.path).map fun e =>
    ⟨e.path, e.kind, e.size, if e.kind = .dir then (es.filter fun c => parentDir c.path = e.path).length else 0⟩).mergeSort
      (Row.before F sort)

/-! ### Restoring -/

/-- `split_ext` -/
def splitExt (leaf : Str) : Str × Str :=
  match rsplitOnce '.' leaf with
  | some (stem, ext) => if stem = [] then (leaf, []) else (stem, '.' :: ext)
  | none => (leaf, [])

/-- The `n`-th name that is tried in place of the path. -/
def restoredName (desired : Str) (n : Nat) : Str :=
  let (stem, ext) := splitExt (leafName desired)
  let suffix := if n ≤ 1 then " (restored)".toList else " (restored ".toList ++ (toString n).toList ++ ")".toList
  under (parentDir desired) (stem ++ suffix ++ ext)

/-- The loop of `dedup_path`; the first argument bounds the number of rounds. -/
def dedupLoop (taken : List Str) (desired : Str) : Nat → Nat → Str
  | 0, n => restoredName desired n
  | fuel + 1, n => if restoredName desired n ∈ taken then dedupLoop taken desired fuel (n + 1) else restoredName desired n

/-- `dedup_path`; as many names are taken as there are, at most. -/
def dedupPath (taken : List Str) (desired : Str) : Str :=
  if desired ∈ taken then dedupLoop taken desired taken.length 1 else desired

/-! ### The jobs -/

/-- `prune_nested` -/
def pruneNested (paths : List Str) : List Str :=
  paths.filter fun p => !paths.any fun other => other ≠ p && (other ++ ['/']).isPrefixOf p

/-- The pairs of `spawn_move`. -/
def movePairs (existing : List Str) (dest : Str) : List Str → StoreResult (List (Str × Str))
  | [] => .ok []
  | src :: paths =>
    if parentDir src = dest then movePairs existing dest paths
    else if under dest (leafName src) ∈ existing then
      .error ("“".toList ++ leafName src ++ "” already exists in that folder.".toList)
    else (movePairs existing dest paths).map ((src, under dest (leafName src)) :: ·)

/-- What the user does with entries. -/
inductive Tidying where
  /-- `spawn_rename`, to the typed name. -/
  | rename (src typed : Str)
  /-- `spawn_move`, to a folder. -/
  | move (paths : List Str) (dest : Str)
  /-- `spawn_trash_entry`, at a time and with the tag that is drawn. -/
  | trash (path : Str) (now : Int) (tag : Str)
  /-- `spawn_restore` -/
  | restore (trashedPath : Str)
  /-- `spawn_purge` -/
  | purge (trashedPath : Str)
  /-- `spawn_empty_trash` -/
  | emptyTrash

/-- The operations of `spawn_rename`. -/
def renameOps (F : Casing) (es : List EntryV2) (src typed : Str) : StoreResult (List Op) :=
  let leaf := F.trim typed
  let dst := under (parentDir src) leaf
  if leaf = [] then .error "Enter a name.".toList
  else if '/' ∈ leaf then .error "Names can't contain “/”.".toList
  else if dst = src then .ok []
  else if dst ∈ pathsOf es then .error ("“".toList ++ leaf ++ "” already exists here.".toList)
  else .ok [.rename src dst]

/-- The operations on the vault with these entries; `rename_in_vault` and `remove_paths_from_vault` run them in batches. -/
def Tidying.ops (F : Casing) (es : List EntryV2) : Tidying → StoreResult (List Op)
  | .rename src typed => renameOps F es src typed
  | .move paths dest => do
    let pairs ← movePairs (pathsOf es) dest (pruneNested paths)
    if pairs = [] then .error "Those items are already there.".toList
    else .ok (pairs.map fun p => .rename p.1 p.2)
  | .trash path now tag => .ok [.rename path (trashDest now tag path)]
  | .restore trashedPath =>
    match parseTrashToken trashedPath with
    | none => .error "That item's original name couldn't be read.".toList
    | some (_, orig) => .ok [.rename trashedPath (dedupPath (pathsOf es) orig)]
  | .purge trashedPath => .ok [.remove trashedPath]
  | .emptyTrash => .ok [.remove trashDir]

/-! ### Names that come back -/

theorem splitOnce_append {c : Char} {s : Str} (t : Str) (h : c ∉ s) : splitOnce c (s ++ c :: t) = some (s, t) := by
  induction s with
  | nil => simp [splitOnce]
  | cons a s ih =>
    rw [List.mem_cons, not_or] at h
    rw [List.cons_append, splitOnce, if_neg (Ne.symm h.1), ih h.2]
    rfl

private theorem pctDecodeBytes_cons {b : UInt8} (h : b ≠ 0x25) (bytes : Bytes) :
    pctDecodeBytes (b :: bytes) = b :: pctDecodeBytes bytes := by
  rcases bytes with _ | ⟨hi, _ | ⟨lo, rest⟩⟩
  · rfl
  · rfl
  · rw [pctDecodeBytes, if_neg h]

private theorem pctDecodeBytes_append {bytes : Bytes} (h : ∀ b ∈ bytes, b ≠ 0x25) (rest : Bytes) :
    pctDecodeBytes (bytes ++ rest) = bytes ++ pctDecodeBytes rest := by
  induction bytes with
  | nil => rfl
  | cons b bytes ih =>
    rw [List.cons_append, pctDecodeBytes_cons (h b List.mem_cons_self), ih fun b' hb' => h b' (List.mem_cons_of_mem _ hb'),
      List.cons_append]

/-- No byte of another character is that of `%`. -/
private theorem utf8EncodeChar_ne_percent {c : Char} (h : c ≠ '%') : ∀ b ∈ String.utf8EncodeChar c, b ≠ 0x25 := by
  have hval : c.val.toNat ≠ 0x25 := fun he => h (Char.ext (UInt32.toNat_inj.1 he))
  have hlt : c.val.toNat < 0x110000 := by
    rcases c.valid with h | h
    · exact Nat.lt_trans h (by decide)
    · exact h.2
  intro b hb he
  subst he
  have hbyte : ∀ n, (0x25 : UInt8) = UInt8.ofNat n → n % 256 = 0x25 := by
    intro n hn
    have := congrArg UInt8.toNat hn
    rw [UInt8.toNat_ofNat'] at this
    exact this.symm
  unfold String.utf8EncodeChar at hb
  dsimp only at hb
  split at hb
  · have := hbyte _ (List.mem_singleton.1 hb)
    omega
  · split at hb
    · simp only [List.mem_cons, List.not_mem_nil, or_false] at hb
      rcases hb with hb | hb
      · have := hbyte _ hb
        omega
      · have := hbyte _ hb
        omega
    · split at hb
      · simp only [List.mem_cons, List.not_mem_nil, or_false] at hb
        rcases hb with hb | hb | hb
        · have := hbyte _ hb
          omega
        · have := hbyte _ hb
          omega
        · have := hbyte _ hb
          omega
      · simp only [List.mem_cons, List.not_mem_nil, or_false] at hb
        rcases hb with hb | hb | hb | hb
        · have := hbyte _ hb
          omega
        · have := hbyte _ hb
          omega
        · have := hbyte _ hb
          omega
        · have := hbyte _ hb
          omega

/-- Decoding a segment undoes its encoding. -/
theorem pctDecodeSeg_pctEncodeSeg (s : Str) : pctDecodeSeg (pctEncodeSeg s) = s := by
  have hbytes : pctDecodeBytes (asBytes (pctEncodeSeg s)) = Utf8.encode s := by
    induction s with
    | nil => rfl
    | cons c s ih =>
      have hcons : pctEncodeSeg (c :: s) = (if c = '%' then "%25".toList else if c = '/' then "%2F".toList else [c]) ++
          pctEncodeSeg s := rfl
      have happ : ∀ l l' : Str, asBytes (l ++ l') = asBytes l ++ asBytes l' := fun l l' => List.flatMap_append
      rw [hcons, happ, Utf8.encode_cons]
      split
      · rename_i hc
        subst hc
        have hround : ∀ rest, pctDecodeBytes (asBytes "%25".toList ++ rest) = 0x25 :: pctDecodeBytes rest := fun _ => rfl
        rw [hround, ih]
        rfl
      · rename_i hc
        split
        · rename_i hs
          subst hs
          have hround : ∀ rest, pctDecodeBytes (asBytes "%2F".toList ++ rest) = 0x2F :: pctDecodeBytes rest := fun _ => rfl
          rw [hround, ih]
          rfl
        · have hone : asBytes [c] = String.utf8EncodeChar c := List.append_nil _
          rw [hone, pctDecodeBytes_append (utf8EncodeChar_ne_percent hc), ih]
  unfold pctDecodeSeg
  rw [hbytes, Utf8.lossy_encode]

/-- A time that is not before the epoch is written in digits. -/
theorem toString_time {t : Int} (h : 0 ≤ t) : ∃ n : Nat, t = n ∧ (toString t).toList = Nat.toDigits 10 n ∧
    ∀ c ∈ (toString t).toList, c.isDigit = true := by
  obtain ⟨n, rfl⟩ := Int.eq_ofNat_of_zero_le h
  have hstr : (toString (n : Int)).toList = Nat.toDigits 10 n := by
    rw [show toString (n : Int) = toString n from rfl, Nat.toString_eq_repr, Nat.toList_repr]
  refine ⟨n, rfl, hstr, ?_⟩
  rw [hstr]
  exact fun c hc => Nat.isDigit_of_mem_toDigits (by decide) (by decide) hc

theorem not_mem_time {t : Int} (h : 0 ≤ t) {c : Char} (hc : c.isDigit = false) : c ∉ (toString t).toList := by
  obtain ⟨-, -, -, hdigits⟩ := toString_time h
  intro hmem
  rw [hdigits c hmem] at hc
  cases hc

/-- A time that is not before the epoch reads back. -/
private theorem parseI64_toString {t : Int} (h : 0 ≤ t) (hmax : t < 2 ^ 63) : parseI64 (toString t).toList = some t := by
  have hdash : '-' ∉ (toString t).toList := not_mem_time h (by decide)
  have hplus : '+' ∉ (toString t).toList := not_mem_time h (by decide)
  obtain ⟨n, rfl, hstr, hdigits⟩ := toString_time h
  rw [hstr] at hdash hplus hdigits ⊢
  have hparse : parseDigits (Nat.toDigits 10 n) = some n := by
    unfold parseDigits
    rw [if_pos ⟨Nat.toDigits_ne_nil, List.all_eq_true.2 hdigits⟩, Nat.ofDigitChars_toDigits (by decide) (by decide)]
  unfold parseI64
  split
  · rename_i ds heq
    rw [heq] at hdash
    exact absurd List.mem_cons_self hdash
  · rename_i ds heq
    rw [heq] at hplus
    exact absurd List.mem_cons_self hplus
  · rw [hparse, Option.bind_some, if_pos (by exact_mod_cast hmax)]

/-- The name of a deleted entry gives the time and the original path back. -/
theorem parseTrashToken_trashDest {deletedAt : Int} {randHex : Str} (h : 0 ≤ deletedAt) (hmax : deletedAt < 2 ^ 63)
    (hhex : '-' ∉ randHex) (orig : Str) :
    parseTrashToken (trashDest deletedAt randHex orig) = some (deletedAt, orig) := by
  have hparse := parseI64_toString h hmax
  have hdash : '-' ∉ (toString deletedAt).toList := not_mem_time h (by decide)
  have hpre : ".trash/".toList.isPrefixOf? (trashDest deletedAt randHex orig) =
      some ((toString deletedAt).toList ++ '-' :: (randHex ++ '-' :: pctEncodeSeg orig)) :=
    List.isPrefixOf?_eq_some_iff_append_eq.2 rfl
  unfold parseTrashToken
  rw [hpre]
  simp only [Option.bind_eq_bind, Option.bind_some]
  rw [splitOnce_append _ hdash, Option.bind_some, hparse, Option.bind_some, splitOnce_append _ hhex, Option.bind_some,
    pctDecodeSeg_pctEncodeSeg]

end FileSec
