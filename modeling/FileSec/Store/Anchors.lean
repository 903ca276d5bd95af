import FileSec.Store.Machine

/-!
# Anchors

Where the high-water anchors of a store are kept: one record per object in the secure storage of the operating system,
or all of them in one file of the data directory.  `Store.anchor` is what `get_anchor_locked` reads when the machine does
all it is asked to; `putAnchorLocked` changes the anchor of one object and nothing else (`Store.Put`).
-/

namespace FileSec

open CrashDir Folders Prog

variable {S : StorePrims}

/-- `ANCHORS_FILE` -/
def anchorsFile : Str := ".state-anchors".toList

/-- `ANCHORS_VERSION` -/
def anchorsVersion : Nat := 1

/-- `ANCHOR_ROOT_VERSION` -/
def anchorRootVersion : Nat := 2

/-- `OBJECT_ANCHOR_VERSION` -/
def objectAnchorVersion : Nat := 1

/-- `MAX_SECURE_ANCHOR_RECORD` -/
def maxSecureAnchorRecord : Nat := 2048

/-- `MAX_ANCHOR_OBJECT_ID` -/
def maxAnchorObjectId : Nat := 128

/-- The bound of `load_file_anchor_set_locked`. -/
def maxAnchorsFileLen : Nat := 4 * 1024 * 1024

/-- `object_tag` -/
def objectTag : StateObjectType → Str
  | .keystore => "keystore".toList
  | .contacts => "contacts".toList
  | .registry => "registry".toList
  | .vaultManifest => "vault".toList

/-- `object_anchor_account` -/
def objectAnchorAccount (root : Str) (objectType : StateObjectType) (objectId : Str) : Str :=
  "anchor:".toList ++ objectTag objectType ++ [':'] ++ hex (asBytes objectId) ++ ['@'] ++ root

/-- The anchor is of the given object. -/
def StateAnchor.Of {Digest : Type} (a : StateAnchor Digest) (objectType : StateObjectType) (objectId : Str) : Prop :=
  a.objectType = objectType ∧ a.objectId = objectId

instance {Digest : Type} (a : StateAnchor Digest) (objectType : StateObjectType) (objectId : Str) :
    Decidable (a.Of objectType objectId) := inferInstanceAs (Decidable (_ ∧ _))

/-! ### The degraded file -/

/-- The label of the file in the errors of reading it. -/
def anchorsLabel : Str := "state anchor file".toList

/-- What `load_file_anchor_set_locked` makes of the file. -/
def Store.fileAnchorSet (s : Store S) : StoreResult (AnchorSet S.Digest) :=
  match s.root.get anchorsFile with
  | none => .ok ⟨anchorsVersion, [], none⟩
  | some raw =>
    if S.rawLen raw > maxAnchorsFileLen then
      .error (anchorsLabel ++ ": ".toList ++ (Error.format "file too large".toList).display)
    else if S.rawLen raw = 0 then .ok ⟨anchorsVersion, [], none⟩
    else
      match S.anchorSet.decode raw with
      | none => .error Error.serialization.display
      | some set =>
        if set.version ≠ anchorsVersion then .error "unsupported state anchor format".toList else .ok set

/-- `load_file_anchor_set_locked` -/
def loadFileAnchorSetLocked : StoreM S (AnchorSet S.Digest) := do
  let s ← get
  if (s.root.get anchorsFile).isSome then call (anchorsLabel ++ ": ".toList ++ (Error.io ioText).display) else pure ()
  liftM s.fileAnchorSet

/-- `save_file_anchor_set_locked` -/
def saveFileAnchorSetLocked (set : AnchorSet S.Digest) : StoreM S Unit :=
  writePrivateAtomic anchorsFile (S.anchorSet.encode set)

/-! ### Reading and writing anchors -/

/-- `secure_storage` -/
def secureStorage : StoreM S (Str → Option S.Raw) := do
  let s ← get
  match s.secure with
  | none => throw "OS secure storage is not available in this build".toList
  | some records => pure records

/-- The error of a failing read of the secure storage. -/
def readAnchorsText : Str := "could not read rollback anchors: ".toList ++ ioText

/-- The error of a failing write of the secure storage. -/
def saveAnchorsText : Str := "could not save rollback anchors: ".toList ++ ioText

/-- `SecureAnchorStorage::load`, with the error of its callers. -/
def loadSecure (account : Str) : StoreM S (Option S.Raw) := do
  let records ← secureStorage
  call readAnchorsText
  pure (records account)

/-- `SecureAnchorStorage::save`, with the error of its callers. -/
def saveSecure (account : Str) (bytes : S.Raw) : StoreM S Unit := do
  let records ← secureStorage
  call saveAnchorsText
  modify fun s => { s with secure := some (Function.update records account (some bytes)) }

/-- The anchor that a record of the secure storage holds for an object. -/
def storedAnchor (S : StorePrims) (objectType : StateObjectType) (objectId : Str) :
    Option S.Raw → StoreResult (Option (StateAnchor S.Digest))
  | none => .ok none
  | some bytes =>
    match S.objectAnchor.decode bytes with
    | none => .error Error.serialization.display
    | some record =>
      if record.version ≠ objectAnchorVersion ∨ ¬ record.anchor.Of objectType objectId then
        .error ("malformed rollback anchor record for ".toList ++ objectType.display ++ [' '] ++ objectId)
      else .ok (some record.anchor)

/-- `get_anchor_locked` -/
def getAnchorLocked (objectType : StateObjectType) (objectId : Str) : StoreM S (Option (StateAnchor S.Digest)) := do
  let s ← get
  match s.backend with
  | .secureStorage => do
    let bytes ← loadSecure (objectAnchorAccount s.account objectType objectId)
    liftM (storedAnchor S objectType objectId bytes)
  | .degradedFile => do
    let set ← loadFileAnchorSetLocked
    pure (set.anchors.find? fun a => a.Of objectType objectId)

/-- `put_anchor_locked` -/
def putAnchorLocked (anchor : StateAnchor S.Digest) : StoreM S Unit :=
  if byteLen anchor.objectId > maxAnchorObjectId then throw "state object id is too long to anchor".toList
  else do
    let s ← get
    match s.backend with
    | .secureStorage =>
      let bytes := S.objectAnchor.encode ⟨objectAnchorVersion, anchor⟩
      if S.rawLen bytes > maxSecureAnchorRecord then
        throw "rollback anchor record exceeds the secure-storage limit".toList
      else saveSecure (objectAnchorAccount s.account anchor.objectType anchor.objectId) bytes
    | .degradedFile => do
      let set ← loadFileAnchorSetLocked
      saveFileAnchorSetLocked
        { set with anchors := upsertBy (fun a => a.Of anchor.objectType anchor.objectId) anchor set.anchors }

/-! ### Accounts -/

theorem asBytes_injective : Function.Injective asBytes := by
  intro s t h
  have henc : s.utf8Encode = t.utf8Encode := congrArg List.toByteArray h
  have hs := @List.utf8Decode?_utf8Encode s
  rw [henc, List.utf8Decode?_utf8Encode, Option.some.injEq] at hs
  exact (List.toArray_inj hs).symm

private theorem not_mem_hex (c : Char) (h : isBlobIdChar c = false) (bytes : Bytes) : c ∉ hex bytes := by
  intro hc
  have hall := List.all_eq_true.1 (hex_all bytes).1 c hc
  rw [h] at hall
  simp at hall

/-- The first separator of a text splits it in one way. -/
private theorem split_inj {α : Type} {c : α} {x y u v : List α} (hx : c ∉ x) (hy : c ∉ y)
    (h : x ++ c :: u = y ++ c :: v) : x = y ∧ u = v := by
  induction x generalizing y with
  | nil =>
    cases y with
    | nil => simpa using h
    | cons b y =>
      rw [List.nil_append, List.cons_append, List.cons.injEq] at h
      exact absurd (h.1 ▸ List.mem_cons_self) hy
  | cons a x ih =>
    cases y with
    | nil =>
      rw [List.nil_append, List.cons_append, List.cons.injEq] at h
      exact absurd (h.1 ▸ List.mem_cons_self) hx
    | cons b y =>
      rw [List.cons_append, List.cons_append, List.cons.injEq] at h
      obtain ⟨rfl, hu⟩ := ih (List.not_mem_of_not_mem_cons hx) (List.not_mem_of_not_mem_cons hy) h.2
      exact ⟨by rw [h.1], hu⟩

/-- Different objects have different accounts. -/
theorem objectAnchorAccount_inj {root id id' : Str} {ty ty' : StateObjectType}
    (h : objectAnchorAccount root ty id = objectAnchorAccount root ty' id') : ty = ty' ∧ id = id' := by
  unfold objectAnchorAccount at h
  simp only [List.append_assoc, List.append_cancel_left_eq, List.nil_append, List.cons_append] at h
  have htag : ∀ t : StateObjectType, ':' ∉ objectTag t := by
    intro t
    cases t <;> decide
  obtain ⟨hty, hid⟩ := split_inj (htag _) (htag _) h
  obtain ⟨hhex, -⟩ := split_inj (not_mem_hex _ (by decide) _) (not_mem_hex _ (by decide) _) hid
  refine ⟨?_, asBytes_injective (hex_injective hhex)⟩
  cases ty <;> cases ty' <;> first | rfl | exact absurd hty (by decide)

/-- The root record has an account of its own. -/
theorem account_ne_objectAnchorAccount (s : Store S) (ty : StateObjectType) (id : Str) :
    s.account ≠ objectAnchorAccount s.account ty id := by
  intro h
  refine s.account_absolute (h ▸ ?_)
  unfold objectAnchorAccount
  simp only [List.append_assoc]
  exact List.prefix_append _ _

/-! ### What the backend holds -/

/-- What `get_anchor_locked` returns when the machine does all it is asked to. -/
def Store.anchor (s : Store S) (objectType : StateObjectType) (objectId : Str) :
    StoreResult (Option (StateAnchor S.Digest)) :=
  match s.backend with
  | .secureStorage =>
    match s.secure with
    | none => .error "OS secure storage is not available in this build".toList
    | some records => storedAnchor S objectType objectId (records (objectAnchorAccount s.account objectType objectId))
  | .degradedFile => s.fileAnchorSet.map fun set => set.anchors.find? fun a => a.Of objectType objectId

/-- The store after `k` more calls of the operating system. -/
def Store.later (s : Store S) (k : Nat) : Store S := { s with works := fun i => s.works (i + k) }

@[simp] theorem later_tick (s : Store S) (k : Nat) : (s.later k).tick = s.later (k + 1) := by
  unfold Store.later Store.tick
  congr 1
  funext i
  show s.works (i + 1 + k) = s.works (i + (k + 1))
  rw [Nat.add_assoc, Nat.add_comm 1 k]

@[simp] theorem later_later (s : Store S) (j k : Nat) : (s.later j).later k = s.later (j + k) := by
  unfold Store.later
  congr 1
  funext i
  show s.works (i + k + j) = s.works (i + (j + k))
  rw [Nat.add_assoc, Nat.add_comm k j]

@[simp] theorem anchor_later (s : Store S) (k : Nat) (ty : StateObjectType) (id : Str) :
    (s.later k).anchor ty id = s.anchor ty id := rfl

/-- The machine does all it is asked to. -/
def Store.Working (s : Store S) : Prop := ∀ i, s.works i = true

theorem Store.Working.later {s : Store S} (h : s.Working) (k : Nat) : (s.later k).Working := fun i => h (i + k)

/-- A read ends with what the store holds, unless the machine failed. -/
structure Store.Read {α : Type} (s : Store S) (value : StoreResult α) (r : StoreResult α) (s' : Store S) : Prop where
  later : ∃ k, s' = s.later k
  of_ok : ∀ a, r = .ok a → value = .ok a
  working : s.Working → r = value

theorem Store.Read.map {α β : Type} {s s' : Store S} {value r : StoreResult α} (f : α → β) (h : s.Read value r s') :
    s.Read (value.map f) (r.map f) s' := by
  obtain ⟨hlater, hok, hworking⟩ := h
  refine ⟨hlater, fun b hb => ?_, fun hw => by rw [hworking hw]⟩
  cases r with
  | error e => simp [Except.map] at hb
  | ok a =>
    rw [hok a rfl]
    exact hb

theorem Store.Read.of_value {α : Type} {s : Store S} {value : StoreResult α} (k : Nat) : s.Read value value (s.later k) :=
  ⟨⟨k, rfl⟩, fun _ h => h, fun _ => rfl⟩

theorem Store.Read.of_failure {α : Type} {s : Store S} {value : StoreResult α} {e : Str} (k : Nat)
    (hf : s.works 0 = false) : s.Read value (.error e) (s.later k) := by
  refine ⟨⟨k, rfl⟩, by simp, fun hw => ?_⟩
  rw [hw 0] at hf
  simp at hf

theorem loadFileAnchorSetLocked_spec (s : Store S) : wp loadFileAnchorSetLocked (s.Read s.fileAnchorSet) s := by
  unfold loadFileAnchorSetLocked
  simp only [wp_bind, wp_get, wp_ite, wp_call, wp_liftM]
  exact ⟨fun _ => ⟨fun _ => .of_value 1, fun hf => .of_failure 1 hf⟩, fun _ => .of_value 0⟩

theorem getAnchorLocked_spec (ty : StateObjectType) (id : Str) (s : Store S) :
    wp (getAnchorLocked ty id) (s.Read (s.anchor ty id)) s := by
  unfold getAnchorLocked Store.anchor
  simp only [wp_bind, wp_get]
  cases hb : s.backend with
  | secureStorage =>
    unfold loadSecure secureStorage
    simp only [wp_bind, wp_get]
    cases hs : s.secure with
    | none => exact .of_value 0
    | some records =>
      simp only [wp_pure, wp_call, wp_liftM]
      exact ⟨fun _ => .of_value 1, fun hf => .of_failure 1 hf⟩
  | degradedFile =>
    simp only [wp_bind]
    refine wp_mono (loadFileAnchorSetLocked_spec s) ?_
    intro r s' hr
    have hmap := hr.map fun set => set.anchors.find? fun a => a.Of ty id
    cases r with
    | error e => exact hmap
    | ok set => exact hmap

/-! ### Writing an anchor -/

/-- The store with other records in the secure storage. -/
def Store.withSecure (s : Store S) (records : Str → Option S.Raw) : Store S := { s with secure := some records }

/-- The store with other files in the data directory. -/
def Store.withRoot (s : Store S) (root : Folder Str S.Raw) : Store S := { s with root := root }

/-- What the degraded file holds after the anchor has been put. -/
def AnchorSet.put {Digest : Type} (set : AnchorSet Digest) (a : StateAnchor Digest) : AnchorSet Digest :=
  { set with anchors := upsertBy (fun b => b.Of a.objectType a.objectId) a set.anchors }

/-- The store after the backend has taken the anchor `a`. -/
inductive Store.Put (s : Store S) (a : StateAnchor S.Digest) : Store S → Prop
  | secure (records : Str → Option S.Raw) (k : Nat) (hb : s.backend = .secureStorage) (hr : s.secure = some records) :
      s.Put a ((s.later k).withSecure (Function.update records (objectAnchorAccount s.account a.objectType a.objectId)
        (some (S.objectAnchor.encode ⟨objectAnchorVersion, a⟩))))
  | degraded (set : AnchorSet S.Digest) (k : Nat) (ok : Bool) (hb : s.backend = .degradedFile)
      (hset : s.fileAnchorSet = .ok set) :
      s.Put a ((s.later k).withRoot ((s.root.put anchorsFile (S.anchorSet.encode (set.put a))).sync ok))

theorem putAnchorLocked_spec (a : StateAnchor S.Digest) (s : Store S) :
    wp (putAnchorLocked a) (fun r s' => match r with
      | .ok () => s.Put a s'
      | .error _ => ∃ k, s' = s.later k) s := by
  unfold putAnchorLocked
  simp only [wp_ite, wp_bind, wp_get]
  refine ⟨fun _ => ⟨0, rfl⟩, fun _ => ?_⟩
  cases hb : s.backend with
  | secureStorage =>
    simp only [wp_ite]
    refine ⟨fun _ => ⟨0, rfl⟩, fun _ => ?_⟩
    unfold saveSecure secureStorage
    simp only [wp_bind, wp_get]
    cases hs : s.secure with
    | none => exact ⟨0, rfl⟩
    | some records =>
      simp only [wp_pure, wp_call, wp_modify]
      exact ⟨fun _ => .secure records 1 hb hs, fun _ => ⟨1, rfl⟩⟩
  | degradedFile =>
    simp only [wp_bind]
    refine wp_mono (loadFileAnchorSetLocked_spec s) ?_
    rintro r s' ⟨⟨k, rfl⟩, hok, -⟩
    cases r with
    | error e => exact ⟨k, rfl⟩
    | ok set =>
      have hset := hok set rfl
      unfold saveFileAnchorSetLocked writePrivateAtomic
      simp only [wp_bind, wp_call, wp_attempt, wp_modify, later_tick]
      refine ⟨fun _ => ⟨fun _ => ?_, fun _ => ?_⟩, fun _ => ⟨k + 1, rfl⟩⟩
      · exact .degraded set (k + 2) true hb hset
      · exact .degraded set (k + 2) false hb hset

private theorem find_upsertBy {α : Type} {p q : α → Bool} {a : α} (l : List α) (hq : q a = false)
    (hpq : ∀ b, p b = true → q b = false) : (upsertBy p a l).find? q = l.find? q := by
  induction l with
  | nil => simp [upsertBy, hq]
  | cons b l ih =>
    unfold upsertBy
    cases hp : p b with
    | true =>
      rw [if_pos rfl, List.find?_cons, List.find?_cons, hq, hpq b hp]
    | false =>
      rw [if_neg (by simp), List.find?_cons, List.find?_cons, ih]

private theorem find_upsertBy_self {α : Type} {p : α → Bool} {a : α} (l : List α) (ha : p a = true) :
    (upsertBy p a l).find? p = some a := by
  induction l with
  | nil => simp [upsertBy, ha]
  | cons b l ih =>
    unfold upsertBy
    cases hp : p b with
    | true => rw [if_pos rfl, List.find?_cons, ha]
    | false => rw [if_neg (by simp), List.find?_cons, hp, ih]

section Put

variable {s s' : Store S} {a : StateAnchor S.Digest}

theorem storedAnchor_encode (a : StateAnchor S.Digest) :
    storedAnchor S a.objectType a.objectId (some (S.objectAnchor.encode ⟨objectAnchorVersion, a⟩)) = .ok (some a) := by
  simp [storedAnchor, StateAnchor.Of]

/-- What the degraded file reads as after a set has been written to it. -/
theorem fileAnchorSet_encode (s : Store S) {root : Folder Str S.Raw} (set : AnchorSet S.Digest)
    (hroot : root.get anchorsFile = some (S.anchorSet.encode set)) :
    (s.withRoot root).fileAnchorSet = .ok set ∨ ∃ e, (s.withRoot root).fileAnchorSet = .error e := by
  have hpos := S.rawLen_anchorSet set
  have hget : (s.withRoot root).root.get anchorsFile = some (S.anchorSet.encode set) := hroot
  unfold Store.fileAnchorSet
  rw [hget]
  simp only [RawCodec.decode_encode]
  split
  · exact Or.inr ⟨_, rfl⟩
  · rw [if_neg (by omega)]
    split
    · exact Or.inr ⟨_, rfl⟩
    · exact Or.inl rfl

/-- The anchor of the object is the one put, and the others are as before; or the degraded file has grown too large to
be read. -/
theorem Store.Put.anchor (h : s.Put a s') :
    (s'.anchor a.objectType a.objectId = .ok (some a) ∧
      ∀ ty id, ¬ a.Of ty id → s'.anchor ty id = s.anchor ty id) ∨
    (s.backend = .degradedFile ∧ ∃ e, ∀ ty id, s'.anchor ty id = .error e) := by
  cases h with
  | secure records k hb hr =>
    refine Or.inl ⟨?_, fun ty id hne => ?_⟩
    · have hself := storedAnchor_encode a
      unfold Store.anchor Store.withSecure Store.later
      simp only [hb, Function.update_self, hself]
    · unfold Store.anchor Store.withSecure Store.later
      simp only [hb, hr]
      rw [Function.update_of_ne]
      intro hacc
      obtain ⟨rfl, rfl⟩ := objectAnchorAccount_inj hacc
      exact hne ⟨rfl, rfl⟩
  | degraded set k ok hb hset =>
    have hback : ∀ root, ((s.later k).withRoot root).backend = .degradedFile := fun _ => hb
    have hanchor : ∀ root ty id, ((s.later k).withRoot root).anchor ty id =
        (((s.later k).withRoot root).fileAnchorSet).map fun set => set.anchors.find? fun b => b.Of ty id := by
      intro root ty id
      unfold Store.anchor
      rw [hback root]
    have hold : ∀ ty id, s.anchor ty id = .ok (set.anchors.find? fun b => b.Of ty id) := by
      intro ty id
      unfold Store.anchor
      rw [hb]
      simp only [hset]
      rfl
    have hget : ((s.root.put anchorsFile (S.anchorSet.encode (set.put a))).sync ok).get anchorsFile =
        some (S.anchorSet.encode (set.put a)) := by
      simp
    rcases fileAnchorSet_encode (s.later k) (set.put a) hget with hf | ⟨e, hf⟩
    · refine Or.inl ⟨?_, fun ty id hne => ?_⟩
      · rw [hanchor, hf]
        exact congrArg Except.ok (find_upsertBy_self _ (by simp [StateAnchor.Of]))
      · rw [hanchor, hf, hold]
        refine congrArg Except.ok (find_upsertBy _ (by simp [hne]) fun b hb => ?_)
        have hbo : b.Of a.objectType a.objectId := by simpa using hb
        have : ¬ b.Of ty id := fun hof => hne ⟨hbo.1.symm.trans hof.1, hbo.2.symm.trans hof.2⟩
        simpa using this
    · refine Or.inr ⟨hb, e, fun ty id => ?_⟩
      rw [hanchor, hf]
      rfl

end Put

end FileSec
