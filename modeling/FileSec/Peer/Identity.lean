import FileSec.Store.Machine

/-!
# Public identities

The shareable half of an identity as it travels: armored text, a pasted key, a contact book or a handshake message
(`identity.rs`).  Whoever compares identities compares fingerprints; `fingerprint_determines` says for which pairs of
identities this is enough.
-/

namespace FileSec.Peer

/-- `PublicIdentity` -/
structure PublicIdentity where
  name : Str
  createdAt : Int
  signPublic : Bytes
  kemPublic : Bytes
  mldsaPublic : Option Bytes
  mlkemPublic : Option Bytes
  signPublic_length : signPublic.length = 32
  kemPublic_length : kemPublic.length = 32
  deriving DecidableEq

/-- The public keys of an identity. -/
def PublicIdentity.keys (p : PublicIdentity) : Bytes × Bytes × Option Bytes × Option Bytes :=
  (p.signPublic, p.kemPublic, p.mldsaPublic, p.mlkemPublic)

/-- `FPR_CONTEXT` -/
def fprContext : Bytes := asBytes "FileSec identity fingerprint v1".toList

/-- The tag before the ML-DSA key. -/
def mldsaTag : Bytes := asBytes "ml-dsa-65".toList

/-- The tag before the ML-KEM key. -/
def mlkemTag : Bytes := asBytes "ml-kem-768".toList

/-- What is hashed of a key that need not be there. -/
def tagged (tag : Bytes) : Option Bytes → Bytes
  | none => []
  | some key => tag ++ key

/-- The bytes that `fingerprint` hashes. -/
def PublicIdentity.preimage (p : PublicIdentity) : Bytes :=
  fprContext ++ p.signPublic ++ p.kemPublic ++ tagged mldsaTag p.mldsaPublic ++ tagged mlkemTag p.mlkemPublic

/-- `PublicIdentity::fingerprint`, for the hash `blake3`. -/
def PublicIdentity.fingerprint {D : Type} (blake3 : Bytes → D) (p : PublicIdentity) : D := blake3 p.preimage

/-- `PublicIdentity::is_hybrid_capable` -/
def PublicIdentity.isHybridCapable (p : PublicIdentity) : Bool := p.mldsaPublic.isSome && p.mlkemPublic.isSome

/-! ### Decoding -/

/-- The codecs below an identity: CBOR, and the decoders of base64 with and without padding. -/
structure KeyText where
  Raw : Type
  cbor : RawCodec Raw PublicIdentity
  base64 : Str → Option Raw
  base64NoPad : Str → Option Raw
  /-- `char::is_whitespace` -/
  isWhitespace : Char → Bool

variable (C : KeyText)

/-- `ARMOR_BEGIN` -/
def armorBegin : Str := "-----BEGIN FILESEC PUBLIC KEY-----".toList

/-- `ARMOR_END` -/
def armorEnd : Str := "-----END FILESEC PUBLIC KEY-----".toList

/-- `MAX_ARMORED_TEXT_LEN` -/
def maxArmoredTextLen : Nat := 128 * 1024

/-- `str::trim` -/
def KeyText.trim (s : Str) : Str := ((s.dropWhile C.isWhitespace).reverse.dropWhile C.isWhitespace).reverse

/-- The trimmed lines of a text. -/
def KeyText.lines (text : Str) : List Str := (text.splitOn '\n').map C.trim

/-- The loop of `from_armored`: the body of the block. -/
def armoredBody : Bool → List Str → Str
  | _, [] => []
  | inBlock, line :: rest =>
    if line = armorBegin then armoredBody true rest
    else if line = armorEnd then []
    else if inBlock then line ++ armoredBody inBlock rest
    else armoredBody inBlock rest

/-- `PublicIdentity::from_bytes` -/
def fromBytes (raw : C.Raw) : Result PublicIdentity :=
  match C.cbor.decode raw with
  | some p => .ok p
  | none => .error .serialization

/-- `PublicIdentity::from_armored` -/
def fromArmored (text : Str) : Result PublicIdentity :=
  if byteLen text > maxArmoredTextLen then .error (.format "armored key is too large".toList)
  else
    let body := armoredBody false (C.lines text)
    if body = [] then .error (.format "no armored public key found".toList)
    else
      match C.base64 body with
      | none => .error (.format "invalid base64 in armored key".toList)
      | some raw => fromBytes C raw

/-- `PublicIdentity::from_pasted` -/
def fromPasted (text : Str) : Result PublicIdentity :=
  if byteLen text > maxArmoredTextLen then .error (.format "pasted key is too large".toList)
  else
    match fromArmored C text with
    | .ok p => .ok p
    | .error _ =>
      let body := ((C.lines text).filter fun l => l ≠ [] ∧ ¬ "-----".toList <+: l).flatten
      if body = [] then .error (.format "no public key found".toList)
      else
        match (C.base64 body).or (C.base64NoPad body) with
        | none => .error (.format "not a recognizable public key".toList)
        | some raw => fromBytes C raw

/-- The identity is one that a decoder has returned; contact books, handshake messages and headers hold what
`from_bytes` accepts. -/
inductive Decoded : PublicIdentity → Prop
  | bytes {p : PublicIdentity} (raw : C.Raw) (h : fromBytes C raw = .ok p) : Decoded p
  | armored {p : PublicIdentity} (text : Str) (h : fromArmored C text = .ok p) : Decoded p
  | pasted {p : PublicIdentity} (text : Str) (h : fromPasted C text = .ok p) : Decoded p

variable {C}

/-- Decoders check nothing of the keys: every identity is one that can be decoded. -/
theorem decoded (p : PublicIdentity) : Decoded C p := by
  refine .bytes (C.cbor.encode p) ?_
  unfold fromBytes
  rw [C.cbor.decode_encode]

/-! ### What a fingerprint says -/

/-- The ML-DSA key of `p` has swallowed the tag of the ML-KEM key of `q` and what comes before and after it. -/
def PublicIdentity.Merges (p q : PublicIdentity) : Prop :=
  p.signPublic = q.signPublic ∧ p.kemPublic = q.kemPublic ∧ ∃ m x, q.mldsaPublic = some m ∧
    p.mldsaPublic = some (m ++ mlkemTag ++ x) ∧ q.mlkemPublic = some (x ++ tagged mlkemTag p.mlkemPublic)

/-- No proper end of the tag of the ML-KEM key is a beginning of it. -/
private theorem mlkemTag_border {x y : Bytes} (h : mlkemTag = x ++ y) (hx : x ≠ []) (hy : y ≠ []) :
    ¬ y <+: mlkemTag := by
  have hall : ∀ n < 10, 0 < n → ¬ mlkemTag.drop n <+: mlkemTag := by decide
  have hlen : mlkemTag.length = 10 := by decide
  have hxlen := List.length_pos_of_ne_nil hx
  have hylen := List.length_pos_of_ne_nil hy
  have hsum : x.length + y.length = 10 := by
    rw [← List.length_append, ← h, hlen]
  have hdrop : mlkemTag.drop x.length = y := by
    rw [h]
    exact List.drop_left
  rw [← hdrop]
  exact hall x.length (by omega) hxlen

/-- Keys after the tag of the ML-DSA key that give the same bytes are the same, or one of them is merged. -/
private theorem tail_inj {m m' : Bytes} {k k' : Option Bytes}
    (h : m ++ tagged mlkemTag k = m' ++ tagged mlkemTag k') (hlen : m.length ≤ m'.length) :
    (m = m' ∧ k = k') ∨ ∃ x, m' = m ++ mlkemTag ++ x ∧ k = some (x ++ tagged mlkemTag k') := by
  obtain ⟨x, rfl, htail⟩ : ∃ x, m' = m ++ x ∧ tagged mlkemTag k = x ++ tagged mlkemTag k' := by
    rcases List.append_eq_append_iff.1 h with ⟨x, hm, ht⟩ | ⟨x, hm, ht⟩
    · exact ⟨x, hm, ht⟩
    · have hx : x = [] := by
        have := congrArg List.length hm
        rw [List.length_append] at this
        exact List.eq_nil_of_length_eq_zero (by omega)
      subst hx
      exact ⟨[], by simpa using hm.symm, by simpa using ht.symm⟩
  have hne : mlkemTag ≠ [] := by decide
  by_cases hx : x = []
  · subst hx
    refine Or.inl ⟨by simp, ?_⟩
    cases k with
    | none =>
      cases k' with
      | none => rfl
      | some key' => simp [tagged, hne] at htail
    | some key =>
      cases k' with
      | none => simp [tagged, hne] at htail
      | some key' => exact congrArg some (by simpa [tagged] using htail)
  · cases k with
    | none =>
      have hnil := List.append_eq_nil_iff.1 htail.symm
      exact absurd hnil.1 hx
    | some key =>
      -- the tag begins where `x` does
      have hk : mlkemTag ++ key = x ++ tagged mlkemTag k' := htail
      rcases List.append_eq_append_iff.1 hk with ⟨y, rfl, hy⟩ | ⟨y, htag, hy⟩
      · exact Or.inr ⟨y, by rw [List.append_assoc], congrArg some hy⟩
      · by_cases hyn : y = []
        · subst hyn
          rw [List.append_nil] at htag
          rw [List.nil_append] at hy
          exact Or.inr ⟨[], by simp [htag], congrArg some (by simpa using hy.symm)⟩
        · exfalso
          refine mlkemTag_border htag hx hyn ?_
          cases k' with
          | none =>
            have hnil := List.append_eq_nil_iff.1 hy.symm
            exact absurd hnil.1 hyn
          | some key' =>
            have hpre : y <+: mlkemTag ++ key' := ⟨key, hy.symm⟩
            have hle : y.length ≤ mlkemTag.length := by
              rw [htag, List.length_append]
              omega
            exact List.prefix_of_prefix_length_le hpre (List.prefix_append _ _) hle

private theorem tags_apart {m k : Bytes} {k' : Option Bytes} : mldsaTag ++ m ++ tagged mlkemTag k' ≠ mlkemTag ++ k := by
  intro h
  have h4 := congrArg (fun l => l.take 4) h
  simp only [List.append_assoc] at h4
  rw [List.take_append_of_le_length (by decide), List.take_append_of_le_length (by decide)] at h4
  exact absurd h4 (by decide)

/-- The same bytes come from the same keys, or from a key that is merged. -/
private theorem preimage_inj {p q : PublicIdentity} (h : p.preimage = q.preimage) :
    p.keys = q.keys ∨ p.Merges q ∨ q.Merges p := by
  unfold PublicIdentity.preimage at h
  simp only [List.append_assoc] at h
  have h := List.append_cancel_left h
  obtain ⟨hsign, h⟩ := List.append_inj h (p.signPublic_length.trans q.signPublic_length.symm)
  obtain ⟨hkem, h⟩ := List.append_inj h (p.kemPublic_length.trans q.kemPublic_length.symm)
  have hkeys : p.mldsaPublic = q.mldsaPublic → p.mlkemPublic = q.mlkemPublic → p.keys = q.keys := by
    intro hm hk
    unfold PublicIdentity.keys
    rw [hsign, hkem, hm, hk]
  have hdsa : mldsaTag ≠ [] := by decide
  have hkemTag : mlkemTag ≠ [] := by decide
  cases hp : p.mldsaPublic with
  | none =>
    cases hq : q.mldsaPublic with
    | none =>
      rw [hp, hq] at h
      have hnil : ([] : Bytes) ++ tagged mlkemTag p.mlkemPublic = [] ++ tagged mlkemTag q.mlkemPublic := h
      rcases tail_inj hnil le_rfl with ⟨-, hk⟩ | ⟨x, hx, -⟩
      · exact Or.inl (hkeys (hp.trans hq.symm) hk)
      · simp [hkemTag] at hx
    | some m' =>
      rw [hp, hq] at h
      cases hk : p.mlkemPublic with
      | none => simp [tagged, hk, hdsa] at h
      | some k =>
        rw [hk] at h
        exact absurd h.symm (by simpa [tagged] using tags_apart)
  | some m =>
    cases hq : q.mldsaPublic with
    | none =>
      rw [hp, hq] at h
      cases hk : q.mlkemPublic with
      | none => simp [tagged, hk, hdsa] at h
      | some k =>
        rw [hk] at h
        exact absurd h (by simpa [tagged] using tags_apart)
    | some m' =>
      rw [hp, hq] at h
      have h : m ++ tagged mlkemTag p.mlkemPublic = m' ++ tagged mlkemTag q.mlkemPublic := by
        simp only [tagged, List.append_assoc] at h
        exact List.append_cancel_left h
      rcases Nat.le_total m.length m'.length with hle | hle
      · rcases tail_inj h hle with ⟨rfl, hk⟩ | ⟨x, hx, hk⟩
        · exact Or.inl (hkeys (hp.trans hq.symm) hk)
        · exact Or.inr (Or.inr ⟨hsign.symm, hkem.symm, m, x, hp, by rw [hq, hx], hk⟩)
      · rcases tail_inj h.symm hle with ⟨rfl, hk⟩ | ⟨x, hx, hk⟩
        · exact Or.inl (hkeys (hp.trans hq.symm) hk.symm)
        · exact Or.inr (Or.inl ⟨hsign, hkem, m', x, hq, by rw [hp, hx], hk⟩)

theorem preimage_of_keys {p q : PublicIdentity} (h : p.keys = q.keys) : p.preimage = q.preimage := by
  unfold PublicIdentity.keys at h
  simp only [Prod.mk.injEq] at h
  unfold PublicIdentity.preimage
  rw [h.1, h.2.1, h.2.2.1, h.2.2.2]

/-- The same bytes come from the same agreement key, and from the same ML-KEM key if both have one of the same length. -/
theorem agreement_of_preimage {p q : PublicIdentity} (h : p.preimage = q.preimage) :
    p.kemPublic = q.kemPublic ∧ ∀ k k', p.mlkemPublic = some k → q.mlkemPublic = some k' → k.length = k'.length →
      k = k' := by
  have hpos : 0 < mlkemTag.length := by decide
  rcases preimage_inj h with hkeys | ⟨-, hkem, m, x, -, -, hq⟩ | ⟨-, hkem, m, x, -, -, hp⟩
  · unfold PublicIdentity.keys at hkeys
    simp only [Prod.mk.injEq] at hkeys
    refine ⟨hkeys.2.1, fun k k' hk hk' _ => ?_⟩
    rw [hkeys.2.2.2, hk', Option.some.injEq] at hk
    exact hk.symm
  · refine ⟨hkem, fun k k' hk hk' hlen => ?_⟩
    rw [hq, hk, Option.some.injEq] at hk'
    rw [← hk'] at hlen
    simp only [tagged, List.length_append] at hlen
    omega
  · refine ⟨hkem.symm, fun k k' hk hk' hlen => ?_⟩
    rw [hp, hk', Option.some.injEq] at hk
    rw [← hk] at hlen
    simp only [tagged, List.length_append] at hlen
    omega

/-- A merged key has other keys and the same bytes. -/
private theorem PublicIdentity.Merges.collides {p q : PublicIdentity} (h : p.Merges q) :
    p.preimage = q.preimage ∧ p.keys ≠ q.keys := by
  obtain ⟨hsign, hkem, m, x, hq, hp, hk⟩ := h
  refine ⟨?_, ?_⟩
  · unfold PublicIdentity.preimage
    rw [hsign, hkem, hp, hq, hk]
    simp [tagged]
  · intro hkeys
    have hm : p.mldsaPublic = q.mldsaPublic := congrArg (fun k => k.2.2.1) hkeys
    rw [hp, hq, Option.some.injEq] at hm
    have hlen := congrArg List.length hm
    have hpos : 0 < mlkemTag.length := by decide
    rw [List.length_append, List.length_append] at hlen
    omega

/-- For decoded identities whose fingerprints are compared, equal fingerprints mean equal keys exactly when neither
ML-DSA key has swallowed the other's ML-KEM key with its tag. -/
theorem fingerprint_determines {D : Type} {blake3 : Bytes → D} (hinj : Function.Injective blake3) {p q : PublicIdentity}
    (_ : Decoded C p) (_ : Decoded C q) :
    (p.fingerprint blake3 = q.fingerprint blake3 → p.keys = q.keys) ↔ ¬ p.Merges q ∧ ¬ q.Merges p := by
  constructor
  · intro h
    constructor
    · intro hm
      obtain ⟨hpre, hne⟩ := hm.collides
      exact hne (h (congrArg blake3 hpre))
    · intro hm
      obtain ⟨hpre, hne⟩ := hm.collides
      exact hne (h (congrArg blake3 hpre.symm)).symm
  · rintro ⟨hpq, hqp⟩ h
    rcases preimage_inj (hinj h) with hkeys | hm | hm
    · exact hkeys
    · exact absurd hm hpq
    · exact absurd hm hqp

namespace Sym

/-- Codecs that take an identity for its encoding. -/
def keyText : KeyText := ⟨PublicIdentity, ⟨id, some, fun _ => rfl⟩, fun _ => none, fun _ => none, fun c => c = ' '⟩

/-- An identity with all-zero classical keys and the given further ones. -/
def publicKeys (mldsa mlkem : Option Bytes) : PublicIdentity :=
  ⟨"peer".toList, 0, List.replicate 32 0, List.replicate 32 0, mldsa, mlkem, rfl, rfl⟩

/-- A hybrid identity. -/
def hybrid : PublicIdentity := publicKeys (some [1]) (some [2])

/-- The same bytes as one ML-DSA key. -/
def stripped : PublicIdentity := publicKeys (some ([1] ++ mlkemTag ++ [2])) none

end Sym

theorem fingerprint_determines_hybrid :
    (Sym.hybrid.fingerprint id = Sym.hybrid.fingerprint id → Sym.hybrid.keys = Sym.hybrid.keys) ↔
      ¬ Sym.hybrid.Merges Sym.hybrid ∧ ¬ Sym.hybrid.Merges Sym.hybrid :=
  fingerprint_determines (C := Sym.keyText) Function.injective_id (decoded _) (decoded _)

/-- The hybrid capability of an identity can be stripped without changing its fingerprint. -/
theorem fingerprint_determines_fails :
    Decoded Sym.keyText Sym.hybrid ∧ Decoded Sym.keyText Sym.stripped ∧
      Sym.hybrid.fingerprint id = Sym.stripped.fingerprint id ∧ Sym.hybrid.keys ≠ Sym.stripped.keys ∧
      Sym.hybrid.isHybridCapable = true ∧ Sym.stripped.isHybridCapable = false :=
  ⟨decoded _, decoded _, by decide, by decide, rfl, rfl⟩

end FileSec.Peer
