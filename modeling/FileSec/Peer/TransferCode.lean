import FileSec.Lib.ShiftBuffer
import FileSec.Peer.Names

/-!
# Transfer codes

The secret of a transfer as the text its users read to each other (`net/mod.rs`): 128 bits in symbols of five bits, with
two bits of padding.  Both directions run through a 32-bit buffer that drops its high bits.  A code is accepted exactly
if what is left of it, once separators are removed and letters folded, is the encoding of a secret.
-/

namespace FileSec.Peer

open ShiftBuffer

/-! ### Encoding -/

/-- `TRANSFER_SECRET_LEN` -/
def transferSecretLen : Nat := 16

/-- `SECRET_SYMBOLS` -/
def secretSymbols : Nat := 26

/-- `CROCKFORD` -/
def crockford : Str := "0123456789ABCDEFGHJKMNPQRSTVWXYZ".toList

/-- `GROUP` -/
def groupLen : Nat := 4

/-- A raw transfer secret. -/
structure TransferSecret where
  bytes : Bytes
  bytes_length : bytes.length = transferSecretLen
  deriving DecidableEq

/-- The symbol of a number below 32. -/
def symbol (n : Nat) : Char := crockford.getD n '0'

/-- The inner loop of `encode_transfer_secret`: the symbols that are ready, and how many bits stay. -/
def pushSymbols (buffer : Nat) : Str → Nat → Str × Nat
  | out, bits + 5 => pushSymbols buffer (out ++ [symbol ((buffer >>> bits) &&& 0x1f)]) bits
  | out, bits => (out, bits)

/-- The outer loop of `encode_transfer_secret`. -/
def encodeLoop : Bytes → Str → Nat → Nat → Str × Nat × Nat
  | [], out, buffer, bits => (out, buffer, bits)
  | b :: rest, out, buffer, bits =>
    let buffer := (buffer <<< 8 ||| b.toNat) % 2 ^ 32
    let pushed := pushSymbols buffer out (bits + 8)
    encodeLoop rest pushed.1 buffer pushed.2

/-- `encode_transfer_secret` -/
def encodeTransferSecret (secret : TransferSecret) : Str :=
  let (out, buffer, bits) := encodeLoop secret.bytes [] 0 0
  if bits > 0 then out ++ [symbol ((buffer <<< (5 - bits) % 2 ^ 32) &&& 0x1f)] else out

/-- `group_transfer_code` -/
def groupTransferCode (code : Str) : Str :=
  code.zipIdx.flatMap fun (c, i) => if i > 0 ∧ i % groupLen = 0 then ['-', c] else [c]

/-- `display_transfer_code` -/
def displayTransferCode (secret : TransferSecret) : Str := groupTransferCode (encodeTransferSecret secret)

/-! ### Decoding -/

/-- Case and look-alikes folded: the `match` of `decode_symbol`.  `Char.toUpper` changes ASCII letters only. -/
def foldSymbol (c : Char) : Char :=
  match c.toUpper with
  | 'O' => '0'
  | 'I' => '1'
  | 'L' => '1'
  | other => other

/-- `decode_symbol` -/
def decodeSymbol (c : Char) : Option Nat := crockford.findIdx? fun a => a = foldSymbol c

/-- What separates groups: `-` and whitespace. -/
def isSeparator (c : Char) : Bool := c = '-' || isWhitespace c

/-- The loop of `decode_transfer_code`; the written part of its array is `out`. -/
def decodeLoop : List Nat → Bytes → Nat → Nat → Bytes × Nat × Nat
  | [], out, buffer, bits => (out, buffer, bits)
  | sym :: rest, out, buffer, bits =>
    let buffer := (buffer <<< 5 ||| sym) % 2 ^ 32
    if bits + 5 ≥ 8 then
      let bits := bits + 5 - 8
      let out := if out.length < transferSecretLen then out ++ [UInt8.ofNat ((buffer >>> bits) &&& 0xff)] else out
      decodeLoop rest out buffer bits
    else decodeLoop rest out buffer (bits + 5)

/-- The check at the end of `decode_transfer_code`: the secret is full and the padding is zero. -/
def finishDecode : Bytes × Nat × Nat → Option TransferSecret
  | (out, buffer, bits) =>
    if h : out.length = transferSecretLen ∧ buffer &&& ((1 <<< bits) - 1) = 0 then some ⟨out, h.1⟩ else none

/-- `decode_transfer_code` -/
def decodeTransferCode (input : Str) : Option TransferSecret := do
  let symbols ← (input.filter fun c => !isSeparator c).mapM decodeSymbol
  if symbols.length ≠ secretSymbols then none else finishDecode (decodeLoop symbols [] 0 0)

/-- What is left of a code, with separators removed and letters folded. -/
def canonicalCode (input : Str) : Str := (input.filter fun c => !isSeparator c).map foldSymbol

/-! ### Symbols -/

private theorem symbol_inj {m n : Nat} (hm : m < 32) (hn : n < 32) (h : symbol m = symbol n) : m = n := by
  have hall : ∀ m < 32, ∀ n < 32, symbol m = symbol n → m = n := by decide
  exact hall m hm n hn h

private theorem map_symbol_inj {l l' : List Nat} (h : ∀ d ∈ l, d < 32) (h' : ∀ d ∈ l', d < 32)
    (heq : l.map symbol = l'.map symbol) : l = l' := by
  induction l generalizing l' with
  | nil => simpa [eq_comm] using heq
  | cons d l ih =>
    cases l' with
    | nil => simp at heq
    | cons d' l' =>
      rw [List.map_cons, List.map_cons, List.cons.injEq] at heq
      rw [symbol_inj (h d (by simp)) (h' d' (by simp)) heq.1,
        ih (fun x hx => h x (by simp [hx])) (fun x hx => h' x (by simp [hx])) heq.2]

/-- The symbols are not separators, and folding keeps them. -/
private theorem symbol_plain {n : Nat} (hn : n < 32) : isSeparator (symbol n) = false ∧ foldSymbol (symbol n) = symbol n := by
  have hall : ∀ n < 32, isSeparator (symbol n) = false ∧ foldSymbol (symbol n) = symbol n := by decide
  exact hall n hn

/-- A character stands for the number of the symbol it is folded to. -/
theorem decodeSymbol_eq_some {c : Char} {d : Nat} : decodeSymbol c = some d ↔ d < 32 ∧ symbol d = foldSymbol c := by
  have hlen : crockford.length = 32 := by decide
  have hget : ∀ (i : Nat) (hi : i < crockford.length), crockford[i] = symbol i := by
    intro i hi
    unfold symbol
    rw [List.getD_eq_getElem?_getD, List.getElem?_eq_getElem hi]
    rfl
  unfold decodeSymbol
  rw [List.findIdx?_eq_some_iff_getElem]
  constructor
  · rintro ⟨hd, hfound, -⟩
    rw [hget d hd] at hfound
    exact ⟨hlen ▸ hd, by simpa using hfound⟩
  · rintro ⟨hd, hfound⟩
    refine ⟨by omega, by rw [hget d (by omega)]; simpa using hfound, ?_⟩
    intro j hj
    rw [hget j (by omega)]
    intro hsame
    have hdj := symbol_inj (by omega) hd ((of_decide_eq_true hsame).trans hfound.symm)
    omega

theorem mapM_decodeSymbol {code : Str} {symbols : List Nat} :
    code.mapM decodeSymbol = some symbols ↔ (∀ d ∈ symbols, d < 32) ∧ symbols.map symbol = code.map foldSymbol := by
  induction code generalizing symbols with
  | nil => cases symbols <;> simp
  | cons c code ih =>
    rw [List.mapM_cons]
    cases symbols with
    | nil => simp [Option.bind_eq_some_iff]
    | cons d symbols =>
      have hcons : (do let d ← decodeSymbol c; let rest ← code.mapM decodeSymbol; pure (d :: rest)) = some (d :: symbols) ↔
          decodeSymbol c = some d ∧ code.mapM decodeSymbol = some symbols := by
        simp [Option.bind_eq_some_iff]
      rw [hcons, decodeSymbol_eq_some, ih]
      simp only [List.forall_mem_cons, List.map_cons, List.cons.injEq]
      tauto

/-! ### The loops -/

/-- The inner loop takes symbols out while there are five bits. -/
private theorem pushSymbols_spec {total read buffer bits : Nat} {digits : List Nat}
    (h : Holds 32 5 total read digits buffer bits) (hroom : bits ≤ 32) :
    ∃ digits', pushSymbols buffer (digits.map symbol) bits = (digits'.map symbol, bits % 5) ∧
      Holds 32 5 total read digits' buffer (bits % 5) := by
  induction bits using Nat.strongRecOn generalizing digits with
  | _ bits ih =>
    by_cases hbits : 5 ≤ bits
    · obtain ⟨left, rfl⟩ := Nat.exists_eq_add_of_le' hbits
      obtain ⟨digits', hpush, hholds⟩ := ih left (by omega) (h.take (by omega)) (by omega)
      rw [List.map_append, List.map_singleton] at hpush
      rw [Nat.add_mod_right]
      exact ⟨digits', hpush, hholds⟩
    · rw [Nat.mod_eq_of_lt (by omega)]
      refine ⟨digits, ?_, h⟩
      unfold pushSymbols
      split
      · omega
      · rfl

private theorem encodeLoop_spec (bytes : Bytes) (read : List Nat) {total buffer bits : Nat} {digits : List Nat}
    (h : Holds 32 5 total (value 8 read) digits buffer bits) (hroom : bits < 5) :
    ∃ digits' buffer' bits', encodeLoop bytes (digits.map symbol) buffer bits = (digits'.map symbol, buffer', bits') ∧
      Holds 32 5 (total + 8 * bytes.length) (value 8 (read ++ bytes.map UInt8.toNat)) digits' buffer' bits' ∧
      bits' < 5 := by
  induction bytes generalizing read total buffer bits digits with
  | nil => exact ⟨digits, buffer, bits, rfl, by simpa using h, hroom⟩
  | cons b bytes ih =>
    have hshift := h.shift (w := 8) (d := b.toNat) b.toNat_lt
    rw [← value_concat] at hshift
    obtain ⟨taken, hpush, hholds⟩ := pushSymbols_spec hshift (by omega)
    obtain ⟨digits', buffer', bits', hloop, hrest, hlt⟩ := ih (read ++ [b.toNat]) hholds (Nat.mod_lt _ (by decide))
    refine ⟨digits', buffer', bits', ?_, ?_, hlt⟩
    · unfold encodeLoop
      simp only [hpush, hloop]
    · rw [List.append_assoc, List.singleton_append] at hrest
      rw [List.map_cons, List.length_cons, Nat.mul_succ, Nat.add_comm (8 * _) 8, ← Nat.add_assoc]
      exact hrest

/-- The number a secret denotes. -/
def secretValue (secret : TransferSecret) : Nat := value 8 (secret.bytes.map UInt8.toNat)

/-- The encoding of a secret are the 26 digits of four times its number. -/
theorem encodeTransferSecret_spec (secret : TransferSecret) :
    ∃ digits, encodeTransferSecret secret = digits.map symbol ∧ digits.length = secretSymbols ∧ (∀ d ∈ digits, d < 32) ∧
      value 5 digits = secretValue secret * 4 := by
  have hlen := secret.bytes_length
  unfold transferSecretLen at hlen
  obtain ⟨digits, buffer, bits, hloop, hholds, hlt⟩ :=
    encodeLoop_spec secret.bytes [] (by simpa using Holds.empty) (by decide)
  rw [List.nil_append, hlen] at hholds
  have hcount := hholds.count
  obtain ⟨rfl, hdigits⟩ : bits = 3 ∧ digits.length = 25 := by omega
  -- two zero bits are shifted in, and the last symbol is what is there
  have hzeros : 0 < 2 ^ 2 := by decide
  have hroom : 0 + 5 ≤ 32 := by decide
  have hlast := (hholds.shift hzeros).take hroom
  refine ⟨_, ?_, ?_, hlast.digit_lt, by simpa [secretValue] using hlast.value_eq⟩
  · unfold encodeTransferSecret
    rw [List.map_nil] at hloop
    simp [hloop]
  · rw [List.length_append, hdigits]
    rfl

/-- The loop of the decoder writes the bytes as they become full. -/
private theorem decodeLoop_spec (symbols : List Nat) (hsym : ∀ d ∈ symbols, d < 32) (read : List Nat)
    (out : Bytes) {total buffer bits : Nat} (h : Holds 32 8 total (value 5 read) (out.map UInt8.toNat) buffer bits)
    (hbits : bits < 8) (htotal : total + 5 * symbols.length < 136) :
    ∃ out' buffer' bits', decodeLoop symbols out buffer bits = (out', buffer', bits') ∧
      Holds 32 8 (total + 5 * symbols.length) (value 5 (read ++ symbols)) (out'.map UInt8.toNat) buffer' bits' ∧
      bits' < 8 := by
  induction symbols generalizing read total buffer bits out with
  | nil => exact ⟨out, buffer, bits, rfl, by simpa using h, hbits⟩
  | cons d symbols ih =>
    have hd : d < 2 ^ 5 := hsym d (by simp)
    have hshift := h.shift (w := 5) hd
    rw [← value_concat] at hshift
    rw [List.length_cons] at htotal
    have htotal' : total + 5 + 5 * symbols.length < 136 := by omega
    have hshape : ∀ {out' : Bytes} {buffer' bits' : Nat},
        Holds 32 8 (total + 5 + 5 * symbols.length) (value 5 (read ++ [d] ++ symbols)) (out'.map UInt8.toNat) buffer' bits' →
        Holds 32 8 (total + 5 * (d :: symbols).length) (value 5 (read ++ d :: symbols)) (out'.map UInt8.toNat) buffer'
          bits' := by
      intro out' buffer' bits' hrest
      rw [List.append_assoc, List.singleton_append] at hrest
      rw [List.length_cons, Nat.mul_succ, Nat.add_comm (5 * _) 5, ← Nat.add_assoc]
      exact hrest
    by_cases hfull : bits + 5 ≥ 8
    · obtain ⟨left, hleft⟩ := Nat.exists_eq_add_of_le' hfull
      have hcount := hshift.count
      rw [List.length_map] at hcount
      rw [hleft] at hshift
      have htake := hshift.take (by omega)
      have hbyte : ((buffer <<< 5 ||| d) % 2 ^ 32) >>> left &&& (2 ^ 8 - 1) < 256 :=
        htake.digit_lt _ (by simp)
      have hout : out.map UInt8.toNat ++ [((buffer <<< 5 ||| d) % 2 ^ 32) >>> left &&& (2 ^ 8 - 1)] =
          (out ++ [UInt8.ofNat (((buffer <<< 5 ||| d) % 2 ^ 32) >>> left &&& 0xff)]).map UInt8.toNat := by
        rw [List.map_append, List.map_singleton, UInt8.toNat_ofNat']
        exact congrArg (fun x => out.map UInt8.toNat ++ [x]) (Nat.mod_eq_of_lt hbyte).symm
      rw [hout] at htake
      obtain ⟨out', buffer', bits', hloop, hrest, hlt⟩ := ih (fun x hx => hsym x (by simp [hx])) _ _ htake (by omega)
        htotal'
      refine ⟨out', buffer', bits', ?_, hshape hrest, hlt⟩
      have hroom : out.length < transferSecretLen := by
        unfold transferSecretLen
        omega
      have hleft' : bits + 5 - 8 = left := by omega
      unfold decodeLoop
      simp only [if_pos hfull, if_pos hroom, hleft', hloop]
    · obtain ⟨out', buffer', bits', hloop, hrest, hlt⟩ := ih (fun x hx => hsym x (by simp [hx])) _ _ hshift (by omega)
        htotal'
      refine ⟨out', buffer', bits', ?_, hshape hrest, hlt⟩
      unfold decodeLoop
      simp only [if_neg hfull, hloop]

private theorem secretValue_inj {s s' : TransferSecret} (h : secretValue s = secretValue s') : s = s' := by
  obtain ⟨bytes, hlen⟩ := s
  obtain ⟨bytes', hlen'⟩ := s'
  have hbytes := value_inj (by decide) (by simp [hlen, hlen']) (fun d hd => ?_) (fun d hd => ?_) h
  · congr 1
    exact List.map_injective_iff.2 (fun a b => UInt8.toNat_inj.1) hbytes
  · obtain ⟨b, -, rfl⟩ := List.mem_map.1 hd
    exact b.toNat_lt
  · obtain ⟨b, -, rfl⟩ := List.mem_map.1 hd
    exact b.toNat_lt

/-- 26 symbols are decoded if the two bits of padding are zero, to the secret of which they are the digits. -/
private theorem finishDecode_spec {symbols : List Nat} (hsym : ∀ d ∈ symbols, d < 32)
    (hlen : symbols.length = secretSymbols) :
    (value 5 symbols % 4 ≠ 0 → finishDecode (decodeLoop symbols [] 0 0) = none) ∧
    (value 5 symbols % 4 = 0 → ∃ s, finishDecode (decodeLoop symbols [] 0 0) = some s ∧
      secretValue s * 4 = value 5 symbols) := by
  unfold secretSymbols at hlen
  obtain ⟨out, buffer, bits, hloop, hholds, hlt⟩ :=
    decodeLoop_spec symbols hsym [] [] (by simpa using Holds.empty) (by decide) (by omega)
  rw [List.nil_append, hlen] at hholds
  have hcount := hholds.count
  rw [List.length_map] at hcount
  obtain ⟨rfl, hout⟩ : bits = 2 ∧ out.length = 16 := by omega
  have hpad : buffer &&& ((1 <<< 2) - 1) = value 5 symbols % 4 := hholds.waiting (by decide)
  rw [hloop]
  constructor
  · intro hne
    exact dif_neg fun h => hne (hpad.symm.trans h.2)
  · intro hzero
    refine ⟨⟨out, hout⟩, dif_pos ⟨hout, hpad.trans hzero⟩, ?_⟩
    have hvalue := hholds.value_eq
    unfold secretValue
    rw [hvalue]
    exact Nat.div_mul_cancel (Nat.dvd_of_mod_eq_zero hzero)

/-! ### What is accepted -/

/-- Symbols are decoded to a secret exactly if they are its encoding. -/
private theorem decode_symbols_iff {symbols : List Nat} (hsym : ∀ d ∈ symbols, d < 32) {s : TransferSecret} :
    (if symbols.length ≠ secretSymbols then none else finishDecode (decodeLoop symbols [] 0 0)) = some s ↔
      symbols.map symbol = encodeTransferSecret s := by
  obtain ⟨digits, hencode, hdigits, hlt, hvalue⟩ := encodeTransferSecret_spec s
  rw [hencode]
  constructor
  · intro h
    split at h
    · cases h
    · rename_i hlen
      rw [ne_eq, not_not] at hlen
      obtain ⟨hbad, hgood⟩ := finishDecode_spec hsym hlen
      by_cases hpad : value 5 symbols % 4 = 0
      · obtain ⟨s', hs', hvalue'⟩ := hgood hpad
        rw [hs', Option.some.injEq] at h
        subst h
        rw [value_inj (by decide) (hlen.trans hdigits.symm) hsym hlt (hvalue'.symm.trans hvalue.symm)]
      · rw [hbad hpad] at h
        cases h
  · intro h
    obtain rfl := map_symbol_inj hsym hlt h
    rw [if_neg (not_not.2 hdigits)]
    obtain ⟨s', hs', hvalue'⟩ := (finishDecode_spec hsym hdigits).2 (by rw [hvalue]; exact Nat.mul_mod_left _ _)
    have hsame : s' = s := secretValue_inj (by omega)
    rw [hs', hsame]

theorem decodeTransferCode_iff {input : Str} {s : TransferSecret} :
    decodeTransferCode input = some s ↔ canonicalCode input = encodeTransferSecret s := by
  unfold decodeTransferCode canonicalCode
  rw [Option.bind_eq_bind, Option.bind_eq_some_iff]
  constructor
  · rintro ⟨symbols, hsymbols, h⟩
    obtain ⟨hsym, hmap⟩ := mapM_decodeSymbol.1 hsymbols
    rw [← hmap]
    exact (decode_symbols_iff hsym).1 h
  · intro h
    obtain ⟨digits, hencode, -, hlt, -⟩ := encodeTransferSecret_spec s
    refine ⟨digits, mapM_decodeSymbol.2 ⟨hlt, hencode.symm.trans h.symm⟩, ?_⟩
    exact (decode_symbols_iff hlt).2 hencode.symm

/-- Grouping is undone when separators are removed. -/
theorem canonicalCode_display (s : TransferSecret) : canonicalCode (displayTransferCode s) = encodeTransferSecret s := by
  obtain ⟨digits, hencode, -, hlt, -⟩ := encodeTransferSecret_spec s
  have hplain : ∀ c ∈ encodeTransferSecret s, isSeparator c = false ∧ foldSymbol c = c := by
    intro c hc
    rw [hencode] at hc
    obtain ⟨d, hd, rfl⟩ := List.mem_map.1 hc
    exact symbol_plain (hlt d hd)
  have hgroup : ∀ (code : Str) (n : Nat), (∀ c ∈ code, isSeparator c = false ∧ foldSymbol c = c) →
      canonicalCode ((code.zipIdx n).flatMap fun (c, i) => if i > 0 ∧ i % groupLen = 0 then ['-', c] else [c]) = code := by
    intro code
    induction code with
    | nil => simp [canonicalCode]
    | cons c code ih =>
      intro n hall
      obtain ⟨hsep, hfold⟩ := hall c (by simp)
      have hrest := ih (n + 1) fun d hd => hall d (by simp [hd])
      have hdash : isSeparator '-' = true := by decide
      unfold canonicalCode at hrest ⊢
      rw [List.zipIdx_cons, List.flatMap_cons, List.filter_append, List.map_append, hrest]
      dsimp only
      split <;> simp [hsep, hfold, hdash]
  exact hgroup _ 0 hplain

theorem encodeTransferSecret_injective : Function.Injective encodeTransferSecret := by
  intro s s' h
  have hs := decodeTransferCode_iff.2 (canonicalCode_display s)
  rw [decodeTransferCode_iff.2 ((canonicalCode_display s).trans h), Option.some.injEq] at hs
  exact hs.symm

/-- The last symbol carries the padding. -/
private theorem value_mod_four (symbols : List Nat) (d : Nat) : value 5 (symbols ++ [d]) % 4 = d % 4 := by
  rw [value_concat]
  omega

private theorem exists_mapM (code : Str) (h : ∀ c ∈ code, decodeSymbol c ≠ none) :
    ∃ symbols, code.mapM decodeSymbol = some symbols := by
  induction code with
  | nil => exact ⟨[], rfl⟩
  | cons c code ih =>
    obtain ⟨d, hd⟩ := Option.ne_none_iff_exists'.1 (h c (by simp))
    obtain ⟨symbols, hrest⟩ := ih fun x hx => h x (by simp [hx])
    exact ⟨d :: symbols, by rw [List.mapM_cons, hd, hrest]; rfl⟩

/-- A code is refused exactly if it has a stray character, the wrong number of symbols, or padding that is not zero. -/
theorem decodeTransferCode_eq_none {input : Str} :
    decodeTransferCode input = none ↔
      (∃ c ∈ input, isSeparator c = false ∧ decodeSymbol c = none) ∨ (canonicalCode input).length ≠ secretSymbols ∨
        ∃ c, (input.filter fun c => !isSeparator c).getLast? = some c ∧ ∃ d, decodeSymbol c = some d ∧ d % 4 ≠ 0 := by
  have hfold : (canonicalCode input).length = (input.filter fun c => !isSeparator c).length := List.length_map _
  constructor
  · intro h
    by_contra hno
    rw [not_or, not_or, ne_eq, not_not] at hno
    obtain ⟨hstray, hlen, hpad⟩ := hno
    obtain ⟨symbols, hsymbols⟩ := exists_mapM (input.filter fun c => !isSeparator c) fun c hc hnone => by
      obtain ⟨hin, hsep⟩ := List.mem_filter.1 hc
      exact hstray ⟨c, hin, by simpa using hsep, hnone⟩
    obtain ⟨hsym, hmap⟩ := mapM_decodeSymbol.1 hsymbols
    have hcount : symbols.length = secretSymbols := by
      rw [← hlen, hfold, ← List.length_map (f := symbol), hmap, List.length_map]
    obtain ⟨init, d, rfl⟩ := (List.eq_nil_or_concat' symbols).resolve_left (by rintro rfl; cases hcount)
    -- the last symbol is that of the last character
    have hlast : d % 4 = 0 := by
      by_contra hne
      have hmap' := congrArg List.getLast? hmap
      rw [List.map_append, List.map_singleton, List.getLast?_concat, List.getLast?_map] at hmap'
      obtain ⟨c, hc, hcd⟩ := Option.map_eq_some_iff.1 hmap'.symm
      exact hpad ⟨c, hc, d, decodeSymbol_eq_some.2 ⟨hsym d (by simp), hcd.symm⟩, hne⟩
    obtain ⟨s, hs, -⟩ := (finishDecode_spec hsym hcount).2 (by rw [value_mod_four]; exact hlast)
    have hdone : decodeTransferCode input = some s := by
      unfold decodeTransferCode
      rw [Option.bind_eq_bind, hsymbols, Option.bind_some, if_neg (not_not.2 hcount), hs]
    rw [h] at hdone
    cases hdone
  · intro h
    by_contra hsome
    obtain ⟨s, hs⟩ := Option.ne_none_iff_exists'.1 hsome
    have hcode := decodeTransferCode_iff.1 hs
    obtain ⟨digits, hencode, hdigits, hlt, hvalue⟩ := encodeTransferSecret_spec s
    rw [hencode] at hcode
    rcases h with ⟨c, hc, hsep, hnone⟩ | hlen | ⟨c, hlast, d, hd, hpad⟩
    · have hmem : foldSymbol c ∈ canonicalCode input :=
        List.mem_map_of_mem (List.mem_filter.2 ⟨hc, by rw [hsep]; rfl⟩)
      rw [hcode] at hmem
      obtain ⟨d, hd, hdc⟩ := List.mem_map.1 hmem
      rw [decodeSymbol_eq_some.2 ⟨hlt d hd, hdc⟩] at hnone
      cases hnone
    · rw [hcode, List.length_map] at hlen
      exact hlen hdigits
    · have hlast' : (canonicalCode input).getLast? = some (foldSymbol c) := by
        unfold canonicalCode
        rw [List.getLast?_map, hlast]
        rfl
      rw [hcode, List.getLast?_map] at hlast'
      obtain ⟨d', hd', hsame⟩ := Option.map_eq_some_iff.1 hlast'
      obtain ⟨init, rfl⟩ := List.getLast?_eq_some_iff.1 hd'
      rw [decodeSymbol_eq_some.2 ⟨hlt d' (by simp), hsame⟩, Option.some.injEq] at hd
      subst hd
      refine hpad ?_
      rw [← value_mod_four init, hvalue]
      exact Nat.mul_mod_left _ _

/-- The displayed code of a secret is decoded to it; a code is decoded to a secret exactly if its canonical form is the
encoding of the secret; distinct secrets have distinct encodings; and every other code is refused. -/
theorem transferCode_exact :
    (∀ s, decodeTransferCode (displayTransferCode s) = some s) ∧
    (∀ input s, decodeTransferCode input = some s ↔ canonicalCode input = encodeTransferSecret s) ∧
    Function.Injective encodeTransferSecret ∧ Function.Injective displayTransferCode ∧
    (∀ input, decodeTransferCode input = none ↔
      (∃ c ∈ input, isSeparator c = false ∧ decodeSymbol c = none) ∨ (canonicalCode input).length ≠ secretSymbols ∨
        ∃ c, (input.filter fun c => !isSeparator c).getLast? = some c ∧ ∃ d, decodeSymbol c = some d ∧ d % 4 ≠ 0) := by
  refine ⟨fun s => decodeTransferCode_iff.2 (canonicalCode_display s), fun _ _ => decodeTransferCode_iff,
    encodeTransferSecret_injective, fun s s' h => ?_, fun _ => decodeTransferCode_eq_none⟩
  have hcode := congrArg canonicalCode h
  rw [canonicalCode_display, canonicalCode_display] at hcode
  exact encodeTransferSecret_injective hcode

end FileSec.Peer
