import FileSec.Keys.Symbolic
import FileSec.Lib.Base64
import FileSec.Peer.Names
import Mathlib.Data.List.TakeWhile

/-!
# Armored keys

A public identity as text (`identity.rs`): base64 in lines between two marker lines.  Whoever pastes it may have wrapped,
indented and surrounded it; `Armored` and `Bare` say of a text what may have happened to it, and `armor_round_trip` that
the identity is found all the same.
-/

namespace FileSec.Peer

/-- The base64 encoder behind the decoders of `C`, and what is known of the three: decoding inverts encoding, with the
padding and without it; the padded text is characters of the alphabet in groups of four, of which the last may end in
padding. -/
structure Base64Coding (C : KeyText) where
  encode : C.Raw → Str
  base64_encode : ∀ raw, C.base64 (encode raw) = some raw
  base64NoPad_encode : ∀ raw, C.base64NoPad ((encode raw).filter (· ≠ '=')) = some raw
  mem_encode : ∀ raw, ∀ c ∈ encode raw, c ∈ Base64.alphabet ∨ c = '='
  length_encode : ∀ raw, (encode raw).length % 4 = 0
  count_encode : ∀ raw, (encode raw).count '=' ≤ 2
  length_of_base64 : ∀ s raw, C.base64 s = some raw → s.length % 4 = 0

variable {C : KeyText} (B : Base64Coding C)

/-- `chunks` of `n` characters, the last with what is left.  The first argument bounds their number. -/
def chunks (n : Nat) : Nat → Str → List Str
  | 0, _ => []
  | fuel + 1, s => if s = [] then [] else s.take n :: chunks n fuel (s.drop n)

/-- The base64 text of an identity. -/
def base64Text (p : PublicIdentity) : Str := B.encode (C.cbor.encode p)

/-- `PublicIdentity::to_armored` -/
def toArmored (p : PublicIdentity) : Str :=
  armorBegin ++ ['\n'] ++
    (chunks 64 (base64Text B p).length (base64Text B p)).flatMap (fun line => line ++ ['\n']) ++ armorEnd ++ ['\n']

/-! ### What may have happened to a text -/

/-- A line with whitespace around it; the end of a line that ends with a carriage return is some. -/
def Padded (line raw : Str) : Prop :=
  ∃ left right, raw = left ++ line ++ right ∧ ∀ c ∈ left ++ right, isWhitespace c = true

/-- The lines hold the text in pieces. -/
def Wrapped (s : Str) (lines : List Str) : Prop := ∃ pieces, List.Forall₂ Padded pieces lines ∧ pieces.flatten = s

/-- The line is a marker. -/
def IsMarker (raw : Str) : Prop := C.trim raw = armorBegin ∨ C.trim raw = armorEnd

/-- The text has the lines of `s` between the two markers, after lines that are no markers. -/
def Armored (C : KeyText) (s text : Str) : Prop :=
  ∃ before first body last after, text.splitOn '\n' = before ++ first :: (body ++ last :: after) ∧
    (∀ raw ∈ before, ¬ IsMarker (C := C) raw) ∧ Padded armorBegin first ∧ Wrapped s body ∧ Padded armorEnd last

/-- The text is the lines of `s` alone. -/
def Bare (s text : Str) : Prop := Wrapped s (text.splitOn '\n')

/-! ### Lines -/

/-- The characters of base64 text. -/
def IsText (s : Str) : Prop := ∀ c ∈ s, c ∈ Base64.alphabet ∨ c = '='

private theorem text_char {c : Char} (h : c ∈ Base64.alphabet ∨ c = '=') :
    isWhitespace c = false ∧ c ≠ '-' ∧ c ≠ '\n' := by
  have hall : (('=' :: Base64.alphabet).all fun c => !isWhitespace c && c != '-' && c != '\n') = true := by
    decide
  have hmem : c ∈ '=' :: Base64.alphabet := by
    rcases h with h | rfl
    · exact List.mem_cons_of_mem _ h
    · exact List.mem_cons_self
  simpa [and_assoc] using List.all_eq_true.1 hall c hmem

private theorem dropWhile_around {p : Char → Bool} {left s : Str} (hleft : ∀ c ∈ left, p c = true)
    (hs : ∀ c ∈ s.head?, p c = false) : (left ++ s).dropWhile p = s := by
  rw [List.dropWhile_append_of_pos hleft]
  cases s with
  | nil => rfl
  | cons c s =>
    have hc := hs c rfl
    exact List.dropWhile_cons_of_neg (by rw [hc]; exact Bool.false_ne_true)

/-- Trimming takes off the whitespace around a line that neither begins nor ends with some. -/
private theorem trim_padded (hspace : C.isWhitespace = isWhitespace) {line raw : Str} (h : Padded line raw)
    (hfirst : ∀ c ∈ line.head?, isWhitespace c = false) (hlast : ∀ c ∈ line.getLast?, isWhitespace c = false) :
    C.trim raw = line := by
  obtain ⟨left, right, rfl, hall⟩ := h
  have hleft : ∀ c ∈ left, isWhitespace c = true := fun c hc => hall c (List.mem_append_left _ hc)
  have hright : ∀ c ∈ right.reverse, isWhitespace c = true :=
    fun c hc => hall c (List.mem_append_right _ (List.mem_reverse.1 hc))
  unfold KeyText.trim
  rw [hspace]
  by_cases hnil : line = []
  · subst hnil
    rw [List.append_nil, List.dropWhile_eq_nil_iff.2 hall]
    rfl
  · rw [List.append_assoc, dropWhile_around hleft, List.reverse_append, dropWhile_around hright, List.reverse_reverse]
    · rwa [List.head?_reverse]
    · rwa [List.head?_append_of_ne_nil _ hnil]

/-- A padded piece of base64 text is trimmed to the piece. -/
private theorem trim_piece (hspace : C.isWhitespace = isWhitespace) {piece raw : Str} (h : Padded piece raw)
    (ht : IsText piece) : C.trim raw = piece :=
  trim_padded hspace h (fun c hc => (text_char (ht c (List.mem_of_mem_head? hc))).1)
    fun c hc => (text_char (ht c (List.mem_of_mem_getLast? hc))).1

private theorem trim_begin (hspace : C.isWhitespace = isWhitespace) {raw : Str} (h : Padded armorBegin raw) :
    C.trim raw = armorBegin :=
  trim_padded hspace h (by rintro c ⟨⟩; rfl) (by rintro c ⟨⟩; rfl)

private theorem trim_end (hspace : C.isWhitespace = isWhitespace) {raw : Str} (h : Padded armorEnd raw) :
    C.trim raw = armorEnd :=
  trim_padded hspace h (by rintro c ⟨⟩; rfl) (by rintro c ⟨⟩; rfl)

/-- Lines that hold base64 text are trimmed to its pieces. -/
private theorem trim_wrapped (hspace : C.isWhitespace = isWhitespace) {s : Str} {lines : List Str} (ht : IsText s)
    (h : Wrapped s lines) : (lines.map C.trim).flatten = s ∧ ∀ line ∈ lines.map C.trim, IsText line := by
  obtain ⟨pieces, hpieces, rfl⟩ := h
  have htext : ∀ piece ∈ pieces, IsText piece := fun piece hp c hc => ht c (List.mem_flatten.2 ⟨piece, hp, hc⟩)
  have hmap : lines.map C.trim = pieces := by
    clear ht
    induction hpieces with
    | nil => rfl
    | cons hpad _ ih =>
      rw [List.map_cons, trim_piece hspace hpad (htext _ List.mem_cons_self),
        ih fun piece hp => htext piece (List.mem_cons_of_mem _ hp)]
  rw [hmap]
  exact ⟨rfl, htext⟩

/-- A line of base64 text is no marker and does not begin with dashes. -/
private theorem text_line {line : Str} (h : IsText line) :
    line ≠ armorBegin ∧ line ≠ armorEnd ∧ ¬ "-----".toList <+: line := by
  have hdash : ¬ "-----".toList <+: line := by
    intro hpre
    exact (text_char (h '-' (hpre.subset (by decide)))).2.1 rfl
  refine ⟨?_, ?_, hdash⟩
  · rintro rfl
    exact hdash (by decide)
  · rintro rfl
    exact hdash (by decide)

/-! ### The two passes -/

private theorem armoredBody_skip {lines rest : List Str} (h : ∀ line ∈ lines, line ≠ armorBegin ∧ line ≠ armorEnd) :
    armoredBody false (lines ++ rest) = armoredBody false rest := by
  induction lines with
  | nil => rfl
  | cons line lines ih =>
    obtain ⟨hbegin, hend⟩ := h line List.mem_cons_self
    rw [List.cons_append, armoredBody, if_neg hbegin, if_neg hend, if_neg Bool.false_ne_true]
    exact ih fun l hl => h l (List.mem_cons_of_mem _ hl)

private theorem armoredBody_block {lines after : List Str} (h : ∀ line ∈ lines, IsText line) :
    armoredBody true (lines ++ armorEnd :: after) = lines.flatten := by
  have hne : armorEnd ≠ armorBegin := by decide
  induction lines with
  | nil => rw [List.nil_append, armoredBody, if_neg hne, if_pos rfl, List.flatten_nil]
  | cons line lines ih =>
    obtain ⟨hbegin, hend, -⟩ := text_line (h line List.mem_cons_self)
    rw [List.cons_append, armoredBody, if_neg hbegin, if_neg hend, if_pos rfl, List.flatten_cons,
      ih fun l hl => h l (List.mem_cons_of_mem _ hl)]

/-- The strict pass finds the text between the markers. -/
private theorem armoredBody_armored (hspace : C.isWhitespace = isWhitespace) {s text : Str} (ht : IsText s)
    (h : Armored C s text) : armoredBody false (C.lines text) = s := by
  obtain ⟨before, first, body, last, after, hsplit, hbefore, hfirst, hbody, hlast⟩ := h
  obtain ⟨hflat, htext⟩ := trim_wrapped hspace ht hbody
  unfold KeyText.lines
  rw [hsplit]
  simp only [List.map_append, List.map_cons]
  rw [trim_begin hspace hfirst, trim_end hspace hlast, armoredBody_skip, armoredBody, if_pos rfl,
    armoredBody_block htext, hflat]
  intro line hline
  obtain ⟨raw, hraw, rfl⟩ := List.mem_map.1 hline
  exact not_or.1 (hbefore raw hraw)

/-- The strict pass finds nothing in text without markers. -/
private theorem armoredBody_bare (hspace : C.isWhitespace = isWhitespace) {s text : Str} (ht : IsText s)
    (h : Bare s text) : armoredBody false (C.lines text) = [] := by
  obtain ⟨-, htext⟩ := trim_wrapped hspace ht h
  have hplain : ∀ line ∈ C.lines text, line ≠ armorBegin ∧ line ≠ armorEnd := by
    intro line hline
    obtain ⟨hbegin, hend, -⟩ := text_line (htext line hline)
    exact ⟨hbegin, hend⟩
  rw [← List.append_nil (C.lines text), armoredBody_skip hplain]
  rfl

/-- The lenient pass finds the text. -/
private theorem filter_bare (hspace : C.isWhitespace = isWhitespace) {s text : Str} (ht : IsText s) (h : Bare s text) :
    ((C.lines text).filter fun l => l ≠ [] ∧ ¬ "-----".toList <+: l).flatten = s := by
  obtain ⟨hflat, htext⟩ := trim_wrapped hspace ht h
  rw [← hflat]
  show ((C.lines text).filter fun l => l ≠ [] ∧ ¬ "-----".toList <+: l).flatten = (C.lines text).flatten
  change ∀ line ∈ C.lines text, IsText line at htext
  generalize C.lines text = lines at htext
  induction lines with
  | nil => rfl
  | cons line lines ih =>
    have ih := ih fun l hl => htext l (List.mem_cons_of_mem _ hl)
    by_cases hnil : line = []
    · subst hnil
      rw [List.filter_cons_of_neg (by simp), ih]
      rfl
    · have hkeep : line ≠ [] ∧ ¬ "-----".toList <+: line := ⟨hnil, (text_line (htext line List.mem_cons_self)).2.2⟩
      rw [List.filter_cons_of_pos (by simpa using hkeep), List.flatten_cons, ih, List.flatten_cons]

/-! ### The armored text -/

private theorem chunks_flatten {n fuel : Nat} {s : Str} (hn : 0 < n) (h : s.length ≤ fuel) :
    (chunks n fuel s).flatten = s := by
  induction fuel generalizing s with
  | zero => rw [List.eq_nil_of_length_eq_zero (Nat.le_zero.1 h), chunks, List.flatten_nil]
  | succ fuel ih =>
    rw [chunks]
    by_cases hnil : s = []
    · rw [if_pos hnil, hnil, List.flatten_nil]
    · have hpos := List.length_pos_of_ne_nil hnil
      have hrest : (s.drop n).length ≤ fuel := by
        rw [List.length_drop]
        omega
      rw [if_neg hnil, List.flatten_cons, ih hrest, List.take_append_drop]

/-- Text that is made of lines is split into them. -/
private theorem splitOn_lines {lines : List Str} (h : ∀ line ∈ lines, '\n' ∉ line) (rest : Str) :
    (lines.flatMap (fun line => line ++ ['\n']) ++ rest).splitOn '\n' = lines ++ rest.splitOn '\n' := by
  induction lines with
  | nil => rfl
  | cons line lines ih =>
    have htail := ih fun l hl => h l (List.mem_cons_of_mem _ hl)
    rw [List.flatMap_cons, List.append_assoc, List.append_assoc, List.singleton_append,
      List.splitOn_append_cons_self_of_not_mem (h line List.mem_cons_self), htail, List.cons_append]

private theorem padded_self (line : Str) : Padded line line :=
  ⟨[], [], by rw [List.nil_append, List.append_nil], fun _ h => absurd h List.not_mem_nil⟩

/-- Text in lines of any length is wrapped. -/
private theorem wrapped_self (lines : List Str) : Wrapped lines.flatten lines :=
  ⟨lines, List.forall₂_same.2 fun line _ => padded_self line, rfl⟩

theorem isText_base64Text (p : PublicIdentity) : IsText (base64Text B p) := B.mem_encode _

/-- What `to_armored` writes is armored, wherever it is put. -/
theorem armored_toArmored (p : PublicIdentity) {before : List Str} (after : Str)
    (hbefore : ∀ line ∈ before, '\n' ∉ line ∧ ¬ IsMarker (C := C) line) :
    Armored C (base64Text B p) (before.flatMap (fun line => line ++ ['\n']) ++ toArmored B p ++ after) := by
  have hflat : (chunks 64 (base64Text B p).length (base64Text B p)).flatten = base64Text B p :=
    chunks_flatten (by decide) le_rfl
  have hbody : ∀ line ∈ chunks 64 (base64Text B p).length (base64Text B p), '\n' ∉ line := by
    intro line hline hc
    have hmem : '\n' ∈ base64Text B p := by
      rw [← hflat]
      exact List.mem_flatten.2 ⟨line, hline, hc⟩
    exact (text_char (isText_base64Text B p _ hmem)).2.2 rfl
  refine ⟨before, armorBegin, chunks 64 (base64Text B p).length (base64Text B p), armorEnd, after.splitOn '\n', ?_,
    fun raw hraw => (hbefore raw hraw).2, padded_self _, ?_, padded_self _⟩
  · have hlines : toArmored B p ++ after =
        (armorBegin :: (chunks 64 (base64Text B p).length (base64Text B p) ++ [armorEnd])).flatMap
          (fun line => line ++ ['\n']) ++ after := by
      simp only [toArmored, List.flatMap_cons, List.flatMap_append, List.flatMap_nil, List.append_nil, List.append_assoc]
    rw [List.append_assoc, hlines, splitOn_lines fun line hline => (hbefore line hline).1, splitOn_lines,
      List.cons_append, List.append_assoc, List.singleton_append]
    intro line hline
    rcases List.mem_cons.1 hline with rfl | hline
    · decide
    · rcases List.mem_append.1 hline with hline | hline
      · exact hbody line hline
      · rw [List.mem_singleton.1 hline]
        decide
  · have hwrap := wrapped_self (chunks 64 (base64Text B p).length (base64Text B p))
    rwa [hflat] at hwrap

/-! ### Decoding -/

private theorem fromBytes_encode (p : PublicIdentity) : fromBytes C (C.cbor.encode p) = .ok p := by
  unfold fromBytes
  rw [C.cbor.decode_encode]

/-- The text of an identity is not empty where no identity is encoded as nothing. -/
private theorem base64Text_ne_nil (hempty : ∀ raw, B.encode raw = [] → C.cbor.decode raw = none) (p : PublicIdentity) :
    base64Text B p ≠ [] := by
  intro hnil
  have hnone := hempty _ hnil
  rw [C.cbor.decode_encode] at hnone
  cases hnone

theorem fromArmored_armored (hspace : C.isWhitespace = isWhitespace)
    (hempty : ∀ raw, B.encode raw = [] → C.cbor.decode raw = none) {p : PublicIdentity} {text : Str}
    (h : Armored C (base64Text B p) text) (hlen : byteLen text ≤ maxArmoredTextLen) : fromArmored C text = .ok p := by
  unfold fromArmored
  rw [if_neg (Nat.not_lt.2 hlen), armoredBody_armored hspace (isText_base64Text B p) h]
  dsimp only
  rw [if_neg (base64Text_ne_nil B hempty p), base64Text, B.base64_encode]
  exact fromBytes_encode p

/-- The strict pass refuses text without markers. -/
private theorem fromArmored_bare (hspace : C.isWhitespace = isWhitespace) {s text : Str} (ht : IsText s)
    (h : Bare s text) (hlen : byteLen text ≤ maxArmoredTextLen) :
    fromArmored C text = .error (.format "no armored public key found".toList) := by
  unfold fromArmored
  rw [if_neg (Nat.not_lt.2 hlen), armoredBody_bare hspace ht h]
  rfl

/-- The lenient pass decodes bare text. -/
private theorem fromPasted_bare (raw : C.Raw) (hspace : C.isWhitespace = isWhitespace) {s text : Str} (ht : IsText s)
    (hs : s ≠ []) (h : Bare s text) (hlen : byteLen text ≤ maxArmoredTextLen)
    (hdecode : (C.base64 s).or (C.base64NoPad s) = some raw) : fromPasted C text = fromBytes C raw := by
  unfold fromPasted
  rw [if_neg (Nat.not_lt.2 hlen), fromArmored_bare hspace ht h hlen]
  dsimp only
  rw [filter_bare hspace ht h, if_neg hs, hdecode]

private theorem length_filter_count (s : Str) : (s.filter (· ≠ '=')).length + s.count '=' = s.length := by
  induction s with
  | nil => rfl
  | cons c s ih =>
    by_cases hc : c = '='
    · subst hc
      rw [List.filter_cons_of_neg (by simp), List.count_cons_self, List.length_cons]
      omega
    · rw [List.filter_cons_of_pos (by simpa using hc), List.count_cons_of_ne hc, List.length_cons, List.length_cons]
      omega

/-- Without its padding the text is decoded to the same: either there was none, or the strict decoder refuses its
length. -/
private theorem decode_unpadded (raw : C.Raw) :
    (C.base64 ((B.encode raw).filter (· ≠ '='))).or (C.base64NoPad ((B.encode raw).filter (· ≠ '='))) = some raw := by
  cases hdecode : C.base64 ((B.encode raw).filter (· ≠ '=')) with
  | none => rw [Option.none_or, B.base64NoPad_encode]
  | some found =>
    have hgroups := B.length_of_base64 _ _ hdecode
    have hall := B.length_encode raw
    have hcount := B.count_encode raw
    have hsum := length_filter_count (B.encode raw)
    have hnone : (B.encode raw).count '=' = 0 := by omega
    have hsame : (B.encode raw).filter (· ≠ '=') = B.encode raw := by
      rw [List.filter_eq_self]
      intro c hc
      have hne : c ≠ '=' := by
        rintro rfl
        exact List.count_eq_zero.1 hnone hc
      simpa using hne
    rw [hsame, B.base64_encode] at hdecode
    rw [← hdecode, Option.some_or]

/-- The text is not all padding. -/
private theorem unpadded_ne_nil {raw : C.Raw} (h : B.encode raw ≠ []) : (B.encode raw).filter (· ≠ '=') ≠ [] := by
  intro hnil
  have hgroups := B.length_encode raw
  have hcount := B.count_encode raw
  have hsum := length_filter_count (B.encode raw)
  rw [hnil, List.length_nil] at hsum
  exact h (List.eq_nil_of_length_eq_zero (by omega))

/-- Armored text survives being pasted.  What `to_armored` writes is armored text, after any lines that are no markers
and before any text at all; armored text stays armored however its body is wrapped and whatever whitespace surrounds a
line.  Both decoders find the identity in it.  The lenient decoder finds it in the bare body, too, with the padding and
without it. -/
theorem armor_round_trip (hspace : C.isWhitespace = isWhitespace)
    (hempty : ∀ raw, B.encode raw = [] → C.cbor.decode raw = none) (p : PublicIdentity) :
    (∀ (before : List Str) (after : Str), (∀ line ∈ before, '\n' ∉ line ∧ ¬ IsMarker (C := C) line) →
      Armored C (base64Text B p) (before.flatMap (fun line => line ++ ['\n']) ++ toArmored B p ++ after)) ∧
    (∀ text, byteLen text ≤ maxArmoredTextLen → Armored C (base64Text B p) text →
      fromArmored C text = .ok p ∧ fromPasted C text = .ok p) ∧
    (∀ text, byteLen text ≤ maxArmoredTextLen →
      Bare (base64Text B p) text ∨ Bare ((base64Text B p).filter (· ≠ '=')) text → fromPasted C text = .ok p) := by
  have htext := isText_base64Text B p
  have hne := base64Text_ne_nil B hempty p
  refine ⟨fun before after hbefore => armored_toArmored B p after hbefore, ?_, ?_⟩
  · intro text hlen h
    have harmored := fromArmored_armored B hspace hempty h hlen
    refine ⟨harmored, ?_⟩
    unfold fromPasted
    rw [if_neg (Nat.not_lt.2 hlen), harmored]
  · intro text hlen h
    rcases h with h | h
    · rw [fromPasted_bare (C.cbor.encode p) hspace htext hne h hlen]
      · exact fromBytes_encode p
      · rw [base64Text, B.base64_encode, Option.some_or]
    · have hless : IsText ((base64Text B p).filter (· ≠ '=')) := fun c hc => htext c (List.mem_of_mem_filter hc)
      rw [fromPasted_bare (C.cbor.encode p) hspace hless (unpadded_ne_nil B hne) h hlen]
      · exact fromBytes_encode p
      · exact decode_unpadded B _

end FileSec.Peer

/-! ### An identity in the middle of a message -/

namespace FileSec.Peer.Sym

/-- Identities as bytes and bytes as base64. -/
def pastedText : KeyText where
  Raw := Bytes
  cbor := Keys.Sym.rawCodec Keys.Sym.publicCodec
  base64 := Base64.decode
  base64NoPad := Base64.decodeNoPad
  isWhitespace := isWhitespace

/-- The encoder behind them. -/
def base64Coding : Base64Coding pastedText where
  encode := Base64.encode
  base64_encode := Base64.decode_encode
  base64NoPad_encode := Base64.decodeNoPad_encode
  mem_encode _ _ h := Base64.mem_encode h
  length_encode := Base64.length_encode
  count_encode := Base64.count_encode
  length_of_base64 _ _ h := Base64.length_of_decode h

end FileSec.Peer.Sym

namespace FileSec.Peer

/-- Bob's key after a greeting and before a signature. -/
theorem armor_round_trip_message :
    let p : PublicIdentity := ⟨"Bob".toList, 7, List.replicate 32 1, List.replicate 32 2, none, none, rfl, rfl⟩
    fromArmored Sym.pastedText ("my key:\n".toList ++ toArmored Sym.base64Coding p ++ "\n-- \nBob".toList) = .ok p := by
  have hempty : ∀ raw, Sym.base64Coding.encode raw = [] → Sym.pastedText.cbor.decode raw = none := by
    intro raw hraw
    by_cases hnil : raw = []
    · subst hnil
      rfl
    · exact absurd hraw (Base64.encode_ne_nil hnil)
  intro p
  obtain ⟨hput, hfind, -⟩ := armor_round_trip Sym.base64Coding rfl hempty p
  refine (hfind _ (by decide +kernel) ?_).1
  have hbefore : ∀ line ∈ ["my key:".toList], '\n' ∉ line ∧ ¬ IsMarker (C := Sym.pastedText) line := by
    unfold IsMarker
    decide
  exact hput ["my key:".toList] "\n-- \nBob".toList hbefore

end FileSec.Peer
