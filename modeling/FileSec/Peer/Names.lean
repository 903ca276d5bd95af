import FileSec.Path

/-!
# Display names

What a public identity calls itself, made fit to be shown (`identity.rs`).  The loop of `sanitize_display_name` drops,
folds, trims and truncates in one pass; `sanitizeDisplayName_eq` takes it apart: the words of the name, joined by
single spaces, cut to the limit.  The cut comes last, so it can leave a space at the end: `sanitizeDisplayName_iff`
says for which names it does not.
-/

namespace FileSec.Peer

/-- `char::is_whitespace` -/
def isWhitespace (c : Char) : Bool :=
  let n := c.toNat
  (0x9 ≤ n && n ≤ 0xD) || n == 0x20 || n == 0x85 || n == 0xA0 || n == 0x1680 || (0x2000 ≤ n && n ≤ 0x200A) ||
    n == 0x2028 || n == 0x2029 || n == 0x202F || n == 0x205F || n == 0x3000

/-- `char::is_control` -/
def isControl (c : Char) : Bool :=
  let n := c.toNat
  n ≤ 0x1F || (0x7F ≤ n && n ≤ 0x9F)

/-- `MAX_DISPLAY_NAME_LEN` -/
def maxDisplayNameLen : Nat := 96

/-- The loop of `sanitize_display_name`. -/
def sanitizeLoop : Str → Str → Nat → Bool → Str
  | [], out, _, _ => out
  | c :: rest, out, count, pendingSpace =>
    if count ≥ maxDisplayNameLen then out
    else if isSpoofingFormatChar c then sanitizeLoop rest out count pendingSpace
    else if isWhitespace c then sanitizeLoop rest out count true
    else if isControl c then sanitizeLoop rest out count pendingSpace
    else if pendingSpace = true ∧ out ≠ [] then
      if count + 1 ≥ maxDisplayNameLen then out ++ [' ']
      else sanitizeLoop rest (out ++ [' ', c]) (count + 2) false
    else sanitizeLoop rest (out ++ [c]) (count + 1) false

/-- `sanitize_display_name` -/
def sanitizeDisplayName (raw : Str) : Str := sanitizeLoop raw [] 0 false

/-! ### The words of a name -/

/-- The characters of the raw name that count: whitespace, and what is neither a control character nor invisible. -/
def counts (c : Char) : Bool := !isSpoofingFormatChar c && (isWhitespace c || !isControl c)

/-- The words of the raw name: the runs of visible characters between its whitespace. -/
def displayWords (raw : Str) : List Str := ((raw.filter counts).splitOnP isWhitespace).filter fun w => w ≠ []

/-- A word that can be shown as it is. -/
def GoodWord (w : Str) : Prop :=
  w ≠ [] ∧ ∀ c ∈ w, isSpoofingFormatChar c = false ∧ isWhitespace c = false ∧ isControl c = false

/-- The words with a space before each. -/
private def spaced (words : List Str) : Str := words.flatMap fun w => ' ' :: w

private theorem intercalate_space (w : Str) (words : List Str) :
    [' '].intercalate (w :: words) = w ++ spaced words := by
  induction words generalizing w with
  | nil => simp [spaced]
  | cons v words ih =>
    rw [List.intercalate_cons_cons, ih v]
    simp [spaced]

/-- What the loop would add to the name if there were no limit. -/
private def tidy : Str → Bool → Bool → Str
  | [], _, _ => []
  | c :: rest, started, pendingSpace =>
    if isSpoofingFormatChar c then tidy rest started pendingSpace
    else if isWhitespace c then tidy rest started true
    else if isControl c then tidy rest started pendingSpace
    else if pendingSpace = true ∧ started = true then ' ' :: c :: tidy rest true false
    else c :: tidy rest true false

/-- The loop adds as much of it as fits. -/
private theorem sanitizeLoop_eq (raw out : Str) (pendingSpace : Bool) :
    sanitizeLoop raw out out.length pendingSpace =
      out ++ (tidy raw (decide (out ≠ [])) pendingSpace).take (maxDisplayNameLen - out.length) := by
  induction raw generalizing out pendingSpace with
  | nil => simp [sanitizeLoop, tidy]
  | cons c rest ih =>
    have hgrown : ∀ x : Str, decide (out ++ x ≠ []) = true ∨ x = [] := by
      intro x
      cases x with
      | nil => exact Or.inr rfl
      | cons a x => simp
    unfold sanitizeLoop tidy
    by_cases hfull : out.length ≥ maxDisplayNameLen
    · rw [if_pos hfull, Nat.sub_eq_zero_of_le hfull, List.take_zero, List.append_nil]
    rw [if_neg hfull]
    by_cases hs : isSpoofingFormatChar c = true
    · rw [if_pos hs, if_pos hs, ih]
    rw [if_neg hs, if_neg hs]
    by_cases hw : isWhitespace c = true
    · rw [if_pos hw, if_pos hw, ih]
    rw [if_neg hw, if_neg hw]
    by_cases hc : isControl c = true
    · rw [if_pos hc, if_pos hc, ih]
    rw [if_neg hc, if_neg hc]
    obtain ⟨room, hroom⟩ : ∃ room, maxDisplayNameLen - out.length = room + 1 :=
      ⟨maxDisplayNameLen - out.length - 1, by omega⟩
    rw [hroom]
    by_cases hp : pendingSpace = true ∧ out ≠ []
    · have hp' : pendingSpace = true ∧ decide (out ≠ []) = true := by simpa using hp
      rw [if_pos hp, if_pos hp']
      by_cases hlast : out.length + 1 ≥ maxDisplayNameLen
      · -- the space itself takes the last place
        obtain rfl : room = 0 := by omega
        rw [if_pos hlast]
        simp
      · obtain ⟨room', rfl⟩ : ∃ room', room = room' + 1 := ⟨room - 1, by omega⟩
        have hgrow : (out ++ [' ', c]).length = out.length + 2 := by simp
        have hleft : maxDisplayNameLen - (out.length + 2) = room' := by omega
        have hrest := ih (out ++ [' ', c]) false
        rw [hgrow, hleft, (hgrown _).resolve_right (by simp)] at hrest
        rw [if_neg hlast, hrest]
        simp
    · have hp' : ¬ (pendingSpace = true ∧ decide (out ≠ []) = true) := by simpa using hp
      have hgrow : (out ++ [c]).length = out.length + 1 := by simp
      have hleft : maxDisplayNameLen - (out.length + 1) = room := by omega
      have hrest := ih (out ++ [c]) false
      rw [hgrow, hleft, (hgrown _).resolve_right (by simp)] at hrest
      rw [if_neg hp, if_neg hp', hrest]
      simp

/-- The words of a text, cut at the first whitespace. -/
private theorem tidy_eq (raw : Str) :
    tidy raw true true = spaced (displayWords raw) ∧
      tidy raw false false = [' '].intercalate (displayWords raw) ∧
      tidy raw false true = [' '].intercalate (displayWords raw) ∧
      ∃ w pieces, (raw.filter counts).splitOnP isWhitespace = w :: pieces ∧
        tidy raw true false = w ++ spaced (pieces.filter fun w => w ≠ []) := by
  induction raw with
  | nil => simp [tidy, displayWords, spaced]
  | cons c rest ih =>
    obtain ⟨h1, h2, h3, w, pieces, hpieces, h4⟩ := ih
    have hwords : displayWords rest = (w :: pieces).filter fun w => w ≠ [] := by rw [← hpieces]; rfl
    unfold tidy
    by_cases hs : isSpoofingFormatChar c = true
    · have hdrop : (c :: rest).filter counts = rest.filter counts := by simp [counts, hs]
      have hsame : displayWords (c :: rest) = displayWords rest := by
        unfold displayWords
        rw [hdrop]
      simp only [hs, if_true, hsame, hdrop]
      exact ⟨h1, h2, h3, w, pieces, hpieces, h4⟩
    by_cases hw : isWhitespace c = true
    · have hkeep : (c :: rest).filter counts = c :: rest.filter counts := by simp [counts, hs, hw]
      have hsplit : ((c :: rest).filter counts).splitOnP isWhitespace = [] :: w :: pieces := by
        rw [hkeep, List.splitOnP_cons_eq_if_modifyHead, if_pos hw, hpieces]
      have hsame : displayWords (c :: rest) = displayWords rest := by
        unfold displayWords
        rw [hsplit, hpieces]
        rfl
      simp only [if_neg hs, hw, if_true, hsame, hsplit]
      refine ⟨h1, h3, h3, [], w :: pieces, rfl, ?_⟩
      rw [h1, hwords]
      rfl
    by_cases hc : isControl c = true
    · have hdrop : (c :: rest).filter counts = rest.filter counts := by simp [counts, hw, hc]
      have hsame : displayWords (c :: rest) = displayWords rest := by
        unfold displayWords
        rw [hdrop]
      simp only [if_neg hs, if_neg hw, hc, if_true, hsame, hdrop]
      exact ⟨h1, h2, h3, w, pieces, hpieces, h4⟩
    · have hkeep : (c :: rest).filter counts = c :: rest.filter counts := by simp [counts, hs, hc]
      have hsplit : ((c :: rest).filter counts).splitOnP isWhitespace = (c :: w) :: pieces := by
        rw [hkeep, List.splitOnP_cons_eq_if_modifyHead, if_neg hw, hpieces]
        rfl
      have hthis : displayWords (c :: rest) = (c :: w) :: pieces.filter fun w => w ≠ [] := by
        unfold displayWords
        rw [hsplit, List.filter_cons_of_pos (by simp)]
      simp only [if_neg hs, if_neg hw, if_neg hc, hthis, hsplit, h4, intercalate_space]
      refine ⟨by simp [spaced], by simp, by simp, c :: w, pieces, rfl, by simp⟩

/-- `sanitizeDisplayName` joins the words with single spaces and cuts the result to the limit. -/
theorem sanitizeDisplayName_eq (raw : Str) :
    sanitizeDisplayName raw = ([' '].intercalate (displayWords raw)).take maxDisplayNameLen := by
  have h := sanitizeLoop_eq raw [] false
  rw [List.nil_append] at h
  exact h.trans (by rw [← (tidy_eq raw).2.1]; rfl)

private theorem of_mem_splitOnP {α : Type*} {p : α → Bool} {l piece : List α} (h : piece ∈ l.splitOnP p) :
    ∀ c ∈ piece, c ∈ l ∧ p c = false := by
  induction l generalizing piece with
  | nil =>
    rw [List.splitOnP_nil, List.mem_singleton] at h
    simp [h]
  | cons d l ih =>
    rw [List.splitOnP_cons_eq_if_modifyHead] at h
    intro c hc
    by_cases hd : p d = true
    · rw [if_pos hd] at h
      rcases List.mem_cons.1 h with rfl | h
      · exact absurd hc List.not_mem_nil
      · exact ⟨List.mem_cons_of_mem d (ih h c hc).1, (ih h c hc).2⟩
    · rw [if_neg hd] at h
      obtain ⟨w, pieces, hpieces⟩ := List.exists_cons_of_ne_nil (List.splitOnP_ne_nil p l)
      rw [hpieces, List.modifyHead_cons] at h
      have hall : ∀ c ∈ w, c ∈ l ∧ p c = false := ih (by rw [hpieces]; exact List.mem_cons_self)
      rcases List.mem_cons.1 h with rfl | h
      · rcases List.mem_cons.1 hc with rfl | hc
        · exact ⟨List.mem_cons_self, by simpa using hd⟩
        · exact ⟨List.mem_cons_of_mem d (hall c hc).1, (hall c hc).2⟩
      · have := ih (by rw [hpieces]; exact List.mem_cons_of_mem w h) c hc
        exact ⟨List.mem_cons_of_mem d this.1, this.2⟩

theorem goodWord_of_mem {raw w : Str} (h : w ∈ displayWords raw) : GoodWord w := by
  obtain ⟨hpiece, hne⟩ := List.mem_filter.1 h
  refine ⟨by simpa using hne, fun c hc => ?_⟩
  obtain ⟨hmem, hw⟩ := of_mem_splitOnP hpiece c hc
  have hcount := (List.mem_filter.1 hmem).2
  unfold counts at hcount
  rw [hw, Bool.false_or, Bool.and_eq_true, Bool.not_eq_true', Bool.not_eq_true'] at hcount
  exact ⟨hcount.1, hw, hcount.2⟩

/-- Good words joined by spaces have these words. -/
theorem displayWords_intercalate {words : List Str} (h : ∀ w ∈ words, GoodWord w) :
    displayWords ([' '].intercalate words) = words := by
  have hfilter : ([' '].intercalate words).filter counts = [' '].intercalate words := by
    rw [List.filter_eq_self]
    intro c hc
    rcases SepPath.mem_intercalate hc with rfl | ⟨w, hw, hcw⟩
    · decide
    · obtain ⟨h1, h2, h3⟩ := (h w hw).2 c hcw
      simp [counts, h1, h3]
  unfold displayWords
  rw [hfilter]
  clear hfilter
  induction words with
  | nil => simp
  | cons w words ih =>
    obtain ⟨hne, hgood⟩ := h w (by simp)
    have hplain : ∀ c ∈ w, isWhitespace c = false := fun c hc => (hgood c hc).2.1
    have hrest := ih fun v hv => h v (by simp [hv])
    cases words with
    | nil =>
      rw [List.intercalate_singleton, List.splitOnP_eq_singleton hplain]
      simp [hne]
    | cons v words =>
      rw [List.intercalate_cons_cons, List.append_assoc, List.singleton_append,
        List.splitOnP_append_cons_of_forall_mem hplain ' ' (by decide), List.filter_cons_of_pos (by simpa using hne),
        hrest]

/-! ### The cut -/

/-- Cutting good words that are joined by spaces gives good words joined by spaces, except that the cut can fall right
after a space. -/
private theorem take_intercalate {words : List Str} (h : ∀ w ∈ words, GoodWord w) (n : Nat) :
    (∃ kept : List Str, (∀ w ∈ kept, GoodWord w) ∧ ([' '].intercalate words).take n = [' '].intercalate kept) ∨
    ∃ kept more : List Str, words = kept ++ more ∧ kept ≠ [] ∧ more ≠ [] ∧
      ([' '].intercalate kept).length + 1 = n := by
  induction words generalizing n with
  | nil => exact Or.inl ⟨[], by simp, by simp⟩
  | cons w words ih =>
    obtain ⟨hne, hgood⟩ := h w (by simp)
    by_cases hw : n ≤ w.length
    · -- the cut falls into the first word, or right after it
      left
      have htake : ([' '].intercalate (w :: words)).take n = w.take n := by
        rw [intercalate_space, List.take_append_of_le_length hw]
      rw [htake]
      by_cases hn : n = 0
      · subst hn
        exact ⟨[], by simp, by simp⟩
      · refine ⟨[w.take n], ?_, by rw [List.intercalate_singleton]⟩
        intro v hv
        rw [List.mem_singleton.1 hv]
        refine ⟨?_, fun c hc => hgood c (List.mem_of_mem_take hc)⟩
        rw [ne_eq, List.take_eq_nil_iff, not_or]
        exact ⟨hn, hne⟩
    · cases words with
      | nil =>
        left
        refine ⟨[w], h, ?_⟩
        rw [List.intercalate_singleton, List.take_of_length_le (by omega)]
      | cons v words =>
        have hsplit : ([' '].intercalate (w :: v :: words)).take n =
            w ++ ' ' :: ([' '].intercalate (v :: words)).take (n - w.length - 1) := by
          obtain ⟨m, hm⟩ : ∃ m, n = w.length + (m + 1) := ⟨n - w.length - 1, by omega⟩
          rw [List.intercalate_cons_cons, List.append_assoc, hm, List.take_length_add_append, List.singleton_append,
            List.take_succ_cons]
          congr 3
          omega
        by_cases hcut : n = w.length + 1
        · right
          exact ⟨[w], v :: words, rfl, by simp, by simp, by rw [List.intercalate_singleton]; omega⟩
        · rcases ih (fun x hx => h x (by simp [hx])) (n - w.length - 1) with
            ⟨kept, hkept, htake⟩ | ⟨kept, more, hwords, hk, hm, hlen⟩
          · left
            have hsome : kept ≠ [] := by
              rintro rfl
              rw [List.intercalate_nil, List.take_eq_nil_iff] at htake
              rcases htake with h0 | h0
              · omega
              · have hv : v ≠ [] := (h v (by simp)).1
                rw [intercalate_space, List.append_eq_nil_iff] at h0
                exact hv h0.1
            refine ⟨w :: kept, ?_, ?_⟩
            · intro x hx
              rcases List.mem_cons.1 hx with rfl | hx
              · exact ⟨hne, hgood⟩
              · exact hkept x hx
            · obtain ⟨k, kept, rfl⟩ := List.exists_cons_of_ne_nil hsome
              rw [hsplit, htake, List.intercalate_cons_cons, List.append_assoc, List.singleton_append]
          · right
            refine ⟨w :: kept, more, by rw [hwords, List.cons_append], by simp, hm, ?_⟩
            obtain ⟨k, kept, rfl⟩ := List.exists_cons_of_ne_nil hk
            rw [List.intercalate_cons_cons, List.length_append, List.length_append, List.length_singleton]
            omega

/-- What a displayed name has to be: nothing in it is invisible or a control character, it is within the limit, and its
only whitespace are single spaces inside it. -/
structure SafeName (name : Str) : Prop where
  visible : ∀ c ∈ name, isSpoofingFormatChar c = false ∧ isControl c = false
  space : ∀ c ∈ name, isWhitespace c = true → c = ' '
  length_le : name.length ≤ maxDisplayNameLen
  head : name.head? ≠ some ' '
  last : name.getLast? ≠ some ' '
  doubled : ¬ [' ', ' '] <:+: name

/-- The cut to the limit does not fall right after a space between two words: no first words of the raw name, short of
all of them, have one character less than the limit when they are joined by spaces. -/
def CutFits (raw : Str) : Prop :=
  ∀ first more : List Str, displayWords raw = first ++ more → first ≠ [] → more ≠ [] →
    ([' '].intercalate first).length + 1 ≠ maxDisplayNameLen

/-- In good words joined by spaces, every space stands between two words. -/
private theorem nil_not_mem_splitOn {words : List Str} (h : ∀ w ∈ words, GoodWord w) (hne : words ≠ []) :
    [] ∉ ([' '].intercalate words).splitOn ' ' := by
  have hplain : ∀ w ∈ words, ' ' ∉ w := fun w hw hc => absurd ((h w hw).2 ' ' hc).2.1 (by decide)
  rw [List.splitOn_intercalate ' ' hplain hne]
  exact fun hm => (h [] hm).1 rfl

theorem safeName_intercalate {words : List Str} (h : ∀ w ∈ words, GoodWord w)
    (hlen : ([' '].intercalate words).length ≤ maxDisplayNameLen) : SafeName ([' '].intercalate words) := by
  by_cases hne : words = []
  · subst hne
    constructor <;> simp [maxDisplayNameLen]
  have hno := nil_not_mem_splitOn h hne
  have hchar : ∀ c ∈ [' '].intercalate words,
      isSpoofingFormatChar c = false ∧ isControl c = false ∧ (isWhitespace c = true → c = ' ') := by
    intro c hc
    rcases SepPath.mem_intercalate hc with rfl | ⟨w, hw, hcw⟩
    · decide
    · obtain ⟨h1, h2, h3⟩ := (h w hw).2 c hcw
      exact ⟨h1, h3, fun hs => absurd (h2.symm.trans hs) (by decide)⟩
  -- a space at the start, at the end or next to a space has an empty word beside it
  have hbeside : ∀ a b : Str, [' '].intercalate words = a ++ ' ' :: b →
      [] ∉ a.splitOn ' ' ∧ [] ∉ b.splitOn ' ' := by
    intro a b heq
    rw [heq, List.splitOn_append_cons_self, List.mem_append, not_or] at hno
    exact hno
  have hempty : [] ∈ ([] : Str).splitOn ' ' := by simp
  refine ⟨fun c hc => ⟨(hchar c hc).1, (hchar c hc).2.1⟩, fun c hc => (hchar c hc).2.2, hlen, ?_, ?_, ?_⟩
  · intro hhead
    obtain ⟨b, hb⟩ := List.head?_eq_some_iff.1 hhead
    exact (hbeside [] b hb).1 hempty
  · intro hlast
    obtain ⟨a, ha⟩ := List.getLast?_eq_some_iff.1 hlast
    exact (hbeside a [] ha).2 hempty
  · rintro ⟨a, b, hab⟩
    have hb := (hbeside a (' ' :: b) (by rw [← hab]; simp)).2
    rw [← List.nil_append (' ' :: b), List.splitOn_append_cons_self, List.mem_append, not_or] at hb
    exact hb.1 hempty

/-- Where the cut falls right after a space, the sanitized name ends in that space. -/
private theorem sanitizeDisplayName_cut {raw : Str} (h : ¬ CutFits raw) :
    ∃ words : List Str, (∀ w ∈ words, GoodWord w) ∧ sanitizeDisplayName raw = [' '].intercalate words ++ [' '] ∧
      ([' '].intercalate words).length + 1 = maxDisplayNameLen := by
  unfold CutFits at h
  push Not at h
  obtain ⟨first, more, hwords, hf, hm, hlen⟩ := h
  refine ⟨first, fun w hw => goodWord_of_mem (hwords ▸ List.mem_append_left more hw), ?_, hlen⟩
  rw [sanitizeDisplayName_eq, hwords, SepPath.intercalate_append hf hm, ← hlen, List.take_length_add_append]
  rfl

private theorem displayWords_append_space (raw : Str) : displayWords (raw ++ [' ']) = displayWords raw := by
  have hspace : [' '].filter counts = [' '] := by decide
  unfold displayWords
  rw [List.filter_append, hspace, List.splitOnP_append_cons _ _ (by decide), List.filter_append]
  simp

/-- The sanitized name is good words joined by spaces, or the cut falls right after a space. -/
private theorem sanitizeDisplayName_words {raw : Str} (h : CutFits raw) :
    ∃ words : List Str, (∀ w ∈ words, GoodWord w) ∧ sanitizeDisplayName raw = [' '].intercalate words := by
  rcases take_intercalate (fun w hw => goodWord_of_mem hw) maxDisplayNameLen with hkept | ⟨first, more, hw, hf, hm, hlen⟩
  · rw [sanitizeDisplayName_eq]
    exact hkept
  · exact absurd hlen (h first more hw hf hm)

theorem sanitizeDisplayName_length_le (raw : Str) : (sanitizeDisplayName raw).length ≤ maxDisplayNameLen := by
  rw [sanitizeDisplayName_eq, List.length_take]
  exact Nat.min_le_left _ _

theorem safeName_sanitizeDisplayName {raw : Str} (h : CutFits raw) : SafeName (sanitizeDisplayName raw) := by
  have hlen := sanitizeDisplayName_length_le raw
  obtain ⟨words, hgood, heq⟩ := sanitizeDisplayName_words h
  rw [heq] at hlen ⊢
  exact safeName_intercalate hgood hlen

/-- Sanitizing again changes nothing, exactly if the cut did not fall right after a space. -/
theorem sanitizeDisplayName_idem_iff (raw : Str) :
    sanitizeDisplayName (sanitizeDisplayName raw) = sanitizeDisplayName raw ↔ CutFits raw := by
  constructor
  · intro h
    by_contra hcut
    obtain ⟨words, hgood, heq, hlen⟩ := sanitizeDisplayName_cut hcut
    rw [heq, sanitizeDisplayName_eq, displayWords_append_space, displayWords_intercalate hgood,
      List.take_of_length_le (by omega)] at h
    simp at h
  · intro h
    have hlen := sanitizeDisplayName_length_le raw
    obtain ⟨words, hgood, heq⟩ := sanitizeDisplayName_words h
    rw [sanitizeDisplayName_eq (sanitizeDisplayName raw), heq, displayWords_intercalate hgood, ← heq,
      List.take_of_length_le hlen]

/-- Sanitizing gives a name that is safe to show, exactly if the cut did not fall right after a space. -/
theorem safeName_sanitizeDisplayName_iff (raw : Str) : SafeName (sanitizeDisplayName raw) ↔ CutFits raw := by
  refine ⟨fun h => ?_, safeName_sanitizeDisplayName⟩
  by_contra hcut
  obtain ⟨words, -, heq, -⟩ := sanitizeDisplayName_cut hcut
  refine h.last ?_
  rw [heq]
  simp

end FileSec.Peer
