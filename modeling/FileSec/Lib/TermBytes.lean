import FileSec.Lib.SymTerm
import Mathlib.Data.Nat.Digits.Defs

/-!
# Terms as bytes

A prefix code of symbolic terms, so that every `Codec` is also one to byte strings.  Each reader takes its value off the
front and returns what is left (`readTerm_writeTerm`).
-/

namespace SymTerm

/-! ### Numbers and byte strings -/

/-- A number: the number of its digits in unary, a zero, and the digits to the base 256. -/
def writeNat (n : Nat) : List UInt8 :=
  List.replicate (Nat.digits 256 n).length 1 ++ 0 :: (Nat.digits 256 n).map UInt8.ofNat

/-- The number at the front. -/
def readNat (b : List UInt8) : Nat × List UInt8 :=
  let k := (b.takeWhile (· = 1)).length
  (Nat.ofDigits 256 (((b.drop (k + 1)).take k).map UInt8.toNat), (b.drop (k + 1)).drop k)

theorem readNat_writeNat (n : Nat) (rest : List UInt8) : readNat (writeNat n ++ rest) = (n, rest) := by
  obtain ⟨ds, hds⟩ : ∃ ds, Nat.digits 256 n = ds := ⟨_, rfl⟩
  have hb : writeNat n ++ rest = List.replicate ds.length 1 ++ 0 :: (ds.map UInt8.ofNat ++ rest) := by
    simp [writeNat, hds]
  have htake : ((writeNat n ++ rest).takeWhile (· = 1)).length = ds.length := by
    rw [hb, List.takeWhile_append_of_pos (by simp)]
    simp
  have hdrop : (writeNat n ++ rest).drop (ds.length + 1) = ds.map UInt8.ofNat ++ rest := by
    rw [hb, ← List.drop_drop, List.drop_left' (by simp)]
    rfl
  have hback : (ds.map UInt8.ofNat).map UInt8.toNat = ds := by
    rw [List.map_map]
    refine (List.map_congr_left fun d hd => ?_).trans (List.map_id ds)
    have hlt : d < 256 := Nat.digits_lt_base (by decide) (hds ▸ hd)
    simp only [Function.comp_apply, UInt8.toNat_ofNat', id_eq]
    omega
  unfold readNat
  simp only [htake, hdrop]
  rw [List.take_left' (by simp), List.drop_left' (by simp), hback, ← hds, Nat.ofDigits_digits]

/-- A byte string after its length. -/
def writeBytes (b : List UInt8) : List UInt8 := writeNat b.length ++ b

/-- The byte string at the front. -/
def readBytes (b : List UInt8) : List UInt8 × List UInt8 :=
  let (n, rest) := readNat b
  (rest.take n, rest.drop n)

theorem readBytes_writeBytes (b rest : List UInt8) : readBytes (writeBytes b ++ rest) = (b, rest) := by
  unfold readBytes writeBytes
  rw [List.append_assoc, readNat_writeNat]
  simp

/-- A text: its length and its code points. -/
def writeText (s : List Char) : List UInt8 := writeNat s.length ++ s.flatMap fun c => writeNat c.toNat

/-- As many characters as the number says. -/
def readChars : Nat → List UInt8 → List Char × List UInt8
  | 0, b => ([], b)
  | n + 1, b =>
    let (c, rest) := readNat b
    let (s, rest) := readChars n rest
    (Char.ofNat c :: s, rest)

/-- The text at the front. -/
def readText (b : List UInt8) : List Char × List UInt8 :=
  let (n, rest) := readNat b
  readChars n rest

theorem readText_writeText (s : List Char) (rest : List UInt8) : readText (writeText s ++ rest) = (s, rest) := by
  have hchars : readChars s.length (s.flatMap (fun c => writeNat c.toNat) ++ rest) = (s, rest) := by
    induction s with
    | nil => rfl
    | cons c s ih =>
      simp only [List.length_cons, List.flatMap_cons, List.append_assoc, readChars, readNat_writeNat, ih, Char.ofNat_toNat]
  unfold readText writeText
  rw [List.append_assoc, readNat_writeNat]
  exact hchars

/-! ### Terms -/

/-- A term after the number of its constructor. -/
def writeTerm : Term → List UInt8
  | .nat n => 0 :: writeNat n
  | .text s => 1 :: writeText s
  | .name b => 2 :: writeBytes b
  | .pair a b => 3 :: (writeTerm a ++ writeTerm b)
  | .hash t => 4 :: writeTerm t
  | .enc key nonce aad pt => 5 :: (writeBytes key ++ (writeBytes nonce ++ (writeTerm aad ++ writeTerm pt)))
  | .wrap recipient key seed => 6 :: (writeBytes recipient ++ (writeBytes key ++ writeNat seed))

/-- The term at the front; the first argument bounds its depth. -/
def readTerm : Nat → List UInt8 → Option (Term × List UInt8)
  | 0, _ => none
  | _, [] => none
  | fuel + 1, tag :: b =>
    if tag = 0 then
      let (n, rest) := readNat b
      some (.nat n, rest)
    else if tag = 1 then
      let (s, rest) := readText b
      some (.text s, rest)
    else if tag = 2 then
      let (n, rest) := readBytes b
      some (.name n, rest)
    else if tag = 3 then do
      let (x, rest) ← readTerm fuel b
      let (y, rest) ← readTerm fuel rest
      some (.pair x y, rest)
    else if tag = 4 then do
      let (x, rest) ← readTerm fuel b
      some (.hash x, rest)
    else if tag = 5 then
      let (key, rest) := readBytes b
      let (nonce, rest) := readBytes rest
      do
        let (aad, rest) ← readTerm fuel rest
        let (pt, rest) ← readTerm fuel rest
        some (.enc key nonce aad pt, rest)
    else
      let (recipient, rest) := readBytes b
      let (key, rest) := readBytes rest
      let (seed, rest) := readNat rest
      some (.wrap recipient key seed, rest)

theorem readTerm_writeTerm (t : Term) {fuel : Nat} (hf : (writeTerm t).length ≤ fuel) (rest : List UInt8) :
    readTerm fuel (writeTerm t ++ rest) = some (t, rest) := by
  induction t generalizing fuel rest with
  | nat n =>
    obtain ⟨k, rfl⟩ : ∃ k, fuel = k + 1 := ⟨fuel - 1, by simp [writeTerm] at hf; omega⟩
    simp [writeTerm, readTerm, readNat_writeNat]
  | text s =>
    obtain ⟨k, rfl⟩ : ∃ k, fuel = k + 1 := ⟨fuel - 1, by simp [writeTerm] at hf; omega⟩
    simp [writeTerm, readTerm, readText_writeText]
  | name b =>
    obtain ⟨k, rfl⟩ : ∃ k, fuel = k + 1 := ⟨fuel - 1, by simp [writeTerm] at hf; omega⟩
    simp [writeTerm, readTerm, readBytes_writeBytes]
  | pair a b iha ihb =>
    simp only [writeTerm, List.length_cons, List.length_append] at hf
    obtain ⟨k, rfl⟩ : ∃ k, fuel = k + 1 := ⟨fuel - 1, by omega⟩
    have ha := @iha k (by omega) (writeTerm b ++ rest)
    have hb := @ihb k (by omega) rest
    simp [writeTerm, readTerm, ha, hb]
  | hash t ih =>
    simp only [writeTerm, List.length_cons] at hf
    obtain ⟨k, rfl⟩ : ∃ k, fuel = k + 1 := ⟨fuel - 1, by omega⟩
    have ht := @ih k (by omega) rest
    simp [writeTerm, readTerm, ht]
  | enc key nonce aad pt iha ihp =>
    simp only [writeTerm, List.length_cons, List.length_append] at hf
    obtain ⟨k, rfl⟩ : ∃ k, fuel = k + 1 := ⟨fuel - 1, by omega⟩
    have ha := @iha k (by omega) (writeTerm pt ++ rest)
    have hp := @ihp k (by omega) rest
    simp [writeTerm, readTerm, readBytes_writeBytes, ha, hp]
  | wrap recipient key seed =>
    obtain ⟨k, rfl⟩ : ∃ k, fuel = k + 1 := ⟨fuel - 1, by simp [writeTerm] at hf; omega⟩
    simp [writeTerm, readTerm, readBytes_writeBytes, readNat_writeNat]

/-! ### Codecs to bytes -/

variable {α : Type}

/-- A value as bytes. -/
def Codec.toBytes (c : Codec α) (a : α) : List UInt8 := writeTerm (c.enc a)

/-- The value that the bytes hold, if they hold one and no more. -/
def Codec.ofBytes (c : Codec α) (b : List UInt8) : Option α :=
  match readTerm b.length b with
  | some (t, []) => c.dec t
  | _ => none

@[simp] theorem Codec.ofBytes_toBytes (c : Codec α) (a : α) : c.ofBytes (c.toBytes a) = some a := by
  have h := readTerm_writeTerm (c.enc a) le_rfl []
  rw [List.append_nil] at h
  unfold ofBytes toBytes
  rw [h]
  exact c.dec_enc a

/-- The length of a list does not depend on its order. -/
theorem Codec.length_toBytes_list (c : Codec α) {l l' : List α} (h : l.Perm l') :
    (c.list.toBytes l).length = (c.list.toBytes l').length := by
  induction h with
  | nil => rfl
  | @cons a l l' _ ih =>
    have hcons : ∀ l : List α, (c.list.toBytes (a :: l)).length = 1 + (c.toBytes a).length + (c.list.toBytes l).length := by
      intro l
      simp [toBytes, list, writeTerm]
      omega
    rw [hcons, hcons, ih]
  | swap a b l =>
    simp [toBytes, list, writeTerm]
    omega
  | trans _ _ ih ih' => exact ih.trans ih'

end SymTerm
