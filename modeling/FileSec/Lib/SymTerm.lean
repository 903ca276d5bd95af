import Mathlib.Data.Option.Basic
import Mathlib.Data.Int.Init

/-!
# Symbolic terms

Terms over ideal primitives: numbers, texts, names (byte strings drawn at random), pairs, hashes, authenticated
encryptions under a key and keys wrapped for a recipient.  A `Codec` writes values of a type as terms and reads them
back; the combinators build one for every record.
-/

namespace SymTerm

/-- Terms. -/
inductive Term where
  | nat (n : Nat)
  | text (s : List Char)
  | name (b : List UInt8)
  | pair (a b : Term)
  | hash (t : Term)
  | enc (key nonce : List UInt8) (aad pt : Term)
  | wrap (recipient key : List UInt8) (seed : Nat)
  deriving DecidableEq

/-- Values of `α` as terms. -/
structure Codec (α : Type) where
  enc : α → Term
  dec : Term → Option α
  dec_enc : ∀ a, dec (enc a) = some a

attribute [simp] Codec.dec_enc

variable {α β γ : Type}

theorem Codec.enc_injective (c : Codec α) {a b : α} (h : c.enc a = c.enc b) : a = b := by
  have e := c.dec_enc a
  rw [h, c.dec_enc, Option.some.injEq] at e
  exact e.symm

namespace Codec

/-- Terms themselves. -/
def term : Codec Term := ⟨id, some, fun _ => rfl⟩

/-- Numbers. -/
def nat : Codec Nat where
  enc := .nat
  dec t := match t with
    | .nat n => some n
    | _ => none
  dec_enc _ := rfl

/-- Texts. -/
def text : Codec (List Char) where
  enc := .text
  dec t := match t with
    | .text s => some s
    | _ => none
  dec_enc _ := rfl

/-- Names. -/
def name : Codec (List UInt8) where
  enc := .name
  dec t := match t with
    | .name b => some b
    | _ => none
  dec_enc _ := rfl

/-- Pairs. -/
def pair (c : Codec α) (d : Codec β) : Codec (α × β) where
  enc p := .pair (c.enc p.1) (d.enc p.2)
  dec t := match t with
    | .pair a b => (c.dec a).bind fun x => (d.dec b).map fun y => (x, y)
    | _ => none
  dec_enc p := by simp

/-- Values made from the values of another type. -/
def map (c : Codec α) (make : α → β) (take : β → α) (h : ∀ b, make (take b) = b) : Codec β where
  enc b := c.enc (take b)
  dec t := (c.dec t).map make
  dec_enc b := by simp [h]

/-- Optional values. -/
def option (c : Codec α) : Codec (Option α) where
  enc o := match o with
    | none => .nat 0
    | some a => .pair (.nat 1) (c.enc a)
  dec t := match t with
    | .nat _ => some none
    | .pair _ a => (c.dec a).map some
    | _ => none
  dec_enc o := by cases o <;> simp

/-- The list a term stands for. -/
def decList (dec : Term → Option α) : Term → Option (List α)
  | .nat _ => some []
  | .pair a b => (dec a).bind fun x => (decList dec b).map (x :: ·)
  | _ => none

/-- Lists. -/
def list (c : Codec α) : Codec (List α) where
  enc l := l.foldr (fun a t => .pair (c.enc a) t) (.nat 0)
  dec := decList c.dec
  dec_enc l := by
    induction l with
    | nil => rfl
    | cons a l ih => simp [decList, ih]

/-- Integers. -/
def int : Codec Int :=
  (pair nat nat).map (fun p => if p.1 = 0 then Int.ofNat p.2 else Int.negSucc p.2)
    (fun i => match i with
      | .ofNat n => (0, n)
      | .negSucc n => (1, n))
    fun i => by cases i <;> rfl

end Codec

/-- The number of bytes of a term on disk. -/
def Term.size : Term → Nat
  | .nat _ => 9
  | .text s => 9 + 4 * s.length
  | .name b => 9 + b.length
  | .pair a b => 1 + a.size + b.size
  | .hash _ => 32
  | .enc _ _ _ pt => pt.size + 16
  | .wrap .. => 1200

end SymTerm
