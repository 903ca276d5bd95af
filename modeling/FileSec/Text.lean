import Mathlib.Data.List.Infix
import Mathlib.Algebra.BigOperators.Group.List.Basic
import Mathlib.Algebra.Order.BigOperators.Group.List
import Mathlib.Algebra.Order.Group.Nat
import Mathlib.Algebra.GroupWithZero.Nat

/-!
# Texts and errors

Strings are lists of characters whose length is counted in UTF-8 bytes, as `str::len` does.  `Error` is the core
crate's error type with the texts of its `Display`; the store's errors are these texts.
-/

namespace FileSec

/-- A string of the source. -/
abbrev Str := List Char

instance : LawfulBEq Str := inferInstance

/-- A byte string of the source. -/
abbrev Bytes := List UInt8

/-- `str::len`: the number of UTF-8 bytes. -/
def byteLen (s : Str) : Nat := (s.map Char.utf8Size).sum

@[simp] theorem byteLen_nil : byteLen [] = 0 := rfl

@[simp] theorem byteLen_cons (c : Char) (s : Str) : byteLen (c :: s) = c.utf8Size + byteLen s := by
  simp [byteLen]

@[simp] theorem byteLen_append (s t : Str) : byteLen (s ++ t) = byteLen s + byteLen t := by
  simp [byteLen]

theorem byteLen_le_of_sublist {s t : Str} (h : s.Sublist t) : byteLen s ≤ byteLen t :=
  (h.map Char.utf8Size).sum_le_sum (fun _ _ => Nat.zero_le _)

theorem length_le_byteLen (s : Str) : s.length ≤ byteLen s := by
  induction s with
  | nil => simp
  | cons c s ih =>
    have := c.utf8Size_pos
    simp
    omega

/-- `str::as_bytes` -/
def asBytes (s : Str) : Bytes := s.flatMap String.utf8EncodeChar

/-! ### Hexadecimal text -/

/-- The lowercase hexadecimal digit of a number below sixteen. -/
def hexDigit (n : Nat) : Char := if n < 10 then Char.ofNat (48 + n) else Char.ofNat (87 + n)

/-- `util::hex`: lowercase hexadecimal encoding. -/
def hex (bytes : Bytes) : Str := bytes.flatMap fun b => [hexDigit (b.toNat / 16), hexDigit (b.toNat % 16)]

theorem hex_length (bytes : Bytes) : (hex bytes).length = 2 * bytes.length := by
  induction bytes with
  | nil => rfl
  | cons b bytes ih =>
    have : hex (b :: bytes) = [hexDigit (b.toNat / 16), hexDigit (b.toNat % 16)] ++ hex bytes := rfl
    rw [this, List.length_append, ih]
    simp
    omega

private theorem hexDigit_inj {m n : Nat} (hm : m < 16) (hn : n < 16) (h : hexDigit m = hexDigit n) : m = n := by
  have hall : ∀ i < 16, ∀ j < 16, hexDigit i = hexDigit j → i = j := by decide
  exact hall m hm n hn h

theorem hex_injective : Function.Injective hex := by
  intro b b' h
  induction b generalizing b' with
  | nil =>
    have hlen := hex_length b'
    rw [← h, hex_length, List.length_nil] at hlen
    exact (List.eq_nil_of_length_eq_zero (by omega)).symm
  | cons x b ih =>
    cases b' with
    | nil =>
      have hlen := hex_length (x :: b)
      rw [h, hex_length, List.length_nil, List.length_cons] at hlen
      omega
    | cons y b' =>
      have hx : hex (x :: b) = hexDigit (x.toNat / 16) :: hexDigit (x.toNat % 16) :: hex b := rfl
      have hy : hex (y :: b') = hexDigit (y.toNat / 16) :: hexDigit (y.toNat % 16) :: hex b' := rfl
      rw [hx, hy, List.cons.injEq, List.cons.injEq] at h
      have hxlt := x.toNat_lt
      have hylt := y.toNat_lt
      have hhi := hexDigit_inj (by omega) (by omega) h.1
      have hlo := hexDigit_inj (by omega) (by omega) h.2.1
      have hxy : x = y := UInt8.toNat_inj.1 (by omega)
      rw [hxy, ih h.2.2]

/-! ### Errors -/

/-- The errors of the core crate that the modelled functions raise. -/
inductive Error where
  | rng
  | auth
  | badPassphrase
  | format (what : Str)
  | unsupportedSuite (id : Nat)
  | notARecipient
  | badKey (what : Str)
  | serialization
  | kdf
  | kdfParams (what : Str)
  | rollbackDetected (label : Str)
  | stateMismatch (label : Str)
  | legacyState (what : Str)
  | unsafePath (what : Str)
  | extractionConflict (what : Str)
  | io (what : Str)
  | vault (what : Str)
  | missingPqcKey (what : Str)
  | badSignature
  | peerIdentityMismatch
  | transferSecretMismatch
  | handshakeProtocol (what : Str)
  deriving DecidableEq, Repr

/-- The error's text (`#[error(...)]`). -/
def Error.display : Error → Str
  | .rng => "secure random number generation failed".toList
  | .auth => "authentication failed: data is corrupt, tampered, or the wrong key was used".toList
  | .badPassphrase => "incorrect passphrase".toList
  | .format what => "malformed data: ".toList ++ what
  | .unsupportedSuite id => "unsupported algorithm suite: 0x".toList ++
      [hexDigit (id / 4096 % 16), hexDigit (id / 256 % 16), hexDigit (id / 16 % 16), hexDigit (id % 16)]
  | .notARecipient => "this container is not addressed to your identity".toList
  | .badKey what => "invalid key material: ".toList ++ what
  | .serialization => "serialization failure".toList
  | .kdf => "key derivation failed".toList
  | .kdfParams what => "key derivation parameters rejected: ".toList ++ what
  | .rollbackDetected label => "rollback detected for ".toList ++ label ++
      ": the stored state is older than the trusted anchor".toList
  | .stateMismatch label => "state-anchor mismatch for ".toList ++ label ++
      ": the stored state conflicts with trusted history".toList
  | .legacyState what => "legacy state requires explicit recovery: ".toList ++ what
  | .unsafePath what => "unsafe filesystem path: ".toList ++ what
  | .extractionConflict what => "extraction would lose data: ".toList ++ what
  | .io what => "i/o error: ".toList ++ what
  | .vault what => "vault error: ".toList ++ what
  | .missingPqcKey what => "post-quantum key material is missing: ".toList ++ what
  | .badSignature => "sender signature verification failed".toList
  | .peerIdentityMismatch => "the peer's identity does not match the expected contact".toList
  | .transferSecretMismatch => "the transfer code does not match".toList
  | .handshakeProtocol what => "handshake protocol error: ".toList ++ what

/-- `filesec_core::Result`. -/
abbrev Result (α : Type) := Except Error α

/-- `StoreResult`: the store's errors are user-facing texts. -/
abbrev StoreResult (α : Type) := Except Str α

/-- `map_err(err)`: turn a core error into its text. -/
def Result.text {α : Type} : Result α → StoreResult α
  | .ok a => .ok a
  | .error e => .error e.display

@[simp] theorem Result.text_ok {α : Type} (a : α) : Result.text (.ok a) = .ok a := rfl

@[simp] theorem Result.text_error {α : Type} (e : Error) : Result.text (.error e : Result α) = .error e.display := rfl

@[simp] theorem Result.text_eq_ok {α : Type} {r : Result α} {a : α} : Result.text r = .ok a ↔ r = .ok a := by
  cases r <;> simp

end FileSec
