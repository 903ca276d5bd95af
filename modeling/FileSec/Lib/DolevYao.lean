import Mathlib.Tactic.DeriveEncodable
import Mathlib.Logic.Equiv.List

/-!
# A Dolev-Yao adversary

Messages as terms over ideal primitives, and the adversary who controls the network: it knows what has been sent and all
that can be computed from it (`Knows`).  What honest parties publish is described by a `Published`; `Safe` says of a
term that publishing it gives away no secret scalar, no secret code, and no signature, authentication tag or ciphertext
that no honest party has made.  All that the adversary knows is safe (`Knows.safe`), which is how secrecy and
authenticity are proved.
-/

namespace DolevYao

/-- Terms: public constants and nonces, secret scalars and shared codes, tuples, hashes, authentication tags, derived
keys, Diffie-Hellman exchanges, the public keys of the parties, signatures and authenticated encryptions. -/
inductive Term where
  | const (b : List Nat)
  | nonce (n : Nat)
  | scalar (n : Nat)
  | code (n : Nat)
  | pair (a b : Term)
  | hash (t : Term)
  | mac (key t : Term)
  | kdf (context t : Term)
  | pub (x : Term)
  | dh (x y : Term)
  | power (x t : Term)
  | verKey (n : Nat)
  | encKey (n : Nat)
  | sig (n : Nat) (m : Term)
  | aead (key nonce aad plain : Term)
  deriving DecidableEq, Encodable

/-- A tuple. -/
def cat : List Term → Term
  | [] => .const []
  | t :: ts => .pair t (cat ts)

@[simp] theorem cat_nil : cat [] = .const [] := rfl

@[simp] theorem cat_cons {t : Term} {ts : List Term} : cat (t :: ts) = .pair t (cat ts) := rfl

/-- What two scalars agree on, whoever computes it. -/
def shared (x y : Term) : Term := if Encodable.encode x ≤ Encodable.encode y then .dh x y else .dh y x

theorem shared_comm (x y : Term) : shared x y = shared y x := by
  unfold shared
  rcases Nat.lt_trichotomy (Encodable.encode x) (Encodable.encode y) with h | h | h
  · rw [if_pos h.le, if_neg (by omega)]
  · obtain rfl := Encodable.encode_injective h
    rfl
  · rw [if_neg (by omega), if_pos h.le]

/-- What a scalar makes of a public value. -/
def exchange (x : Term) : Term → Term
  | .pub y => shared x y
  | t => .power x t

/-- Both sides of an exchange come to the same. -/
theorem exchange_pub (x y : Term) : exchange x (.pub y) = exchange y (.pub x) := shared_comm x y

/-! ### The adversary -/

/-- What the adversary knows when the terms `sent` have been sent: it has the keys of the parties that are not honest and
the codes that have leaked. -/
inductive Knows (honest leaked : Nat → Prop) (sent : List Term) : Term → Prop where
  | sent {t : Term} : t ∈ sent → Knows honest leaked sent t
  | const (b : List Nat) : Knows honest leaked sent (.const b)
  | nonce (n : Nat) : Knows honest leaked sent (.nonce n)
  | code {n : Nat} : leaked n → Knows honest leaked sent (.code n)
  | verKey (n : Nat) : Knows honest leaked sent (.verKey n)
  | encKey (n : Nat) : Knows honest leaked sent (.encKey n)
  | pair {a b : Term} : Knows honest leaked sent a → Knows honest leaked sent b → Knows honest leaked sent (.pair a b)
  | fst {a b : Term} : Knows honest leaked sent (.pair a b) → Knows honest leaked sent a
  | snd {a b : Term} : Knows honest leaked sent (.pair a b) → Knows honest leaked sent b
  | hash {t : Term} : Knows honest leaked sent t → Knows honest leaked sent (.hash t)
  | mac {k t : Term} : Knows honest leaked sent k → Knows honest leaked sent t → Knows honest leaked sent (.mac k t)
  | kdf {c t : Term} : Knows honest leaked sent c → Knows honest leaked sent t → Knows honest leaked sent (.kdf c t)
  | pub {x : Term} : Knows honest leaked sent x → Knows honest leaked sent (.pub x)
  | exchange {x t : Term} : Knows honest leaked sent x → Knows honest leaked sent t →
      Knows honest leaked sent (exchange x t)
  | sign {n : Nat} {m : Term} : ¬ honest n → Knows honest leaked sent m → Knows honest leaked sent (.sig n m)
  | signed {n : Nat} {m : Term} : Knows honest leaked sent (.sig n m) → Knows honest leaked sent m
  | encrypt {k n a p : Term} : Knows honest leaked sent k → Knows honest leaked sent n → Knows honest leaked sent a →
      Knows honest leaked sent p → Knows honest leaked sent (.aead k n a p)
  | decrypt {k n a p : Term} : Knows honest leaked sent (.aead k n a p) → Knows honest leaked sent k →
      Knows honest leaked sent p

/-! ### What may be known -/

/-- What honest parties have signed, authenticated and encrypted. -/
structure Published where
  signed : Nat → Term → Prop
  tagged : Term → Term → Prop
  sealed : Term → Term → Term → Term → Prop

/-- More has been published. -/
structure Published.Le (p q : Published) : Prop where
  signed : ∀ {n m}, p.signed n m → q.signed n m
  tagged : ∀ {k t}, p.tagged k t → q.tagged k t
  sealed : ∀ {k n a m}, p.sealed k n a m → q.sealed k n a m

variable {honest leaked : Nat → Prop} {p q : Published} {sent : List Term} {t : Term}

/-- The adversary may know the term. -/
def Safe (honest leaked : Nat → Prop) (p : Published) : Term → Prop
  | .const _ => True
  | .nonce _ => True
  | .scalar _ => False
  | .code n => leaked n
  | .pair a b => Safe honest leaked p a ∧ Safe honest leaked p b
  -- a signature shows what it signs
  | .hash t => Safe honest leaked p t ∨ ∃ n, honest n ∧ p.signed n (.hash t)
  | .mac k t => (Safe honest leaked p k ∧ Safe honest leaked p t) ∨ p.tagged k t
  | .kdf c t => Safe honest leaked p c ∧ Safe honest leaked p t
  | .pub x => Safe honest leaked p x ∨ ∃ n, x = .scalar n
  | .dh x y => Safe honest leaked p x ∨ Safe honest leaked p y
  | .power x t => Safe honest leaked p x ∧ Safe honest leaked p t
  | .verKey _ => True
  | .encKey _ => True
  | .sig n m => Safe honest leaked p m ∧ (honest n → p.signed n m)
  | .aead k n a m => Safe honest leaked p m ∧
      ((Safe honest leaked p k ∧ Safe honest leaked p n ∧ Safe honest leaked p a) ∨ p.sealed k n a m)

theorem Safe.mono (h : Safe honest leaked p t) (hpq : p.Le q) : Safe honest leaked q t := by
  induction t with
  | const b => trivial
  | nonce n => trivial
  | scalar n => exact h
  | code n => exact h
  | pair a b iha ihb => exact ⟨iha h.1, ihb h.2⟩
  | hash t ih =>
    rcases h with h | ⟨n, hn, h⟩
    · exact Or.inl (ih h)
    · exact Or.inr ⟨n, hn, hpq.signed h⟩
  | mac k t ihk iht =>
    rcases h with h | h
    · exact Or.inl ⟨ihk h.1, iht h.2⟩
    · exact Or.inr (hpq.tagged h)
  | kdf c t ihc iht => exact ⟨ihc h.1, iht h.2⟩
  | pub x ih =>
    rcases h with h | h
    · exact Or.inl (ih h)
    · exact Or.inr h
  | dh x y ihx ihy =>
    rcases h with h | h
    · exact Or.inl (ihx h)
    · exact Or.inr (ihy h)
  | power x t ihx iht => exact ⟨ihx h.1, iht h.2⟩
  | verKey n => trivial
  | encKey n => trivial
  | sig n m ih => exact ⟨ih h.1, fun hn => hpq.signed (h.2 hn)⟩
  | aead k n a m ihk ihn iha ihm =>
    obtain ⟨hm, h⟩ := h
    refine ⟨ihm hm, ?_⟩
    rcases h with h | h
    · exact Or.inl ⟨ihk h.1, ihn h.2.1, iha h.2.2⟩
    · exact Or.inr (hpq.sealed h)

theorem safe_cat {ts : List Term} : Safe honest leaked p (cat ts) ↔ ∀ t ∈ ts, Safe honest leaked p t := by
  induction ts with
  | nil => simp [Safe]
  | cons t ts ih => simp [Safe, ih]

theorem safe_exchange {x : Term} (hx : Safe honest leaked p x) (ht : Safe honest leaked p t) :
    Safe honest leaked p (exchange x t) := by
  cases t with
  | pub y =>
    show Safe honest leaked p (shared x y)
    unfold shared
    split
    · exact Or.inl hx
    · exact Or.inr hx
  | _ => exact ⟨hx, ht⟩

/-- No scalar and no code is known that has not been given away, and what honest parties alone can make, they have
made. -/
theorem Knows.safe (hsent : ∀ t ∈ sent, Safe honest leaked p t) (h : Knows honest leaked sent t) :
    Safe honest leaked p t := by
  induction h with
  | sent h => exact hsent _ h
  | const b => trivial
  | nonce n => trivial
  | code h => exact h
  | verKey n => trivial
  | encKey n => trivial
  | pair _ _ iha ihb => exact ⟨iha, ihb⟩
  | fst _ ih => exact ih.1
  | snd _ ih => exact ih.2
  | hash _ ih => exact Or.inl ih
  | mac _ _ ihk iht => exact Or.inl ⟨ihk, iht⟩
  | kdf _ _ ihc iht => exact ⟨ihc, iht⟩
  | pub _ ih => exact Or.inl ih
  | exchange _ _ ihx iht => exact safe_exchange ihx iht
  | sign hn _ ih => exact ⟨ih, fun h => absurd h hn⟩
  | signed _ ih => exact ih.1
  | encrypt _ _ _ _ ihk ihn iha ihp => exact ⟨ihp, Or.inl ⟨ihk, ihn, iha⟩⟩
  | decrypt _ _ ih _ => exact ih.1

end DolevYao
