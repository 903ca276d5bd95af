import Mathlib.Data.List.Basic
import Mathlib.Data.Set.Function

/-!
# Prefix-free encodings

An encoding is prefix-free on a set when the code of one element never continues the code of another, so that a value can
be read off the front of any longer word.  Encodings of one length are prefix-free, a length before the word makes it
so, and sequences of prefix-free codes are read back element by element.
-/

namespace PrefixFree

variable {α β : Type*} {S : Set α} {code : α → List β}

/-- From two words that begin with codes of elements of `S` and are equal, the same element is read. -/
def On (S : Set α) (code : α → List β) : Prop :=
  ∀ ⦃a⦄, a ∈ S → ∀ ⦃b⦄, b ∈ S → ∀ x y, code a ++ x = code b ++ y → a = b

theorem On.injOn (h : On S code) : Set.InjOn code S := by
  intro a ha b hb hab
  exact h ha hb [] [] (by rw [hab])

/-- What follows the code is determined too. -/
theorem On.append_inj (h : On S code) {a b : α} (ha : a ∈ S) (hb : b ∈ S) {x y : List β}
    (hxy : code a ++ x = code b ++ y) : a = b ∧ x = y := by
  have hab := h ha hb x y hxy
  subst hab
  exact ⟨rfl, List.append_cancel_left hxy⟩

/-- Codes of one length are prefix-free. -/
theorem on_of_length {n : Nat} (hlen : ∀ a ∈ S, (code a).length = n) (hinj : Set.InjOn code S) : On S code := by
  intro a ha b hb x y hxy
  have hab := (List.append_inj hxy ((hlen a ha).trans (hlen b hb).symm)).1
  exact hinj ha hb hab

/-- Words behind their length are prefix-free if lengths are. -/
theorem On.withLength {N : Set Nat} {num : Nat → List β} (h : On N num) :
    On {w : List β | w.length ∈ N} fun w => num w.length ++ w := by
  intro a ha b hb x y hxy
  simp only [List.append_assoc] at hxy
  obtain ⟨hlen, hxy⟩ := h.append_inj ha hb hxy
  exact (List.append_inj hxy hlen).1

/-- Sequences of as many codes are read back element by element. -/
theorem On.flatMap_append_inj (h : On S code) {l l' : List α} (hl : ∀ a ∈ l, a ∈ S) (hl' : ∀ a ∈ l', a ∈ S)
    (hlen : l.length = l'.length) {x y : List β} (hxy : l.flatMap code ++ x = l'.flatMap code ++ y) :
    l = l' ∧ x = y := by
  induction l generalizing l' with
  | nil =>
    have hnil : l' = [] := List.eq_nil_of_length_eq_zero hlen.symm
    subst hnil
    exact ⟨rfl, hxy⟩
  | cons a l ih =>
    cases l' with
    | nil => simp at hlen
    | cons b l' =>
      simp only [List.flatMap_cons, List.append_assoc] at hxy
      obtain ⟨rfl, hrest⟩ := h.append_inj (hl a List.mem_cons_self) (hl' b List.mem_cons_self) hxy
      have htail := ih (fun c hc => hl c (List.mem_cons_of_mem _ hc)) (fun c hc => hl' c (List.mem_cons_of_mem _ hc))
        (Nat.succ.inj hlen) hrest
      exact ⟨by rw [htail.1], htail.2⟩

theorem On.flatMap_inj (h : On S code) {l l' : List α} (hl : ∀ a ∈ l, a ∈ S) (hl' : ∀ a ∈ l', a ∈ S)
    (hlen : l.length = l'.length) (heq : l.flatMap code = l'.flatMap code) : l = l' :=
  (h.flatMap_append_inj hl hl' hlen (x := []) (y := []) (by rw [heq])).1

end PrefixFree
