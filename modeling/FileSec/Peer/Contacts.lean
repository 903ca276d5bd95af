import FileSec.Peer.Identity
import FileSec.Peer.Names
import FileSec.Lib.Keyed
import FileSec.Lib.Runs

/-!
# The contact book

Other parties' public identities and the trust the user has put in them (`contacts.rs`).  A book is followed over runs
of its calls and of being stored and loaded; a contact is verified exactly if the user's last decision about it says
so.  `upsert` reports on names only, while it stores the whole incoming identity: `contactBook_holds_iff` says for
which runs its reports are what they promise.
-/

namespace FileSec.Peer

/-! ### The book -/

/-- `Trust` -/
inductive Trust where
  | unverified
  | verified
  deriving DecidableEq

/-- `Contact` -/
structure Contact where
  identity : PublicIdentity
  trust : Trust
  addedAt : Int
  verifiedAt : Option Int
  deriving DecidableEq

/-- `UpsertOutcome` -/
inductive UpsertOutcome where
  | added
  | unchanged
  | renamed (old new : Str) (wasVerified : Bool)
  deriving DecidableEq

/-- `ContactBook` -/
structure ContactBook where
  contacts : List Contact
  deriving DecidableEq

/-- `ContactBook::default` -/
def ContactBook.default : ContactBook := ⟨[]⟩

variable {D : Type} [DecidableEq D] (blake3 : Bytes → D)

/-- `Contact::fingerprint` -/
def Contact.fingerprint (c : Contact) : D := c.identity.fingerprint blake3

/-- The identity with its name sanitized, as it is stored. -/
def PublicIdentity.sanitized (p : PublicIdentity) : PublicIdentity := { p with name := sanitizeDisplayName p.name }

/-- `ContactBook::upsert` -/
def ContactBook.upsert (book : ContactBook) (identity : PublicIdentity) (now : Int) : UpsertOutcome × ContactBook :=
  let identity := identity.sanitized
  let fpr := identity.fingerprint blake3
  match Keyed.lookup (Contact.fingerprint blake3) book.contacts fpr with
  | some existing =>
    let old := existing.identity.name
    let new := identity.name
    let book := ⟨Keyed.modifyFirst (Contact.fingerprint blake3) fpr (fun c => { c with identity }) book.contacts⟩
    (if old = new then .unchanged else .renamed old new (existing.trust = .verified), book)
  | none => (.added, ⟨book.contacts ++ [⟨identity, .unverified, now, none⟩]⟩)

/-- `ContactBook::find` -/
def ContactBook.find (book : ContactBook) (fingerprint : D) : Option Contact :=
  Keyed.lookup (Contact.fingerprint blake3) book.contacts fingerprint

/-- The contact with the given trust, stamped. -/
def Contact.trusted (trust : Trust) (now : Int) (c : Contact) : Contact :=
  { c with
    trust
    verifiedAt := match trust with
      | .verified => some now
      | .unverified => none }

/-- `ContactBook::set_trust` -/
def ContactBook.setTrust (book : ContactBook) (fingerprint : D) (trust : Trust) (now : Int) : Bool × ContactBook :=
  match Keyed.lookup (Contact.fingerprint blake3) book.contacts fingerprint with
  | some _ =>
    (true, ⟨Keyed.modifyFirst (Contact.fingerprint blake3) fingerprint (Contact.trusted trust now) book.contacts⟩)
  | none => (false, book)

/-- `ContactBook::remove` -/
def ContactBook.remove (book : ContactBook) (fingerprint : D) : Bool × ContactBook :=
  let contacts := book.contacts.filter fun c => c.fingerprint blake3 ≠ fingerprint
  (contacts.length ≠ book.contacts.length, ⟨contacts⟩)

variable {Raw : Type} (C : RawCodec Raw ContactBook)

/-- `ContactBook::to_bytes` -/
def ContactBook.toBytes (book : ContactBook) : Raw := C.encode book

/-- `ContactBook::from_bytes` -/
def ContactBook.fromBytes (bytes : Raw) : Result ContactBook :=
  match C.decode bytes with
  | none => .error .serialization
  | some book => .ok ⟨book.contacts.map fun c => { c with identity := c.identity.sanitized }⟩

/-! ### Runs -/

/-- What happens to a book. -/
inductive BookEvent (D : Type) where
  | upsert (identity : PublicIdentity) (now : Int)
  | setTrust (fingerprint : D) (trust : Trust) (now : Int)
  | remove (fingerprint : D)
  /-- The book is stored and loaded. -/
  | reload

/-- The book after an event; one that cannot be loaded stays what it is in memory. -/
def ContactBook.step (book : ContactBook) : BookEvent D → ContactBook
  | .upsert identity now => (book.upsert blake3 identity now).2
  | .setTrust fingerprint trust now => (book.setTrust blake3 fingerprint trust now).2
  | .remove fingerprint => (book.remove blake3 fingerprint).2
  | .reload => (ContactBook.fromBytes C (book.toBytes C)).toOption.getD book

/-- The book after the events. -/
def ContactBook.after (events : List (BookEvent D)) : ContactBook :=
  Runs.run (ContactBook.step blake3 C) .default events

/-- The last trust decision about a fingerprint since it was last added, after one more event. -/
def decides (fingerprint : D) (book : ContactBook) (decision : Option Trust) : BookEvent D → Option Trust
  | .upsert identity _ =>
    if identity.fingerprint blake3 = fingerprint ∧ book.find blake3 fingerprint = none then none else decision
  | .setTrust named trust _ => if named = fingerprint then some trust else decision
  | .remove _ => decision
  | .reload => decision

/-- The last trust decision about a fingerprint since it was last added, in a run from `book`. -/
def lastDecision (fingerprint : D) : ContactBook → Option Trust → List (BookEvent D) → Option Trust
  | _, decision, [] => decision
  | book, decision, e :: events =>
    lastDecision fingerprint (book.step blake3 C e) (decides blake3 fingerprint book decision e) events

/-! ### What the calls promise -/

/-- What a book says of itself: no fingerprint twice, and a date of verification exactly for the verified. -/
structure ContactBook.Sound (book : ContactBook) : Prop where
  distinct : (book.contacts.map (Contact.fingerprint blake3)).Nodup
  stamped : ∀ c ∈ book.contacts, c.verifiedAt.isSome = true ↔ c.trust = .verified

/-- What `upsert` does to trust and keys: no contact becomes verified, and those that are there keep their trust, the
dates of it and their keys. -/
structure ContactBook.UpsertKeeps (book : ContactBook) (identity : PublicIdentity) (now : Int) : Prop where
  trust : ∀ c' ∈ (book.upsert blake3 identity now).2.contacts, c'.trust = .verified →
    ∃ c ∈ book.contacts, c.fingerprint blake3 = c'.fingerprint blake3 ∧ c.trust = .verified
  existing : ∀ c ∈ book.contacts, ∃ c' ∈ (book.upsert blake3 identity now).2.contacts,
    c'.fingerprint blake3 = c.fingerprint blake3 ∧ c'.trust = c.trust ∧ c'.addedAt = c.addedAt ∧
      c'.verifiedAt = c.verifiedAt ∧ c'.identity.keys = c.identity.keys

/-- What `upsert` reports is what it does: nothing, or a new name of one contact. -/
structure ContactBook.UpsertReports (book : ContactBook) (identity : PublicIdentity) (now : Int) : Prop where
  unchanged : (book.upsert blake3 identity now).1 = .unchanged → (book.upsert blake3 identity now).2 = book
  renamed : ∀ old new wasVerified, (book.upsert blake3 identity now).1 = .renamed old new wasVerified →
    (book.upsert blake3 identity now).2.contacts = book.contacts.map fun c =>
      if c.fingerprint blake3 = identity.fingerprint blake3 then { c with identity := { c.identity with name := new } }
      else c

/-- The contacts other than the named one. -/
def ContactBook.others (book : ContactBook) (fingerprint : D) : List Contact :=
  book.contacts.filter fun c => c.fingerprint blake3 ≠ fingerprint

/-- What one event promises. -/
def ContactBook.Promises (book : ContactBook) : BookEvent D → Prop
  | .upsert identity now => book.UpsertKeeps blake3 identity now ∧ book.UpsertReports blake3 identity now
  | .setTrust fingerprint trust now =>
    (book.setTrust blake3 fingerprint trust now).2.others blake3 fingerprint = book.others blake3 fingerprint
  | .remove fingerprint => (book.remove blake3 fingerprint).2.others blake3 fingerprint = book.others blake3 fingerprint
  | .reload => True

/-- The contact book does what it promises over a run: each event does, and after each the book is sound and its
verified contacts are those the user's last decisions have verified. -/
structure BookHolds (events : List (BookEvent D)) : Prop where
  promises : Runs.Along (ContactBook.step blake3 C) (ContactBook.Promises blake3) .default events
  sound : ∀ past, past <+: events → (ContactBook.after blake3 C past).Sound blake3
  decided : ∀ past, past <+: events → ∀ c ∈ (ContactBook.after blake3 C past).contacts,
    c.trust = .verified ↔ lastDecision blake3 C (c.fingerprint blake3) .default none past = some .verified

/-- An identity that comes in again comes in with the creation date it has in the book. -/
def ContactBook.SameDate (book : ContactBook) : BookEvent D → Prop
  | .upsert identity _ => ∀ c ∈ book.contacts, c.fingerprint blake3 = identity.fingerprint blake3 →
      c.identity.createdAt = identity.createdAt
  | _ => True

/-- The identity that an event brings in. -/
def BookEvent.identities : BookEvent D → List PublicIdentity
  | .upsert identity _ => [identity]
  | _ => []

/-! ### One event -/

section Steps

variable {blake3} {C} {book : ContactBook} {identity : PublicIdentity} {now : Int} {f : D}

/-- What `upsert` does: it adds an unverified contact, or replaces the identity of the one that is there. -/
theorem ContactBook.upsert_cases (hl : (book.contacts.map (Contact.fingerprint blake3)).Nodup)
    (identity : PublicIdentity) (now : Int) :
    (identity.fingerprint blake3 ∉ book.contacts.map (Contact.fingerprint blake3) ∧
      book.upsert blake3 identity now = (.added, ⟨book.contacts ++ [⟨identity.sanitized, .unverified, now, none⟩]⟩)) ∨
    ∃ c ∈ book.contacts, c.fingerprint blake3 = identity.fingerprint blake3 ∧
      book.upsert blake3 identity now =
        (if c.identity.name = identity.sanitized.name then .unchanged
          else .renamed c.identity.name identity.sanitized.name (c.trust = .verified),
        ⟨book.contacts.map fun c =>
          if c.fingerprint blake3 = identity.fingerprint blake3 then { c with identity := identity.sanitized } else c⟩) := by
  unfold ContactBook.upsert
  dsimp only
  cases hfind : Keyed.lookup (Contact.fingerprint blake3) book.contacts (identity.sanitized.fingerprint blake3) with
  | none => exact Or.inl ⟨Keyed.lookup_eq_none_iff.1 hfind, rfl⟩
  | some c =>
    obtain ⟨hc, hfpr⟩ := Keyed.lookup_mem hfind
    refine Or.inr ⟨c, hc, hfpr, ?_⟩
    rw [Keyed.modifyFirst_eq_map hl]
    rfl

/-- What `set_trust` does. -/
theorem ContactBook.setTrust_eq (hl : (book.contacts.map (Contact.fingerprint blake3)).Nodup) (f : D) (trust : Trust)
    (now : Int) :
    (book.setTrust blake3 f trust now).2 =
      ⟨book.contacts.map fun c => if c.fingerprint blake3 = f then c.trusted trust now else c⟩ := by
  unfold ContactBook.setTrust
  cases hfind : Keyed.lookup (Contact.fingerprint blake3) book.contacts f with
  | none =>
    have hnone := Keyed.lookup_eq_none_iff.1 hfind
    have hid : book.contacts.map (fun c => if c.fingerprint blake3 = f then c.trusted trust now else c) =
        book.contacts.map id := by
      refine List.map_congr_left fun c hc => if_neg fun hk => ?_
      exact hnone (hk ▸ List.mem_map_of_mem hc)
    rw [hid, List.map_id]
  | some c =>
    dsimp only
    rw [Keyed.modifyFirst_eq_map hl]

/-- What loading a stored book does. -/
theorem ContactBook.step_reload (book : ContactBook) :
    book.step blake3 C .reload = ⟨book.contacts.map fun c => { c with identity := c.identity.sanitized }⟩ := by
  simp [ContactBook.step, ContactBook.fromBytes, ContactBook.toBytes, Except.toOption]

omit [DecidableEq D] in
/-- Changing contacts without touching their fingerprints keeps a book sound, if the changed ones are stamped. -/
private theorem ContactBook.Sound.map (h : book.Sound blake3) (g : Contact → Contact)
    (hg : ∀ c, (g c).fingerprint blake3 = c.fingerprint blake3)
    (hstamp : ∀ c ∈ book.contacts, (g c).verifiedAt.isSome = true ↔ (g c).trust = .verified) :
    (⟨book.contacts.map g⟩ : ContactBook).Sound blake3 := by
  constructor
  · have hkeys : Contact.fingerprint blake3 ∘ g = Contact.fingerprint blake3 := funext hg
    rw [List.map_map, hkeys]
    exact h.distinct
  · intro c' hc'
    obtain ⟨c, hc, rfl⟩ := List.mem_map.1 hc'
    exact hstamp c hc

/-- Replacing an identity by one with its fingerprint. -/
private theorem replaced_fingerprint (p : PublicIdentity) (c : Contact) :
    (if c.fingerprint blake3 = p.fingerprint blake3 then { c with identity := p.sanitized } else c).fingerprint blake3 =
      c.fingerprint blake3 := by
  split
  · rename_i h
    exact h.symm
  · rfl

private theorem trusted_fingerprint (f : D) (trust : Trust) (now : Int) (c : Contact) :
    (if c.fingerprint blake3 = f then c.trusted trust now else c).fingerprint blake3 = c.fingerprint blake3 := by
  split <;> rfl

private theorem trusted_stamped (trust : Trust) (now : Int) (c : Contact) :
    (c.trusted trust now).verifiedAt.isSome = true ↔ (c.trusted trust now).trust = .verified := by
  cases trust <;> simp [Contact.trusted]

/-- Every event keeps a book sound. -/
theorem ContactBook.Sound.step (h : book.Sound blake3) (e : BookEvent D) : (book.step blake3 C e).Sound blake3 := by
  cases e with
  | upsert identity now =>
    simp only [ContactBook.step]
    rcases ContactBook.upsert_cases h.distinct identity now with ⟨hnew, heq⟩ | ⟨c, hc, hfpr, heq⟩
    · rw [heq]
      constructor
      · rw [List.map_append, List.map_singleton, List.nodup_append]
        refine ⟨h.distinct, List.nodup_singleton _, fun a ha b hb => ?_⟩
        rw [List.mem_singleton] at hb
        intro hab
        have hfpr : b = identity.fingerprint blake3 := hb
        rw [hab, hfpr] at ha
        exact hnew ha
      · intro c hc
        rcases List.mem_append.1 hc with hc | hc
        · exact h.stamped c hc
        · rw [List.mem_singleton] at hc
          subst hc
          simp
    · rw [heq]
      refine h.map _ (replaced_fingerprint identity) fun c hc => ?_
      have := h.stamped c hc
      split <;> exact this
  | setTrust f trust now =>
    simp only [ContactBook.step]
    rw [ContactBook.setTrust_eq h.distinct]
    refine h.map _ (trusted_fingerprint f trust now) fun c hc => ?_
    split
    · exact trusted_stamped trust now c
    · exact h.stamped c hc
  | remove f =>
    constructor
    · exact (List.Sublist.map _ List.filter_sublist).nodup h.distinct
    · intro c hc
      exact h.stamped c (List.mem_filter.1 hc).1
  | reload =>
    rw [ContactBook.step_reload]
    exact h.map _ (fun _ => rfl) fun c hc => h.stamped c hc

/-- Every contact has the keys of one of the identities. -/
def ContactBook.From (blake3 : Bytes → D) (identities : List PublicIdentity) (book : ContactBook) : Prop :=
  ∀ c ∈ book.contacts, ∃ p ∈ identities, p.fingerprint blake3 = c.fingerprint blake3 ∧ p.keys = c.identity.keys

/-- Events that bring in only these identities keep a book from them. -/
theorem ContactBook.From.step {identities : List PublicIdentity} (hl : book.Sound blake3)
    (h : book.From blake3 identities) (e : BookEvent D) (he : ∀ p ∈ e.identities, p ∈ identities) :
    (book.step blake3 C e).From blake3 identities := by
  cases e with
  | upsert identity now =>
    have hid := he identity (List.mem_singleton_self _)
    simp only [ContactBook.step]
    rcases ContactBook.upsert_cases hl.distinct identity now with ⟨-, heq⟩ | ⟨_, _, _, heq⟩
    · rw [heq]
      intro c hc
      rcases List.mem_append.1 hc with hc | hc
      · exact h c hc
      · rw [List.mem_singleton] at hc
        subst hc
        exact ⟨identity, hid, rfl, rfl⟩
    · rw [heq]
      intro c' hc'
      obtain ⟨c, hc, rfl⟩ := List.mem_map.1 hc'
      split
      · exact ⟨identity, hid, rfl, rfl⟩
      · exact h c hc
  | setTrust f trust now =>
    simp only [ContactBook.step]
    rw [ContactBook.setTrust_eq hl.distinct]
    intro c' hc'
    obtain ⟨c, hc, rfl⟩ := List.mem_map.1 hc'
    split <;> exact h c hc
  | remove f => exact fun c hc => h c (List.mem_filter.1 hc).1
  | reload =>
    rw [ContactBook.step_reload]
    intro c' hc'
    obtain ⟨c, hc, rfl⟩ := List.mem_map.1 hc'
    exact h c hc

/-- What `upsert` keeps of trust and keys, where a fingerprint determines the keys. -/
theorem ContactBook.Sound.upsertKeeps (h : book.Sound blake3) (now : Int)
    (hkeys : ∀ c ∈ book.contacts, c.fingerprint blake3 = identity.fingerprint blake3 → c.identity.keys = identity.keys) :
    book.UpsertKeeps blake3 identity now := by
  rcases ContactBook.upsert_cases h.distinct identity now with ⟨-, heq⟩ | ⟨_, _, _, heq⟩
  · constructor
    · rw [heq]
      intro c hc hv
      rcases List.mem_append.1 hc with hc | hc
      · exact ⟨c, hc, rfl, hv⟩
      · rw [List.mem_singleton] at hc
        subst hc
        cases hv
    · rw [heq]
      exact fun c hc => ⟨c, List.mem_append_left _ hc, rfl, rfl, rfl, rfl, rfl⟩
  · constructor
    · rw [heq]
      intro c' hc' hv
      obtain ⟨c, hc, rfl⟩ := List.mem_map.1 hc'
      refine ⟨c, hc, (replaced_fingerprint identity c).symm, ?_⟩
      split at hv <;> exact hv
    · rw [heq]
      intro c hc
      refine ⟨_, List.mem_map_of_mem hc, replaced_fingerprint identity c, ?_⟩
      split
      · rename_i hfpr
        exact ⟨rfl, rfl, rfl, (hkeys c hc hfpr).symm⟩
      · exact ⟨rfl, rfl, rfl, rfl⟩

/-- The stored identity of a contact with the keys and the date of another is that one, but for the name. -/
private theorem renamed_eq {p q : PublicIdentity} (hkeys : p.keys = q.keys) (hdate : p.createdAt = q.createdAt) :
    { p with name := q.sanitized.name } = q.sanitized := by
  unfold PublicIdentity.keys at hkeys
  simp only [Prod.mk.injEq] at hkeys
  obtain ⟨hsign, hkem, hmldsa, hmlkem⟩ := hkeys
  unfold PublicIdentity.sanitized
  simp only [hdate, hsign, hkem, hmldsa, hmlkem]

/-- The reports of `upsert` are what it does exactly where the identity comes in with the date it has in the book. -/
theorem ContactBook.Sound.upsertReports_iff (h : book.Sound blake3) (now : Int)
    (hkeys : ∀ c ∈ book.contacts, c.fingerprint blake3 = identity.fingerprint blake3 → c.identity.keys = identity.keys) :
    book.UpsertReports blake3 identity now ↔ book.SameDate blake3 (.upsert identity now) := by
  constructor
  · intro hr c hc hfpr
    rcases ContactBook.upsert_cases h.distinct identity now with ⟨hnew, -⟩ | ⟨c₀, _, _, heq⟩
    · exact absurd (hfpr ▸ List.mem_map_of_mem hc) hnew
    · by_cases hname : c₀.identity.name = identity.sanitized.name
      · rw [if_pos hname] at heq
        have hsame := congrArg ContactBook.contacts (hr.unchanged (by rw [heq]))
        rw [heq] at hsame
        have hmap : book.contacts = book.contacts.map id := (List.map_id _).symm
        rw [hmap, List.map_map, List.map_inj_left] at hsame
        have hc' := hsame c hc
        simp only [Function.comp_apply, id_eq, if_pos hfpr] at hc'
        exact (congrArg (fun c => c.identity.createdAt) hc').symm
      · rw [if_neg hname] at heq
        have hsame := hr.renamed _ _ _ (by rw [heq])
        rw [heq, List.map_inj_left] at hsame
        have hc' := hsame c hc
        simp only [if_pos hfpr] at hc'
        exact (congrArg (fun c => c.identity.createdAt) hc').symm
  · intro hdate
    have hsame : ∀ c ∈ book.contacts, c.fingerprint blake3 = identity.fingerprint blake3 →
        { c.identity with name := identity.sanitized.name } = identity.sanitized :=
      fun c hc hfpr => renamed_eq (hkeys c hc hfpr) (hdate c hc hfpr)
    rcases ContactBook.upsert_cases h.distinct identity now with ⟨-, heq⟩ | ⟨c₀, hc₀, hfpr₀, heq⟩
    · constructor
      · intro hout
        rw [heq] at hout
        cases hout
      · intro old new was hout
        rw [heq] at hout
        cases hout
    · constructor
      · intro hout
        rw [heq] at hout
        have hname : c₀.identity.name = identity.sanitized.name := by
          by_contra hne
          rw [if_neg hne] at hout
          cases hout
        rw [heq]
        have hid : book.contacts.map (fun c =>
            if c.fingerprint blake3 = identity.fingerprint blake3 then { c with identity := identity.sanitized } else c) =
              book.contacts.map id := by
          refine List.map_congr_left fun c hc => ?_
          split
          · rename_i hfpr
            -- the contact is the one found, whose name is the incoming one
            have hc' := List.inj_on_of_nodup_map h.distinct hc hc₀ (hfpr.trans hfpr₀.symm)
            subst hc'
            rw [← hsame c hc hfpr, ← hname]
            rfl
          · rfl
        rw [hid, List.map_id]
      · intro old new was hout
        rw [heq] at hout
        have hnew : new = identity.sanitized.name := by
          dsimp only at hout
          split at hout
          · cases hout
          · rw [UpsertOutcome.renamed.injEq] at hout
            exact hout.2.1.symm
        rw [heq, hnew]
        refine List.map_congr_left fun c hc => ?_
        by_cases hfpr : c.fingerprint blake3 = identity.fingerprint blake3
        · rw [if_pos hfpr, if_pos hfpr, hsame c hc hfpr]
        · rw [if_neg hfpr, if_neg hfpr]

theorem ContactBook.Sound.setTrust_others (h : book.Sound blake3) (f : D) (trust : Trust) (now : Int) :
    (book.setTrust blake3 f trust now).2.others blake3 f = book.others blake3 f := by
  rw [ContactBook.setTrust_eq h.distinct]
  unfold ContactBook.others
  rw [List.filter_map]
  have hkeep : ((fun c : Contact => decide (c.fingerprint blake3 ≠ f)) ∘
      fun c => if c.fingerprint blake3 = f then c.trusted trust now else c) = fun c => decide (c.fingerprint blake3 ≠ f) := by
    funext c
    rw [Function.comp_apply, trusted_fingerprint]
  rw [hkeep]
  have hid : (book.contacts.filter fun c => c.fingerprint blake3 ≠ f).map
      (fun c => if c.fingerprint blake3 = f then c.trusted trust now else c) =
        (book.contacts.filter fun c => c.fingerprint blake3 ≠ f).map id := by
    refine List.map_congr_left fun c hc => if_neg ?_
    simpa using (List.mem_filter.1 hc).2
  rw [hid, List.map_id]

/-- What an event promises, it does, but for the dates of identities that come in again. -/
theorem ContactBook.Sound.promises_iff (h : book.Sound blake3) (e : BookEvent D)
    (hkeys : ∀ p ∈ e.identities, ∀ c ∈ book.contacts, c.fingerprint blake3 = p.fingerprint blake3 →
      c.identity.keys = p.keys) : book.Promises blake3 e ↔ book.SameDate blake3 e := by
  cases e with
  | upsert identity now =>
    have hk := hkeys identity (List.mem_singleton_self _)
    constructor
    · exact fun hp => (h.upsertReports_iff now hk).1 hp.2
    · exact fun hdate => ⟨h.upsertKeeps now hk, (h.upsertReports_iff now hk).2 hdate⟩
  | setTrust f trust now => exact ⟨fun _ => trivial, fun _ => h.setTrust_others f trust now⟩
  | remove f =>
    refine ⟨fun _ => trivial, fun _ => ?_⟩
    simp [ContactBook.Promises, ContactBook.others, ContactBook.remove, List.filter_filter]
  | reload => exact ⟨fun _ => trivial, fun _ => trivial⟩

/-- The contacts with a fingerprint are verified exactly if the decision says so. -/
def ContactBook.Decided (blake3 : Bytes → D) (f : D) (book : ContactBook) (decision : Option Trust) : Prop :=
  ∀ c ∈ book.contacts, c.fingerprint blake3 = f → (c.trust = .verified ↔ decision = some .verified)

/-- Trust follows the decisions. -/
theorem ContactBook.Decided.step {decision : Option Trust} (hs : book.Sound blake3) (h : book.Decided blake3 f decision)
    (e : BookEvent D) : (book.step blake3 C e).Decided blake3 f (decides blake3 f book decision e) := by
  cases e with
  | upsert identity now =>
    simp only [ContactBook.step, decides]
    rcases ContactBook.upsert_cases hs.distinct identity now with ⟨hnew, heq⟩ | ⟨c₀, hc₀, hfpr₀, heq⟩
    · rw [heq]
      intro c hc hf
      rcases List.mem_append.1 hc with hc | hc
      · have hne : identity.fingerprint blake3 ≠ f := by
          intro hi
          exact hnew (hi.trans hf.symm ▸ List.mem_map_of_mem hc)
        rw [if_neg (not_and_of_not_left _ hne)]
        exact h c hc hf
      · rw [List.mem_singleton] at hc
        subst hc
        have hi : identity.fingerprint blake3 = f := hf
        rw [if_pos ⟨hi, Keyed.lookup_eq_none_iff.2 (hi ▸ hnew)⟩]
        simp
    · have hold : ¬ (identity.fingerprint blake3 = f ∧ book.find blake3 f = none) := by
        intro hand
        have hmem : identity.fingerprint blake3 ∈ book.contacts.map (Contact.fingerprint blake3) :=
          hfpr₀ ▸ List.mem_map_of_mem hc₀
        exact Keyed.lookup_eq_none_iff.1 hand.2 (hand.1 ▸ hmem)
      rw [heq, if_neg hold]
      intro c' hc' hf
      obtain ⟨c, hc, rfl⟩ := List.mem_map.1 hc'
      rw [replaced_fingerprint] at hf
      rw [← h c hc hf]
      split <;> rfl
  | setTrust named trust now =>
    simp only [ContactBook.step, decides]
    rw [ContactBook.setTrust_eq hs.distinct]
    intro c' hc' hf
    obtain ⟨c, hc, rfl⟩ := List.mem_map.1 hc'
    rw [trusted_fingerprint] at hf
    by_cases hn : named = f
    · rw [if_pos (hf.trans hn.symm), if_pos hn]
      simp [Contact.trusted]
    · rw [if_neg fun hk => hn (hk.symm.trans hf), if_neg hn]
      exact h c hc hf
  | remove named => exact fun c hc hf => h c (List.mem_filter.1 hc).1 hf
  | reload =>
    rw [ContactBook.step_reload]
    intro c' hc' hf
    obtain ⟨c, hc, rfl⟩ := List.mem_map.1 hc'
    exact h c hc hf

theorem ContactBook.Decided.run {decision : Option Trust} (hs : book.Sound blake3) (h : book.Decided blake3 f decision)
    (events : List (BookEvent D)) :
    (Runs.run (ContactBook.step blake3 C) book events).Decided blake3 f
      (lastDecision blake3 C f book decision events) := by
  induction events generalizing book decision with
  | nil => exact h
  | cons e events ih => exact ih (hs.step e) (h.step hs e)

end Steps

/-! ### Runs of the book -/

section Runs

variable {blake3} {C}

omit [DecidableEq D] in
private theorem sound_default : ContactBook.default.Sound blake3 := by
  constructor
  · exact List.nodup_nil
  · exact fun c hc => absurd hc List.not_mem_nil

theorem sound_after (events : List (BookEvent D)) : (ContactBook.after blake3 C events).Sound blake3 :=
  Runs.run_inv (ContactBook.Sound blake3) (fun _ e h => h.step e) sound_default

/-- Over every run in which a fingerprint determines the keys, the contact book does what it promises exactly if each
identity that comes in again comes in with the creation date it has in the book. -/
theorem contactBook_holds_iff (events : List (BookEvent D))
    (hkeys : ∀ p ∈ events.flatMap BookEvent.identities, ∀ q ∈ events.flatMap BookEvent.identities,
      p.fingerprint blake3 = q.fingerprint blake3 → p.keys = q.keys) :
    BookHolds blake3 C events ↔
      Runs.Along (ContactBook.step blake3 C) (ContactBook.SameDate blake3) .default events := by
  let identities := events.flatMap BookEvent.identities
  -- along the run, the book is sound and its keys are those of identities that have come in
  let inv : ContactBook → Prop := fun book => book.Sound blake3 ∧ book.From blake3 identities
  let kind : BookEvent D → Prop := fun e => ∀ p ∈ e.identities, p ∈ identities
  have hstep : ∀ book e, inv book → kind e → inv (ContactBook.step blake3 C book e) :=
    fun book e h he => ⟨h.1.step e, h.2.step h.1 e he⟩
  have hstart : inv .default := ⟨sound_default, fun c hc => absurd hc List.not_mem_nil⟩
  have hkind : ∀ e ∈ events, kind e := fun e he p hp => List.mem_flatMap.2 ⟨e, he, hp⟩
  have hiff : ∀ book e, inv book → kind e → (book.Promises blake3 e ↔ book.SameDate blake3 e) := by
    intro book e h he
    refine h.1.promises_iff e fun p hp c hc hfpr => ?_
    obtain ⟨q, hq, hqf, hqk⟩ := h.2 c hc
    rw [← hqk]
    exact hkeys q hq p (he p hp) (hqf.trans hfpr)
  constructor
  · intro h
    exact h.promises.imp_inv inv kind hstep (fun book e hi he => (hiff book e hi he).1) hstart hkind
  · intro h
    refine ⟨?_, fun past _ => sound_after past, fun past _ c hc => ?_⟩
    · exact h.imp_inv inv kind hstep (fun book e hi he => (hiff book e hi he).2) hstart hkind
    · have hnone : ContactBook.default.Decided blake3 (c.fingerprint blake3) none :=
        fun c hc => absurd hc List.not_mem_nil
      exact hnone.run sound_default past c hc rfl

end Runs

namespace Sym

/-- A codec that takes a book for its encoding. -/
def bookText : RawCodec ContactBook ContactBook := ⟨id, some, fun _ => rfl⟩

/-- An identity is imported, verified, and imported again with the same name. -/
def importedTwice (createdAt createdAt' : Int) : List (BookEvent Bytes) :=
  [.upsert { hybrid with createdAt } 10, .setTrust (hybrid.fingerprint id) .verified 11, .reload,
    .upsert { hybrid with createdAt := createdAt' } 12]

/-- The keys of both are the same. -/
theorem importedTwice_keys (createdAt createdAt' : Int) :
    ∀ p ∈ (importedTwice createdAt createdAt').flatMap BookEvent.identities,
      ∀ q ∈ (importedTwice createdAt createdAt').flatMap BookEvent.identities,
        p.fingerprint id = q.fingerprint id → p.keys = q.keys := by
  intro p hp q hq _
  simp only [importedTwice, List.flatMap_cons, List.flatMap_nil, BookEvent.identities, List.cons_append,
    List.nil_append, List.append_nil, List.mem_cons, List.not_mem_nil, or_false] at hp hq
  rcases hp with rfl | rfl <;> rcases hq with rfl | rfl <;> rfl

end Sym

theorem contactBook_holds_iff_twice :
    BookHolds id Sym.bookText (Sym.importedTwice 5 5) ↔
      Runs.Along (ContactBook.step id Sym.bookText) (ContactBook.SameDate id) .default (Sym.importedTwice 5 5) :=
  contactBook_holds_iff _ (Sym.importedTwice_keys 5 5)

/-- An identity imported again with another creation date is reported as unchanged, and the book is another one. -/
theorem contactBook_holds_fails : ¬ BookHolds id Sym.bookText (Sym.importedTwice 5 7) := by
  intro h
  have hlast := h.promises.2.2.2.1.2.unchanged (by decide)
  exact absurd hlast (by decide)

/-! ### The names in a stored book -/

/-- A contact as the book keeps it: with its name sanitized. -/
def Contact.sanitized (c : Contact) : Contact := { c with identity := c.identity.sanitized }

/-- Storing a book and loading it again changes nothing, exactly if sanitizing its names changes nothing. -/
theorem ContactBook.reload_eq_iff (C : RawCodec Raw ContactBook) (book : ContactBook) :
    ContactBook.fromBytes C (book.toBytes C) = .ok book ↔
      ∀ c ∈ book.contacts, sanitizeDisplayName c.identity.name = c.identity.name := by
  have hload : ContactBook.fromBytes C (book.toBytes C) = .ok ⟨book.contacts.map Contact.sanitized⟩ := by
    unfold ContactBook.fromBytes ContactBook.toBytes
    rw [C.decode_encode]
    rfl
  have hsame : ∀ c : Contact, c.sanitized = c ↔ sanitizeDisplayName c.identity.name = c.identity.name := by
    intro c
    obtain ⟨identity, trust, addedAt, verifiedAt⟩ := c
    cases identity
    simp [Contact.sanitized, PublicIdentity.sanitized]
  obtain ⟨contacts⟩ := book
  have hid : contacts.map Contact.sanitized = contacts ↔ ∀ c ∈ contacts, c.sanitized = c := by
    conv => lhs; rhs; rw [← List.map_id contacts]
    exact List.map_inj_left
  rw [hload, Except.ok.injEq, ContactBook.mk.injEq, hid]
  exact forall₂_congr fun c _ => hsame c

/-- Sanitizing a name gives one that is safe to show and that sanitizing again keeps, exactly if the cut to the limit
does not fall right after a space; and a book of sanitized names is loaded as it was stored, exactly if the cut of none
of them did. -/
theorem displayName_holds_iff (C : RawCodec Raw ContactBook) :
    (∀ raw, (SafeName (sanitizeDisplayName raw) ∧
      sanitizeDisplayName (sanitizeDisplayName raw) = sanitizeDisplayName raw) ↔ CutFits raw) ∧
    ∀ contacts : List Contact,
      ContactBook.fromBytes C (ContactBook.toBytes C ⟨contacts.map Contact.sanitized⟩) =
          .ok ⟨contacts.map Contact.sanitized⟩ ↔
        ∀ c ∈ contacts, CutFits c.identity.name := by
  constructor
  · intro raw
    rw [safeName_sanitizeDisplayName_iff, sanitizeDisplayName_idem_iff, and_self]
  · intro contacts
    rw [ContactBook.reload_eq_iff]
    constructor
    · intro h c hc
      exact (sanitizeDisplayName_idem_iff _).1 (h c.sanitized (List.mem_map_of_mem hc))
    · intro h c hc
      obtain ⟨d, hd, rfl⟩ := List.mem_map.1 hc
      exact (sanitizeDisplayName_idem_iff _).2 (h d hd)

/-- A name of two words whose first one has 95 characters keeps the space between them as its last character. -/
theorem displayName_holds_fails :
    ¬ ∀ raw, SafeName (sanitizeDisplayName raw) ∧
      sanitizeDisplayName (sanitizeDisplayName raw) = sanitizeDisplayName raw := by
  intro h
  have hlast : (sanitizeDisplayName (List.replicate 95 'a' ++ [' ', 'b'])).getLast? = some ' ' := by decide +kernel
  exact (h (List.replicate 95 'a' ++ [' ', 'b'])).1.last hlast

end FileSec.Peer
