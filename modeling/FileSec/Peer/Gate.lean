import FileSec.Peer.Handshake

/-!
# The disclosure gate

Any number of responders listen under one transfer secret and share one `HelloReplayCache`.  A call of
`read_hello_write_auth` touches the cache once, under its lock, so a call is one step of the machine `Gate`, which keeps
what has been answered.  An answer names the responder's identity; it is given only for a proof of the transfer secret,
once for each proof and at most as often as the cache has room (`gate_holds`).
-/

namespace FileSec.Peer

open Runs

variable {C : Crypto}

/-- A `Hello` and the `Auth` that answered it. -/
structure Answer (T : Type) where
  hello : T
  auth : T

variable (C) in
/-- The responders of a listening session, by connection, the cache they share and what they have answered. -/
structure Gate where
  responders : Nat → Option (Responder C)
  cache : HelloReplayCache C.T
  answers : List (Answer C.T)

variable (C) in
/-- What happens at the gate: a connection gets its responder, or one of the two messages of the peer arrives. -/
inductive GateEvent where
  | listen (i : Nat) (identity : C.Private) (expected : Option C.T) (ephemeral nonce : C.T)
  | hello (i : Nat) (lock : Bool) (helloBytes : C.T)
  | confirm (i : Nat) (confirmBytes : C.T)

variable (C) in
/-- A gate that nobody has come to. -/
def Gate.new (capacity : Nat) : Gate C := ⟨fun _ => none, .new capacity, []⟩

/-- One step at the gate; `read_confirm` consumes its responder. -/
def Gate.step (secret : C.T) (g : Gate C) : GateEvent C → Gate C
  | .listen i identity expected ephemeral nonce =>
    match Responder.new identity secret expected ephemeral nonce with
    | .error _ => g
    | .ok r => { g with responders := Function.update g.responders i (some r) }
  | .hello i lock helloBytes =>
    match g.responders i with
    | none => g
    | some r =>
      match r.readHelloWriteAuth (some g.cache) lock helloBytes with
      | (res, r, cache) =>
        { responders := Function.update g.responders i (some r), cache := cache.getD g.cache
          answers := g.answers ++ (res.toOption.map (Answer.mk helloBytes)).toList }
  | .confirm i _ => { g with responders := Function.update g.responders i none }

/-- The proof that a `Hello` carries. -/
def proofIn (helloBytes : C.T) : Option C.T := (C.hello.decode helloBytes).map (·.iPskTag)

/-- The `Hello` proves the transfer secret. -/
def Proves (secret helloBytes : C.T) : Prop :=
  ∃ hello, C.hello.decode helloBytes = some hello ∧ hello.magic = magic C ∧ hello.version = protoVersion ∧
    hello.suite = suiteClassic ∧
    hello.iPskTag = helloProof C (derivePsk C secret) hello.version hello.suite hello.iEphemeral hello.iNonce

/-! ### What one call does -/

variable {r r' : Responder C} {cache cache' : HelloReplayCache C.T} {lock : Bool} {helloBytes : C.T}
  {msg : HelloMsg C.T} {secret : C.T} {res : Result C.T}

theorem Responder.new_kPsk {identity : C.Private} {expected : Option C.T} {ephemeral nonce : C.T}
    (h : Responder.new identity secret expected ephemeral nonce = .ok r) : r.kPsk = derivePsk C secret := by
  unfold Responder.new at h
  split at h
  · cases h
  · simp only [Except.ok.injEq] at h
    subst h
    rfl

theorem provenHello_eq_ok (h : r.provenHello helloBytes = .ok msg) :
    C.hello.decode helloBytes = some msg ∧ msg.magic = magic C ∧ msg.version = protoVersion ∧ msg.suite = suiteClassic ∧
      msg.iPskTag = helloProof C r.kPsk msg.version msg.suite msg.iEphemeral msg.iNonce := by
  unfold Responder.provenHello at h
  split at h
  · cases h
  · rename_i hello hdec
    by_cases hmagic : hello.magic = magic C
    · rw [if_neg (not_not.2 hmagic)] at h
      by_cases hversion : hello.version = protoVersion
      · rw [if_neg (not_not.2 hversion)] at h
        by_cases hsuite : hello.suite = suiteClassic
        · rw [if_neg (not_not.2 hsuite)] at h
          by_cases htag : helloProof C r.kPsk hello.version hello.suite hello.iEphemeral hello.iNonce = hello.iPskTag
          · rw [if_neg (not_not.2 htag), Except.ok.injEq] at h
            subst h
            exact ⟨hdec, hmagic, hversion, hsuite, htag.symm⟩
          · rw [if_pos htag] at h
            cases h
        · rw [if_pos hsuite] at h
          cases h
      · rw [if_pos hversion] at h
        cases h
    · rw [if_pos hmagic] at h
      cases h

theorem Proves.of_provenHello (hr : r.kPsk = derivePsk C secret) (h : r.provenHello helloBytes = .ok msg) :
    Proves secret helloBytes := by
  rw [Proves, ← hr]
  exact ⟨msg, provenHello_eq_ok h⟩

theorem proofIn_of_provenHello (h : r.provenHello helloBytes = .ok msg) : proofIn helloBytes = some msg.iPskTag := by
  rw [proofIn, (provenHello_eq_ok h).1]
  rfl

/-- The cache either admits a proof, which it has room for and has not seen, or stays as it is. -/
theorem admit_cases {proof : C.T} {res : Result Unit} (h : cache.admit lock proof = (res, cache')) :
    ((∃ e, res = .error e) ∧ cache' = cache) ∨
      (res = .ok () ∧ proof ∉ cache.seen ∧ cache.seen.length < cache.capacity ∧
        cache' = { cache with seen := cache.seen ++ [proof] }) := by
  unfold HelloReplayCache.admit at h
  by_cases hlock : lock = false
  · rw [if_pos hlock] at h
    obtain ⟨rfl, rfl⟩ := Prod.mk.injEq .. ▸ h
    exact Or.inl ⟨⟨_, rfl⟩, rfl⟩
  · rw [if_neg hlock] at h
    by_cases hseen : proof ∈ cache.seen
    · rw [if_pos hseen] at h
      obtain ⟨rfl, rfl⟩ := Prod.mk.injEq .. ▸ h
      exact Or.inl ⟨⟨_, rfl⟩, rfl⟩
    · rw [if_neg hseen] at h
      by_cases hroom : cache.seen.length ≥ cache.capacity
      · rw [if_pos hroom] at h
        obtain ⟨rfl, rfl⟩ := Prod.mk.injEq .. ▸ h
        exact Or.inl ⟨⟨_, rfl⟩, rfl⟩
      · rw [if_neg hroom] at h
        obtain ⟨rfl, rfl⟩ := Prod.mk.injEq .. ▸ h
        exact Or.inr ⟨rfl, hseen, by omega, rfl⟩

/-- Answering changes only what is pending, and only when there is an answer. -/
theorem answer_cases (h : r.answer msg = (res, r')) :
    r'.kPsk = r.kPsk ∧ ((∃ e, res = .error e) → r' = r) := by
  unfold Responder.answer at h
  dsimp only at h
  split at h
  · obtain ⟨rfl, rfl⟩ := Prod.mk.injEq .. ▸ h
    exact ⟨rfl, fun _ => rfl⟩
  · obtain ⟨rfl, rfl⟩ := Prod.mk.injEq .. ▸ h
    refine ⟨rfl, fun he => ?_⟩
    obtain ⟨e, he⟩ := he
    cases he

/-- A call is refused with everything as it was, or its `Hello` carries a proof of the responder's secret, new to the
cache, which takes it up; only then can there be an answer. -/
theorem readHelloWriteAuth_cases {cache' : Option (HelloReplayCache C.T)}
    (h : r.readHelloWriteAuth (some cache) lock helloBytes = (res, r', cache')) :
    ((∃ e, res = .error e) ∧ r' = r ∧ cache' = some cache) ∨
      (∃ msg, r.provenHello helloBytes = .ok msg ∧ msg.iPskTag ∉ cache.seen ∧
        cache.seen.length < cache.capacity ∧ cache' = some { cache with seen := cache.seen ++ [msg.iPskTag] } ∧
        r.answer msg = (res, r')) := by
  unfold Responder.readHelloWriteAuth at h
  split at h
  · simp only [Prod.mk.injEq] at h
    obtain ⟨rfl, rfl, rfl⟩ := h
    exact Or.inl ⟨⟨_, rfl⟩, rfl, rfl⟩
  · rename_i msg hproven
    dsimp only at h
    cases hadm : cache.admit lock msg.iPskTag with
    | mk admitted cache₁ =>
      rw [hadm] at h
      rcases admit_cases hadm with ⟨⟨e, rfl⟩, rfl⟩ | ⟨rfl, hnew, hroom, rfl⟩
      · simp only [Prod.mk.injEq] at h
        obtain ⟨rfl, rfl, rfl⟩ := h
        exact Or.inl ⟨⟨_, rfl⟩, rfl, rfl⟩
      · simp only [Prod.mk.injEq] at h
        obtain ⟨rfl, rfl, rfl⟩ := h
        exact Or.inr ⟨msg, hproven, hnew, hroom, rfl, rfl⟩

/-! ### The invariant -/

/-- What holds at every time. -/
structure Gate.Sound (secret : C.T) (capacity : Nat) (g : Gate C) : Prop where
  secret_of : ∀ i r, g.responders i = some r → r.kPsk = derivePsk C secret
  capacity_eq : g.cache.capacity = capacity
  seen_nodup : g.cache.seen.Nodup
  seen_le : g.cache.seen.length ≤ capacity
  proves : ∀ a ∈ g.answers, Proves secret a.hello
  /-- The proofs that have been answered are among those that have been admitted, in the order of their admission. -/
  answered : (g.answers.map fun a => proofIn a.hello).Sublist (g.cache.seen.map some)

variable {g : Gate C} {capacity : Nat}

theorem gate_sound (capacity : Nat) : (Gate.new C capacity).Sound secret capacity where
  secret_of i r h := by cases h
  capacity_eq := rfl
  seen_nodup := List.nodup_nil
  seen_le := Nat.zero_le _
  proves a ha := by cases ha
  answered := List.Sublist.slnil

private theorem secret_update {responders : Nat → Option (Responder C)}
    (h : ∀ i r, responders i = some r → r.kPsk = derivePsk C secret) (i : Nat) {o : Option (Responder C)}
    (ho : ∀ r, o = some r → r.kPsk = derivePsk C secret) :
    ∀ j r, Function.update responders i o j = some r → r.kPsk = derivePsk C secret := by
  intro j r hr
  by_cases hj : j = i
  · subst hj
    rw [Function.update_self] at hr
    exact ho r hr
  · rw [Function.update_of_ne hj] at hr
    exact h j r hr

/-- One more proof in the cache, answered or not. -/
private theorem Gate.Sound.admitted (h : g.Sound secret capacity) (i : Nat) (hkey : r.kPsk = derivePsk C secret)
    (hproven : r.provenHello helloBytes = .ok msg) (hnew : msg.iPskTag ∉ g.cache.seen)
    (hroom : g.cache.seen.length < g.cache.capacity) (hanswer : r.answer msg = (res, r')) :
    Gate.Sound secret capacity {
      responders := Function.update g.responders i (some r')
      cache := { g.cache with seen := g.cache.seen ++ [msg.iPskTag] }
      answers := g.answers ++ (res.toOption.map (Answer.mk helloBytes)).toList } := by
  have hcap := h.capacity_eq
  refine ⟨secret_update h.secret_of i fun r hr => ?_, hcap, ?_, ?_, ?_, ?_⟩
  · cases hr
    exact (answer_cases hanswer).1.trans hkey
  · dsimp only
    rw [List.nodup_append]
    refine ⟨h.seen_nodup, List.nodup_singleton _, fun a ha b hb hab => ?_⟩
    rw [List.mem_singleton] at hb
    exact hnew (hb ▸ hab ▸ ha)
  · simp only [List.length_append, List.length_singleton]
    omega
  · intro a ha
    rcases List.mem_append.1 ha with ha | ha
    · exact h.proves a ha
    · obtain ⟨auth, -, rfl⟩ := Option.map_eq_some_iff.1 (Option.mem_toList.1 ha)
      exact .of_provenHello hkey hproven
  · dsimp only
    rw [List.map_append, List.map_append]
    refine h.answered.append ?_
    cases res with
    | error e => exact List.nil_sublist _
    | ok auth => simp [Except.toOption, proofIn_of_provenHello hproven]

theorem Gate.Sound.hello (h : g.Sound secret capacity) (i : Nat) (lock : Bool) (helloBytes : C.T) :
    (g.step secret (.hello i lock helloBytes)).Sound secret capacity := by
  cases hr : g.responders i with
  | none =>
    simp only [Gate.step, hr]
    exact h
  | some r =>
    have hkey := h.secret_of i r hr
    cases hread : r.readHelloWriteAuth (some g.cache) lock helloBytes with
    | mk res rest =>
      obtain ⟨r', cache'⟩ := rest
      simp only [Gate.step, hr, hread]
      rcases readHelloWriteAuth_cases hread with ⟨⟨e, rfl⟩, rfl, rfl⟩ | ⟨msg, hproven, hnew, hroom, rfl, hanswer⟩
      · refine ⟨secret_update h.secret_of i fun r hr => ?_, h.capacity_eq, h.seen_nodup, h.seen_le, ?_, ?_⟩
        · cases hr
          exact hkey
        · simpa [Except.toOption] using h.proves
        · simpa [Except.toOption] using h.answered
      · exact h.admitted i hkey hproven hnew hroom hanswer

theorem Gate.Sound.step (h : g.Sound secret capacity) (e : GateEvent C) : (g.step secret e).Sound secret capacity := by
  cases e with
  | listen i identity expected ephemeral nonce =>
    unfold Gate.step
    dsimp only
    cases hnew : Responder.new identity secret expected ephemeral nonce with
    | error e => exact h
    | ok r =>
      refine ⟨secret_update h.secret_of i fun r' hr' => ?_, h.capacity_eq, h.seen_nodup, h.seen_le, h.proves, h.answered⟩
      cases hr'
      exact Responder.new_kPsk hnew
  | hello i lock helloBytes => exact h.hello i lock helloBytes
  | confirm i confirmBytes =>
    refine ⟨secret_update h.secret_of i fun r hr => ?_, h.capacity_eq, h.seen_nodup, h.seen_le, h.proves, h.answered⟩
    cases hr

/-! ### Nothing is forgotten -/

theorem Gate.seen_step (secret : C.T) (g : Gate C) (e : GateEvent C) : g.cache.seen <+: (g.step secret e).cache.seen := by
  cases e with
  | listen i identity expected ephemeral nonce =>
    unfold Gate.step
    dsimp only
    split <;> exact List.prefix_rfl
  | hello i lock helloBytes =>
    cases hr : g.responders i with
    | none => simp only [Gate.step, hr, List.prefix_rfl]
    | some r =>
      cases hread : r.readHelloWriteAuth (some g.cache) lock helloBytes with
      | mk res rest =>
        obtain ⟨r', cache'⟩ := rest
        simp only [Gate.step, hr, hread]
        rcases readHelloWriteAuth_cases hread with ⟨-, -, rfl⟩ | ⟨msg, -, -, -, rfl, -⟩
        · exact List.prefix_rfl
        · exact List.prefix_append _ _
  | confirm i confirmBytes => exact List.prefix_rfl

theorem Gate.seen_run (secret : C.T) (g : Gate C) (events : List (GateEvent C)) :
    g.cache.seen <+: (run (Gate.step secret) g events).cache.seen :=
  run_inv (fun g' : Gate C => g.cache.seen <+: g'.cache.seen) (fun g' e h => h.trans (g'.seen_step secret e))
    List.prefix_rfl

/-- A proof that has been admitted is refused. -/
theorem readHelloWriteAuth_seen {proof : C.T} (hseen : proof ∈ cache.seen) (hproof : proofIn helloBytes = some proof) :
    ∃ e, r.readHelloWriteAuth (some cache) lock helloBytes = (.error e, r, some cache) := by
  cases hread : r.readHelloWriteAuth (some cache) lock helloBytes with
  | mk res rest =>
    obtain ⟨r', cache'⟩ := rest
    rcases readHelloWriteAuth_cases hread with ⟨⟨e, rfl⟩, rfl, rfl⟩ | ⟨msg, hproven, hnew, -⟩
    · exact ⟨e, rfl⟩
    · rw [proofIn_of_provenHello hproven, Option.some.injEq] at hproof
      exact absurd (hproof ▸ hseen) hnew

/-- Whoever comes to the gate with whatever messages: an answer is given only to a proof of the transfer secret, to each
proof once and at most `capacity` times; a proof that the cache has admitted stays in it and is refused from then on;
and a `Hello` that is refused leaves the answers alone, and the cache too unless it carried a new proof of the secret. -/
theorem gate_holds (secret : C.T) (capacity : Nat) (events : List (GateEvent C)) :
    (∀ a ∈ (run (Gate.step secret) (.new C capacity) events).answers, Proves secret a.hello) ∧
    ((run (Gate.step secret) (.new C capacity) events).answers.map fun a => proofIn a.hello).Nodup ∧
    (run (Gate.step secret) (.new C capacity) events).answers.length ≤ capacity ∧
    (∀ proof ∈ (run (Gate.step secret) (.new C capacity) events).cache.seen, ∀ later,
      proof ∈ (run (Gate.step secret) (.new C capacity) (events ++ later)).cache.seen ∧
      ∀ i r lock helloBytes, (run (Gate.step secret) (.new C capacity) (events ++ later)).responders i = some r →
        proofIn helloBytes = some proof →
          ∃ e, r.readHelloWriteAuth (some (run (Gate.step secret) (.new C capacity) (events ++ later)).cache) lock
            helloBytes = (.error e, r, some (run (Gate.step secret) (.new C capacity) (events ++ later)).cache)) ∧
    (∀ i r lock helloBytes e r' cache', (run (Gate.step secret) (.new C capacity) events).responders i = some r →
      r.readHelloWriteAuth (some (run (Gate.step secret) (.new C capacity) events).cache) lock helloBytes =
          (.error e, r', cache') →
        r' = r ∧
        (run (Gate.step secret) (.new C capacity) (events ++ [.hello i lock helloBytes])).answers =
          (run (Gate.step secret) (.new C capacity) events).answers ∧
        (cache' = some (run (Gate.step secret) (.new C capacity) events).cache ∨ Proves secret helloBytes)) := by
  have h : (run (Gate.step secret) (.new C capacity) events).Sound secret capacity :=
    run_inv (fun g : Gate C => g.Sound secret capacity) (fun _ e hg => hg.step e) (gate_sound capacity)
  refine ⟨h.proves, ?_, ?_, fun proof hproof later => ?_, fun i r lock helloBytes e r' cache' hr hread => ?_⟩
  · exact h.answered.nodup (h.seen_nodup.map fun a b hab => Option.some.inj hab)
  · have hlen := h.answered.length_le
    rw [List.length_map, List.length_map] at hlen
    exact hlen.trans h.seen_le
  · rw [run_append]
    have hkept := ((Gate.seen_run secret _ later).subset hproof)
    exact ⟨hkept, fun i r lock helloBytes _ hp => readHelloWriteAuth_seen hkept hp⟩
  · refine ⟨?_, ?_, ?_⟩
    · rcases readHelloWriteAuth_cases hread with ⟨-, rfl, -⟩ | ⟨msg, -, -, -, -, hanswer⟩
      · rfl
      · exact (answer_cases hanswer).2 ⟨e, rfl⟩
    · rw [run_append, run_cons, run_nil]
      simp [Gate.step, hr, hread, Except.toOption]
    · rcases readHelloWriteAuth_cases hread with ⟨-, -, rfl⟩ | ⟨msg, hproven, -⟩
      · exact Or.inl rfl
      · exact Or.inr (.of_provenHello (h.secret_of i r hr) hproven)

end FileSec.Peer
