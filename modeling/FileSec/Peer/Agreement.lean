import FileSec.Peer.Network

/-!
# Agreement of the handshake

What the honest parties have signed, authenticated and encrypted (`Net.published`) bounds what the adversary knows, and a
signature of an honest party stands for a session of it.  `handshake_agreement` reads the properties of the handshake off
the invariant `Net.Sound`.
-/

namespace FileSec.Peer

open DolevYao Runs

/-- The signature messages and the transcripts of the handshake on terms. -/
abbrev symResponderMsg (th0 sign kem : Term) : Term := responderSigMsg symCrypto th0 sign kem

abbrev symInitiatorMsg (th0 rSign rKem iSign iKem : Term) : Term := initiatorSigMsg symCrypto th0 rSign rKem iSign iKem

/-- What has been published on a network. -/
def Net.published (net : Net) : Published where
  signed n m :=
    (∃ j l s, net.listens j = some l ∧ l.identity = n ∧ s ∈ l.answers ∧ m = symResponderMsg s.th0 (.verKey n) (.encKey n)) ∨
    (∃ j d peer s, net.dials j = some d ∧ d.identity = n ∧ d.done = some (peer, s) ∧
      m = symInitiatorMsg s.th0 peer.sign peer.kem (.verKey n) (.encKey n))
  tagged k t := ∃ j d, net.dials j = some d ∧
    Term.mac k t = helloProof symCrypto d.initiator.kPsk protoVersion suiteClassic (.pub (.scalar j)) (.nonce j)
  sealed k n a _ := ∃ j d peer s, net.dials j = some d ∧ d.done = some (peer, s) ∧ k = s.kI2r ∧
    n = confirmNonce symCrypto ∧ a = confirmAad symCrypto s.th0

/-! ### Sessions go on -/

/-- The initiator has gone on. -/
structure Dial.Onward (d d' : Dial) : Prop where
  identity : d'.identity = d.identity
  initiator : d'.initiator = d.initiator
  done : ∀ x, d.done = some x → d'.done = some x

/-- The responder has gone on. -/
structure Listen.Onward (l l' : Listen) : Prop where
  identity : l'.identity = l.identity
  answers : ∀ s ∈ l.answers, s ∈ l'.answers

/-- The network has gone on. -/
structure Net.Onward (net net' : Net) : Prop where
  dial : ∀ j d, net.dials j = some d → ∃ d', net'.dials j = some d' ∧ d.Onward d'
  listen : ∀ j l, net.listens j = some l → ∃ l', net'.listens j = some l' ∧ l.Onward l'

variable {net net' : Net} {honest leaked : Nat → Prop}

theorem Net.Onward.published (h : net.Onward net') : net.published.Le net'.published where
  signed := by
    rintro n m (⟨j, l, s, hl, rfl, hs, rfl⟩ | ⟨j, d, peer, s, hd, rfl, hdone, rfl⟩)
    · obtain ⟨l', hl', hon⟩ := h.listen j l hl
      exact Or.inl ⟨j, l', s, hl', hon.identity, hon.answers s hs, rfl⟩
    · obtain ⟨d', hd', hon⟩ := h.dial j d hd
      exact Or.inr ⟨j, d', peer, s, hd', hon.identity, hon.done _ hdone, rfl⟩
  tagged := by
    rintro k t ⟨j, d, hd, ht⟩
    obtain ⟨d', hd', hon⟩ := h.dial j d hd
    exact ⟨j, d', hd', by rw [hon.initiator]; exact ht⟩
  sealed := by
    rintro k n a m ⟨j, d, peer, s, hd, hdone, hk, hn, ha⟩
    obtain ⟨d', hd', hon⟩ := h.dial j d hd
    exact ⟨j, d', peer, s, hd', hon.done _ hdone, hk, hn, ha⟩

/-! ### The invariant -/

/-- The transfer key of a code. -/
abbrev pskOf (secret : Nat) : Term := derivePsk symCrypto (.code secret)

/-- What holds of the initiator with the number `j`. -/
structure Dial.Sound (honest leaked : Nat → Prop) (p : Published) (j : Nat) (d : Dial) : Prop where
  honest_of : honest d.identity
  made : d.initiator =
    ⟨d.identity, .scalar j, .nonce j, d.expected, pskOf d.secret, secretCommit symCrypto (pskOf d.secret)⟩
  open_of : d.closed = false → d.done = none
  /-- It completes with an `Auth` of the identity it expects, signed for its transcript. -/
  of_done : ∀ peer s, d.done = some (peer, s) → ∃ (auth : AuthMsg Term SymIdentity) (n : Nat), peer = auth.rIdentity ∧
    symCrypto.fingerprint peer = d.expected ∧ peer.sign = .verKey n ∧
    s = sessionOf symCrypto (exchange (.scalar j) auth.rEphemeral) (d.initiator.th0 auth) ∧
    Safe honest leaked p (.sig n (symResponderMsg s.th0 peer.sign peer.kem))

/-- What holds of the responder with the number `j`. -/
structure Listen.Sound (honest leaked : Nat → Prop) (p : Published) (j : Nat) (l : Listen) : Prop where
  honest_of : honest l.identity
  made : l.responder = ⟨l.identity, .scalar j, .nonce j, pskOf l.secret, secretCommit symCrypto (pskOf l.secret),
    l.expected, l.responder.pending⟩
  pending_of : ∀ s, l.responder.pending = some s → s ∈ l.answers
  /-- It answers with the keys of its transcript. -/
  of_answer : ∀ s ∈ l.answers, ∃ hello : HelloMsg Term,
    s = sessionOf symCrypto (exchange (.scalar j) hello.iEphemeral) (l.responder.th0 hello)
  /-- It completes with the keys of an answer, for a `Confirm` sealed under them and signed for its transcript. -/
  of_done : ∀ peer s, l.done = some (peer, s) → s ∈ l.answers ∧ ∃ (n : Nat) (m : Term), peer.sign = .verKey n ∧
    Safe honest leaked p (.sig n (symInitiatorMsg s.th0 (.verKey l.identity) (.encKey l.identity) peer.sign peer.kem)) ∧
    Safe honest leaked p (.aead s.kI2r (confirmNonce symCrypto) (confirmAad symCrypto s.th0) m)

/-- What holds of the network. -/
structure Net.Sound (honest leaked : Nat → Prop) (net : Net) : Prop where
  sent : ∀ t ∈ net.sent, Safe honest leaked net.published t
  fresh : ∀ j, net.next ≤ j → net.dials j = none ∧ net.listens j = none
  dial : ∀ j d, net.dials j = some d → d.Sound honest leaked net.published j
  listen : ∀ j l, net.listens j = some l → l.Sound honest leaked net.published j

theorem Dial.Sound.mono {p q : Published} {j : Nat} {d : Dial} (h : d.Sound honest leaked p j) (hpq : p.Le q) :
    d.Sound honest leaked q j where
  honest_of := h.honest_of
  made := h.made
  open_of := h.open_of
  of_done peer s hdone := by
    obtain ⟨auth, n, hpeer, hfpr, hsign, hs, hsafe⟩ := h.of_done peer s hdone
    exact ⟨auth, n, hpeer, hfpr, hsign, hs, hsafe.mono hpq⟩

theorem Listen.Sound.mono {p q : Published} {j : Nat} {l : Listen} (h : l.Sound honest leaked p j) (hpq : p.Le q) :
    l.Sound honest leaked q j where
  honest_of := h.honest_of
  made := h.made
  pending_of := h.pending_of
  of_answer := h.of_answer
  of_done peer s hdone := by
    obtain ⟨hs, n, m, hsign, hsig, haead⟩ := h.of_done peer s hdone
    exact ⟨hs, n, m, hsign, hsig.mono hpq, haead.mono hpq⟩

theorem net_sound : Net.start.Sound honest leaked where
  sent t ht := by cases ht
  fresh j _ := ⟨rfl, rfl⟩
  dial j d hd := by cases hd
  listen j l hl := by cases hl

/-! ### One session changes -/

/-- A network on which an initiator has gone on, or has been started. -/
theorem Net.Sound.dialed (h : net.Sound honest leaked) (new : List Term) {j next : Nat} {d : Dial}
    (hon : ∀ d₀, net.dials j = some d₀ → d₀.Onward d) (hj : j < next) (hnext : net.next ≤ next)
    (hd : ∀ p, p = Net.published ⟨new ++ net.sent, next, Function.update net.dials j (some d), net.listens⟩ →
      net.published.Le p → d.Sound honest leaked p j ∧ ∀ t ∈ new, Safe honest leaked p t) :
    Net.Sound honest leaked ⟨new ++ net.sent, next, Function.update net.dials j (some d), net.listens⟩ := by
  have honward : net.Onward ⟨new ++ net.sent, next, Function.update net.dials j (some d), net.listens⟩ := by
    refine ⟨fun i d₀ hd₀ => ?_, fun i l hl => ⟨l, hl, rfl, fun _ hs => hs⟩⟩
    dsimp only
    by_cases hi : i = j
    · subst hi
      rw [Function.update_self]
      exact ⟨d, rfl, hon d₀ hd₀⟩
    · rw [Function.update_of_ne hi]
      exact ⟨d₀, hd₀, rfl, rfl, fun _ hx => hx⟩
  have hle := honward.published
  obtain ⟨hsound, hnew⟩ := hd _ rfl hle
  refine ⟨fun t ht => ?_, fun i hi => ?_, fun i d' hd' => ?_, fun i l hl => (h.listen i l hl).mono hle⟩
  · rcases List.mem_append.1 ht with ht | ht
    · exact hnew t ht
    · exact (h.sent t ht).mono hle
  · dsimp only at hi ⊢
    rw [Function.update_of_ne (by omega)]
    exact h.fresh i (by omega)
  · dsimp only at hd'
    by_cases hi : i = j
    · subst hi
      rw [Function.update_self, Option.some.injEq] at hd'
      subst hd'
      exact hsound
    · rw [Function.update_of_ne hi] at hd'
      exact (h.dial i d' hd').mono hle

/-- A network on which a responder has gone on, or has been started. -/
theorem Net.Sound.listened (h : net.Sound honest leaked) (new : List Term) {j next : Nat} {l : Listen}
    (hon : ∀ l₀, net.listens j = some l₀ → l₀.Onward l) (hj : j < next) (hnext : net.next ≤ next)
    (hl : ∀ p, p = Net.published ⟨new ++ net.sent, next, net.dials, Function.update net.listens j (some l)⟩ →
      net.published.Le p → l.Sound honest leaked p j ∧ ∀ t ∈ new, Safe honest leaked p t) :
    Net.Sound honest leaked ⟨new ++ net.sent, next, net.dials, Function.update net.listens j (some l)⟩ := by
  have honward : net.Onward ⟨new ++ net.sent, next, net.dials, Function.update net.listens j (some l)⟩ := by
    refine ⟨fun i d hd => ⟨d, hd, rfl, rfl, fun _ hx => hx⟩, fun i l₀ hl₀ => ?_⟩
    dsimp only
    by_cases hi : i = j
    · subst hi
      rw [Function.update_self]
      exact ⟨l, rfl, hon l₀ hl₀⟩
    · rw [Function.update_of_ne hi]
      exact ⟨l₀, hl₀, rfl, fun _ hs => hs⟩
  have hle := honward.published
  obtain ⟨hsound, hnew⟩ := hl _ rfl hle
  refine ⟨fun t ht => ?_, fun i hi => ?_, fun i d hd => (h.dial i d hd).mono hle, fun i l' hl' => ?_⟩
  · rcases List.mem_append.1 ht with ht | ht
    · exact hnew t ht
    · exact (h.sent t ht).mono hle
  · dsimp only at hi ⊢
    rw [Function.update_of_ne (by omega)]
    exact h.fresh i (by omega)
  · dsimp only at hl'
    by_cases hi : i = j
    · subst hi
      rw [Function.update_self, Option.some.injEq] at hl'
      subst hl'
      exact hsound
    · rw [Function.update_of_ne hi] at hl'
      exact (h.listen i l' hl').mono hle

theorem Net.Sound.dial_lt (h : net.Sound honest leaked) {j : Nat} {d : Dial} (hd : net.dials j = some d) :
    j < net.next := by
  by_contra hj
  rw [(h.fresh j (by omega)).1] at hd
  cases hd

theorem Net.Sound.listen_lt (h : net.Sound honest leaked) {j : Nat} {l : Listen} (hl : net.listens j = some l) :
    j < net.next := by
  by_contra hj
  rw [(h.fresh j (by omega)).2] at hl
  cases hl

/-! ### Steps -/

private theorem initiator_new {identity secret j : Nat} {expected : Term} :
    Initiator.new (C := symCrypto) identity expected (.code secret) (.scalar j) (.nonce j) =
      .ok ⟨identity, .scalar j, .nonce j, expected, pskOf secret, secretCommit symCrypto (pskOf secret)⟩ := by
  unfold Initiator.new
  rw [if_neg (by simp)]

private theorem responder_new {identity secret j : Nat} {expected : Option Term} :
    Responder.new (C := symCrypto) identity (.code secret) expected (.scalar j) (.nonce j) =
      .ok ⟨identity, .scalar j, .nonce j, pskOf secret, secretCommit symCrypto (pskOf secret), expected, none⟩ := by
  unfold Responder.new
  rw [if_neg (by simp)]

theorem Net.Sound.dialStep (h : net.Sound honest leaked) {identity secret : Nat} {expected : Term}
    (hhonest : honest identity) : (net.step (.dial identity expected secret)).Sound honest leaked := by
  unfold Net.step
  simp only [initiator_new]
  refine h.dialed [] (fun d₀ hd₀ => ?_) (Nat.lt_succ_self _) (Nat.le_succ _) fun p _ _ => ⟨?_, ?_⟩
  · rw [(h.fresh _ le_rfl).1] at hd₀
    cases hd₀
  · refine ⟨hhonest, rfl, fun _ => rfl, fun peer s hdone => ?_⟩
    cases hdone
  · intro t ht
    cases ht

theorem Net.Sound.listenStep (h : net.Sound honest leaked) {identity secret : Nat} {expected : Option Term}
    (hhonest : honest identity) : (net.step (.listen identity expected secret)).Sound honest leaked := by
  unfold Net.step
  simp only [responder_new]
  refine h.listened [] (fun l₀ hl₀ => ?_) (Nat.lt_succ_self _) (Nat.le_succ _) fun p _ _ => ⟨?_, ?_⟩
  · rw [(h.fresh _ le_rfl).2] at hl₀
    cases hl₀
  · refine ⟨hhonest, rfl, fun s hs => ?_, fun s hs => ?_, fun peer s hdone => ?_⟩
    · cases hs
    · cases hs
    · cases hdone
  · intro t ht
    cases ht

theorem Net.Sound.sendHello (h : net.Sound honest leaked) (j : Nat) :
    (net.step (.sendHello j)).Sound honest leaked := by
  unfold Net.step
  dsimp only
  cases hd : net.dials j with
  | none => exact h
  | some d =>
    dsimp only
    split
    · exact h
    · have hsound := h.dial j d hd
      have hupd : Function.update net.dials j (some d) = net.dials := by
        rw [← hd, Function.update_eq_self]
      have key := h.dialed [d.initiator.writeHello] (d := d) (j := j)
        (fun d₀ hd₀ => by rw [hd, Option.some.injEq] at hd₀; subst hd₀; exact ⟨rfl, rfl, fun _ hx => hx⟩)
        (h.dial_lt hd) le_rfl (fun p hp hle => ⟨hsound.mono hle, fun t ht => ?_⟩)
      · rw [hupd] at key
        exact key
      · rw [List.mem_singleton] at ht
        subst ht hp
        unfold Initiator.writeHello
        rw [hsound.made]
        refine safe_cat.2 fun t ht => ?_
        simp only [List.mem_cons, List.not_mem_nil, or_false] at ht
        rcases ht with rfl | rfl | rfl | rfl | rfl | rfl
        · trivial
        · trivial
        · trivial
        · exact Or.inr ⟨j, rfl⟩
        · trivial
        · refine Or.inr ⟨j, d, ?_, ?_⟩
          · dsimp only
            rw [Function.update_self]
          · rw [hsound.made]
            rfl

/-- The responder of a session with what an answer has left pending. -/
private theorem Listen.Sound.answered {p q : Published} {j : Nat} {l : Listen} {hello : HelloMsg Term} {eeDh auth : Term}
    {r : Responder symCrypto} (h : l.Sound honest leaked p j) (hpq : p.Le q)
    (hagree : symCrypto.agree l.responder.ephemeral hello.iEphemeral = .ok eeDh)
    (hr : r = { l.responder with pending := some (sessionOf symCrypto eeDh (l.responder.th0 hello)) })
    (hauth : auth = symAuth.encode ⟨.pub l.responder.ephemeral, l.responder.nonce, symCrypto.publicPart l.responder.identity,
      .sig l.responder.identity (symResponderMsg (l.responder.th0 hello) (.verKey l.responder.identity)
        (.encKey l.responder.identity))⟩)
    (hq : q.signed l.identity (symResponderMsg (l.responder.th0 hello) (.verKey l.identity) (.encKey l.identity))) :
    Listen.Sound honest leaked q j { l with responder := r, answers := r.pending.toList ++ l.answers } ∧
      Safe honest leaked q auth := by
  have hmade := h.made
  have hid : l.responder.identity = l.identity := by rw [hmade]
  have heph : l.responder.ephemeral = .scalar j := by rw [hmade]
  have hnonce : l.responder.nonce = .nonce j := by rw [hmade]
  rw [heph, Except.ok.injEq] at hagree
  subst hr hagree
  refine ⟨⟨h.honest_of, ?_, fun s hs => ?_, fun s hs => ?_, fun peer s hdone => ?_⟩, ?_⟩
  · dsimp only
    rw [hmade]
  · exact List.mem_append_left _ (Option.mem_toList.2 hs)
  · rcases List.mem_append.1 hs with hs | hs
    · rw [Option.toList_some, List.mem_singleton] at hs
      exact ⟨hello, hs⟩
    · exact h.of_answer s hs
  · obtain ⟨hs, n, m, hsign, hsig, haead⟩ := h.of_done peer s hdone
    exact ⟨List.mem_append_right _ hs, n, m, hsign, hsig.mono hpq, haead.mono hpq⟩
  · subst hauth
    rw [hid, heph, hnonce]
    refine safe_cat.2 fun t ht => ?_
    simp only [List.mem_cons, List.not_mem_nil, or_false] at ht
    rcases ht with rfl | rfl | rfl | rfl | rfl | rfl | rfl
    · exact Or.inr ⟨j, rfl⟩
    · trivial
    · trivial
    · trivial
    · trivial
    · trivial
    · exact ⟨Or.inr ⟨l.identity, h.honest_of, hq⟩, fun _ => hq⟩

theorem Net.Sound.hello (h : net.Sound honest leaked) (j : Nat) (cache : Option (HelloReplayCache Term)) (lock : Bool)
    (t : Term) : (net.step (.hello j cache lock t)).Sound honest leaked := by
  unfold Net.step
  dsimp only
  cases hl : net.listens j with
  | none => exact h
  | some l =>
    dsimp only
    split
    · exact h
    · have hsound := h.listen j l hl
      cases hread : l.responder.readHelloWriteAuth cache lock t with
      | mk res rest =>
        obtain ⟨r, cache'⟩ := rest
        have hcases := readHelloWriteAuth_answer hread
        cases res with
        | error e =>
          have hr : r = l.responder := by
            rcases hcases with ⟨-, hr⟩ | ⟨hello, -, hanswer⟩
            · exact hr
            · exact answer_eq_error hanswer
          subst hr
          dsimp only
          rw [← hl, Function.update_eq_self]
          exact h
        | ok auth =>
          rcases hcases with ⟨⟨e, he⟩, -⟩ | ⟨hello, -, hanswer⟩
          · cases he
          · obtain ⟨eeDh, hagree, hr, hauth⟩ := answer_eq_ok hanswer
            have hid : l.responder.identity = l.identity := by rw [hsound.made]
            refine h.listened [auth] (fun l₀ hl₀ => ?_) (h.listen_lt hl) le_rfl fun p hp hle => ?_
            · rw [hl, Option.some.injEq] at hl₀
              subst hl₀
              exact ⟨rfl, fun s hs => List.mem_append_right _ hs⟩
            · have hp' : p.signed l.identity
                  (symResponderMsg (l.responder.th0 hello) (.verKey l.identity) (.encKey l.identity)) := by
                rw [hp]
                refine Or.inl ⟨j, { l with responder := r, answers := r.pending.toList ++ l.answers },
                  sessionOf symCrypto eeDh (l.responder.th0 hello), ?_, rfl, ?_, rfl⟩
                · dsimp only
                  rw [Function.update_self]
                · rw [hr]
                  exact List.mem_cons_self
              obtain ⟨hsound', hsafe⟩ := hsound.answered hle hagree hr hauth hp'
              refine ⟨hsound', fun t ht => ?_⟩
              rw [List.mem_singleton] at ht
              subst ht
              exact hsafe

theorem Net.Sound.auth (h : net.Sound honest leaked) (j : Nat) {t : Term} (ht : Safe honest leaked net.published t) :
    (net.step (.auth j t)).Sound honest leaked := by
  unfold Net.step
  dsimp only
  cases hd : net.dials j with
  | none => exact h
  | some d =>
    dsimp only
    split
    · exact h
    · rename_i hopen
      have hsound := h.dial j d hd
      have hon : ∀ d₀, net.dials j = some d₀ → ∀ d', d'.identity = d.identity → d'.initiator = d.initiator →
          (∀ x, d.done = some x → d'.done = some x) → d₀.Onward d' := by
        intro d₀ hd₀ d' hid hinit hdone
        rw [hd, Option.some.injEq] at hd₀
        subst hd₀
        exact ⟨hid, hinit, hdone⟩
      cases hread : d.initiator.readAuthWriteConfirm t with
      | error e =>
        refine h.dialed [] (fun d₀ hd₀ => hon d₀ hd₀ _ rfl rfl fun _ hx => hx) (h.dial_lt hd) le_rfl
          fun p _ hle => ?_
        have hsound' := hsound.mono hle
        exact ⟨⟨hsound'.honest_of, hsound'.made, fun hopen => (by cases hopen), hsound'.of_done⟩,
          fun t ht => by cases ht⟩
      | ok res =>
        obtain ⟨confirm, s⟩ := res
        obtain ⟨auth, eeDh, sealed, hdec, hfpr, hverify, hagree, hs, hseal, hconfirm⟩ :=
          readAuthWriteConfirm_eq_ok hread
        change symAuth.decode t = some auth at hdec
        simp only [hdec]
        have hundone : d.done = none := hsound.open_of (by simpa using hopen)
        refine h.dialed [confirm] (fun d₀ hd₀ => hon d₀ hd₀ _ rfl rfl fun x hx => ?_) (h.dial_lt hd) le_rfl
          fun p hp hle => ?_
        · rw [hundone] at hx
          cases hx
        · have hid : d.initiator.identity = d.identity := by rw [hsound.made]
          have heph : d.initiator.ephemeral = .scalar j := by rw [hsound.made]
          have hexp : d.initiator.expectedPeerFpr = d.expected := by rw [hsound.made]
          obtain ⟨n, hsign, hsig⟩ := verify_eq_ok hverify
          rw [heph, Except.ok.injEq] at hagree
          rw [symAuth_decode hdec] at ht
          have hsigSafe := (safe_cat.1 ht auth.rSig (by simp)).mono hle
          rw [hsig] at hsigSafe
          have hdials : Net.dials ⟨[confirm] ++ net.sent, net.next, Function.update net.dials j
              (some { d with closed := true, done := some (auth.rIdentity, s) }), net.listens⟩ j =
              some { d with closed := true, done := some (auth.rIdentity, s) } := by
            dsimp only
            rw [Function.update_self]
          refine ⟨⟨hsound.honest_of, hsound.made, fun hopen => (by cases hopen), fun peer s' hdone => ?_⟩, fun t ht => ?_⟩
          · simp only [Option.some.injEq, Prod.mk.injEq] at hdone
            obtain ⟨rfl, rfl⟩ := hdone
            refine ⟨auth, n, rfl, hfpr.trans hexp, hsign, ?_, ?_⟩
            · rw [hs, ← hagree]
            · rw [hs]
              exact hsigSafe
          · rw [List.mem_singleton] at ht
            subst ht hconfirm
            cases hseal
            have hsigned : p.signed d.identity (symInitiatorMsg s.th0 auth.rIdentity.sign auth.rIdentity.kem
                (.verKey d.identity) (.encKey d.identity)) := by
              rw [hp]
              exact Or.inr ⟨j, _, auth.rIdentity, s, hdials, rfl, rfl, rfl⟩
            refine ⟨safe_cat.2 fun t ht => ?_, Or.inr ?_⟩
            · simp only [List.mem_cons, List.not_mem_nil, or_false] at ht
              rcases ht with rfl | rfl | rfl | rfl | rfl
              · trivial
              · trivial
              · trivial
              · trivial
              · rw [hid]
                exact ⟨Or.inr ⟨d.identity, hsound.honest_of, hsigned⟩, fun _ => hsigned⟩
            · rw [hp]
              exact ⟨j, _, auth.rIdentity, s, hdials, rfl, rfl, rfl, rfl⟩

theorem Net.Sound.confirm (h : net.Sound honest leaked) (j : Nat) {t : Term} (ht : Safe honest leaked net.published t) :
    (net.step (.confirm j t)).Sound honest leaked := by
  unfold Net.step
  dsimp only
  cases hl : net.listens j with
  | none => exact h
  | some l =>
    dsimp only
    split
    · exact h
    · have hsound := h.listen j l hl
      have hon : ∀ l₀, net.listens j = some l₀ → ∀ l', l'.identity = l.identity → l'.answers = l.answers →
          l₀.Onward l' := by
        intro l₀ hl₀ l' hid hans
        rw [hl, Option.some.injEq] at hl₀
        subst hl₀
        exact ⟨hid, fun s hs => by rw [hans]; exact hs⟩
      cases hread : l.responder.readConfirm t with
      | error e =>
        refine h.listened [] (fun l₀ hl₀ => hon l₀ hl₀ _ rfl rfl) (h.listen_lt hl) le_rfl fun p _ hle => ?_
        have hsound' := hsound.mono hle
        exact ⟨⟨hsound'.honest_of, hsound'.made, hsound'.pending_of, hsound'.of_answer, hsound'.of_done⟩,
          fun t ht => by cases ht⟩
      | ok res =>
        obtain ⟨peer, s⟩ := res
        obtain ⟨sealed, innerBytes, inner, hpending, hsealed, hopen, hinner, hpeer, hverify, hexpected⟩ :=
          readConfirm_eq_ok hread
        refine h.listened [] (fun l₀ hl₀ => hon l₀ hl₀ _ rfl rfl) (h.listen_lt hl) le_rfl fun p _ hle => ?_
        have hsound' := hsound.mono hle
        refine ⟨⟨hsound'.honest_of, hsound'.made, hsound'.pending_of, hsound'.of_answer, fun peer' s' hdone => ?_⟩,
          fun t ht => by cases ht⟩
        simp only [Option.some.injEq, Prod.mk.injEq] at hdone
        obtain ⟨rfl, rfl⟩ := hdone
        obtain rfl := open_eq_ok hopen
        obtain rfl := symInner_decode hinner
        obtain ⟨n, hsign, hsig⟩ := verify_eq_ok hverify
        have hid : l.responder.identity = l.identity := by rw [hsound.made]
        cases hsealed
        have hinnerSafe := safe_cat.1 (ht.mono hle).1 inner.iSig (by simp)
        rw [hsig, hid] at hinnerSafe
        subst hpeer
        exact ⟨hsound.pending_of s hpending, n, _, hsign, hinnerSafe, ht.mono hle⟩

theorem Net.Sound.step (h : net.Sound honest leaked) (e : NetEvent) (he : Deliverable honest leaked net e) :
    (net.step e).Sound honest leaked := by
  cases e with
  | dial identity expected secret => exact h.dialStep he
  | listen identity expected secret => exact h.listenStep he
  | sendHello j => exact h.sendHello j
  | hello j cache lock t => exact h.hello j cache lock t
  | auth j t => exact h.auth j (Knows.safe h.sent he)
  | confirm j t => exact h.confirm j (Knows.safe h.sent he)

/-! ### What a signature of an honest party stands for -/

private theorem labels_ne :
    ofBytes (asBytes "FileSec p2p responder auth v2".toList) ≠ ofBytes (asBytes "FileSec p2p initiator auth v2".toList) ∧
    ofBytes (asBytes "FileSec p2p transcript v2".toList) ≠ ofBytes (asBytes "FileSec p2p responder auth v2".toList) ∧
    ofBytes (asBytes "FileSec p2p transcript v2".toList) ≠ ofBytes (asBytes "FileSec p2p initiator auth v2".toList) ∧
    ofBytes (asBytes "FileSec p2p session key i2r v2".toList) ≠ ofBytes (asBytes "FileSec p2p session key r2i v2".toList) :=
  by decide

/-- A message that a responder signs has been signed in an answer. -/
private theorem signed_responder {n : Nat} {th0 sign kem : Term}
    (h : net.published.signed n (symResponderMsg th0 sign kem)) :
    sign = .verKey n ∧ ∃ j l s, net.listens j = some l ∧ l.identity = n ∧ s ∈ l.answers ∧ s.th0 = th0 := by
  rcases h with ⟨j, l, s, hl, hid, hs, hm⟩ | ⟨j, d, peer, s, -, -, -, hm⟩
  · simp only [symResponderMsg, responderSigMsg, cat_cons, Term.hash.injEq, Term.pair.injEq, true_and, and_true] at hm
    exact ⟨hm.2.1, j, l, s, hl, hid, hs, hm.1.symm⟩
  · simp only [symResponderMsg, symInitiatorMsg, responderSigMsg, initiatorSigMsg, cat_cons, Term.hash.injEq,
      Term.pair.injEq] at hm
    exact absurd hm.1 labels_ne.1

/-- A message that an initiator signs has been signed on completion. -/
private theorem signed_initiator {n : Nat} {th0 rSign rKem iSign iKem : Term}
    (h : net.published.signed n (symInitiatorMsg th0 rSign rKem iSign iKem)) :
    ∃ j d peer s, net.dials j = some d ∧ d.identity = n ∧ d.done = some (peer, s) ∧ s.th0 = th0 := by
  rcases h with ⟨j, l, s, -, -, -, hm⟩ | ⟨j, d, peer, s, hd, hid, hdone, hm⟩
  · simp only [symResponderMsg, symInitiatorMsg, responderSigMsg, initiatorSigMsg, cat_cons, Term.hash.injEq,
      Term.pair.injEq] at hm
    exact absurd hm.1.symm labels_ne.1
  · simp only [symInitiatorMsg, initiatorSigMsg, cat_cons, Term.hash.injEq, Term.pair.injEq, true_and, and_true] at hm
    exact ⟨j, d, peer, s, hd, hid, hdone, hm.1.symm⟩

/-- A transcript is not what anybody signs. -/
private theorem not_signed_transcript {n v su : Nat} {a b c d e f : Term} :
    ¬ net.published.signed n (transcript0 symCrypto v su a b c d e f) := by
  rintro (⟨j, l, s, -, -, -, hm⟩ | ⟨j, d', peer, s, -, -, -, hm⟩)
  · simp only [symResponderMsg, transcript0, responderSigMsg, cat_cons, Term.hash.injEq, Term.pair.injEq] at hm
    exact absurd hm.1 labels_ne.2.1
  · simp only [symInitiatorMsg, transcript0, initiatorSigMsg, cat_cons, Term.hash.injEq, Term.pair.injEq] at hm
    exact absurd hm.1 labels_ne.2.2.1

/-- Nobody else knows a transcript that commits to a code that has not leaked. -/
private theorem not_safe_transcript {secret v su : Nat} {a b c d e : Term} (hs : ¬ leaked secret) :
    ¬ Safe honest leaked net.published (transcript0 symCrypto v su a b c d e (secretCommit symCrypto (pskOf secret))) := by
  rintro (h | ⟨n, -, h⟩)
  · have hcommit := safe_cat.1 h (secretCommit symCrypto (pskOf secret)) (by simp)
    rcases hcommit with hkey | ⟨j, d, -, hm⟩
    · exact hs hkey.1.2
    · simp only [helloProof, Term.mac.injEq] at hm
      cases hm.2
  · exact not_signed_transcript h

/-- The signature of a responder that is not honest gives its transcript away. -/
private theorem safe_of_dishonest {n : Nat} {th0 kem : Term} (hn : ¬ honest n)
    (h : Safe honest leaked net.published (.sig n (symResponderMsg th0 (.verKey n) kem))) :
    Safe honest leaked net.published th0 := by
  rcases h.1 with h | ⟨n', hn', h⟩
  · exact safe_cat.1 h th0 (by simp)
  · obtain rfl : n = n' := by simpa using (signed_responder h).1
    exact absurd hn' hn

/-! ### Two ends of a session -/

/-- An initiator and a responder with one transcript have the keys and the secret in common, and the initiator expects
the responder. -/
private theorem ends_meet {p : Published} {j j' : Nat} {d : Dial} {l : Listen} {peer : SymIdentity} {s s' : OpenSession Term}
    (hd : d.Sound honest leaked p j) (hdone : d.done = some (peer, s)) (hl : l.Sound honest leaked p j')
    (hs' : s' ∈ l.answers) (hth0 : s.th0 = s'.th0) :
    s = s' ∧ d.secret = l.secret ∧ d.expected = symCrypto.fingerprint (symCrypto.publicPart l.identity) := by
  obtain ⟨auth, n, -, -, -, rfl, -⟩ := hd.of_done peer s hdone
  obtain ⟨hello, rfl⟩ := hl.of_answer s' hs'
  have heq := hth0
  simp only [sessionOf, Initiator.th0, Responder.th0, hd.made] at heq
  rw [hl.made] at heq
  simp only [transcript0, secretCommit, derivePsk, cat_cons, Term.hash.injEq, Term.pair.injEq, Term.mac.injEq,
    Term.kdf.injEq, Term.code.injEq, true_and, and_true] at heq
  obtain ⟨hie, -, hre, -, hexp, hsecret⟩ := heq
  refine ⟨?_, hsecret, hexp⟩
  change d.initiator.th0 auth = l.responder.th0 hello at hth0
  rw [hth0, hre, ← hie, exchange_pub]

/-- Two sessions have no key in common. -/
def OpenSession.Apart {T : Type} (s s' : OpenSession T) : Prop :=
  s.kI2r ≠ s'.kI2r ∧ s.kI2r ≠ s'.kR2i ∧ s.kR2i ≠ s'.kI2r ∧ s.kR2i ≠ s'.kR2i

/-- Sessions with different transcripts have no key in common. -/
private theorem apart_of_ne {eeDh eeDh' th0 th0' : Term} (h : th0 ≠ th0') :
    (sessionOf symCrypto eeDh th0).Apart (sessionOf symCrypto eeDh' th0') := by
  have hlabel := labels_ne.2.2.2
  refine ⟨fun heq => ?_, fun heq => ?_, fun heq => ?_, fun heq => ?_⟩
  all_goals simp only [sessionOf, deriveSessionKeys, cat_cons, Term.kdf.injEq, Term.pair.injEq, and_true] at heq
  · exact h heq.2.2
  · exact hlabel heq.1
  · exact hlabel heq.1.symm
  · exact h heq.2.2

/-- The initiator with the number `j` has completed. -/
def Net.Dialed (net : Net) (j : Nat) (d : Dial) (peer : SymIdentity) (s : OpenSession Term) : Prop :=
  net.dials j = some d ∧ d.done = some (peer, s)

/-- The responder with the number `j` has answered. -/
def Net.Answered (net : Net) (j : Nat) (l : Listen) (s : OpenSession Term) : Prop :=
  net.listens j = some l ∧ s ∈ l.answers

/-- The responder with the number `j` has completed. -/
def Net.Accepted (net : Net) (j : Nat) (l : Listen) (peer : SymIdentity) (s : OpenSession Term) : Prop :=
  net.listens j = some l ∧ l.done = some (peer, s)

variable {j j' : Nat} {d d' : Dial} {l l' : Listen} {peer peer' : SymIdentity} {s s' : OpenSession Term}

/-- Behind an initiator whose peer signed with an honest key there is a responder of this party. -/
theorem Net.Sound.responder_of_dialed (h : net.Sound honest leaked) (hd : net.Dialed j d peer s) {n : Nat}
    (hn : honest n) (hsign : peer.sign = .verKey n) :
    ∃ j' l, net.Answered j' l s ∧ l.identity = n ∧ l.secret = d.secret := by
  obtain ⟨hd, hdone⟩ := hd
  have hsound := h.dial j d hd
  obtain ⟨auth, n', -, -, hsign', -, hsafe⟩ := hsound.of_done peer s hdone
  obtain rfl : n = n' := Term.verKey.inj (hsign.symm.trans hsign')
  obtain ⟨-, j', l, s', hl, hid, hs', hth0⟩ := signed_responder (hsafe.2 hn)
  obtain ⟨rfl, hsecret, -⟩ := ends_meet hsound hdone (h.listen j' l hl) hs' hth0.symm
  exact ⟨j', l, ⟨hl, hs'⟩, hid, hsecret.symm⟩

/-- Behind a responder whose peer signed with an honest key there is an initiator of this party, addressed to the
responder. -/
theorem Net.Sound.initiator_of_accepted (h : net.Sound honest leaked) (hl : net.Accepted j l peer s) {n : Nat}
    (hn : honest n) (hsign : peer.sign = .verKey n) :
    ∃ j' d peer', net.Dialed j' d peer' s ∧ d.identity = n ∧
      d.expected = symCrypto.fingerprint (symCrypto.publicPart l.identity) ∧ d.secret = l.secret := by
  obtain ⟨hl, hdone⟩ := hl
  have hsound := h.listen j l hl
  obtain ⟨hs, n', m, hsign', hsafe, -⟩ := hsound.of_done peer s hdone
  obtain rfl : n = n' := Term.verKey.inj (hsign.symm.trans hsign')
  obtain ⟨j', d, peer', s', hd, hid, hdone', hth0⟩ := signed_initiator (hsafe.2 hn)
  obtain ⟨rfl, hsecret, hexpected⟩ := ends_meet (h.dial j' d hd) hdone' hsound hs hth0
  exact ⟨j', d, peer', ⟨hd, hdone'⟩, hid, hexpected, hsecret⟩

/-- An initiator does not complete under a code that has not leaked unless a responder of an honest party has answered
under it. -/
theorem Net.Sound.dialed_secret (h : net.Sound honest leaked) (hd : net.Dialed j d peer s) (hs : ¬ leaked d.secret) :
    ∃ j' l, net.Answered j' l s ∧ l.secret = d.secret := by
  have hsound := h.dial j d hd.1
  obtain ⟨auth, n, -, -, hsign, hsession, hsafe⟩ := hsound.of_done peer s hd.2
  by_cases hn : honest n
  · obtain ⟨j', l, hl, -, hsecret⟩ := h.responder_of_dialed hd hn hsign
    exact ⟨j', l, hl, hsecret⟩
  · rw [hsign] at hsafe
    have hth0 := safe_of_dishonest hn hsafe
    rw [hsession] at hth0
    simp only [sessionOf, Initiator.th0, hsound.made] at hth0
    exact absurd hth0 (not_safe_transcript hs)

/-- A responder does not complete under a code that has not leaked unless an initiator of an honest party has completed
under it. -/
theorem Net.Sound.accepted_secret (h : net.Sound honest leaked) (hl : net.Accepted j l peer s) (hs : ¬ leaked l.secret) :
    ∃ j' d peer', net.Dialed j' d peer' s ∧ d.secret = l.secret := by
  have hsound := h.listen j l hl.1
  obtain ⟨hmem, n, m, -, -, -, hsealed⟩ := hsound.of_done peer s hl.2
  obtain ⟨hello, hsession⟩ := hsound.of_answer s hmem
  rcases hsealed with ⟨hkey, -⟩ | ⟨j', d, peer', s', hd, hdone, hkey, -⟩
  · -- the key would give the transcript away
    have hth0 : Safe honest leaked net.published s.th0 := by
      rw [hsession] at hkey ⊢
      exact safe_cat.1 hkey.2 _ (by simp [sessionOf])
    rw [hsession] at hth0
    simp only [sessionOf, Responder.th0] at hth0
    rw [hsound.made] at hth0
    exact absurd hth0 (not_safe_transcript hs)
  · obtain ⟨auth, n', -, -, -, hsession', -⟩ := (h.dial j' d hd).of_done peer' s' hdone
    have hth0 : s'.th0 = s.th0 := by
      by_contra hne
      rw [hsession, hsession'] at hkey hne
      exact (apart_of_ne fun heq => hne heq.symm).1 hkey
    obtain ⟨rfl, hsecret, -⟩ := ends_meet (h.dial j' d hd) hdone hsound hmem hth0
    exact ⟨j', d, peer', ⟨hd, hdone⟩, hsecret⟩

theorem Net.Sound.dialed_apart (h : net.Sound honest leaked) (hd : net.Dialed j d peer s)
    (hd' : net.Dialed j' d' peer' s') (hne : j ≠ j') : s.Apart s' := by
  have hsound := h.dial j d hd.1
  have hsound' := h.dial j' d' hd'.1
  obtain ⟨auth, n, -, -, -, rfl, -⟩ := hsound.of_done peer s hd.2
  obtain ⟨auth', n', -, -, -, rfl, -⟩ := hsound'.of_done peer' s' hd'.2
  refine apart_of_ne fun heq => hne ?_
  simp only [Initiator.th0, hsound.made, hsound'.made, transcript0, cat_cons, Term.hash.injEq, Term.pair.injEq,
    Term.pub.injEq, Term.scalar.injEq, true_and] at heq
  exact heq.1

theorem Net.Sound.accepted_apart (h : net.Sound honest leaked) (hl : net.Accepted j l peer s)
    (hl' : net.Accepted j' l' peer' s') (hne : j ≠ j') : s.Apart s' := by
  have hsound := h.listen j l hl.1
  have hsound' := h.listen j' l' hl'.1
  obtain ⟨hello, rfl⟩ := hsound.of_answer s (hsound.of_done peer s hl.2).1
  obtain ⟨hello', rfl⟩ := hsound'.of_answer s' (hsound'.of_done peer' s' hl'.2).1
  refine apart_of_ne fun heq => hne ?_
  rw [Responder.th0, Responder.th0, hsound.made, hsound'.made] at heq
  simp only [transcript0, cat_cons, Term.hash.injEq, Term.pair.injEq, Term.pub.injEq, Term.scalar.injEq, true_and] at heq
  exact heq.2.2.1

theorem Net.Sound.dialed_accepted (h : net.Sound honest leaked) (hd : net.Dialed j d peer s)
    (hl : net.Accepted j' l peer' s') : s.Apart s' ∨ (s = s' ∧ d.secret = l.secret) := by
  have hsound := h.dial j d hd.1
  have hsound' := h.listen j' l hl.1
  have hmem := (hsound'.of_done peer' s' hl.2).1
  by_cases hth0 : s.th0 = s'.th0
  · obtain ⟨heq, hsecret, -⟩ := ends_meet hsound hd.2 hsound' hmem hth0
    exact Or.inr ⟨heq, hsecret⟩
  · obtain ⟨auth, n, -, -, -, rfl, -⟩ := hsound.of_done peer s hd.2
    obtain ⟨hello, rfl⟩ := hsound'.of_answer s' hmem
    exact Or.inl (apart_of_ne hth0)

private theorem sign_of_fingerprint {peer : SymIdentity} {n : Nat}
    (h : symCrypto.fingerprint peer = symCrypto.fingerprint (symCrypto.publicPart n)) : peer.sign = .verKey n := by
  simp only [cat_cons, Term.hash.injEq, Term.pair.injEq, true_and] at h
  exact h.1

/-- On a network where the adversary delivers whatever it can compute, in every order and to any number of sessions:

* an initiator that completes with the fingerprint of an honest party shares its transcript, its keys and its secret with
  a responder of this party;
* a responder that completes with the fingerprint of an honest party shares them with an initiator of this party that
  expects the responder's fingerprint;
* two completed sessions have no key in common, unless they are the two ends of one session, and then they have the same
  secret;
* nobody completes under a code that the adversary does not have unless a session under this code is at the other end. -/
theorem handshake_agreement {honest leaked : Nat → Prop} {events : List NetEvent}
    (hrun : Along Net.step (Deliverable honest leaked) .start events) :
    (∀ j d peer s R, (run Net.step .start events).Dialed j d peer s → honest R →
      d.expected = symCrypto.fingerprint (symCrypto.publicPart R) →
        ∃ j' l, (run Net.step .start events).Answered j' l s ∧ l.identity = R ∧ l.secret = d.secret) ∧
    (∀ j l peer s I, (run Net.step .start events).Accepted j l peer s → honest I →
      symCrypto.fingerprint peer = symCrypto.fingerprint (symCrypto.publicPart I) →
        ∃ j' d peer', (run Net.step .start events).Dialed j' d peer' s ∧ d.identity = I ∧
          d.expected = symCrypto.fingerprint (symCrypto.publicPart l.identity) ∧ d.secret = l.secret) ∧
    (∀ j d peer s j' d' peer' s', (run Net.step .start events).Dialed j d peer s →
      (run Net.step .start events).Dialed j' d' peer' s' → j ≠ j' → s.Apart s') ∧
    (∀ j l peer s j' l' peer' s', (run Net.step .start events).Accepted j l peer s →
      (run Net.step .start events).Accepted j' l' peer' s' → j ≠ j' → s.Apart s') ∧
    (∀ j d peer s j' l peer' s', (run Net.step .start events).Dialed j d peer s →
      (run Net.step .start events).Accepted j' l peer' s' → s.Apart s' ∨ (s = s' ∧ d.secret = l.secret)) ∧
    (∀ j d peer s, (run Net.step .start events).Dialed j d peer s → ¬ leaked d.secret →
      ∃ j' l, (run Net.step .start events).Answered j' l s ∧ l.secret = d.secret) ∧
    (∀ j l peer s, (run Net.step .start events).Accepted j l peer s → ¬ leaked l.secret →
      ∃ j' d peer', (run Net.step .start events).Dialed j' d peer' s ∧ d.secret = l.secret) := by
  have h : (run Net.step .start events).Sound honest leaked :=
    run_along (fun net : Net => net.Sound honest leaked) (fun _ e hnet he => hnet.step e he) net_sound hrun
  refine ⟨fun j d peer s R hd hR hexp => ?_, fun j l peer s I hl hI hfpr => ?_,
    fun j d peer s j' d' peer' s' hd hd' hne => h.dialed_apart hd hd' hne,
    fun j l peer s j' l' peer' s' hl hl' hne => h.accepted_apart hl hl' hne,
    fun j d peer s j' l peer' s' hd hl => h.dialed_accepted hd hl,
    fun j d peer s hd hs => h.dialed_secret hd hs, fun j l peer s hl hs => h.accepted_secret hl hs⟩
  · obtain ⟨auth, n, -, hfpr, -⟩ := (h.dial j d hd.1).of_done peer s hd.2
    exact h.responder_of_dialed hd hR (sign_of_fingerprint (hfpr.trans hexp))
  · exact h.initiator_of_accepted hl hI (sign_of_fingerprint hfpr)

namespace Sym

/-- What has been sent last. -/
def lastSent (events : List NetEvent) : Term := (run Net.step .start events).sent.headD (.const [])

/-- The party 0 dials the party 1 under a code, and its `Hello` is on the way. -/
def dialing : List NetEvent :=
  [.dial 0 (symCrypto.fingerprint (symCrypto.publicPart 1)) 0, .listen 1 none 0, .sendHello 0]

/-- The `Hello` has been answered. -/
def answering : List NetEvent := dialing ++ [.hello 1 none true (lastSent dialing)]

/-- The handshake is complete. -/
def handshake : List NetEvent := answering ++ [.auth 0 (lastSent answering),
  .confirm 1 (lastSent (answering ++ [.auth 0 (lastSent answering)]))]

theorem handshake_delivered : Along Net.step (Deliverable (· < 2) fun _ => False) .start handshake := by
  have hhello : lastSent dialing ∈ (run Net.step .start dialing).sent := by decide
  have hauth : lastSent answering ∈ (run Net.step .start answering).sent := by decide
  have hconfirm : lastSent (answering ++ [.auth 0 (lastSent answering)]) ∈
      (run Net.step .start (answering ++ [.auth 0 (lastSent answering)])).sent := by decide
  exact ⟨Nat.zero_lt_two, Nat.one_lt_two, trivial, .sent hhello, .sent hauth, .sent hconfirm, trivial⟩

end Sym

/-- Left alone, both ends complete, and the initiator finds the responder it has dialed. -/
theorem handshake_agreement_alone :
    ((run Net.step .start Sym.handshake).listens 1).any (·.done.isSome) = true ∧
      ∃ d peer s, (run Net.step .start Sym.handshake).Dialed 0 d peer s ∧
        ∃ j' l, (run Net.step .start Sym.handshake).Answered j' l s ∧ l.identity = 1 ∧ l.secret = d.secret := by
  refine ⟨by decide, ?_⟩
  have hdone : (((run Net.step .start Sym.handshake).dials 0).bind (·.done)).isSome = true := by decide
  have hexpected : ((run Net.step .start Sym.handshake).dials 0).map (·.expected) =
      some (symCrypto.fingerprint (symCrypto.publicPart 1)) := by decide
  obtain ⟨⟨peer, s⟩, hdone⟩ := Option.isSome_iff_exists.1 hdone
  obtain ⟨d, hd, hdone⟩ := Option.bind_eq_some_iff.1 hdone
  rw [hd, Option.map_some, Option.some.injEq] at hexpected
  exact ⟨d, peer, s, ⟨hd, hdone⟩,
    (handshake_agreement Sym.handshake_delivered).1 0 d peer s 1 ⟨hd, hdone⟩ Nat.one_lt_two hexpected⟩

end FileSec.Peer
