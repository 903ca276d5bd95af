import FileSec.Fsec.Writer

/-!
# What a written container reads as

The parts of a written container stand where the reader looks for them, so it parses as what the plan says exactly when
the reader accepts the layout of the manifest (`ContainerPlan.importVault_write`), and the data comes back.
-/

namespace FileSec.Fsec

variable {P : Prims} {C : FsecPrims P}

/-! ### Numbers -/

theorem ofBe_be32 {n : Nat} (h : n ≤ u32Max) : ofBe (be32 n) = n := by
  have hmax : u32Max = 4294967295 := by decide
  simp only [ofBe, be32, List.foldl_cons, List.foldl_nil, UInt8.toNat_ofNat']
  omega

/-- A file is no longer than its chunks. -/
theorem le_numChunks_mul (n : Nat) {size : Nat} (hs : 0 < size) : n ≤ numChunks n size * size := by
  unfold numChunks
  split
  · omega
  · have := Nat.div_add_mod (n + size - 1) size
    have := Nat.mod_lt (n + size - 1) hs
    rw [Nat.mul_comm]
    omega

/-! ### The parts of the output -/

namespace ContainerPlan

variable {plan : ContainerPlan C} {data : ByteStream} {out : Bytes}

theorem front_length (plan : ContainerPlan C) : plan.front.length = preambleLen + plan.headerBytes.length := by
  simp [front, magic, be16, be32, preambleLen]
  omega

/-- What `write` has put out, and the checks it has passed. -/
structure Wrote (plan : ContainerPlan C) (data : ByteStream) (out encData trailer : Bytes) : Prop where
  out_eq : out = plan.front ++ plan.encManifest ++ encData ++ trailer
  encManifest_length : plan.encManifest.length = plan.manifestLen
  encData_eq : plan.encData data = .ok encData
  encData_length : encData.length = plan.dataLen
  trailer_eq : ∃ pq, plan.pqSignature (P.hashContent (plan.front ++ plan.encManifest ++ encData)) = .ok pq ∧
    trailer = plan.sender.sign (P.hashContent (plan.front ++ plan.encManifest ++ encData)) ++ pq

theorem write_eq_ok (h : plan.write data = .ok out) : ∃ encData trailer, plan.Wrote data out encData trailer := by
  unfold write at h
  simp only [bind_eq_ok, refuseIf_eq_ok, Except.ok.injEq, exists_const, not_not] at h
  obtain ⟨hm, encData, henc, hd, pq, hpq, rfl⟩ := h
  exact ⟨encData, _, rfl, hm, henc, hd, pq, hpq, rfl⟩

variable {encData trailer : Bytes}

/-- The trailer holds the Ed25519 signature and, for a hybrid suite, the ML-DSA signature. -/
theorem Wrote.trailer_verifies (h : plan.Wrote data out encData trailer) :
    trailer.length = trailerLen plan.suite ∧
      C.verify (C.signPublic plan.sender.signSecret) (P.hashContent (plan.front ++ plan.encManifest ++ encData))
        (trailer.take signatureLen) = .ok () ∧
      verifyHybridSignature C plan.suite (plan.sender.mldsa.map (·.publicKey))
        (P.hashContent (plan.front ++ plan.encManifest ++ encData)) trailer = .ok () := by
  obtain ⟨pq, hpq, rfl⟩ := h.trailer_eq
  obtain ⟨hash, hhash⟩ : ∃ hash, P.hashContent (plan.front ++ plan.encManifest ++ encData) = hash := ⟨_, rfl⟩
  rw [hhash] at hpq ⊢
  have hsig : (plan.sender.sign hash).length = signatureLen := C.length_signRaw _ _
  have hverify : C.verify (C.signPublic plan.sender.signSecret) hash
      ((plan.sender.sign hash ++ pq).take signatureLen) = .ok () := by
    rw [List.take_left' hsig]
    exact C.verify_sign _ _
  unfold pqSignature at hpq
  by_cases hs : isHybrid plan.suite = true
  · rw [if_pos hs] at hpq
    unfold Identity.signPqc at hpq
    cases hm : plan.sender.mldsa with
    | none =>
      rw [hm] at hpq
      cases hpq
    | some m =>
      rw [hm] at hpq
      have hpq : mldsaSign C m.seed hash = .ok pq := hpq
      unfold mldsaSign at hpq
      rw [if_neg (not_not.2 m.seed_length), Except.ok.injEq] at hpq
      have hpqlen : pq.length = mldsaSignatureLen := by
        rw [← hpq]
        exact C.length_mldsaSignRaw _ _
      have hkey : m.publicKey.length = mldsaPublicLen := by
        rw [m.publicKey_eq]
        exact C.length_mldsaKey _
      refine ⟨?_, hverify, ?_⟩
      · rw [List.length_append, hsig, hpqlen, trailerLen, if_pos hs]
      · unfold verifyHybridSignature mldsaVerify
        have hshort : ¬ (plan.sender.sign hash ++ pq).length < signatureLen := by
          rw [List.length_append]
          omega
        simp only [hs, Bool.true_eq_false, if_false, Option.map_some, hshort, hkey, List.drop_left' hsig, hpqlen, ne_eq,
          not_true_eq_false]
        rw [← hpq, m.publicKey_eq, C.mldsaVerify_sign]
        rfl
  · rw [if_neg hs, Except.ok.injEq] at hpq
    subst hpq
    refine ⟨?_, hverify, ?_⟩
    · rw [List.append_nil, hsig, trailerLen, if_neg hs]
    · unfold verifyHybridSignature
      rw [if_pos (by simpa using hs)]

/-- A plan can be written, with data of the length it was made for, when the stream takes the data. -/
theorem write_ok_iff {manifest : Manifest} {dataPlaintextLen : Nat} {sender : Identity C}
    {recipients : List Peer.PublicIdentity} {options : ExportOptions} {header : Header} {source : Bytes}
    (hm : plan.Made manifest dataPlaintextLen sender recipients options header) (hlen : source.length = dataPlaintextLen) :
    (∃ out, plan.write ⟨source, none⟩ = .ok out) ↔
      options.chunkSize ≤ maxChunkSize ∧ numChunks dataPlaintextLen options.chunkSize ≤ u32Max + 1 := by
  have hnonce : plan.dataStreamNonce.length = plan.suite.aeadAlg.streamNonceLen := by
    rw [hm.suite_eq]
    exact hm.dataStreamNonce_length
  have hpos : 0 < options.chunkSize := Nat.pos_of_ne_zero hm.chunkSize_ne
  constructor
  · intro ⟨out, h⟩
    obtain ⟨encData, trailer, hw⟩ := write_eq_ok h
    have henc : encryptStreamWith P plan.suite.aeadAlg plan.cek plan.dataStreamNonce (C.aad plan.headerBytes) source
        plan.chunkSize = .ok encData := hw.encData_eq
    rw [hm.chunkSize_eq] at henc
    have hle : options.chunkSize ≤ maxChunkSize := by
      by_contra hgt
      unfold encryptStreamWith at henc
      rw [if_neg (not_not.2 hnonce), if_pos (Or.inr (Nat.lt_of_not_le hgt))] at henc
      cases henc
    have hcount := (encryptStreamWith_ok_iff hnonce hpos hle).1 ⟨encData, henc⟩
    rw [hlen] at hcount
    exact ⟨hle, hcount⟩
  · intro ⟨hle, hcount⟩
    rw [← hlen] at hcount
    obtain ⟨encData, henc⟩ : ∃ out, encryptStreamWith P plan.suite.aeadAlg plan.cek plan.dataStreamNonce
        (C.aad plan.headerBytes) source options.chunkSize = .ok out := (encryptStreamWith_ok_iff hnonce hpos hle).2 hcount
    have hdata : plan.encData ⟨source, none⟩ = .ok encData := by
      rw [← hm.chunkSize_eq] at henc
      exact henc
    have hman : plan.encManifest.length = plan.manifestLen := by
      rw [encManifest, P.length_sealBytes, hm.manifestLen_eq]
    have hdlen : encData.length = plan.dataLen := by
      rw [(encryptStreamWith_slice henc).1, hm.dataLen_eq, hlen, dataCiphertextLen]
    obtain ⟨pq, hpq⟩ : ∃ pq, plan.pqSignature (P.hashContent (plan.front ++ plan.encManifest ++ encData)) = .ok pq := by
      unfold pqSignature
      by_cases hs : isHybrid plan.suite = true
      · have hsome := hm.signs (hm.suite_eq ▸ hs)
        obtain ⟨m, hkey⟩ := Option.isSome_iff_exists.1 hsome
        rw [if_pos hs, Identity.signPqc, hm.sender_eq, hkey]
        exact ⟨_, if_neg (not_not.2 m.seed_length)⟩
      · rw [if_neg hs]
        exact ⟨_, rfl⟩
    refine ⟨plan.front ++ plan.encManifest ++ encData ++
      (plan.sender.sign (P.hashContent (plan.front ++ plan.encManifest ++ encData)) ++ pq), ?_⟩
    unfold write
    simp only [bind_eq_ok, refuseIf_eq_ok, Except.ok.injEq, exists_const, not_not]
    exact ⟨hman, encData, hdata, hdlen, pq, hpq, rfl⟩

/-- The written container is as long as the plan said. -/
theorem Wrote.length_eq (h : plan.Wrote data out encData trailer) : out.length = plan.containerLen := by
  rw [h.out_eq]
  simp only [List.length_append, plan.front_length, h.encManifest_length, h.encData_length, h.trailer_verifies.1]
  rfl

/-- The preamble of the container. -/
private theorem Wrote.preamble (h : plan.Wrote data out encData trailer) (hlen : plan.headerBytes.length ≤ u32Max) :
    out.take 5 = magic ∧ ofBe ((out.drop 5).take 2) = formatVersion ∧ declaredHeaderLen out = plan.headerBytes.length := by
  have hout : out = magic ++ (be16 formatVersion ++ (be32 plan.headerBytes.length ++ (plan.headerBytes ++
      (plan.encManifest ++ (encData ++ trailer))))) := by
    rw [h.out_eq]
    simp only [front, List.append_assoc]
  have h5 : out.drop 5 = be16 formatVersion ++ (be32 plan.headerBytes.length ++ (plan.headerBytes ++
      (plan.encManifest ++ (encData ++ trailer)))) := by
    rw [hout]
    exact List.drop_left' rfl
  have h7 : out.drop 7 = be32 plan.headerBytes.length ++ (plan.headerBytes ++
      (plan.encManifest ++ (encData ++ trailer))) := by
    have h57 : out.drop 7 = (out.drop 5).drop 2 := by rw [List.drop_drop]
    rw [h57, h5]
    exact List.drop_left' rfl
  have h2 : (be16 formatVersion).length = 2 := rfl
  have h4 : (be32 plan.headerBytes.length).length = 4 := rfl
  refine ⟨?_, ?_, ?_⟩
  · rw [hout]
    exact List.take_left' rfl
  · rw [h5, List.take_left' h2]
    decide
  · unfold declaredHeaderLen
    rw [h7, List.take_left' h4]
    exact ofBe_be32 hlen

/-- Where the reader looks for the parts, there they are. -/
private theorem Wrote.slices (h : plan.Wrote data out encData trailer) (hlen : plan.headerBytes.length ≤ u32Max) :
    manifestStart out = plan.front.length ∧ headerBytesOf out = plan.headerBytes ∧
      (out.drop plan.front.length).take plan.manifestLen = plan.encManifest ∧
      (out.drop (plan.front.length + plan.manifestLen)).take plan.dataLen = encData ∧
      out.take (plan.front.length + plan.manifestLen + plan.dataLen) = plan.front ++ plan.encManifest ++ encData ∧
      out.drop (plan.front.length + plan.manifestLen + plan.dataLen) = trailer := by
  obtain ⟨-, -, hdeclared⟩ := h.preamble hlen
  have hm := h.encManifest_length
  have hd := h.encData_length
  have hall : (plan.front ++ plan.encManifest ++ encData).length =
      plan.front.length + plan.manifestLen + plan.dataLen := by
    rw [List.length_append, List.length_append, hm, hd]
  have hfront : (magic ++ be16 formatVersion ++ be32 plan.headerBytes.length).length = preambleLen := rfl
  have hright : out = plan.front ++ (plan.encManifest ++ (encData ++ trailer)) := by
    rw [h.out_eq]
    simp only [List.append_assoc]
  have hdata : out.drop (plan.front.length + plan.manifestLen) = encData ++ trailer := by
    rw [← List.drop_drop, hright, List.drop_left' rfl, List.drop_left' hm]
  refine ⟨?_, ?_, ?_, ?_, ?_, ?_⟩
  · unfold manifestStart
    rw [hdeclared, plan.front_length]
  · unfold headerBytesOf
    rw [hdeclared, hright]
    unfold front
    rw [List.append_assoc _ plan.headerBytes, List.drop_left' hfront]
    exact List.take_left' rfl
  · rw [hright, List.drop_left' rfl]
    exact List.take_left' hm
  · rw [hdata]
    exact List.take_left' hd
  · rw [h.out_eq]
    exact List.take_left' hall
  · rw [h.out_eq]
    exact List.drop_left' hall

variable {manifest : Manifest} {dataPlaintextLen : Nat} {sender : Identity C} {recipients : List Peer.PublicIdentity}
  {options : ExportOptions} {header : Header} {identity : Identity C} {layout : Nat × Nat}

/-- The chunk size of a container that has been written is one that its reader accepts. -/
theorem Wrote.chunkSize_le (h : plan.Wrote data out encData trailer) : plan.chunkSize ≤ maxChunkSize := by
  have henc := h.encData_eq
  unfold ContainerPlan.encData at henc
  cases hf : data.fault with
  | some e =>
    rw [hf] at henc
    cases henc
  | none =>
    rw [hf] at henc
    have henc : encryptStreamWith P plan.suite.aeadAlg plan.cek plan.dataStreamNonce (C.aad plan.headerBytes) data.bytes
        plan.chunkSize = .ok encData := henc
    unfold encryptStreamWith at henc
    split at henc
    · cases henc
    · split at henc
      · cases henc
      · omega

/-- The header of a written container passes the reader's checks. -/
private theorem Wrote.check (h : plan.Wrote data out encData trailer)
    (hm : plan.Made manifest dataPlaintextLen sender recipients options header) (hmax : plan.manifestLen ≤ maxManifestLen) :
    header.dataChunkSize = options.chunkSize ∧ header.check = .ok options.suite := by
  have hle := h.chunkSize_le
  have hne := hm.chunkSize_ne
  have hbound : maxChunkSize < 2 ^ 32 := by decide
  rw [hm.chunkSize_eq] at hle
  have hchunk : options.chunkSize % 2 ^ 32 = options.chunkSize := Nat.mod_eq_of_lt (by omega)
  have hdata : tagLen ≤ plan.dataLen := by
    rw [hm.dataLen_eq, dataCiphertextLen]
    have hpos := numChunks_pos (n := dataPlaintextLen) (Nat.pos_of_ne_zero hne)
    have := Nat.mul_le_mul_right tagLen hpos
    omega
  have hmin : tagLen ≤ plan.manifestLen := by
    rw [hm.manifestLen_eq]
    omega
  obtain ⟨vaultId, hhdr⟩ := hm.header_eq
  generalize header.recipients = stanzas at hhdr
  subst hhdr
  refine ⟨hchunk, ?_⟩
  unfold Header.check
  simp only [bind_eq_ok, refuseIf_eq_ok, exists_const]
  refine ⟨options.suite, fromU16_toU16 _, ?_, ?_, ?_, ?_, rfl⟩
  · show ¬ (plan.manifestNonce.length ≠ _ ∨ plan.dataStreamNonce.length ≠ _)
    simp [hm.manifestNonce_length, hm.dataStreamNonce_length]
  · show ¬ (options.chunkSize % 2 ^ 32 = 0 ∨ options.chunkSize % 2 ^ 32 > maxChunkSize)
    omega
  · show ¬ (plan.manifestLen < tagLen ∨ plan.manifestLen > maxManifestLen)
    omega
  · show ¬ plan.dataLen < tagLen
    omega

/-- A layout that the reader accepts keeps the container far below the largest length. -/
private theorem containerLen_le (hm : plan.Made manifest dataPlaintextLen sender recipients options header)
    (hchunk : options.chunkSize ≤ maxChunkSize) (hmax : plan.manifestLen ≤ maxManifestLen)
    (hl : validateManifestLayout manifest options.chunkSize plan.dataLen = .ok layout) : plan.containerLen ≤ u64Max := by
  obtain ⟨hne, -, -, -, hcount, hle, -, -, hlen⟩ := validateManifestLayout_eq_ok.1 hl
  have htotal : layout.1 ≤ u32Max * maxChunkSize := by
    have h1 := le_numChunks_mul layout.1 (Nat.pos_of_ne_zero hne)
    rw [← hcount] at h1
    exact h1.trans (Nat.mul_le_mul hle hchunk)
  have htags : layout.2 * tagLen ≤ u32Max * tagLen := Nat.mul_le_mul_right _ hle
  have htrailer : trailerLen plan.suite ≤ signatureLen + mldsaSignatureLen := by
    unfold trailerLen
    split <;> omega
  have hh := hm.header_le
  have hbound : preambleLen + maxContainerHeaderLen + maxManifestLen + (u32Max * maxChunkSize + u32Max * tagLen) +
      (signatureLen + mldsaSignatureLen) ≤ u64Max := by decide
  unfold containerLen
  rw [hlen]
  omega

/-- The sealed manifest of a written container opens as the manifest. -/
private theorem Wrote.opens (h : plan.Wrote data out encData trailer)
    (hm : plan.Made manifest dataPlaintextLen sender recipients options header) :
    openManifestWith C options.suite plan.cek header (headerBytesOf out)
      ((out.drop (manifestStart out)).take header.manifestLen) = .ok manifest := by
  have hbound : maxContainerHeaderLen ≤ u32Max := by decide
  obtain ⟨hstart, hheader, hmslice, -⟩ := h.slices (hm.header_le.trans hbound)
  obtain ⟨vaultId, hhdr⟩ := hm.header_eq
  have hml : header.manifestLen = plan.manifestLen := by rw [hhdr]; rfl
  have hmn : header.manifestNonce = plan.manifestNonce := by rw [hhdr]; rfl
  rw [hheader, hstart, hml, hmslice]
  unfold openManifestWith encManifest
  rw [hmn, hm.suite_eq, P.openBytes_sealBytes]
  dsimp only
  rw [decoded_eq_ok, hm.manifestPlaintext_eq]
  exact C.decodeManifest_encodeManifest manifest

/-- If a written container parses for a recipient, then as what the plan is made of. -/
theorem Wrote.of_parses (h : plan.Wrote data out encData trailer)
    (hm : plan.Made manifest dataPlaintextLen sender recipients options header) (hmem : IsRecipient recipients identity)
    (hcoll : NoCollision recipients identity) {header' : Header} {suite : SuiteId} {cek : Bytes} {manifest' : Manifest}
    (hp : Parses C out identity header' suite cek manifest' layout) :
    plan.manifestLen ≤ maxManifestLen ∧ header' = header ∧ suite = options.suite ∧ cek = plan.cek ∧ manifest' = manifest ∧
      validateManifestLayout manifest options.chunkSize plan.dataLen = .ok layout := by
  have hbound : maxContainerHeaderLen ≤ u32Max := by decide
  obtain ⟨-, hheader, -⟩ := h.slices (hm.header_le.trans hbound)
  obtain ⟨draws, hstanzas⟩ := hm.stanzas
  obtain ⟨vaultId, hhdr⟩ := hm.header_eq
  have hml : header.manifestLen = plan.manifestLen := by rw [hhdr]; rfl
  have hdl : header.dataLen = plan.dataLen := by rw [hhdr]; rfl
  -- what is decoded and decrypted is what was encoded and encrypted
  have heq : header' = header := by
    have hdec := hp.decodes
    rw [hheader, hm.headerBytes_eq, C.decodeHeader_encodeHeader, Option.some.injEq] at hdec
    exact hdec.symm
  subst heq
  have hmax : plan.manifestLen ≤ maxManifestLen := by
    have hcheck := hp.check
    unfold Header.check at hcheck
    simp only [bind_eq_ok, refuseIf_eq_ok, exists_const, hml] at hcheck
    obtain ⟨-, -, -, -, hlen, -⟩ := hcheck
    omega
  obtain ⟨hdcs, hcheck⟩ := h.check hm hmax
  have hsuite : suite = options.suite := by
    have := hp.check
    rw [hcheck, Except.ok.injEq] at this
    exact this.symm
  subst hsuite
  have hcek : cek = plan.cek := by
    have := hp.unwraps
    rw [unwrapCek_eq_ok hstanzas hm.cek_length hmem hcoll, Except.ok.injEq] at this
    exact this.symm
  subst hcek
  have hman : manifest' = manifest := by
    have := hp.opens
    rw [h.opens hm, Except.ok.injEq] at this
    exact this.symm
  have hl := hp.layout
  rw [hman, hdcs, hdl] at hl
  exact ⟨hmax, rfl, rfl, rfl, hman, hl⟩

/-- A written container parses, for each recipient, as what the plan is made of, if the reader accepts the layout. -/
theorem Wrote.parses (h : plan.Wrote data out encData trailer)
    (hm : plan.Made manifest dataPlaintextLen sender recipients options header) (hmax : plan.manifestLen ≤ maxManifestLen)
    (hmem : IsRecipient recipients identity) (hcoll : NoCollision recipients identity)
    (hl : validateManifestLayout manifest options.chunkSize plan.dataLen = .ok layout) :
    Parses C out identity header options.suite plan.cek manifest layout ∧ Signed C out header options.suite := by
  have hbound : maxContainerHeaderLen ≤ u32Max := by decide
  have hlen32 : plan.headerBytes.length ≤ u32Max := hm.header_le.trans hbound
  obtain ⟨hmagic, hversion, hdeclared⟩ := h.preamble hlen32
  obtain ⟨hstart, hheader, -, -, htake, hdrop⟩ := h.slices hlen32
  obtain ⟨htlen, hclassic, hhybrid⟩ := h.trailer_verifies
  obtain ⟨hdcs, hcheck⟩ := h.check hm hmax
  have hchunk := h.chunkSize_le
  rw [hm.chunkSize_eq] at hchunk
  have hout := h.length_eq
  obtain ⟨vaultId, hhdr⟩ := hm.header_eq
  have hml : header.manifestLen = plan.manifestLen := by rw [hhdr]; rfl
  have hdl : header.dataLen = plan.dataLen := by rw [hhdr]; rfl
  have hds : dataStart out header = plan.front.length + plan.manifestLen := by
    rw [dataStart, hstart, hml]
  have hfront := plan.front_length
  obtain ⟨draws, hstanzas⟩ := hm.stanzas
  refine ⟨⟨?_, hmagic, hversion, ?_, ?_, ?_, hcheck, ?_, ?_, ?_, ?_, ?_, ?_⟩, ⟨?_, ?_⟩⟩
  · rw [hout, containerLen]
    omega
  · rw [hdeclared]
    exact hm.header_le
  · rw [hstart, hout, containerLen]
    omega
  · rw [hheader, hm.headerBytes_eq]
    exact C.decodeHeader_encodeHeader header
  · rw [hds, hdl, hout, containerLen, hm.suite_eq]
    omega
  · rw [hout]
    exact containerLen_le hm hchunk hmax hl
  · rw [hhdr]
    rfl
  · exact unwrapCek_eq_ok hstanzas hm.cek_length hmem hcoll
  · exact h.opens hm
  · rw [hdcs, hdl]
    exact hl
  · rw [hds, hdl, htake, hdrop]
    have hkey : header.senderSignPublic = C.signPublic plan.sender.signSecret := by
      rw [hhdr, hm.sender_eq]
      rfl
    rw [hkey]
    exact hclassic
  · rw [hds, hdl, htake, hdrop, ← hm.suite_eq, ← htlen, List.take_length]
    have hkey : header.senderMldsaPublic = plan.sender.mldsa.map (·.publicKey) := by
      rw [hhdr, hm.sender_eq]
      rfl
    rw [hkey]
    exact hhybrid

/-- The reader of the data gives the plaintext that was streamed in. -/
theorem Wrote.dataReader_eq (h : plan.Wrote data out encData trailer)
    (hm : plan.Made manifest dataPlaintextLen sender recipients options header) (hmax : plan.manifestLen ≤ maxManifestLen) :
    ∃ r, dataReader C out header options.suite plan.cek = .ok r ∧ r.Running ∧
      r.left P.openBytes = (data.bytes, .ok ()) := by
  have hbound : maxContainerHeaderLen ≤ u32Max := by decide
  obtain ⟨hstart, hheader, -, hdslice, -, -⟩ := h.slices (hm.header_le.trans hbound)
  obtain ⟨hdcs, -⟩ := h.check hm hmax
  obtain ⟨vaultId, hhdr⟩ := hm.header_eq
  have hml : header.manifestLen = plan.manifestLen := by rw [hhdr]; rfl
  have hdl : header.dataLen = plan.dataLen := by rw [hhdr]; rfl
  have hdn : header.dataStreamNonce = plan.dataStreamNonce := by rw [hhdr]; rfl
  have henc := h.encData_eq
  unfold ContainerPlan.encData at henc
  cases hf : data.fault with
  | some e =>
    rw [hf] at henc
    cases henc
  | none =>
    rw [hf] at henc
    unfold dataReader dataStart
    rw [hheader, hstart, hml, hdl, hdn, hdslice, hdcs, ← hm.suite_eq, ← hm.chunkSize_eq]
    exact newWith_encryptStreamWith henc

end ContainerPlan

end FileSec.Fsec
