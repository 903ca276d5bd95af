import FileSec.Fsec.Writer
import FileSec.Lib.TermBytes
import FileSec.Symbolic

/-!
# The primitives of containers, ideal and computable

`container` puts the primitives of a container over `Sym`: the codecs write terms as bytes, and signatures and agreements
are checksums of their inputs.
-/

namespace FileSec.Fsec.Sym

open SymTerm

/-! ### The codecs -/

/-- The codec of keys. -/
def bytes32Codec : Codec Bytes32 :=
  Codec.name.map (fun b => if h : b.length = 32 then ⟨b, h⟩ else ⟨List.replicate 32 0, by simp⟩) (·.1) fun b => by
    rw [dif_pos b.2]

/-- The codec of `RecipientStanza`. -/
def recipientCodec : Codec RecipientStanza :=
  (Codec.name.pair (bytes32Codec.pair (Codec.name.option.pair (Codec.name.pair Codec.name)))).map
    (fun p => ⟨p.1, p.2.1, p.2.2.1, p.2.2.2.1, p.2.2.2.2⟩)
    (fun s => (s.recipientFpr, s.ephemeralPublic, s.mlkemCiphertext, s.wrapNonce, s.wrappedCek)) fun _ => rfl

/-- The codec of `Header`. -/
def containerHeaderCodec : Codec Header :=
  (Codec.nat.pair (Codec.name.pair (bytes32Codec.pair (bytes32Codec.pair (Codec.name.option.pair (Codec.name.option.pair
    (Codec.name.pair (recipientCodec.list.pair (Codec.name.pair (Codec.nat.pair (Codec.name.pair
      (Codec.nat.pair Codec.nat)))))))))))).map
    (fun p => ⟨p.1, p.2.1, p.2.2.1, p.2.2.2.1, p.2.2.2.2.1, p.2.2.2.2.2.1, p.2.2.2.2.2.2.1, p.2.2.2.2.2.2.2.1,
      p.2.2.2.2.2.2.2.2.1, p.2.2.2.2.2.2.2.2.2.1, p.2.2.2.2.2.2.2.2.2.2.1, p.2.2.2.2.2.2.2.2.2.2.2.1,
      p.2.2.2.2.2.2.2.2.2.2.2.2⟩)
    (fun h => (h.suiteId, h.vaultId, h.senderSignPublic, h.senderKemPublic, h.senderMldsaPublic, h.senderMlkemPublic,
      h.senderFpr, h.recipients, h.manifestNonce, h.manifestLen, h.dataStreamNonce, h.dataChunkSize, h.dataLen))
    fun _ => rfl

/-- The codec of `Entry`. -/
def containerEntryCodec : Codec Entry :=
  (Codec.text.pair (kindCodec.pair (Codec.nat.pair (Codec.int.option.pair (Codec.nat.option.pair
    (Codec.name.pair Codec.nat)))))).map
    (fun p => ⟨p.1, p.2.1, p.2.2.1, p.2.2.2.1, p.2.2.2.2.1, p.2.2.2.2.2.1, p.2.2.2.2.2.2⟩)
    (fun e => (e.path, e.kind, e.size, e.mtime, e.mode, e.blake3, e.dataOffset)) fun _ => rfl

/-- The codec of `Manifest`. -/
def containerManifestCodec : Codec Manifest :=
  (Codec.text.pair (Codec.int.pair containerEntryCodec.list)).map (fun p => ⟨p.1, p.2.1, p.2.2⟩)
    (fun m => (m.vaultName, m.createdAt, m.entries)) fun _ => rfl

/-! ### The primitives -/

theorem checksum_length {n : Nat} (h : 2 ≤ n) (b : Bytes) : (checksum n b).length = n := by
  simp [checksum]
  omega

/-- The primitives of a container. -/
def container : FsecPrims FileSec.Sym where
  aad b := Term.name b
  encodeHeader := containerHeaderCodec.toBytes
  decodeHeader := containerHeaderCodec.ofBytes
  encodeManifest := containerManifestCodec.toBytes
  decodeManifest := containerManifestCodec.ofBytes
  deriveKey _ input := checksum 32 input
  signPublic secret := secret
  signRaw secret msg := checksum 64 (secret ++ msg)
  verify key msg signature := if signature = checksum 64 (key ++ msg) then .ok () else .error .badSignature
  kemPublic secret := secret
  diffieHellman a b := some (List.zipWith (· + ·) a.1 b.1)
  mldsaKey seed := checksum 1952 seed
  mldsaSignRaw seed msg := checksum 3309 (checksum 1952 seed ++ msg)
  mldsaVerifyRaw key msg signature := decide (signature = checksum 3309 (key ++ msg))
  mlkemKey seed := checksum 1184 seed
  mlkemValid _ := true
  encapsulateRaw key m := (checksum 1088 m, checksum 32 (key ++ checksum 1088 m))
  decapsulateRaw seed ciphertext := checksum 32 (checksum 1184 seed ++ ciphertext)
  decodeHeader_encodeHeader := containerHeaderCodec.ofBytes_toBytes
  decodeManifest_encodeManifest := containerManifestCodec.ofBytes_toBytes
  length_signRaw _ _ := checksum_length (by decide) _
  verify_sign _ _ := if_pos rfl
  diffieHellman_comm a b := congrArg some (List.zipWith_comm_of_comm UInt8.add_comm)
  length_mldsaKey _ := checksum_length (by decide) _
  length_mldsaSignRaw _ _ := checksum_length (by decide) _
  mldsaVerify_sign _ _ := decide_eq_true rfl
  length_mlkemKey _ := checksum_length (by decide) _
  length_encapsulateRaw _ _ := checksum_length (by decide) _
  decapsulate_encapsulate _ _ := rfl

/-! ### Containers to evaluate on -/

/-- An identity without post-quantum keys. -/
def alice : Identity container where
  name := "alice".toList
  createdAt := 0
  signSecret := ⟨List.replicate 32 1, by simp⟩
  kemSecret := ⟨List.replicate 32 2, by simp⟩
  mldsa := none
  mlkem := none

/-- Draws that do not fail. -/
def draws : Draws := fun i => some fun j => UInt8.ofNat (i + j)

theorem tagOnly : TagOnly FileSec.Sym := by
  intro alg key nonce aad ct pt h
  have hopen : (if ct.drop (ct.length - 16) = checksum 16 (key ++ nonce ++ ct.take (ct.length - 16)) then
      some (ct.take (ct.length - 16)) else none) = some pt := h
  split at hopen
  · rename_i htag
    rw [Option.some.injEq] at hopen
    have hlen := congrArg List.length htag
    rw [List.length_drop, checksum_length (by decide)] at hlen
    have htagLen : tagLen = 16 := by decide
    rw [← hopen, List.length_take]
    omega
  · cases hopen

end FileSec.Fsec.Sym
