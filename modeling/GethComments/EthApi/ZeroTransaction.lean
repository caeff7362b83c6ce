import GethComments.Core.CommitmentRules
import GethComments.Lib.Hex

/-!
# Building a transfer

`toZeroTransaction` of `internal/ethapi/api.go` with the randomness it draws, and what
`verifyzkp` says about the cyphertexts for the regulator in a transfer.

* `evSC2_eq_cmS_of_toZeroTransaction`: the sender writes one group element twice, as a
  component of the cyphertext and as the commitment.
* `verifyzkp_eq_none_iff`: the verifier checks the two in separate proofs.
* `cyphertexts_tied_by_sender`: so only the sender ties them together.
-/

namespace GethComments

open HashFns Option Zkp

/-- The arguments of a transaction request that `toZeroTransaction` reads. A pointer of
the source is an option; the two public keys are the bytes of a string. -/
structure SendTxArgs where
  recipient : Option Address
  gas : Option UInt64
  gasPrice : Option Nat
  value : Option Int
  nonce : Option UInt64
  data : Option Bytes
  input : Option Bytes
  cmO : Option Bytes
  vr : Option UInt64
  vs : Option UInt64
  voR : Option Bytes
  spk : Option Bytes
  rpk : Option Bytes
  epkrC1 : Option Bytes
  epkrC2 : Option Bytes
  epkpC1 : Option Bytes
  epkpC2 : Option Bytes
  sigM : Option Bytes
  sigMHash : Option Bytes
  sigR : Option Bytes
  sigS : Option Bytes
  cmV : Option Bytes
  deriving Inhabited

/-! ## Public keys in hexadecimal -/

/-- A string of the source as characters, one for each byte. -/
def chars (s : Bytes) : List Char := s.map fun b => Char.ofNat b.toNat

/-- `new(big.Int).SetString(s, 16)` on unsigned numbers; the empty string is refused. -/
def setString16 (s : Bytes) : Option Nat := if s = [] then none else Hex.toNat? (chars s)

/-- Four numbers of 64 digits, in the order `P, G1, G2, H`. A string that is too short
or a number that does not parse leaves no usable key. -/
def paraPK (pk : Bytes) : Option Zkp.PublicKey := do
  if pk.length < 192 then none
  let p ← setString16 (pk.take 64)
  let g1 ← setString16 ((pk.drop 64).take 64)
  let g2 ← setString16 ((pk.drop 128).take 64)
  let h ← setString16 (pk.drop 192)
  some { p, g1, g2, h }

/-! ## The transfer -/

/-- The random choices of `toZeroTransaction`, in the order it makes them. -/
structure ZeroNonces where
  erpk : Nat
  espk : Nat
  cmRpk : Nat
  cmSpk : Nat
  erpkEP : List Nat
  espkEP : List Nat
  evS : Nat
  cmsFP : Nat × Nat
  evsBs : Nat
  cmSR : List Nat
  evR : Nat
  cmrFP : Nat × Nat
  cmRR : List Nat
  evO : Nat
  evoEP : List Nat
  bp : Nat × Nat × Nat × Nat × Nat

section

variable [HashFns]

namespace SendTxArgs

/-- A public key as the address the transfer encrypts: its digest modulo `P`. -/
def addressPk (regulator : Zkp.PublicKey) (pk : Bytes) : Bytes :=
  bytes (setBytes (sum256 pk) % regulator.p)

/-- `none` where the source dereferences a nil pointer. The errors of `EncryptValue`
are ignored, as in the source. -/
def toZeroTransaction (args : SendTxArgs) (regulator : Zkp.PublicKey) (n : ZeroNonces) :
    Option Transaction := do
  let vs ← args.vs
  let vr ← args.vr
  let rpkString ← args.rpk
  let spkString ← args.spk
  let rpk ← paraPK rpkString
  let spk ← paraPK spkString
  let voR ← args.voR
  let cmO ← args.cmO
  let addrpk := addressPk regulator rpkString
  let addspk := addressPk regulator spkString
  let (erpk, cmrpk') := encryptAddress regulator addrpk n.erpk
  let (espk, cmspk') := encryptAddress regulator addspk n.espk
  let (_, cmrpk) := encryptAddress regulator addrpk n.cmRpk
  let (_, cmspk) := encryptAddress regulator addspk n.cmSpk
  let erpkEP := generateAddressEqualityProof sum256 regulator regulator cmrpk cmrpk'
    addrpk n.erpkEP
  let espkEP := generateAddressEqualityProof sum256 regulator regulator cmspk cmspk'
    addspk n.espkEP
  let (evS, cmS, _) := encryptValue regulator vs.toNat n.evS
  let cmsFP := generateFormatProof sum256 regulator vs.toNat cmS.r n.cmsFP.1 n.cmsFP.2
  let (evsBs, _, _) := encryptValue rpk vs.toNat n.evsBs
  let cmSR ← encrypt rpk cmS.r n.cmSR
  let (evR, cmR, _) := encryptValue regulator vr.toNat n.evR
  let cmrFP := generateFormatProof sum256 regulator vr.toNat cmR.r n.cmrFP.1 n.cmrFP.2
  let cmRR ← encrypt spk cmR.r n.cmRR
  let (evO, cmo, _) := encryptValue regulator (vr + vs).toNat n.evO
  let evoEP := generateEqualityProof sum256 regulator regulator cmo ⟨cmO, voR⟩
    (vr + vs).toNat n.evoEP
  let (a, b, d, e, f) := n.bp
  let bp := generateBalanceProof sum256 regulator vr.toNat vs.toNat 0 cmR.r cmS.r voR
    a b d e f
  let nonce ← args.nonce
  let gas ← args.gas
  some {
    accountNonce := nonce, price := args.gasPrice.getD 0, gasLimit := gas
    recipient := args.recipient, amount := args.value.getD 0
    payload := (args.input <|> args.data).getD [], id := 0
    erpkC1 := erpk.c1, erpkC2 := erpk.c2, espkC1 := espk.c1, espkC2 := espk.c2
    cmRpk := cmrpk.commitment, cmSpk := cmspk.commitment
    erpkEPs0 := erpkEP.s.getD 0 [], erpkEPs1 := erpkEP.s.getD 1 []
    erpkEPs2 := erpkEP.s.getD 2 [], erpkEPs3 := erpkEP.s.getD 3 [], erpkEPt := erpkEP.t
    espkEPs0 := espkEP.s.getD 0 [], espkEPs1 := espkEP.s.getD 1 []
    espkEPs2 := espkEP.s.getD 2 [], espkEPs3 := espkEP.s.getD 3 [], espkEPt := espkEP.t
    evSC1 := evS.c1, evSC2 := evS.c2, evRC1 := evR.c1, evRC2 := evR.c2
    cmS := cmS.commitment, cmR := cmR.commitment
    cmsFPC := cmsFP.c, cmsFPZ1 := cmsFP.z1, cmsFPZ2 := cmsFP.z2
    cmrFPC := cmrFP.c, cmrFPZ1 := cmrFP.z1, cmrFPZ2 := cmrFP.z2
    evsBsC1 := evsBs.c1, evsBsC2 := evsBs.c2, evOC1 := evO.c1, evOC2 := evO.c2, cmO := cmO
    evOEPs0 := evoEP.s.getD 0 [], evOEPs1 := evoEP.s.getD 1 []
    evOEPs2 := evoEP.s.getD 2 [], evOEPs3 := evoEP.s.getD 3 [], evOEPt := evoEP.t
    bpC := bp.c, bpRV := bp.rV, bpRR := bp.rR, bpSV := bp.sV, bpSR := bp.sR, bpSOr := bp.sOr
    epkrC1 := args.epkrC1.getD [], epkrC2 := args.epkrC2.getD []
    epkpC1 := args.epkpC1.getD [], epkpC2 := args.epkpC2.getD []
    sigM := args.sigM.getD [], sigMHash := args.sigMHash.getD []
    sigR := args.sigR.getD [], sigS := args.sigS.getD [], cmV := args.cmV.getD []
    cmSRC1 := cmSR.c1, cmSRC2 := cmSR.c2, cmRRC1 := cmRR.c1, cmRRC2 := cmRR.c2
    v := 0, r := 0, s := 0, pk := [] }

end SendTxArgs

omit [HashFns] in
theorem encryptValue_c2 (pub : Zkp.PublicKey) (m k : Nat) :
    (encryptValue pub m k).1.c2 = (encryptValue pub m k).2.1.commitment := by
  unfold encryptValue
  split <;> rfl

theorem evSC2_eq_cmS_of_toZeroTransaction {args : SendTxArgs} {regulator : Zkp.PublicKey}
    {n : ZeroNonces} {tx : Transaction} (h : args.toZeroTransaction regulator n = some tx) :
    tx.evSC2 = tx.cmS ∧ tx.evRC2 = tx.cmR := by
  obtain ⟨vs, -, h⟩ := bind_eq_some_iff.mp h
  obtain ⟨vr, -, h⟩ := bind_eq_some_iff.mp h
  obtain ⟨rpkString, -, h⟩ := bind_eq_some_iff.mp h
  obtain ⟨spkString, -, h⟩ := bind_eq_some_iff.mp h
  obtain ⟨rpk, -, h⟩ := bind_eq_some_iff.mp h
  obtain ⟨spk, -, h⟩ := bind_eq_some_iff.mp h
  obtain ⟨voR, -, h⟩ := bind_eq_some_iff.mp h
  obtain ⟨cmO, -, h⟩ := bind_eq_some_iff.mp h
  obtain ⟨cmSR, -, h⟩ := bind_eq_some_iff.mp h
  obtain ⟨cmRR, -, h⟩ := bind_eq_some_iff.mp h
  obtain ⟨nonce, -, h⟩ := bind_eq_some_iff.mp h
  obtain ⟨gas, -, h⟩ := bind_eq_some_iff.mp h
  cases h
  exact ⟨encryptValue_c2 regulator vs.toNat n.evS, encryptValue_c2 regulator vr.toNat n.evR⟩

/-! ## What the verifier checks -/

variable (regulator : Zkp.PublicKey)

/-- The proofs about the cyphertexts `EvS` and `EvR`. -/
def CyphertextsAccepted (tx : Transaction) : Prop :=
  verifyFormatProof sum256 tx.evs regulator tx.cmsFP = true ∧
    verifyFormatProof sum256 tx.evr regulator tx.cmrFP = true

/-- The proofs about the commitments. -/
def CommitmentsAccepted (tx : Transaction) : Prop :=
  verifyBalanceProof sum256 tx.cmR tx.cmS tx.cmO regulator tx.bp = true ∧
    verifyEqualityProof sum256 regulator regulator tx.evo ⟨[], tx.cmO⟩ tx.evoEP = true ∧
    verifyEqualityProof sum256 regulator regulator tx.erpk ⟨[], tx.cmRpk⟩ tx.erpkEP =
      true ∧
    verifyEqualityProof sum256 regulator regulator tx.espk ⟨[], tx.cmSpk⟩ tx.espkEP =
      true

theorem verifyzkp_eq_none_iff (tx : Transaction) : verifyzkp regulator tx = none ↔
      CyphertextsAccepted regulator tx ∧ CommitmentsAccepted regulator tx := by
  unfold verifyzkp CyphertextsAccepted CommitmentsAccepted
  constructor
  · intro h
    split_ifs at h
    simp_all
  · rintro ⟨⟨h1, h2⟩, h3, h4, h5, h6⟩
    simp [h1, h2, h3, h4, h5, h6]

/-- The transfer `tx` with the regulator's cyphertexts of `src`, and their proofs. -/
def Transaction.withCyphertexts (tx src : Transaction) : Transaction :=
  { tx with
    evSC1 := src.evSC1, evSC2 := src.evSC2, evRC1 := src.evRC1, evRC2 := src.evRC2
    cmsFPC := src.cmsFPC, cmsFPZ1 := src.cmsFPZ1, cmsFPZ2 := src.cmsFPZ2
    cmrFPC := src.cmrFPC, cmrFPZ1 := src.cmrFPZ1, cmrFPZ2 := src.cmrFPZ2 }

/-- **The sender ties the cyphertexts to the commitments, the verifier does not.** In
every transfer that `toZeroTransaction` builds they are the same group elements. But
given two transfers on which `verifyzkp` returns nil, it returns nil on the one with
the cyphertexts of the other. -/
theorem cyphertexts_tied_by_sender : (∀ (args : SendTxArgs) (n : ZeroNonces) (tx : Transaction),
      args.toZeroTransaction regulator n = some tx → tx.evSC2 = tx.cmS ∧ tx.evRC2 = tx.cmR) ∧
    ∀ tx src : Transaction, verifyzkp regulator tx = none → verifyzkp regulator src = none →
      verifyzkp regulator (tx.withCyphertexts src) = none := by
  refine ⟨fun args n tx => evSC2_eq_cmS_of_toZeroTransaction, fun tx src htx hsrc => ?_⟩
  rw [verifyzkp_eq_none_iff] at htx hsrc ⊢
  exact ⟨hsrc.1, htx.2⟩

end

attribute [local instance] HashFns.plain

/-- The key over the prime 23 in hexadecimal. -/
def key23String : Bytes :=
  List.replicate 62 48 ++ [49, 55] ++ List.replicate 63 48 ++ [53] ++
    List.replicate 63 48 ++ [55] ++ List.replicate 63 48 ++ [97]

def splitRequest : SendTxArgs :=
  { (default : SendTxArgs) with
    gas := some 0, nonce := some 0, vs := some 3, vr := some 4
    rpk := some key23String, spk := some key23String, voR := some [6], cmO := some [10] }

def splitNonces : ZeroNonces where
  erpk := 2
  espk := 3
  cmRpk := 4
  cmSpk := 5
  erpkEP := [6, 7, 8]
  espkEP := [9, 10, 11]
  evS := 12
  cmsFP := (13, 14)
  evsBs := 15
  cmSR := [16]
  evR := 17
  cmrFP := (18, 19)
  cmRR := [20]
  evO := 21
  evoEP := [1, 2, 3]
  bp := (4, 5, 6, 7, 8)

theorem cyphertexts_tied_by_sender_key23 :
    (∃ tx, splitRequest.toZeroTransaction Zkp.key23 splitNonces = some tx ∧
        tx.evSC2 = tx.cmS ∧ tx.evRC2 = tx.cmR) ∧
      verifyzkp Zkp.key23 (split34.withCyphertexts split16) = none := by
  have hsome : (splitRequest.toZeroTransaction Zkp.key23 splitNonces).isSome = true := by
    decide +kernel
  obtain ⟨tx, htx⟩ := Option.isSome_iff_exists.mp hsome
  exact ⟨⟨tx, htx, (cyphertexts_tied_by_sender Zkp.key23).1 _ _ tx htx⟩,
    (cyphertexts_tied_by_sender Zkp.key23).2 _ _ verifyzkp_split34 verifyzkp_split16⟩

/-- The regulator decrypts 1 and 6 where the commitments are to 3 and 4. -/
theorem verifyzkp_accepts_foreign_cyphertexts :
    verifyzkp Zkp.key23 (split34.withCyphertexts split16) = none ∧
      ¬setBytes (split34.withCyphertexts split16).evSC2 ≡
        setBytes (split34.withCyphertexts split16).cmS [MOD Zkp.key23.p] ∧
      ¬setBytes (split34.withCyphertexts split16).evRC2 ≡
        setBytes (split34.withCyphertexts split16).cmR [MOD Zkp.key23.p] := by
  decide +kernel

end GethComments
