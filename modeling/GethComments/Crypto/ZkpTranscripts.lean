import Mathlib.Tactic.NormNum.Prime
import GethComments.Crypto.ZkpEquality

/-!
# What the challenges of the proofs depend on

Each verifier hashes one byte string, the concatenation of some numbers without their
lengths. Format and balance proofs hash their first messages only, linear equation proofs
their generators, the product `y` and `T`.

* `formatMessages_shift`, `balanceMessages_shift`: a proof for one statement turns
  into one for another statement with the same string.
* `transcripts_bind`: what the string determines, and what it does not.
-/

namespace GethComments.Zkp

open Schnorr

/-! ## The strings that are hashed -/

/-- The first messages `VerifyFormatProof` computes. -/
def formatMessages (C : CypherText) (pub : PublicKey) (fp : FormatProof) : List Nat :=
  [formatT1 pub (setBytes C.c2) (setBytes fp.c) (setBytes fp.z1) (setBytes fp.z2),
    formatT2 pub (setBytes C.c1) (setBytes fp.c) (setBytes fp.z2)]

/-- The first messages `VerifyBalanceProof` computes. -/
def balanceMessages (cmR cmS cmO : Bytes) (pub : PublicKey) (bp : BalanceProof) : List Nat :=
  [balanceT pub (setBytes cmR) (setBytes bp.c) (setBytes bp.rV) (setBytes bp.rR),
    balanceT pub (setBytes cmS) (setBytes bp.c) (setBytes bp.sV) (setBytes bp.sR),
    balanceT pub (setBytes cmO) (setBytes bp.c) (setBytes bp.rV + setBytes bp.sV)
      (setBytes bp.sOr)]

/-- The numbers one after the other, each without its length. -/
def transcript (messages : List Nat) : Bytes := (messages.map bytes).flatten

def linearTranscript (lp : LinearEquationProof) (y : Bytes) (g : List Bytes) : Bytes :=
  (g ++ [y, lp.t]).flatten

theorem verifyFormatProof_eq (sum256 : Bytes → Bytes) (C : CypherText) (pub : PublicKey)
    (fp : FormatProof) :
    verifyFormatProof sum256 C pub fp =
      decide (setBytes fp.c = challenge sum256 pub.p (transcript (formatMessages C pub fp))) := by
  simp [verifyFormatProof, transcript, formatMessages]

theorem verifyBalanceProof_eq (sum256 : Bytes → Bytes) (cmR cmS cmO : Bytes) (pub : PublicKey)
    (bp : BalanceProof) :
    verifyBalanceProof sum256 cmR cmS cmO pub bp = decide (setBytes bp.c =
      challenge sum256 pub.p (transcript (balanceMessages cmR cmS cmO pub bp))) := by
  simp [verifyBalanceProof, transcript, balanceMessages]

/-! ## What a string determines -/

theorem messages_eq_of_transcript {ms ms' : List Nat} (h : transcript ms = transcript ms')
    (hlen : (ms.map bytes).map List.length = (ms'.map bytes).map List.length) : ms = ms' :=
  bytes_injective.list_map (List.eq_iff_flatten_eq.mpr ⟨h, hlen⟩)

theorem parts_eq_of_linearTranscript {lp lp' : LinearEquationProof} {y y' : Bytes}
    {g g' : List Bytes} (h : linearTranscript lp y g = linearTranscript lp' y' g')
    (hlen : (g ++ [y, lp.t]).map List.length = (g' ++ [y', lp'.t]).map List.length) :
    g = g' ∧ y = y' ∧ lp.t = lp'.t := by
  have hparts := List.append_inj' (List.eq_iff_flatten_eq.mpr ⟨h, hlen⟩) rfl
  simpa using hparts

/-! ## What it leaves open -/

/-- The cyphertext times an encryption of `i` with blinding `j`. -/
def CypherText.shift (pub : PublicKey) (i j : Nat) (C : CypherText) : CypherText :=
  ⟨bytes (setBytes C.c1 * exp pub.g2 j pub.p % pub.p),
    bytes (setBytes C.c2 * (exp pub.g1 i pub.p * exp pub.h j pub.p) % pub.p)⟩

def FormatProof.shift (pub : PublicKey) (i j : Nat) (fp : FormatProof) : FormatProof :=
  { fp with
    z1 := bytes (response (pub.p - 1) (setBytes fp.z1) (setBytes fp.c) i)
    z2 := bytes (response (pub.p - 1) (setBytes fp.z2) (setBytes fp.c) j) }

/-- A commitment times a commitment to `i` with blinding `j`. -/
def shiftCm (pub : PublicKey) (i j : Nat) (cm : Bytes) : Bytes :=
  bytes (setBytes cm * (exp pub.g1 i pub.p * exp pub.h j pub.p) % pub.p)

def BalanceProof.shift (pub : PublicKey) (iR jR iS jS jO : Nat) (bp : BalanceProof) :
    BalanceProof :=
  { bp with
    rV := bytes (response (pub.p - 1) (setBytes bp.rV) (setBytes bp.c) iR)
    rR := bytes (response (pub.p - 1) (setBytes bp.rR) (setBytes bp.c) jR)
    sV := bytes (response (pub.p - 1) (setBytes bp.sV) (setBytes bp.c) iS)
    sR := bytes (response (pub.p - 1) (setBytes bp.sR) (setBytes bp.c) jS)
    sOr := bytes (response (pub.p - 1) (setBytes bp.sOr) (setBytes bp.c) jO) }

section Shift

variable {pub : PublicKey} (hk : pub.Valid)
include hk

/-- One message of a proof with base `cm` does not change when an opening is moved from
the responses into `cm`. -/
theorem pow_shift_mul (cm : ZMod pub.p) (c v r i j : Nat) :
    (cm * ((pub.g1 : ZMod pub.p) ^ i * (pub.h : ZMod pub.p) ^ j)) ^ c *
        ((pub.g1 : ZMod pub.p) ^ response (pub.p - 1) v c i *
          (pub.h : ZMod pub.p) ^ response (pub.p - 1) r c j) =
      cm ^ c * ((pub.g1 : ZMod pub.p) ^ v * (pub.h : ZMod pub.p) ^ r) := by
  rw [← pow_response_mul₂ hk.p1_pos (hk.pow_p1 hk.g1) (hk.pow_p1 hk.h) v r c i j]
  ring

theorem formatMessages_shift (C : CypherText) (fp : FormatProof) (i j : Nat) :
    formatMessages (C.shift pub i j) pub (fp.shift pub i j) = formatMessages C pub fp := by
  simp only [formatMessages, CypherText.shift, FormatProof.shift, setBytes_bytes, List.cons.injEq,
    and_true]
  refine ⟨natCast_eq_of_lt (formatT1_lt hk.p_pos _ _ _ _) (formatT1_lt hk.p_pos _ _ _ _) ?_,
    natCast_eq_of_lt (formatT2_lt hk.p_pos _ _ _) (formatT2_lt hk.p_pos _ _ _) ?_⟩
  · simp only [natCast_formatT1, ZMod.natCast_mod, Nat.cast_mul, natCast_exp, mul_assoc]
    simpa only [mul_assoc] using pow_shift_mul hk (setBytes C.c2) (setBytes fp.c) (setBytes fp.z1)
      (setBytes fp.z2) i j
  · simp only [natCast_formatT2, ZMod.natCast_mod, Nat.cast_mul, natCast_exp]
    rw [← pow_response_mul hk.p1_pos (hk.pow_p1 hk.g2) (setBytes fp.z2) (setBytes fp.c) j]
    ring

theorem balanceMessages_shift (cmR cmS cmO : Bytes) (bp : BalanceProof) (iR jR iS jS jO : Nat) :
    balanceMessages (shiftCm pub iR jR cmR) (shiftCm pub iS jS cmS) (shiftCm pub (iR + iS) jO cmO)
        pub (bp.shift pub iR jR iS jS jO) = balanceMessages cmR cmS cmO pub bp := by
  simp only [balanceMessages, shiftCm, BalanceProof.shift, setBytes_bytes, List.cons.injEq,
    and_true]
  refine ⟨natCast_eq_of_lt (balanceT_lt hk.p_pos _ _ _ _) (balanceT_lt hk.p_pos _ _ _ _) ?_,
    natCast_eq_of_lt (balanceT_lt hk.p_pos _ _ _ _) (balanceT_lt hk.p_pos _ _ _ _) ?_,
    natCast_eq_of_lt (balanceT_lt hk.p_pos _ _ _ _) (balanceT_lt hk.p_pos _ _ _ _) ?_⟩ <;>
    simp only [natCast_balanceT, ZMod.natCast_mod, Nat.cast_mul, natCast_exp]
  · rw [mul_comm, pow_shift_mul hk, mul_comm]
  · rw [mul_comm, pow_shift_mul hk, mul_comm]
  · rw [pow_add _ (setBytes bp.rV),
      ← pow_response_mul hk.p1_pos (hk.pow_p1 hk.g1) (setBytes bp.rV) (setBytes bp.c) iR,
      ← pow_response_mul hk.p1_pos (hk.pow_p1 hk.g1) (setBytes bp.sV) (setBytes bp.c) iS,
      ← pow_response_mul hk.p1_pos (hk.pow_p1 hk.h) (setBytes bp.sOr) (setBytes bp.c) jO]
    ring

end Shift

theorem exists_formatMessages {pub : PublicKey} (hp : 1 < pub.p) {t1 t2 : Nat} (h1 : t1 < pub.p)
    (h2 : t2 < pub.p) : ∃ C fp, formatMessages C pub fp = [t1, t2] :=
  ⟨⟨bytes t2, bytes t1⟩, ⟨bytes 1, [], []⟩, by
    simp [formatMessages, formatT1, formatT2, setBytes_bytes, exp, Nat.mod_eq_of_lt, h1, h2, hp]⟩

theorem exists_balanceMessages {pub : PublicKey} (hp : 1 < pub.p) {t1 t2 t3 : Nat}
    (h1 : t1 < pub.p) (h2 : t2 < pub.p) (h3 : t3 < pub.p) :
    ∃ cmR cmS cmO bp, balanceMessages cmR cmS cmO pub bp = [t1, t2, t3] :=
  ⟨bytes t1, bytes t2, bytes t3, ⟨bytes 1, [], [], [], [], []⟩, by
    simp [balanceMessages, balanceT, setBytes_bytes, exp, Nat.mod_eq_of_lt, h1, h2, h3, hp]⟩

/-- **What the hashed strings bind.** Calls that hash the same string, with parts of the
same lengths, have the same first messages (format and balance proofs), or the same
generators, product and `T` (linear equation proofs). The strings of format and balance
proofs bind nothing else: every statement can be multiplied by further powers of the
generators, keeping the challenge, the string and with it the verdict, and under every
other key over the same prime there is a call with the same string. -/
theorem transcripts_bind : (∀ (pub pub' : PublicKey) (C C' : CypherText) (fp fp' : FormatProof),
      transcript (formatMessages C pub fp) = transcript (formatMessages C' pub' fp') →
      ((formatMessages C pub fp).map bytes).map List.length =
        ((formatMessages C' pub' fp').map bytes).map List.length →
      formatMessages C pub fp = formatMessages C' pub' fp') ∧
    (∀ (pub pub' : PublicKey) (cmR cmS cmO cmR' cmS' cmO' : Bytes) (bp bp' : BalanceProof),
      transcript (balanceMessages cmR cmS cmO pub bp) =
        transcript (balanceMessages cmR' cmS' cmO' pub' bp') →
      ((balanceMessages cmR cmS cmO pub bp).map bytes).map List.length =
        ((balanceMessages cmR' cmS' cmO' pub' bp').map bytes).map List.length →
      balanceMessages cmR cmS cmO pub bp = balanceMessages cmR' cmS' cmO' pub' bp') ∧
    (∀ (lp lp' : LinearEquationProof) (y y' : Bytes) (g g' : List Bytes),
      linearTranscript lp y g = linearTranscript lp' y' g' →
      (g ++ [y, lp.t]).map List.length = (g' ++ [y', lp'.t]).map List.length →
      g = g' ∧ y = y' ∧ lp.t = lp'.t) ∧
    (∀ pub : PublicKey, pub.Valid → (∀ (C : CypherText) (fp : FormatProof) (i j : Nat), ∃ C' fp',
        (setBytes C'.c1 : ZMod pub.p) = setBytes C.c1 * (pub.g2 : ZMod pub.p) ^ j ∧
        (setBytes C'.c2 : ZMod pub.p) =
          setBytes C.c2 * ((pub.g1 : ZMod pub.p) ^ i * (pub.h : ZMod pub.p) ^ j) ∧
        formatMessages C' pub fp' = formatMessages C pub fp ∧
        ∀ sum256, verifyFormatProof sum256 C' pub fp' = verifyFormatProof sum256 C pub fp) ∧
      ∀ (cmR cmS cmO : Bytes) (bp : BalanceProof) (iR jR iS jS jO : Nat), ∃ cmR' cmS' cmO' bp',
        (setBytes cmR' : ZMod pub.p) =
          setBytes cmR * ((pub.g1 : ZMod pub.p) ^ iR * (pub.h : ZMod pub.p) ^ jR) ∧
        (setBytes cmS' : ZMod pub.p) =
          setBytes cmS * ((pub.g1 : ZMod pub.p) ^ iS * (pub.h : ZMod pub.p) ^ jS) ∧
        (setBytes cmO' : ZMod pub.p) =
          setBytes cmO * ((pub.g1 : ZMod pub.p) ^ (iR + iS) * (pub.h : ZMod pub.p) ^ jO) ∧
        balanceMessages cmR' cmS' cmO' pub bp' = balanceMessages cmR cmS cmO pub bp ∧
        ∀ sum256, verifyBalanceProof sum256 cmR' cmS' cmO' pub bp' =
          verifyBalanceProof sum256 cmR cmS cmO pub bp) ∧
    ∀ pub pub' : PublicKey, 1 < pub.p → pub'.p = pub.p →
      (∀ (C : CypherText) (fp : FormatProof), ∃ C' fp',
        formatMessages C' pub' fp' = formatMessages C pub fp) ∧
      ∀ (cmR cmS cmO : Bytes) (bp : BalanceProof), ∃ cmR' cmS' cmO' bp',
        balanceMessages cmR' cmS' cmO' pub' bp' = balanceMessages cmR cmS cmO pub bp := by
  refine ⟨fun _ _ _ _ _ _ => messages_eq_of_transcript,
    fun _ _ _ _ _ _ _ _ _ _ => messages_eq_of_transcript,
    fun _ _ _ _ _ _ => parts_eq_of_linearTranscript, fun pub hk => ⟨?_, ?_⟩,
    fun pub pub' hp hpp => ⟨?_, ?_⟩⟩
  · intro C fp i j
    have hmsg := formatMessages_shift hk C fp i j
    refine ⟨C.shift pub i j, fp.shift pub i j, ?_, ?_, hmsg, fun sum256 => ?_⟩
    · simp [CypherText.shift, setBytes_bytes]
    · simp [CypherText.shift, setBytes_bytes]
    · rw [verifyFormatProof_eq, verifyFormatProof_eq, hmsg]
      rfl
  · intro cmR cmS cmO bp iR jR iS jS jO
    have hmsg := balanceMessages_shift hk cmR cmS cmO bp iR jR iS jS jO
    refine ⟨shiftCm pub iR jR cmR, shiftCm pub iS jS cmS, shiftCm pub (iR + iS) jO cmO,
      bp.shift pub iR jR iS jS jO, ?_, ?_, ?_, hmsg, fun sum256 => ?_⟩
    · simp [shiftCm, setBytes_bytes]
    · simp [shiftCm, setBytes_bytes]
    · simp [shiftCm, setBytes_bytes]
    · rw [verifyBalanceProof_eq, verifyBalanceProof_eq, hmsg]
      rfl
  · intro C fp
    have hp0 : 0 < pub.p := by omega
    exact exists_formatMessages (hpp ▸ hp) (hpp ▸ formatT1_lt hp0 _ _ _ _)
      (hpp ▸ formatT2_lt hp0 _ _ _)
  · intro cmR cmS cmO bp
    have hp0 : 0 < pub.p := by omega
    exact exists_balanceMessages (hpp ▸ hp) (hpp ▸ balanceT_lt hp0 _ _ _ _)
      (hpp ▸ balanceT_lt hp0 _ _ _ _) (hpp ▸ balanceT_lt hp0 _ _ _ _)

theorem transcripts_bind_key23 :
    key23.Valid ∧ formatMessages ⟨[2], [3]⟩ key23 ⟨[4], [5], [6]⟩ = [14, 18] ∧
      (∀ C' fp', transcript (formatMessages C' key23 fp') = [14, 18] →
        ((formatMessages C' key23 fp').map bytes).map List.length = [1, 1] →
        formatMessages C' key23 fp' = [14, 18]) ∧
      ∃ C' fp', (setBytes C'.c1 : ZMod key23.p) = 2 * 7 ^ 3 ∧
        formatMessages C' key23 fp' = [14, 18] := by
  have hmsg : formatMessages ⟨[2], [3]⟩ key23 ⟨[4], [5], [6]⟩ = [14, 18] := by decide
  refine ⟨key23_valid, hmsg, fun C' fp' h hlen => ?_, ?_⟩
  · rw [← hmsg]
    refine transcripts_bind.1 key23 key23 C' ⟨[2], [3]⟩ fp' ⟨[4], [5], [6]⟩ ?_ ?_
    · rw [h, hmsg]
      decide
    · rw [hlen, hmsg]
      decide
  · obtain ⟨C', fp', hc1, -, h, -⟩ := (transcripts_bind.2.2.2.1 key23 key23_valid).1
      ⟨[2], [3]⟩ ⟨[4], [5], [6]⟩ 1 3
    exact ⟨C', fp', hc1, h.trans hmsg⟩

/-- Keys over one prime, different inputs and first messages, the same strings. -/
theorem transcripts_collide : let keyA : PublicKey := ⟨257, 1, 65537, 1⟩
    let keyB : PublicKey := ⟨1, 1, 65537, 257⟩
    Nat.Prime 65537 ∧ keyA.g1 ≠ keyB.g1 ∧ ¬setBytes [1, 1] ≡ setBytes [1] [MOD 65537] ∧
      (transcript (formatMessages ⟨[1, 1], [1]⟩ keyA ⟨[1], [], []⟩) =
          transcript (formatMessages ⟨[1], [1, 1]⟩ keyB ⟨[1], [], []⟩) ∧
        formatMessages ⟨[1, 1], [1]⟩ keyA ⟨[1], [], []⟩ ≠
          formatMessages ⟨[1], [1, 1]⟩ keyB ⟨[1], [], []⟩) ∧
      (transcript (balanceMessages [1, 1] [1] [1] keyA ⟨[1], [], [], [], [], []⟩) =
          transcript (balanceMessages [1] [1, 1] [1] keyB ⟨[1], [], [], [], [], []⟩) ∧
        balanceMessages [1, 1] [1] [1] keyA ⟨[1], [], [], [], [], []⟩ ≠
          balanceMessages [1] [1, 1] [1] keyB ⟨[1], [], [], [], [], []⟩) ∧
      linearTranscript ⟨[], [3]⟩ [2] (equalityGenerators keyA keyA) =
        linearTranscript ⟨[], [3]⟩ [2] (equalityGenerators keyB keyB) := by
  refine ⟨by norm_num, by decide, by decide, ⟨?_, ?_⟩, ⟨?_, ?_⟩, ?_⟩ <;> decide

end GethComments.Zkp
