import Mathlib.Data.Int.GCD
import GethComments.Lib.BigEndian
import GethComments.Lib.Schnorr

/-!
# The zero-knowledge proofs of package `crypto/zkp`

The generators and verifiers of `zkp.go`, `commit.go` and `Elgamal.go`. A
random choice of the code (a nonce) is an argument here, and so is
`sha256.Sum256`: the proofs are Fiat--Shamir transforms and most of what holds
of them holds for any function in its place.
-/

namespace GethComments.Zkp

open Schnorr (response)

structure PublicKey where
  g1 : Nat
  g2 : Nat
  p : Nat
  h : Nat
  deriving DecidableEq, Repr, Inhabited

structure FormatProof where
  c : Bytes
  z1 : Bytes
  z2 : Bytes
  deriving DecidableEq, Repr

/-- The fields `C, R_v, R_r, S_v, S_r, S_or`. -/
structure BalanceProof where
  c : Bytes
  rV : Bytes
  rR : Bytes
  sV : Bytes
  sR : Bytes
  sOr : Bytes
  deriving DecidableEq, Repr

structure LinearEquationProof where
  s : List Bytes
  t : Bytes
  deriving DecidableEq, Repr

/-- `EqualityProof` only embeds a linear equation proof. -/
abbrev EqualityProof := LinearEquationProof

structure Commitment where
  commitment : Bytes
  r : Bytes
  deriving DecidableEq, Repr

structure CypherText where
  c1 : Bytes
  c2 : Bytes
  deriving DecidableEq, Repr

/-- The fields `M, M_hash, R, S` of an issuer signature. -/
structure Signature where
  m : Bytes
  mHash : Bytes
  r : Bytes
  s : Bytes
  deriving DecidableEq, Repr

/-! ## Arithmetic of `math/big` -/

/-- `new(big.Int).Exp(x, y, m)`. -/
def exp (x y m : Nat) : Nat := x ^ y % m

/-- `z.ModInverse(g, n)`, which leaves `z` as it was when there is no inverse;
the code always calls it with `z = g`. -/
def modInverse (g : Int) (n : Nat) : Int :=
  if Int.gcd g n = 1 then Nat.gcdA (g % n).toNat n % n else g

/-- `big.NewInt(int64(v)).Bytes()` for an unsigned 64-bit `v`: the sign is lost. -/
def int64Bytes (v : Nat) : Bytes := if v < 2 ^ 63 then bytes v else bytes (2 ^ 64 - v)

/-- A digest read as a number and reduced modulo `P`. -/
def challenge (sum256 : Bytes → Bytes) (p : Nat) (transcript : Bytes) : Nat :=
  setBytes (sum256 transcript) % p

/-! ## Commitments and encryption -/

def commit (pub : PublicKey) (v : Nat) (rnd : Bytes) : Commitment :=
  let r := setBytes rnd
  ⟨bytes (exp pub.g1 (v % pub.p) pub.p * exp pub.h r pub.p % pub.p), bytes r⟩

/-- `EncryptValue` with the blinding value `k` it draws. A value over 262144 is
refused; the zero values of the other results are returned with the error. -/
def encryptValue (pub : PublicKey) (m k : Nat) : CypherText × Commitment × Option String :=
  if m > 262144 then (⟨[], []⟩, ⟨[], []⟩, some "加密价值过大")
  else
    let com := commit pub m (bytes k)
    (⟨bytes (exp pub.g2 k pub.p), com.commitment⟩, com, none)

def encryptAddress (pub : PublicKey) (addr : Bytes) (k : Nat) : CypherText × Commitment :=
  let com := commit pub (setBytes addr) (bytes k)
  (⟨bytes (exp pub.g2 k pub.p), com.commitment⟩, com)

/-- A number in a `[32]byte`; `none` where the copy would run out of range. -/
def pad32 (n : Nat) : Option Bytes :=
  let b := bytes n
  if b.length ≤ 32 then some (List.replicate (32 - b.length) 0 ++ b) else none

theorem pad32_eq {n : Nat} (h : n < 256 ^ 32) :
    pad32 n = some (List.replicate (32 - (bytes n).length) 0 ++ bytes n) := by
  simp only [pad32, if_pos (length_bytes_le_iff.mpr h)]

/-- `Encrypt` on the 28-byte slices of the plaintext, one nonce for each slice. -/
def encryptSlices (pub : PublicKey) : List Bytes → List Nat → Option CypherText
  | [], _ => some ⟨[], []⟩
  | m :: ms, ks => do
      let k := ks.headD 2
      let c1 ← pad32 (exp pub.g2 k pub.p)
      let c2 ← pad32 (exp pub.h k pub.p * setBytes m % pub.p)
      let rest ← encryptSlices pub ms ks.tail
      some ⟨c1 ++ rest.c1, c2 ++ rest.c2⟩

/-- Slices of at most 28 bytes, the last one possibly shorter. -/
def slices28 : Nat → Bytes → List Bytes
  | 0, _ => []
  | n + 1, m => m.take 28 :: slices28 n (m.drop 28)

def encrypt (pub : PublicKey) (m : Bytes) (ks : List Nat) : Option CypherText :=
  encryptSlices pub (slices28 ((m.length + 27) / 28) m) ks

section FiatShamir

variable (sum256 : Bytes → Bytes)

/-! ## Issuer signatures -/

/-- `Verify`: the digest field must be the digest of the message, then the
ElGamal equation `H^R * R^S = G2^M_hash` is checked modulo `P`. -/
def verify (pub : PublicKey) (sig : Signature) : Bool :=
  if sum256 sig.m ≠ sig.mHash then false
  else
    let m := setBytes sig.mHash % pub.p
    let r := setBytes sig.r
    let s := setBytes sig.s
    decide (exp pub.h r pub.p * exp r s pub.p % pub.p = exp pub.g2 m pub.p)

/-! ## Format proofs -/

def generateFormatProof (pub : PublicKey) (v : Nat) (r : Bytes) (a b : Nat) : FormatProof :=
  let p1 := pub.p - 1
  let t1 := exp pub.g1 a pub.p * exp pub.h b pub.p % pub.p
  let t2 := exp pub.g2 b pub.p
  let c := challenge sum256 pub.p (bytes t1 ++ bytes t2)
  ⟨bytes c, bytes (response p1 a c v), bytes (response p1 b c (setBytes r))⟩

/-- The two first messages a verifier recomputes from `c`, `z1`, `z2`. -/
def formatT1 (pub : PublicKey) (c2 c z1 z2 : Nat) : Nat :=
  exp c2 c pub.p * exp pub.g1 z1 pub.p % pub.p * exp pub.h z2 pub.p % pub.p

def formatT2 (pub : PublicKey) (c1 c z2 : Nat) : Nat := exp c1 c pub.p * exp pub.g2 z2 pub.p % pub.p

def verifyFormatProof (C : CypherText) (pub : PublicKey) (fp : FormatProof) : Bool :=
  let c := setBytes fp.c
  let z1 := setBytes fp.z1
  let z2 := setBytes fp.z2
  let t1 := formatT1 pub (setBytes C.c2) c z1 z2
  let t2 := formatT2 pub (setBytes C.c1) c z2
  decide (c = challenge sum256 pub.p (bytes t1 ++ bytes t2))

/-! ## Balance proofs -/

/-- `GenerateBalanceProof` with its five nonces. As in the code, the argument
`vO` is not used. -/
def generateBalanceProof (pub : PublicKey) (vR vS _vO : Nat) (rR rS rO : Bytes)
    (a b d e f : Nat) : BalanceProof :=
  let p1 := pub.p - 1
  let t1 := exp pub.g1 a pub.p * exp pub.h b pub.p % pub.p
  let t2 := exp pub.g1 d pub.p * exp pub.h e pub.p % pub.p
  let t3 := exp pub.g1 ((a + d) % p1) pub.p * exp pub.h f pub.p % pub.p
  let c := challenge sum256 pub.p (bytes t1 ++ bytes t2 ++ bytes t3)
  { c := bytes c
    rV := bytes (response p1 a c vR)
    rR := bytes (response p1 b c (setBytes rR))
    sV := bytes (response p1 d c vS)
    sR := bytes (response p1 e c (setBytes rS))
    sOr := bytes (response p1 f c (setBytes rO)) }

/-- One first message of the balance proof: `G1^v * H^r * CM^c` modulo `P`. -/
def balanceT (pub : PublicKey) (cm c v r : Nat) : Nat :=
  exp pub.g1 v pub.p * exp pub.h r pub.p % pub.p * exp cm c pub.p % pub.p

def verifyBalanceProof (cmR cmS cmO : Bytes) (pub : PublicKey) (bp : BalanceProof) : Bool :=
  let c := setBytes bp.c
  let rv := setBytes bp.rV
  let sv := setBytes bp.sV
  let t1 := balanceT pub (setBytes cmR) c rv (setBytes bp.rR)
  let t2 := balanceT pub (setBytes cmS) c sv (setBytes bp.sR)
  let t3 := balanceT pub (setBytes cmO) c (rv + sv) (setBytes bp.sOr)
  decide (c = challenge sum256 pub.p (bytes t1 ++ bytes t2 ++ bytes t3))

/-! ## Linear equation and equality proofs -/

/-- The loop that draws the nonces `v` with `sum a_i * v_i = 0`: the last
nonzero coefficient gets the value that closes the sum. -/
def drawNonces (p1 : Nat) : List Int → Nat → Int → List Nat → List Int
  | [], _, _, _ => []
  | ai :: a, ssnum, last, rbi =>
      if ai = 0 then (rbi.headD 0 : Nat) :: drawNonces p1 a ssnum last rbi.tail
      else if ssnum = 1 then
        last * modInverse ai p1 % p1 :: drawNonces p1 a 0 last rbi
      else
        let v : Int := (rbi.headD 0 : Nat)
        v :: drawNonces p1 a (ssnum - 1) ((last - ai * v) % p1) rbi.tail

/-- `GenerateLinearEquationProof` with the values `rbi` that `RandomBigInt` returns. -/
def generateLinearEquationProof (y : Bytes) (_b : Int) (a : List Int) (x g : List Bytes)
    (pub : PublicKey) (rbi : List Nat) : LinearEquationProof :=
  if x.length ≠ g.length ∨ g.length ≠ a.length then ⟨[], []⟩
  else
    let p1 := pub.p - 1
    let v := drawNonces p1 a (a.countP (· ≠ 0)) 0 rbi
    let t := (g.zip v).foldl
      (fun t gv => t * exp (setBytes gv.1) gv.2.toNat pub.p % pub.p) 1
    let c := challenge sum256 pub.p (g.flatten ++ y ++ bytes t)
    ⟨(v.zip x).map fun vx => bytes (Int.toNat ((vx.1 - c * setBytes vx.2) % p1)), bytes t⟩

/-- The first message recomputed from the responses: `y^c * prod g_i^s_i`. -/
def linearT (p y c : Nat) (gs : List (Bytes × Bytes)) : Nat :=
  gs.foldl (fun t gs => t * exp (setBytes gs.1) (setBytes gs.2) p % p) (exp y c p)

/-- The sum `a_i * s_i` modulo `P - 1`. -/
def linearSum (p1 : Nat) (as : List (Int × Bytes)) : Int :=
  as.foldl (fun mix as => (mix + as.1 * setBytes as.2 % p1) % p1) 0

def verifyLinearEquationProof (lp : LinearEquationProof) (y : Bytes) (b : Int) (a : List Int)
    (g : List Bytes) (pub : PublicKey) : Bool :=
  if lp.s.length ≠ g.length ∨ g.length ≠ a.length then false
  else
    let c := challenge sum256 pub.p (g.flatten ++ y ++ lp.t)
    if linearT pub.p (setBytes y) c (g.zip lp.s) ≠ setBytes lp.t then false
    else decide (linearSum (pub.p - 1) (a.zip lp.s) = -(c * (b % 2 ^ 64)))

/-- The generators an equality proof under two keys is about. -/
def equalityGenerators (pub1 pub2 : PublicKey) : List Bytes :=
  [bytes pub1.g1, bytes pub2.g1, bytes pub1.h, bytes pub2.h]

/-- The body shared by `GenerateEqualityProof` and `GenerateAddressEqualityProof`,
which differ in how the value is written as bytes. -/
def generateEqualityProofOn (pub1 pub2 : PublicKey) (C1 C2 : Commitment) (v : Bytes)
    (rbi : List Nat) : EqualityProof :=
  if pub1.p ≠ pub2.p then ⟨[], []⟩
  else
    let y := setBytes C1.commitment * setBytes C2.commitment % pub1.p
    generateLinearEquationProof sum256 (bytes y) 0 [1, -1, 0, 0] [v, v, C1.r, C2.r]
      (equalityGenerators pub1 pub2) pub1 rbi

def generateEqualityProof (pub1 pub2 : PublicKey) (C1 C2 : Commitment) (v : Nat)
    (rbi : List Nat) : EqualityProof :=
  generateEqualityProofOn sum256 pub1 pub2 C1 C2 (int64Bytes v) rbi

def generateAddressEqualityProof (pub1 pub2 : PublicKey) (C1 C2 : Commitment) (addr : Bytes)
    (rbi : List Nat) : EqualityProof :=
  generateEqualityProofOn sum256 pub1 pub2 C1 C2 (bytes (setBytes addr)) rbi

def verifyEqualityProof (pub1 pub2 : PublicKey) (C1 C2 : CypherText) (ep : EqualityProof) : Bool :=
  if pub1.p ≠ pub2.p then false
  else
    let y := setBytes C1.c2 * setBytes C2.c2 % pub1.p
    verifyLinearEquationProof sum256 ep (bytes y) 0 [1, -1, 0, 0]
      (equalityGenerators pub1 pub2) pub1

end FiatShamir

end GethComments.Zkp
