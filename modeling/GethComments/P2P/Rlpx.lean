import GethComments.Rlp.RoundTrip
import Mathlib.Logic.Relation

/-!
# RLPx frames

`p2p/rlpx.go`: messages as encrypted frames with a MAC for the header and one for the content. The
two directions of a connection have nothing in common but the keys, so a frame is written and read
by a `Half` of an endpoint. Keccak-256 and AES are parameters; the cipher stream is AES in counter
mode as the source sets it up.

* `write_read`: what is written with a half is read with the same half, and leaves the same half;
* `Conn.Step`, `carrying_run`: two endpoints that write and read in any order;
* `frames_are_faithful`: messages arrive as they were sent, and the MACs agree after each.
-/

namespace GethComments.Rlpx

open GethComments.Rlp List HashFns

/-- The block cipher of package `crypto/aes`. -/
class Aes where
  encrypt : (key block : Bytes) → Bytes
  length_encrypt (key block : Bytes) : (encrypt key block).length = 16

/-- Package `snappy`. -/
class Snappy where
  encode : Bytes → Bytes
  decodedLen : Bytes → Except String Nat
  decode : Bytes → Except String Bytes

/-- `2^24 - 1`. -/
def maxUint24 : Nat := 0xffffff

inductive FrameError where
  | plainMessageTooLarge
  | sizeOverflow
  | eof
  | unexpectedEOF
  | badHeaderMAC
  | badFrameMAC
  | rlp (e : ReadError)
  | snappy (msg : String)
  deriving DecidableEq, Repr

structure Msg where
  code : Fin (2 ^ 64)
  /-- Size of the raw payload. -/
  size : UInt32
  payload : Bytes
  deriving DecidableEq, Repr

/-! ## The cipher stream and the MAC -/

section Crypto

variable [HashFns] [Aes]

/-- `xor`. -/
def xor (one other : Bytes) : Bytes := zipWith (· ^^^ ·) one other

/-- The counter of `cipher.NewCTR` after `n` blocks, from an all-zeroes IV. -/
def counterBlock (n : Nat) : Bytes :=
  (range 16).map fun i => UInt8.ofNat (n >>> (8 * (15 - i)))

/-- A `cipher.Stream` in counter mode. -/
structure Ctr where
  key : Bytes
  /-- How much of the key stream has been used. -/
  pos : Nat
  deriving DecidableEq, Repr

namespace Ctr

def keyByte (c : Ctr) (i : Nat) : UInt8 :=
  (Aes.encrypt c.key (counterBlock ((c.pos + i) / 16))).getD ((c.pos + i) % 16) 0

def advance (c : Ctr) (n : Nat) : Ctr := { c with pos := c.pos + n }

def xorKeyStream (c : Ctr) (src : Bytes) : Bytes × Ctr :=
  (src.mapIdx fun i b => b ^^^ c.keyByte i, c.advance src.length)

end Ctr

/-- `updateMAC`. A MAC is what has been written into it; the new one comes with the result. -/
def updateMAC (mac block seed : Bytes) : Bytes × Bytes :=
  let aesbuf := xor (Aes.encrypt block ((keccak256 mac).take 16)) seed
  let mac := mac ++ aesbuf
  (mac, (keccak256 mac).take 16)

def readInt24 (b : Bytes) : Nat :=
  (b.getD 2 0).toNat ||| (b.getD 1 0).toNat <<< 8 ||| (b.getD 0 0).toNat <<< 16

def putInt24 (v : Nat) : Bytes := [UInt8.ofNat (v >>> 16), UInt8.ofNat (v >>> 8), UInt8.ofNat v]

def zeroHeader : Bytes := [0xC2, 0x80, 0x80]

/-! ## Frames -/

/-- One direction of an `rlpxFrameRW`. -/
structure Half where
  cipher : Ctr
  mac : Bytes
  macCipher : Bytes
  snappy : Bool
  deriving DecidableEq, Repr

/-- A `cipher.StreamWriter` over a connection and a MAC. -/
structure Tee where
  cipher : Ctr
  conn : Bytes
  mac : Bytes

def Tee.write (t : Tee) (b : Bytes) : Tee :=
  let (c, cipher) := t.cipher.xorKeyStream b
  ⟨cipher, t.conn ++ c, t.mac ++ c⟩

variable [Snappy]

/-- The first part of `WriteMsg`: the message as it is sent. -/
def compress (snappy : Bool) (msg : Msg) : Except FrameError Msg :=
  if snappy then
    if msg.size.toNat > maxUint24 then .error .plainMessageTooLarge
    else
      let payload := Snappy.encode msg.payload
      .ok { msg with payload := payload, size := UInt32.ofNat payload.length }
  else .ok msg

/-- The rest of `WriteMsg`, with what it writes to the connection. -/
def writeFrame (h : Half) (ptype : Bytes) (fsize : Nat) (payload : Bytes) : Half × Bytes :=
  let headbuf := putInt24 fsize ++ zeroHeader ++ replicate 10 0
  let (head, cipher) := h.cipher.xorKeyStream headbuf
  let (mac, headMAC) := updateMAC h.mac h.macCipher head
  let tee := (Tee.write ⟨cipher, head ++ headMAC, mac⟩ ptype).write payload
  let padding := fsize % 16
  let tee := if padding > 0 then tee.write (replicate (16 - padding) 0) else tee
  let fmacseed := keccak256 tee.mac
  let (mac, fmac) := updateMAC tee.mac h.macCipher fmacseed
  ({ h with cipher := tee.cipher, mac := mac }, tee.conn ++ fmac)

/-- The message code in front of the payload. -/
def ptype (msg : Msg) : Bytes := (encodeToBytes (.uint .w64) msg.code).toOption.getD []

def Half.writeMsg (h : Half) (msg : Msg) : Except FrameError (Half × Bytes) :=
  match compress h.snappy msg with
  | .error e => .error e
  | .ok msg =>
    let fsize := (UInt32.ofNat (ptype msg).length + msg.size).toNat
    if fsize > maxUint24 then .error .sizeOverflow
    else .ok (writeFrame h (ptype msg) fsize msg.payload)

/-- `io.ReadFull`, with what is left of the connection. -/
def readFull (conn : Bytes) (n : Nat) : Except FrameError (Bytes × Bytes) :=
  if conn.length < n then .error (if conn = [] then .eof else .unexpectedEOF)
  else .ok (conn.take n, conn.drop n)

/-- The last part of `ReadMsg`. -/
def decompress (msg : Msg) : Except FrameError Msg :=
  match Snappy.decodedLen msg.payload with
  | .error e => .error (.snappy e)
  | .ok size =>
    if size > maxUint24 then .error .plainMessageTooLarge
    else
      match Snappy.decode msg.payload with
      | .error e => .error (.snappy e)
      | .ok payload => .ok { msg with size := UInt32.ofNat size, payload := payload }

/-- The content of a frame. `rlp.Decode` takes the code off the reader. -/
def decodeContent (snappy : Bool) (content : Bytes) : Except FrameError Msg :=
  match decodeUint .w64 (.reset content (some content.length)) with
  | (.error e, _) => .error (.rlp e)
  | (.ok code, s) =>
    let msg : Msg := ⟨code, UInt32.ofNat s.r.length, s.r⟩
    if snappy then decompress msg else .ok msg

/-- `ReadMsg` after the header. -/
def readFrame (h : Half) (fsize : Nat) (conn : Bytes) : Except FrameError Msg × Half × Bytes :=
  let padding := fsize % 16
  let rsize := if padding > 0 then fsize + (16 - padding) else fsize
  match readFull conn rsize with
  | .error e => (.error e, h, [])
  | .ok (framebuf, conn) =>
    let h := { h with mac := h.mac ++ framebuf }
    let fmacseed := keccak256 h.mac
    match readFull conn 16 with
    | .error e => (.error e, h, [])
    | .ok (headbuf, conn) =>
      let (mac, shouldMAC) := updateMAC h.mac h.macCipher fmacseed
      let h := { h with mac := mac }
      if shouldMAC ≠ headbuf then (.error .badFrameMAC, h, conn)
      else
        let (framebuf, cipher) := h.cipher.xorKeyStream framebuf
        (decodeContent h.snappy (framebuf.take fsize), { h with cipher := cipher }, conn)

def Half.readMsg (h : Half) (conn : Bytes) : Except FrameError Msg × Half × Bytes :=
  match readFull conn 32 with
  | .error e => (.error e, h, [])
  | .ok (headbuf, conn) =>
    let (mac, shouldMAC) := updateMAC h.mac h.macCipher (headbuf.take 16)
    let h := { h with mac := mac }
    if shouldMAC ≠ headbuf.drop 16 then (.error .badHeaderMAC, h, conn)
    else
      let (head, cipher) := h.cipher.xorKeyStream (headbuf.take 16)
      readFrame { h with cipher := cipher } (readInt24 head) conn

end Crypto

/-! ## A frame is read as it was written -/

theorem readInt24_putInt24 {v : Nat} (hv : v ≤ maxUint24) (rest : Bytes) :
    readInt24 (putInt24 v ++ rest) = v := by
  have hlt : v < 2 ^ 24 := Nat.lt_succ_of_le hv
  have hbyte : ∀ n, (UInt8.ofNat n).toNat = n % 2 ^ 8 := fun n => UInt8.toNat_ofNat'
  have hlow : ∀ a b : Nat, a < 2 ^ 8 → a ||| b <<< 8 = b <<< 8 + a := fun a b ha => by
    rw [Nat.or_comm, ← Nat.shiftLeft_add_eq_or_of_lt ha]
  have hhigh : ∀ a b : Nat, a < 2 ^ 16 → a ||| b <<< 16 = b <<< 16 + a := fun a b ha => by
    rw [Nat.or_comm, ← Nat.shiftLeft_add_eq_or_of_lt ha]
  simp only [readInt24, putInt24, cons_append, getD_cons_succ, getD_cons_zero, hbyte]
  rw [hlow _ _ (Nat.mod_lt _ (by decide)), hhigh]
  · simp only [Nat.shiftLeft_eq, Nat.shiftRight_eq_div_pow]
    omega
  · simp only [Nat.shiftLeft_eq, Nat.shiftRight_eq_div_pow]
    omega

theorem readFull_append (a b : Bytes) {n : Nat} (h : a.length = n) :
    readFull (a ++ b) n = .ok (a, b) := by
  subst h
  simp [readFull]

theorem ptype_eq (msg : Msg) : ptype msg = encodeUint msg.code.val := by
  have h : encodeToBytes (.uint .w64) msg.code = .ok (encodeUint msg.code.val) :=
    encodeToBytes_eq (.uint .w64) msg.code trivial
  rw [ptype, h]
  rfl

theorem fsize_eq {a : Bytes} {m : Msg} (hsize : m.size.toNat = m.payload.length)
    (hlen : (a ++ m.payload).length ≤ maxUint24) :
    (UInt32.ofNat a.length + m.size).toNat = (a ++ m.payload).length := by
  rw [length_append] at hlen ⊢
  have hlt : a.length + m.payload.length < 2 ^ 32 := hlen.trans_lt (by decide)
  have ha : a.length < UInt32.size := (Nat.le_add_right _ _).trans_lt hlt
  rw [UInt32.toNat_add, UInt32.toNat_ofNat_of_lt' ha, hsize, Nat.mod_eq_of_lt hlt]

section Cipher

variable [Aes]

namespace Ctr

variable (c : Ctr)

@[simp] theorem length_xorKeyStream (b : Bytes) : (c.xorKeyStream b).1.length = b.length := by
  simp [xorKeyStream]

@[simp] theorem xorKeyStream_cipher (b : Bytes) : (c.xorKeyStream b).2 = c.advance b.length := rfl

theorem keyByte_advance (n i : Nat) : (c.advance n).keyByte i = c.keyByte (n + i) := by
  simp [keyByte, advance, Nat.add_assoc]

/-- What has been encrypted is decrypted from the same position. -/
theorem xorKeyStream_xorKeyStream (b : Bytes) : (c.xorKeyStream (c.xorKeyStream b).1).1 = b := by
  refine ext_getElem (by simp) fun i h1 h2 => ?_
  simp only [xorKeyStream, getElem_mapIdx]
  rw [UInt8.xor_assoc, UInt8.xor_self, UInt8.xor_zero]

theorem xorKeyStream_append (a b : Bytes) : (c.xorKeyStream (a ++ b)).1 =
      (c.xorKeyStream a).1 ++ ((c.advance a.length).xorKeyStream b).1 := by
  simp only [xorKeyStream, mapIdx_append, keyByte_advance, Nat.add_comm]

end Ctr

theorem Tee.write_write (t : Tee) (a b : Bytes) : (t.write a).write b = t.write (a ++ b) := by
  simp [Tee.write, Ctr.xorKeyStream_append, Ctr.advance, Nat.add_assoc]

end Cipher

def padding (fsize : Nat) : Bytes :=
  if fsize % 16 > 0 then replicate (16 - fsize % 16) 0 else []

theorem length_padding (fsize : Nat) :
    (if fsize % 16 > 0 then fsize + (16 - fsize % 16) else fsize) =
      fsize + (padding fsize).length := by
  unfold padding
  split <;> simp

section Frames

variable [HashFns] [Aes]

variable (hsum : ∀ b, (keccak256 b).length = 32)

include hsum in
theorem length_updateMAC (mac block seed : Bytes) : (updateMAC mac block seed).2.length = 16 := by
  simp [updateMAC, hsum]

/-- The header of a frame, encrypted. -/
def Half.head (h : Half) (fsize : Nat) : Bytes :=
  (h.cipher.xorKeyStream (putInt24 fsize ++ zeroHeader ++ replicate 10 0)).1

def Half.headMAC (h : Half) (fsize : Nat) : Bytes × Bytes :=
  updateMAC h.mac h.macCipher (h.head fsize)

/-- The content of a frame, encrypted. -/
def Half.body (h : Half) (content : Bytes) : Bytes := ((h.cipher.advance 16).xorKeyStream content).1

def Half.bodyMAC (h : Half) (fsize : Nat) (content : Bytes) : Bytes × Bytes :=
  let mac := (h.headMAC fsize).1 ++ h.body content
  updateMAC mac h.macCipher (keccak256 mac)

def Half.next (h : Half) (fsize : Nat) (content : Bytes) : Half :=
  { h with
    cipher := h.cipher.advance (16 + content.length)
    mac := (h.bodyMAC fsize content).1 }

theorem writeFrame_eq (h : Half) (ptype payload : Bytes) (fsize : Nat) :
    let content := ptype ++ payload ++ padding fsize
    writeFrame h ptype fsize payload = (h.next fsize content,
      (h.head fsize ++ (h.headMAC fsize).2) ++
        (h.body content ++ (h.bodyMAC fsize content).2)) := by
  intro content
  have htee : ∀ t : Tee, (if fsize % 16 > 0 then
      ((t.write ptype).write payload).write (replicate (16 - fsize % 16) 0)
      else (t.write ptype).write payload) = t.write content := by
    intro t
    simp only [content, padding, Tee.write_write]
    split <;> simp
  simp only [writeFrame, htee]
  simp only [Tee.write, Half.next, Half.head, Half.headMAC, Half.body, Half.bodyMAC]
  simp [Ctr.advance, Nat.add_assoc, putInt24, zeroHeader]

theorem writeFrame_ne_nil (h : Half) (ptype payload : Bytes) (fsize : Nat) :
    (writeFrame h ptype fsize payload).2 ≠ [] := by
  intro hnil
  have hlen := congrArg length hnil
  simp [writeFrame_eq, Half.head, putInt24] at hlen

variable [Snappy]

def Half.afterHead (h : Half) (fsize : Nat) : Half :=
  { h with cipher := h.cipher.advance 16, mac := (h.headMAC fsize).1 }

include hsum in
theorem readFrame_body (h : Half) (payload rest : Bytes) : let fsize := payload.length
    let content := payload ++ padding fsize
    readFrame (h.afterHead fsize) fsize (h.body content ++ ((h.bodyMAC fsize content).2 ++ rest)) =
      (decodeContent h.snappy payload, h.next fsize content, rest) := by
  intro fsize content
  have hbody : (h.body content).length = fsize + (padding fsize).length := by
    simp [Half.body, content, fsize]
  have hmac : (h.bodyMAC fsize content).2.length = 16 := length_updateMAC hsum _ _ _
  have hplain : ((h.cipher.advance 16).xorKeyStream (h.body content)).1 = content :=
    Ctr.xorKeyStream_xorKeyStream _ _
  have htake : content.take fsize = payload := by simp [content, fsize]
  have hshould : updateMAC ((h.headMAC fsize).1 ++ h.body content) h.macCipher
      (keccak256 ((h.headMAC fsize).1 ++ h.body content)) = h.bodyMAC fsize content := rfl
  have hcipher : ((h.cipher.advance 16).xorKeyStream (h.body content)).2 =
      h.cipher.advance (16 + content.length) := by
    rw [Ctr.xorKeyStream_cipher, hbody]
    simp [Ctr.advance, content, fsize, Nat.add_assoc]
  simp only [readFrame, Half.afterHead, length_padding, readFull_append _ _ hbody,
    readFull_append _ _ hmac, hshould, ne_eq, not_true_eq_false, if_false, hplain, hcipher, htake]
  rfl

include hsum in
theorem readMsg_frame (h : Half) (ptype payload rest : Bytes)
    (hlen : (ptype ++ payload).length ≤ maxUint24) :
    let written := writeFrame h ptype (ptype ++ payload).length payload
    h.readMsg (written.2 ++ rest) =
      (decodeContent h.snappy (ptype ++ payload), written.1, rest) := by
  intro written
  set fsize := (ptype ++ payload).length with hfsize
  have hhead : (h.head fsize).length = 16 := by simp [Half.head, putInt24, zeroHeader]
  have hlen32 : (h.head fsize ++ (h.headMAC fsize).2).length = 32 := by
    simp only [length_append, hhead, Half.headMAC, length_updateMAC hsum]
  have htake : (h.head fsize ++ (h.headMAC fsize).2).take 16 = h.head fsize := take_left' hhead
  have hdrop : (h.head fsize ++ (h.headMAC fsize).2).drop 16 = (h.headMAC fsize).2 :=
    drop_left' hhead
  have hplain : (h.cipher.xorKeyStream (h.head fsize)).1 =
      putInt24 fsize ++ (zeroHeader ++ replicate 10 0) := by
    rw [Half.head, Ctr.xorKeyStream_xorKeyStream, append_assoc]
  have hshould : updateMAC h.mac h.macCipher (h.head fsize) = h.headMAC fsize := rfl
  have hcipher : (h.cipher.xorKeyStream (h.head fsize)).2 = h.cipher.advance 16 := by
    rw [Ctr.xorKeyStream_cipher, hhead]
  simp only [written, writeFrame_eq]
  rw [append_assoc, Half.readMsg, readFull_append _ _ hlen32]
  simp only [htake, hdrop, hshould, ne_eq, not_true_eq_false, if_false, hplain, hcipher,
    readInt24_putInt24 hlen]
  rw [append_assoc]
  exact readFrame_body hsum h (ptype ++ payload) rest

end Frames

/-! ## Messages -/

/-- What both directions share. -/
def Half.keys (h : Half) : Bytes × Bool := (h.macCipher, h.snappy)

theorem snappy_eq {h h' : Half} (hk : h.keys = h'.keys) : h.snappy = h'.snappy :=
  congrArg Prod.snd hk

section Messages

variable [Snappy]

/-- A message whose size is that of its payload, and which fits into a frame as it is sent. -/
structure Fits (snappy : Bool) (msg : Msg) : Prop where
  size : msg.size.toNat = msg.payload.length
  plain : msg.payload.length ≤ maxUint24
  sent : ∀ m, compress snappy msg = .ok m → (ptype m ++ m.payload).length ≤ maxUint24

def Snappy.Lossless : Prop :=
  ∀ b : Bytes, Snappy.decode (Snappy.encode b) = .ok b ∧
    Snappy.decodedLen (Snappy.encode b) = .ok b.length

theorem decodeContent_frame (msg : Msg) (snappy : Bool) :
    decodeContent snappy (ptype msg ++ msg.payload) =
      let m : Msg := { msg with size := UInt32.ofNat msg.payload.length }
      if snappy then decompress m else .ok m := by
  have hat : (Stream.reset (encodeUint msg.code.val ++ msg.payload)
      (some (encodeUint msg.code.val ++ msg.payload).length)).At (encodeUint msg.code.val) :=
    at_reset (by simp)
  obtain ⟨s', hs', hpos⟩ := decodeUint_of_at (w := .w64) hat
  have hr : s'.r = msg.payload := by
    have : s'.core.r = _ := congrArg Stream.r hpos
    simpa [Stream.core, Stream.skip, Stream.reset] using this
  rw [decodeContent, ptype_eq, hs']
  simp only [hr]

/-- The message as it is sent: its size is right, and the reader turns it back. -/
theorem compress_ok {snappy : Bool} {msg : Msg} (hsn : snappy = true → Snappy.Lossless)
    (hfits : Fits snappy msg) :
    ∃ m, compress snappy msg = .ok m ∧ m.size.toNat = m.payload.length ∧
      (if snappy then decompress m else .ok m) = .ok msg := by
  cases snappy with
  | false => exact ⟨msg, rfl, hfits.size, rfl⟩
  | true =>
    obtain ⟨hdec, hlen⟩ := hsn rfl msg.payload
    have hplain : ¬ msg.size.toNat > maxUint24 := Nat.not_lt.mpr (hfits.size.trans_le hfits.plain)
    have hm : compress true msg = .ok { msg with
        payload := Snappy.encode msg.payload
        size := UInt32.ofNat (Snappy.encode msg.payload).length } := by
      rw [compress, if_pos rfl, if_neg hplain]
    refine ⟨_, hm, ?_, ?_⟩
    · have hsent := hfits.sent _ hm
      rw [length_append] at hsent
      refine UInt32.toNat_ofNat_of_lt' (lt_of_le_of_lt ?_ (by decide : maxUint24 < UInt32.size))
      exact (Nat.le_add_left _ _).trans hsent
    · simp only [if_true, decompress, hlen, if_neg (Nat.not_lt.mpr hfits.plain), hdec]
      rw [← hfits.size, UInt32.ofNat_toNat]

variable [HashFns] [Aes]

/-- **One message.** What is written with a half is read with the same half, whatever comes after
it, and both are left with the same half. -/
theorem write_read (hsum : ∀ b, (keccak256 b).length = 32) {h : Half} {msg : Msg}
    (hsn : h.snappy = true → Snappy.Lossless) (hfits : Fits h.snappy msg) :
    ∃ h' bs, h.writeMsg msg = .ok (h', bs) ∧ bs ≠ [] ∧
      ∀ rest, h.readMsg (bs ++ rest) = (.ok msg, h', rest) := by
  obtain ⟨m, hm, hsize, hback⟩ := compress_ok hsn hfits
  have hlen := hfits.sent m hm
  set written := writeFrame h (ptype m) (ptype m ++ m.payload).length m.payload with hwritten
  refine ⟨written.1, written.2, ?_, writeFrame_ne_nil _ _ _ _, fun rest => ?_⟩
  · simp only [Half.writeMsg, hm, fsize_eq hsize hlen]
    rw [if_neg (Nat.not_lt.mpr hlen)]
  · rw [hwritten, readMsg_frame hsum h _ _ rest hlen, decodeContent_frame]
    have hsz : { m with size := UInt32.ofNat m.payload.length } = m := by
      rw [← hsize, UInt32.ofNat_toNat]
    simp only [hsz, hback]

theorem writeMsg_keys {h h' : Half} {msg : Msg} {bs : Bytes} (hw : h.writeMsg msg = .ok (h', bs)) :
    h'.keys = h.keys := by
  unfold Half.writeMsg at hw
  split at hw
  · cases hw
  · dsimp only at hw
    split at hw
    · cases hw
    · cases hw
      rfl

end Messages

/-! ## Endpoints -/

/-- `secrets`. -/
structure Secrets where
  aes : Bytes
  mac : Bytes
  egressMAC : Bytes
  ingressMAC : Bytes
  deriving DecidableEq, Repr

/-- Each side's egress is the other's ingress. -/
structure Secrets.Mirrors (s s' : Secrets) : Prop where
  aes : s'.aes = s.aes
  mac : s'.mac = s.mac
  egress : s'.ingressMAC = s.egressMAC
  ingress : s'.egressMAC = s.ingressMAC

structure EncHandshake (Priv Pub : Type) where
  initiator : Bool
  initNonce : Bytes
  respNonce : Bytes
  randomPrivKey : Priv
  remoteRandomPub : Pub

section Handshake

variable [HashFns] {Priv Pub : Type} (generateShared : Priv → Pub → Except String Bytes)

/-- `secrets`, after the handshake. -/
def EncHandshake.secrets (h : EncHandshake Priv Pub) (auth authResp : Bytes) :
    Except String Secrets :=
  match generateShared h.randomPrivKey h.remoteRandomPub with
  | .error e => .error e
  | .ok ecdheSecret =>
    let sharedSecret :=
      keccak256 (ecdheSecret ++ keccak256 (h.respNonce ++ h.initNonce))
    let aesSecret := keccak256 (ecdheSecret ++ sharedSecret)
    let macSecret := keccak256 (ecdheSecret ++ aesSecret)
    let mac1 := xor macSecret h.respNonce ++ auth
    let mac2 := xor macSecret h.initNonce ++ authResp
    .ok (if h.initiator then ⟨aesSecret, macSecret, mac1, mac2⟩
      else ⟨aesSecret, macSecret, mac2, mac1⟩)

/-- The two sides of a handshake that agree on the nonces and the shared secret. -/
theorem mirrors_of_secrets {h h' : EncHandshake Priv Pub} {auth authResp : Bytes}
    (hinit : h.initiator = true) (hresp : h'.initiator = false)
    (hnonces : h'.initNonce = h.initNonce ∧ h'.respNonce = h.respNonce)
    (hshared : generateShared h'.randomPrivKey h'.remoteRandomPub =
      generateShared h.randomPrivKey h.remoteRandomPub) {s s' : Secrets}
    (hs : h.secrets generateShared auth authResp = .ok s)
    (hs' : h'.secrets generateShared auth authResp = .ok s') : s.Mirrors s' := by
  unfold EncHandshake.secrets at hs hs'
  rw [hshared] at hs'
  cases hsecret : generateShared h.randomPrivKey h.remoteRandomPub with
  | error e =>
    rw [hsecret] at hs
    cases hs
  | ok ecdheSecret =>
    simp only [hsecret, hinit, hresp, hnonces.1, hnonces.2, if_true, Bool.false_eq_true, if_false,
      Except.ok.injEq] at hs hs'
    subst hs hs'
    exact ⟨rfl, rfl, rfl, rfl⟩

end Handshake

/-- `rlpxFrameRW`, without the connection. -/
structure FrameRW where
  enc : Ctr
  dec : Ctr
  macCipher : Bytes
  egressMAC : Bytes
  ingressMAC : Bytes
  snappy : Bool
  deriving DecidableEq, Repr

/-- `aes.NewCipher`, with the key in the place of the cipher. -/
def newCipher (key : Bytes) : Except String Bytes :=
  if key.length = 16 ∨ key.length = 24 ∨ key.length = 32 then .ok key
  else .error ("crypto/aes: invalid key size " ++ toString key.length)

/-- An error is what the source panics with. -/
def newRLPXFrameRW (s : Secrets) : Except String FrameRW :=
  match newCipher s.mac with
  | .error e => .error ("invalid MAC secret: " ++ e)
  | .ok macc =>
    match newCipher s.aes with
    | .error e => .error ("invalid AES secret: " ++ e)
    | .ok encc => .ok ⟨⟨encc, 0⟩, ⟨encc, 0⟩, macc, s.egressMAC, s.ingressMAC, false⟩

variable {rw : FrameRW}

theorem newRLPXFrameRW_eq_ok {s : Secrets} (h : newRLPXFrameRW s = .ok rw) :
    rw = ⟨⟨s.aes, 0⟩, ⟨s.aes, 0⟩, s.mac, s.egressMAC, s.ingressMAC, false⟩ := by
  have hcipher : ∀ {key k : Bytes}, newCipher key = .ok k → k = key := by
    intro key k hk
    unfold newCipher at hk
    split at hk
    · cases hk
      rfl
    · cases hk
  unfold newRLPXFrameRW at h
  split at h
  · cases h
  case _ macc hmac =>
    split at h
    · cases h
    case _ encc henc =>
      cases h
      rw [hcipher hmac, hcipher henc]

namespace FrameRW

def egress (rw : FrameRW) : Half := ⟨rw.enc, rw.egressMAC, rw.macCipher, rw.snappy⟩

def ingress (rw : FrameRW) : Half := ⟨rw.dec, rw.ingressMAC, rw.macCipher, rw.snappy⟩

variable [HashFns] [Aes] [Snappy]

/-- `WriteMsg`. The checks come before anything is written, so an error changes nothing. -/
def writeMsg (rw : FrameRW) (msg : Msg) : Except FrameError (FrameRW × Bytes) :=
  match rw.egress.writeMsg msg with
  | .error e => .error e
  | .ok (h, bs) => .ok ({ rw with enc := h.cipher, egressMAC := h.mac }, bs)

/-- `ReadMsg`. -/
def readMsg (rw : FrameRW) (conn : Bytes) : Except FrameError Msg × FrameRW × Bytes :=
  let (res, h, conn) := rw.ingress.readMsg conn
  (res, { rw with dec := h.cipher, ingressMAC := h.mac }, conn)

theorem writeMsg_eq_ok {rw' : FrameRW} {msg : Msg} {bs : Bytes}
    (h : rw.writeMsg msg = .ok (rw', bs)) :
    rw.egress.writeMsg msg = .ok (rw'.egress, bs) ∧ rw'.ingress = rw.ingress := by
  unfold writeMsg at h
  split at h
  · cases h
  case _ half bs' hw =>
    cases h
    refine ⟨?_, rfl⟩
    rw [hw]
    congr 2
    cases half
    cases writeMsg_keys hw
    rfl

end FrameRW

/-! ## Connections -/

inductive Side where
  | initiator
  | recipient
  deriving DecidableEq, Repr

def Side.other : Side → Side
  | initiator => recipient
  | recipient => initiator

/-- Two endpoints, and for each what it has written and the other has not read. The messages a side
has sent, and what the other side has got for them, are kept for the statements. -/
structure Conn where
  ends : Side → FrameRW
  wire : Side → Bytes
  sent : Side → List Msg
  received : Side → List (Except FrameError Msg)

namespace Conn

variable [HashFns] [Aes] [Snappy]

def start (a b : FrameRW) : Conn where
  ends
    | .initiator => a
    | .recipient => b
  wire := fun _ => []
  sent := fun _ => []
  received := fun _ => []

/-- Either side writes a message, or reads when there is something to read. -/
inductive Step : Conn → Conn → Prop
  | write {c : Conn} {side : Side} {msg : Msg} {rw : FrameRW} {bs : Bytes} :
      Fits (c.ends side).snappy msg → (c.ends side).writeMsg msg = .ok (rw, bs) →
      Step c { c with
        ends := Function.update c.ends side rw
        wire := Function.update c.wire side (c.wire side ++ bs)
        sent := Function.update c.sent side (c.sent side ++ [msg]) }
  | read {c : Conn} {side : Side} {res : Except FrameError Msg} {rw : FrameRW} {rest : Bytes} :
      c.wire side ≠ [] → (c.ends side.other).readMsg (c.wire side) = (res, rw, rest) →
      Step c { c with
        ends := Function.update c.ends side.other rw
        wire := Function.update c.wire side rest
        received := Function.update c.received side (c.received side ++ [res]) }

end Conn

section Runs

variable [HashFns] [Aes] [Snappy]

/-- Writing messages one after the other, with all that is written. -/
def Half.writeAll (h : Half) : List Msg → Except FrameError (Half × Bytes)
  | [] => .ok (h, [])
  | msg :: msgs => do
    let (h, bs) ← h.writeMsg msg
    let (h, bs') ← h.writeAll msgs
    .ok (h, bs ++ bs')

/-- One direction of a connection that began with `h₀`: the messages that have been read are the
first ones that were sent, the reader is where the writer was after these, and the others are on
the wire. -/
structure Carries (h₀ w r : Half) (wire : Bytes) (sent : List Msg)
    (received : List (Except FrameError Msg)) : Prop where
  exists_pending : ∃ read pending before, sent = read ++ pending ∧ received = read.map .ok ∧
    h₀.writeAll read = .ok (r, before) ∧ r.writeAll pending = .ok (w, wire)
  fits : ∀ msg ∈ sent, Fits h₀.snappy msg

variable {h₀ h h' w w' r : Half} {bs bs' wire : Bytes} {msg : Msg} {msgs sent : List Msg}
  {received : List (Except FrameError Msg)}

theorem writeAll_cons (hw : h.writeMsg msg = .ok (h', bs))
    (hrest : h'.writeAll msgs = .ok (w, bs')) :
    h.writeAll (msg :: msgs) = .ok (w, bs ++ bs') := by
  simp [Half.writeAll, hw, hrest, bind, Except.bind]

theorem writeAll_cons_eq_ok (hw : h.writeAll (msg :: msgs) = .ok (w, wire)) :
    ∃ h' bs bs', h.writeMsg msg = .ok (h', bs) ∧ h'.writeAll msgs = .ok (w, bs') ∧
      wire = bs ++ bs' := by
  cases h1 : h.writeMsg msg with
  | error e => simp [Half.writeAll, h1, bind, Except.bind] at hw
  | ok x =>
    obtain ⟨h', bs⟩ := x
    cases h2 : h'.writeAll msgs with
    | error e => simp [Half.writeAll, h1, h2, bind, Except.bind] at hw
    | ok y =>
      obtain ⟨h'', bs'⟩ := y
      simp only [Half.writeAll, h1, h2, bind, Except.bind, Except.ok.injEq, Prod.mk.injEq] at hw
      obtain ⟨rfl, rfl⟩ := hw
      exact ⟨h', bs, bs', rfl, h2, rfl⟩

theorem writeAll_snoc (hw : h.writeAll msgs = .ok (w, bs)) (hmsg : w.writeMsg msg = .ok (w', bs')) :
    h.writeAll (msgs ++ [msg]) = .ok (w', bs ++ bs') := by
  induction msgs generalizing h bs with
  | nil =>
    cases hw
    have hnil : w'.writeAll [] = .ok (w', []) := rfl
    simpa using writeAll_cons hmsg hnil
  | cons m msgs ih =>
    obtain ⟨h1, b1, b2, hm, hrest, rfl⟩ := writeAll_cons_eq_ok hw
    rw [append_assoc]
    exact writeAll_cons hm (ih hrest)

theorem writeAll_keys (hw : h.writeAll msgs = .ok (w, bs)) : w.keys = h.keys := by
  induction msgs generalizing h bs with
  | nil =>
    cases hw
    rfl
  | cons m msgs ih =>
    obtain ⟨h1, b1, b2, hm, hrest, -⟩ := writeAll_cons_eq_ok hw
    exact (ih hrest).trans (writeMsg_keys hm)

theorem Carries.refl (h : Half) : Carries h h h [] [] [] :=
  ⟨⟨[], [], [], rfl, rfl, rfl, rfl⟩, by simp⟩

theorem Carries.keys (hc : Carries h₀ w r wire sent received) :
    w.keys = h₀.keys ∧ r.keys = h₀.keys := by
  obtain ⟨read, pending, before, -, -, hread, hpend⟩ := hc.exists_pending
  have hr := writeAll_keys hread
  exact ⟨(writeAll_keys hpend).trans hr, hr⟩

theorem Carries.write (hc : Carries h₀ w r wire sent received) (hfits : Fits h₀.snappy msg)
    (hw : w.writeMsg msg = .ok (w', bs)) :
    Carries h₀ w' r (wire ++ bs) (sent ++ [msg]) received := by
  obtain ⟨read, pending, before, rfl, hrecv, hread, hpend⟩ := hc.exists_pending
  refine ⟨⟨read, pending ++ [msg], before, append_assoc _ _ _, hrecv, hread,
    writeAll_snoc hpend hw⟩, ?_⟩
  exact forall_mem_append.mpr ⟨hc.fits, forall_mem_singleton.mpr hfits⟩

variable (hsum : ∀ b, (keccak256 b).length = 32)
  (hsn : h₀.snappy = true → Snappy.Lossless)

include hsum hsn

/-- What the reader does with a frame that the writer wrote when it was where the reader is. -/
theorem read_written (hr : r.keys = h₀.keys) (hfits : Fits h₀.snappy msg)
    (hmsg : r.writeMsg msg = .ok (h', bs)) :
    bs ≠ [] ∧ ∀ rest, r.readMsg (bs ++ rest) = (.ok msg, h', rest) := by
  rw [← snappy_eq hr] at hsn hfits
  obtain ⟨h'', bs', hmsg', hne, hback⟩ := write_read hsum hsn hfits
  cases hmsg.symm.trans hmsg'
  exact ⟨hne, hback⟩

theorem Carries.next (hc : Carries h₀ w r wire sent received) (hwire : wire ≠ []) :
    ∃ msg r' rest, r.readMsg wire = (.ok msg, r', rest) ∧
      Carries h₀ w r' rest sent (received ++ [.ok msg]) := by
  obtain ⟨read, pending, before, hsent, hrecv, hread, hpend⟩ := hc.exists_pending
  cases pending with
  | nil =>
    cases hpend
    exact absurd rfl hwire
  | cons msg pending =>
    obtain ⟨r', bs, rest, hmsg, hrest, rfl⟩ := writeAll_cons_eq_ok hpend
    have hfits : Fits h₀.snappy msg := hc.fits msg (by simp [hsent])
    have hback := (read_written hsum hsn (writeAll_keys hread) hfits hmsg).2
    refine ⟨msg, r', rest, hback rest, ⟨read ++ [msg], pending, before ++ bs, ?_, ?_,
      writeAll_snoc hread hmsg, hrest⟩, hc.fits⟩
    · simp [hsent]
    · simp [hrecv]

theorem Carries.done (hc : Carries h₀ w r [] sent received) : received = sent.map .ok ∧ r = w := by
  obtain ⟨read, pending, before, hsent, hrecv, hread, hpend⟩ := hc.exists_pending
  cases pending with
  | nil =>
    cases hpend
    simp [hsent, hrecv]
  | cons msg pending =>
    obtain ⟨r', bs, rest, hmsg, hrest, hnil⟩ := writeAll_cons_eq_ok hpend
    have hfits : Fits h₀.snappy msg := hc.fits msg (by simp [hsent])
    have hne := (read_written hsum hsn (writeAll_keys hread) hfits hmsg).1
    exact absurd (append_eq_nil_iff.mp hnil.symm).1 hne

end Runs

/-! ## Runs of a connection -/

theorem Side.other_other (side : Side) : side.other.other = side := by
  cases side <;> rfl

theorem Side.other_ne (side : Side) : side.other ≠ side := by
  cases side <;> decide

theorem Side.eq_or_eq_other (side s : Side) : s = side ∨ s = side.other := by
  cases side <;> cases s <;> decide

section Connections

variable [HashFns] [Aes] [Snappy]

theorem FrameRW.readMsg_eq {conn rest : Bytes} {res : Except FrameError Msg} {r : Half}
    (hr : rw.ingress.readMsg conn = (res, r, rest))
    (hkeys : r.keys = rw.ingress.keys) :
    ∃ rw', rw.readMsg conn = (res, rw', rest) ∧ rw'.ingress = r ∧ rw'.egress = rw.egress := by
  refine ⟨{ rw with dec := r.cipher, ingressMAC := r.mac }, by rw [readMsg, hr], ?_, rfl⟩
  cases r
  cases hkeys
  rfl

def Conn.Carrying (h₀ : Side → Half) (c : Conn) : Prop :=
  ∀ side, Carries (h₀ side) (c.ends side).egress (c.ends side.other).ingress (c.wire side)
    (c.sent side) (c.received side)

variable {h₀ : Side → Half} {c c' : Conn}

variable (hsum : ∀ b, (keccak256 b).length = 32)
  (hsn : ∀ side, (h₀ side).snappy = true → Snappy.Lossless)

include hsum hsn

theorem Conn.Carrying.next (hc : c.Carrying h₀) {side : Side} (hwire : c.wire side ≠ []) :
    ∃ msg rw rest, (c.ends side.other).readMsg (c.wire side) = (.ok msg, rw, rest) ∧
      rw.egress = (c.ends side.other).egress ∧
      Carries (h₀ side) (c.ends side).egress rw.ingress rest (c.sent side)
        (c.received side ++ [.ok msg]) := by
  obtain ⟨msg, r, rest, hnext, hcarry⟩ := (hc side).next hsum (hsn side) hwire
  obtain ⟨rw, hrw, hin, hout⟩ :=
    FrameRW.readMsg_eq hnext (hcarry.keys.2.trans (hc side).keys.2.symm)
  exact ⟨msg, rw, rest, hrw, hout, hin ▸ hcarry⟩

theorem carrying_step (hc : c.Carrying h₀) (hstep : Conn.Step c c') : c'.Carrying h₀ := by
  intro s
  cases hstep with
  | @write side msg rw bs hfits hw =>
    obtain ⟨hw, hin⟩ := FrameRW.writeMsg_eq_ok hw
    rcases Side.eq_or_eq_other side s with rfl | rfl
    · have hfits' : Fits (h₀ s).snappy msg := snappy_eq (hc s).keys.1 ▸ hfits
      simpa [s.other_ne] using (hc s).write hfits' hw
    · simpa [side.other_ne, side.other_other, hin] using hc side.other
  | @read side res rw rest hwire hread =>
    obtain ⟨msg, rw', rest', hnext, hout, hcarry⟩ := hc.next hsum hsn hwire
    cases hread.symm.trans hnext
    rcases Side.eq_or_eq_other side s with rfl | rfl
    · simpa [s.other_ne.symm] using hcarry
    · simpa [side.other_ne, side.other_other, hout, side.other_ne.symm] using hc side.other

theorem carrying_run (hc : c.Carrying h₀) (hrun : Relation.ReflTransGen Conn.Step c c') :
    c'.Carrying h₀ := by
  induction hrun with
  | refl => exact hc
  | tail _ hstep ih => exact carrying_step hsum hsn ih hstep

omit hsum hsn in
theorem carrying_start {s s' : Secrets} (hm : s.Mirrors s') {a b : FrameRW}
    (ha : newRLPXFrameRW s = .ok a) (hb : newRLPXFrameRW s' = .ok b) (on : Bool) :
    let c := Conn.start { a with snappy := on } { b with snappy := on }
    c.Carrying fun side => (c.ends side).egress := by
  obtain rfl := newRLPXFrameRW_eq_ok ha
  obtain rfl := newRLPXFrameRW_eq_ok hb
  intro c side
  have hmirror : (c.ends side.other).ingress = (c.ends side).egress := by
    cases side with
    | initiator =>
      simp [c, Conn.start, Side.other, FrameRW.ingress, FrameRW.egress, hm.aes, hm.mac, hm.egress]
    | recipient =>
      simp [c, Conn.start, Side.other, FrameRW.ingress, FrameRW.egress, hm.aes, hm.mac, hm.ingress]
  rw [hmirror]
  exact Carries.refl _

omit hsum hsn in
/-- **RLPx frames are a faithful channel.** Two endpoints made from mirrored secrets write and read
messages that fit into frames, in any order. At every moment and for both sides: another message
that fits can be written; what has been read of a side are the first messages it sent, and the
reader has the cipher and the MAC that the writer had after these; if something is on the wire, the
next message can be read; and if nothing is, all messages have been read and the MACs are the
same. -/
theorem frames_are_faithful (hsum : ∀ b, (HashFns.keccak256 b).length = 32) {s s' : Secrets}
    (hm : s.Mirrors s') {a b : FrameRW} (ha : newRLPXFrameRW s = .ok a)
    (hb : newRLPXFrameRW s' = .ok b) (on : Bool) (hsn : on = true → Snappy.Lossless) {c : Conn}
    (hrun : Relation.ReflTransGen Conn.Step
      (Conn.start { a with snappy := on } { b with snappy := on }) c) (side : Side) :
    (∀ msg, Fits on msg → ∃ rw bs, (c.ends side).writeMsg msg = .ok (rw, bs)) ∧
    (∃ read pending mid before, c.sent side = read ++ pending ∧ c.received side = read.map .ok ∧
      ((Conn.start { a with snappy := on } { b with snappy := on }).ends side).egress.writeAll
          read = .ok (mid, before) ∧
      (c.ends side.other).ingressMAC = mid.mac ∧ (c.ends side.other).dec = mid.cipher ∧
      mid.writeAll pending = .ok ((c.ends side).egress, c.wire side)) ∧
    (c.wire side ≠ [] → ∃ msg rw rest,
      (c.ends side.other).readMsg (c.wire side) = (.ok msg, rw, rest) ∧
      ∃ later, (c.sent side).map .ok = c.received side ++ .ok msg :: later) ∧
    (c.wire side = [] → c.received side = (c.sent side).map .ok ∧
      (c.ends side.other).ingressMAC = (c.ends side).egressMAC ∧
      (c.ends side.other).dec = (c.ends side).enc) := by
  set c₀ := Conn.start { a with snappy := on } { b with snappy := on } with hc₀
  have hsnappy : ∀ side, (c₀.ends side).egress.snappy = on := by
    intro side
    cases side <;> rfl
  have hlossless : ∀ side, (c₀.ends side).egress.snappy = true → Snappy.Lossless :=
    fun side h => hsn ((hsnappy side).symm.trans h)
  have hc := carrying_run hsum hlossless (carrying_start hm ha hb on) hrun
  have hside := hc side
  refine ⟨fun msg hfits => ?_, ?_, fun hwire => ?_, fun hwire => ?_⟩
  · have hw : (c.ends side).egress.snappy = on := (snappy_eq hside.keys.1).trans (hsnappy side)
    obtain ⟨h', bs, hwrite, -, -⟩ := write_read hsum (h := (c.ends side).egress)
      (fun h => hsn (hw.symm.trans h)) (hw.symm ▸ hfits)
    exact ⟨_, bs, by rw [FrameRW.writeMsg, hwrite]⟩
  · obtain ⟨read, pending, before, hsent, hrecv, hread, hpend⟩ := hside.exists_pending
    exact ⟨read, pending, _, before, hsent, hrecv, hread, rfl, rfl, hpend⟩
  · obtain ⟨msg, rw, rest, hread, -, hcarry⟩ := hc.next hsum hlossless hwire
    refine ⟨msg, rw, rest, hread, ?_⟩
    obtain ⟨read, pending, -, hsent, hrecv, -, -⟩ := hcarry.exists_pending
    refine ⟨pending.map .ok, ?_⟩
    rw [hsent, map_append, ← hrecv]
    simp
  · rw [hwire] at hside
    obtain ⟨hrecv, hhalf⟩ := hside.done hsum (hlossless side)
    exact ⟨hrecv, congrArg Half.mac hhalf, congrArg Half.cipher hhalf⟩

end Connections

section Sample

/-- Primitives to run frames with. -/
abbrev sampleHash : HashFns := ⟨fun b => (b ++ replicate 32 0).take 32, id⟩

abbrev sampleAes : Aes where
  encrypt key block := ((key ++ block) ++ replicate 16 0).take 16
  length_encrypt key block := by
    simp
    omega

abbrev sampleSnappy : Snappy := ⟨id, fun b => .ok b.length, .ok⟩

attribute [local instance] sampleHash sampleAes sampleSnappy

def sampleHandshake (initiator : Bool) : EncHandshake Unit Unit :=
  ⟨initiator, replicate 32 1, replicate 32 2, (), ()⟩

def sampleSecrets (initiator : Bool) : Secrets :=
  ((sampleHandshake initiator).secrets (fun _ _ => .ok (replicate 16 3)) [4] [5]).toOption.getD
    ⟨[], [], [], []⟩

def sampleEnd (initiator : Bool) : FrameRW :=
  (newRLPXFrameRW (sampleSecrets initiator)).toOption.getD
    ⟨⟨[], 0⟩, ⟨[], 0⟩, [], [], [], false⟩

def samplePing : Msg := ⟨2, 1, [0xc0]⟩

def sampleMsg : Msg := ⟨0x13, 3, [0xc2, 1, 2]⟩

theorem fits_sample (msg : Msg) (h : msg = samplePing ∨ msg = sampleMsg) : Fits true msg := by
  rcases h with rfl | rfl
  · exact ⟨rfl, by decide, fun m h => by cases h; decide⟩
  · exact ⟨rfl, by decide, fun m h => by cases h; decide⟩

def sampleStart : Conn :=
  .start { sampleEnd true with snappy := true } { sampleEnd false with snappy := true }

/-- Two messages written by the initiator of a handshake with snappy, and what the other side reads
first. -/
theorem frames_are_faithful_ping :
    ∃ c, Relation.ReflTransGen Conn.Step sampleStart c ∧
      c.sent .initiator = [samplePing, sampleMsg] ∧
      ∃ rw rest, (c.ends .recipient).readMsg (c.wire .initiator) = (.ok samplePing, rw, rest) := by
  have hsum : ∀ b : Bytes, ((b ++ replicate 32 0).take 32).length = 32 := by simp
  have hm : (sampleSecrets true).Mirrors (sampleSecrets false) :=
    @mirrors_of_secrets _ _ _ (fun _ _ => .ok (replicate 16 3)) (sampleHandshake true)
      (sampleHandshake false) [4] [5] rfl rfl ⟨rfl, rfl⟩ rfl _ _ rfl rfl
  have ha : newRLPXFrameRW (sampleSecrets true) = .ok (sampleEnd true) := rfl
  have hb : newRLPXFrameRW (sampleSecrets false) = .ok (sampleEnd false) := rfl
  have hfaithful := fun c => @frames_are_faithful _ _ _ hsum _ _ hm _ _ ha hb true
    (fun _ _ => ⟨rfl, rfl⟩) c
  obtain ⟨rw1, bs1, hw1⟩ := (hfaithful _ .refl .initiator).1 samplePing (fits_sample _ (.inl rfl))
  have hstep1 := @Conn.Step.write _ _ _ sampleStart .initiator samplePing rw1 bs1
    (fits_sample _ (.inl rfl)) hw1
  obtain ⟨rw2, bs2, hw2⟩ := (hfaithful _ (.single hstep1) .initiator).1 sampleMsg
    (fits_sample _ (.inr rfl))
  have hsnappy : rw1.snappy = true := by
    have h := congrArg (fun r => r.toOption.map fun p => p.1.snappy) hw1
    exact (Option.some.inj h).symm
  have hstep2 := Conn.Step.write (by simpa [hsnappy] using fits_sample sampleMsg (.inr rfl)) hw2
  have hrun := Relation.ReflTransGen.single hstep1 |>.tail hstep2
  refine ⟨_, hrun, by simp [sampleStart, Conn.start], ?_⟩
  obtain ⟨-, -, hnext, hdone⟩ := hfaithful _ hrun .initiator
  obtain ⟨msg, rw', rest, hread, later, hsent⟩ := hnext fun hwire => by
    simpa [sampleStart, Conn.start] using (hdone hwire).1
  have hmsg : samplePing = msg ∧ [.ok sampleMsg] = later := by
    simpa [sampleStart, Conn.start] using hsent
  exact ⟨rw', rest, hmsg.1 ▸ hread⟩

end Sample

end GethComments.Rlpx
