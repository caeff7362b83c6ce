import GethComments.Rlp.Typ

/-!
# The encoder's buffer

`rlp/encode.go`: strings are collected in one buffer and the headers of lists apart from it, with
the place they belong to; a list's size is known when it ends, and the headers are put between the
strings at the very end.

* `Extends`: what a writer has added to a buffer;
* `write_extends`: the writer of a type adds the encoding of the value;
* `encodeToBytes_eq`: so `EncodeToBytes` returns the encoding.
-/

namespace GethComments.Rlp

open List UInt8

/-- Where the header of a list belongs in the string data, and the size of the list. -/
structure ListHead where
  offset : Nat
  size : Nat

structure Encbuf where
  str : Bytes
  lheads : List ListHead
  /-- The sizes of all list headers. -/
  lhsize : Nat

/-- `headsize`: how long a header is. -/
def headsize (size : Nat) : Nat := if size < 56 then 1 else 1 + (bytes size).length

namespace Encbuf

def reset : Encbuf := ⟨[], [], 0⟩

def write (w : Encbuf) (b : Bytes) : Encbuf := { w with str := w.str ++ b }

def size (w : Encbuf) : Nat := w.str.length + w.lhsize

/-- `list`: a header for what follows, and its index. Until the list ends the header keeps the
sizes of the headers before it. -/
def list (w : Encbuf) : Encbuf × Nat :=
  ({ w with lheads := w.lheads ++ [⟨w.str.length, w.lhsize⟩] }, w.lheads.length)

def listEnd (w : Encbuf) (i : Nat) : Encbuf :=
  match w.lheads[i]? with
  | none => w
  | some lh =>
    let size := w.size - lh.offset - lh.size
    { w with
      lheads := w.lheads.set i ⟨lh.offset, size⟩
      lhsize := w.lhsize + headsize size }

/-- The loop of `toBytes` from the position `strpos` of the string data. -/
def render (str : Bytes) : Nat → List ListHead → Bytes
  | strpos, [] => str.drop strpos
  | strpos, head :: heads =>
    (str.take head.offset).drop strpos ++ putHead 0xc0 0xf7 head.size ++
      render str head.offset heads

def toBytes (w : Encbuf) : Bytes := render w.str 0 w.lheads

end Encbuf

inductive EncodeError where
  | negative
  deriving DecidableEq

/-! ## Writers -/

def writeUint (i : Nat) (w : Encbuf) : Encbuf :=
  if i = 0 then w.write [0x80]
  else if i < 128 then w.write [ofNat i]
  else w.write (ofNat (0x80 + (bytes i).length) :: bytes i)

def writeBool (v : Bool) (w : Encbuf) : Encbuf := w.write (cond v [0x01] [0x80])

def writeBytes (v : Bytes) (w : Encbuf) : Encbuf := w.write (encodeString v)

/-- `writeBigIntPtr`. -/
def writeBigInt (v : Option Int) (w : Encbuf) : Except EncodeError Encbuf :=
  match v with
  | none => .ok (w.write [0x80])
  | some i =>
    if i < 0 then .error .negative
    else if i = 0 then .ok (w.write [0x80])
    else .ok (w.write (encodeString (bytes i.toNat)))

def writeNil (kind : NilKind) (w : Encbuf) : Encbuf :=
  match kind with
  | .string => w.write [0x80]
  | .list => w.list.1.listEnd w.list.2

mutual

/-- `makeWriter`. -/
def Typ.write : (t : Typ) → t.Val → Encbuf → Except EncodeError Encbuf
  | .uint _, v, w => .ok (writeUint v.val w)
  | .bool, v, w => .ok (writeBool v w)
  | .string, v, w => .ok (writeBytes v w)
  | .bytes _, v, w => .ok (writeBytes v w)
  | .bigInt, v, w => writeBigInt v w
  | .byteArray _ _, v, w => .ok (writeBytes v.val w)
  | .slice t, vs, w => do
    let (w, lh) := w.list
    let w ← foldlM (fun w v => t.write v w) w vs
    return w.listEnd lh
  | .array _ t, vs, w => do
    let (w, lh) := w.list
    let w ← vs.val.foldlM (fun w v => t.write v w) w
    return w.listEnd lh
  | .struct _ fs, v, w => do
    let (w, lh) := w.list
    let w ← fs.write v w
    return w.listEnd lh
  | .ptr t, v, w =>
    match v with
    | none => .ok (writeNil t.defaultNilKind w)
    | some v => t.write v w

def Fields.write : (fs : Fields) → fs.Val → Encbuf → Except EncodeError Encbuf
  | .nil, _, w => .ok w
  | .cons _ t fs, v, w => do
    let w ← t.write v.1 w
    fs.write v.2 w
  | .nilPtr _ k t fs, v, w => do
    let w ←
      match v.1 with
      | none => .ok (writeNil k w)
      | some v => t.write v w
    fs.write v.2 w
  | .tail _ t, vs, w => foldlM (fun w v => t.write v w) w vs

end

def encodeToBytes (t : Typ) (v : t.Val) : Except EncodeError Bytes :=
  (t.write v .reset).map Encbuf.toBytes

/-! ## What a writer adds -/

theorem length_putHead (small large size : Nat) :
    (putHead small large size).length = headsize size := by
  unfold putHead headsize
  split
  · rfl
  · rw [length_cons, Nat.add_comm]

/-- Strings and headers, the strings from position `base` on, give the bytes `enc`, whatever comes
before and after. -/
def Renders (base : Nat) (s : Bytes) (hs : List ListHead) (enc : Bytes) : Prop :=
  ∀ pre post hs', pre.length = base → (∀ h ∈ hs', base + s.length ≤ h.offset) →
    Encbuf.render (pre ++ s ++ post) base (hs ++ hs') =
      enc ++ Encbuf.render (pre ++ s ++ post) (base + s.length) hs'

theorem renders_string (base : Nat) (s : Bytes) : Renders base s [] s := by
  rintro pre post hs' rfl hoff
  cases hs' with
  | nil => simp [Encbuf.render, append_assoc]
  | cons h hs' =>
    obtain ⟨k, hk⟩ := Nat.exists_eq_add_of_le (hoff h mem_cons_self)
    have htake : (pre ++ s ++ post).take h.offset = pre ++ s ++ post.take k := by
      rw [hk, ← length_append, take_length_add_append]
    have hskip : (pre ++ s ++ post.take k).drop (pre.length + s.length) = post.take k := by
      rw [← length_append, drop_left]
    simp only [nil_append, Encbuf.render, htake, hskip]
    rw [append_assoc pre, drop_left]
    simp [append_assoc]

theorem Renders.append {base : Nat} {s s2 : Bytes} {hs hs2 : List ListHead} {enc enc2 : Bytes}
    (h : Renders base s hs enc) (h2 : Renders (base + s.length) s2 hs2 enc2)
    (hoff : ∀ h ∈ hs2, base + s.length ≤ h.offset) :
    Renders base (s ++ s2) (hs ++ hs2) (enc ++ enc2) := by
  intro pre post hs' hpre hoff'
  rw [length_append, ← Nat.add_assoc] at hoff'
  have hfirst := h pre (s2 ++ post) (hs2 ++ hs') hpre (by
    intro x hx
    rcases mem_append.mp hx with hx | hx
    · exact hoff x hx
    · have := hoff' x hx
      omega)
  have hsecond := h2 (pre ++ s) post hs' (by simp [hpre]) hoff'
  simp only [append_assoc, length_append, Nat.add_assoc] at hfirst hsecond ⊢
  rw [hfirst, hsecond]

theorem Renders.list {base : Nat} {s : Bytes} {hs : List ListHead} {enc : Bytes}
    (h : Renders base s hs enc) (size : Nat) :
    Renders base s (⟨base, size⟩ :: hs) (putHead 0xc0 0xf7 size ++ enc) := by
  intro pre post hs' hpre hoff
  have hnone : ((pre ++ s ++ post).take base).drop base = [] :=
    drop_eq_nil_of_le (length_take_le _ _)
  rw [cons_append, Encbuf.render, hnone, h pre post hs' hpre hoff]
  simp [append_assoc]

/-- `w'` is `w` with strings and headers for the bytes `enc` added. -/
structure Extends (w w' : Encbuf) (enc : Bytes) : Prop where
  out : ∃ s hs, w'.str = w.str ++ s ∧ w'.lheads = w.lheads ++ hs ∧
    w'.lhsize = w.lhsize + (hs.map fun h => headsize h.size).sum ∧
    enc.length = s.length + (hs.map fun h => headsize h.size).sum ∧
    (∀ h ∈ hs, w.str.length ≤ h.offset) ∧ Renders w.str.length s hs enc

namespace Extends

variable {w w' w'' : Encbuf} {enc enc' : Bytes}

theorem refl (w : Encbuf) : Extends w w [] :=
  ⟨[], [], by simp, by simp, by simp, by simp, by simp, renders_string _ _⟩

theorem write (w : Encbuf) (b : Bytes) : Extends w (w.write b) b :=
  ⟨b, [], rfl, by simp [Encbuf.write], by simp [Encbuf.write], by simp, by simp, renders_string _ _⟩

theorem trans (h : Extends w w' enc) (h' : Extends w' w'' enc') : Extends w w'' (enc ++ enc') := by
  obtain ⟨s, hs, hstr, hheads, hsize, hlen, hoff, hr⟩ := h.out
  obtain ⟨s', hs', hstr', hheads', hsize', hlen', hoff', hr'⟩ := h'.out
  rw [hstr, length_append] at hoff' hr'
  refine ⟨s ++ s', hs ++ hs', ?_, ?_, ?_, ?_, ?_, hr.append hr' hoff'⟩
  · rw [hstr', hstr, append_assoc]
  · rw [hheads', hheads, append_assoc]
  · rw [hsize', hsize, map_append, sum_append, Nat.add_assoc]
  · rw [length_append, hlen, hlen', length_append, map_append, sum_append]
    omega
  · intro h hh
    rcases mem_append.mp hh with hh | hh
    · exact hoff h hh
    · have := hoff' h hh
      omega

theorem listEnd (h : Extends w.list.1 w' enc) :
    Extends w (w'.listEnd w.list.2) (putHead 0xc0 0xf7 enc.length ++ enc) := by
  obtain ⟨s, hs, hstr, hheads, hsize, hlen, hoff, hr⟩ := h.out
  have hget : w'.lheads[w.lheads.length]? = some ⟨w.str.length, w.lhsize⟩ := by
    rw [hheads]
    simp [Encbuf.list]
  have hstr : w'.str = w.str ++ s := hstr
  have hsize : w'.lhsize = w.lhsize + (hs.map fun h => headsize h.size).sum := hsize
  have htotal : w'.size - w.str.length - w.lhsize = enc.length := by
    rw [Encbuf.size, hstr, length_append, hsize, hlen]
    omega
  have hset : w'.lheads.set w.lheads.length ⟨w.str.length, enc.length⟩ =
      w.lheads ++ ⟨w.str.length, enc.length⟩ :: hs := by
    rw [hheads]
    simp [Encbuf.list]
  unfold Encbuf.listEnd
  rw [show w.list.2 = w.lheads.length from rfl, hget]
  dsimp only
  rw [htotal, hset]
  refine ⟨s, ⟨w.str.length, enc.length⟩ :: hs, hstr, rfl, ?_, ?_, ?_, hr.list enc.length⟩
  · simp only [hsize, map_cons, sum_cons]
    omega
  · simp only [length_append, length_putHead, map_cons, sum_cons]
    omega
  · intro h hh
    rcases mem_cons.mp hh with rfl | hh
    · exact le_rfl
    · exact hoff h hh

theorem toBytes (h : Extends .reset w enc) : w.toBytes = enc := by
  obtain ⟨s, hs, hstr, hheads, -, -, -, hr⟩ := h.out
  have hall := hr [] [] [] rfl (by simp)
  rw [Encbuf.toBytes, hstr, hheads]
  simpa [Encbuf.reset, Encbuf.render] using hall

end Extends

/-! ## Each writer adds an encoding -/

section

variable {w : Encbuf}

theorem encodeUint_zero : encodeUint 0 = [0x80] := by
  rw [encodeUint, bytes_zero]
  rfl

variable {i : Nat}

theorem bytes_of_lt (h0 : i ≠ 0) (hi : i < 256) : bytes i = [ofNat i] := by
  rw [bytes, Nat.digits_of_lt 256 i h0 hi]
  rfl

theorem encodeUint_of_ge (hi : 128 ≤ i) (hlt : (bytes i).length < 56) :
    encodeUint i = ofNat (0x80 + (bytes i).length) :: bytes i := by
  have hhead : ∀ b : Bytes, b.length < 56 → (∀ x, b = [x] → 0x7f < x) →
      encodeString b = ofNat (0x80 + b.length) :: b := by
    intro b hb hx
    unfold encodeString
    split
    case _ x => rw [if_neg (by simpa using hx x rfl)]; rfl
    case _ => rw [putHead, if_pos hb]; rfl
  refine hhead _ hlt fun x hx => ?_
  have hread := setBytes_bytes i
  rw [hx] at hread
  have hval : x.toNat = i := by simpa [setBytes] using hread
  rw [lt_iff_toNat_lt, hval]
  exact hi

theorem writeUint_extends (hi : i < 2 ^ 64) : Extends w (writeUint i w) (encodeUint i) := by
  unfold writeUint
  split
  case isTrue h0 =>
    rw [h0, encodeUint_zero]
    exact Extends.write w _
  case isFalse h0 =>
    split
    case isTrue hlt =>
      have henc : encodeUint i = [ofNat i] := by
        have hle : ofNat i ≤ 0x7f := by
          rw [le_iff_toNat_le, toNat_ofNat', Nat.mod_eq_of_lt (by omega)]
          exact Nat.le_of_lt_succ hlt
        rw [encodeUint, bytes_of_lt h0 (by omega), encodeString, if_pos hle]
      rw [henc]
      exact Extends.write w _
    case isFalse hge =>
      have hlen : (bytes i).length ≤ 8 := length_bytes_le_iff.mpr (by simpa using hi)
      rw [encodeUint_of_ge (by omega) (by omega)]
      exact Extends.write w _

theorem writeBool_extends (v : Bool) : Extends w (writeBool v w) (encodeUint (cond v 1 0)) := by
  have henc : encodeUint (cond v 1 0) = cond v [0x01] [0x80] := by
    cases v with
    | false => exact encodeUint_zero
    | true =>
      rw [encodeUint, cond_true, bytes_of_lt one_ne_zero (by omega)]
      rfl
  rw [henc]
  exact Extends.write w _

theorem writeBigInt_extends {v : Option Int} (hv : ∀ n, v = some n → 0 ≤ n) :
    ∃ w', writeBigInt v w = .ok w' ∧ Extends w w' (encodeUint (v.getD 0).toNat) := by
  have hzero : Extends w (w.write [0x80]) (encodeUint 0) := by
    rw [encodeUint_zero]
    exact Extends.write w _
  cases v with
  | none => exact ⟨_, rfl, hzero⟩
  | some i =>
    have hi : ¬ i < 0 := not_lt.mpr (hv i rfl)
    unfold writeBigInt
    simp only [if_neg hi, Option.getD_some]
    split
    case isTrue h0 =>
      rw [h0]
      exact ⟨_, rfl, hzero⟩
    case isFalse => exact ⟨_, rfl, Extends.write w _⟩

theorem writeNil_extends (k : NilKind) : Extends w (writeNil k w) k.encode := by
  cases k with
  | string => exact Extends.write w _
  | list => exact (Extends.refl _).listEnd

theorem foldlM_extends {α : Type} {write : α → Encbuf → Except EncodeError Encbuf} {enc : α → Bytes}
    {vs : List α} (h : ∀ v ∈ vs, ∀ w, ∃ w', write v w = .ok w' ∧ Extends w w' (enc v)) :
    ∀ w, ∃ w', foldlM (fun w v => write v w) w vs = .ok w' ∧
      Extends w w' (vs.map enc).flatten := by
  induction vs with
  | nil => exact fun w => ⟨w, rfl, Extends.refl w⟩
  | cons v vs ih =>
    intro w
    obtain ⟨w1, hw1, hext1⟩ := h v mem_cons_self w
    obtain ⟨w2, hw2, hext2⟩ := ih (fun u hu => h u (mem_cons_of_mem _ hu)) w1
    refine ⟨w2, ?_, by simpa using hext1.trans hext2⟩
    rw [foldlM_cons, hw1]
    exact hw2

end

theorem Width.bound (w : Width) : 2 ^ w.bits ≤ 2 ^ 64 := by
  cases w <;> decide

mutual

theorem Typ.write_extends : (t : Typ) → (v : t.Val) → t.NonNeg v → (w : Encbuf) →
    ∃ w', t.write v w = .ok w' ∧ Extends w w' (t.encode v)
  | .uint wd, v, _, w => ⟨_, rfl, writeUint_extends (Nat.lt_of_lt_of_le v.isLt wd.bound)⟩
  | .bool, v, _, w => ⟨_, rfl, writeBool_extends _⟩
  | .string, v, _, w => ⟨_, rfl, Extends.write w _⟩
  | .bytes _, v, _, w => ⟨_, rfl, Extends.write w _⟩
  | .bigInt, v, hv, w => writeBigInt_extends hv
  | .byteArray _ _, v, _, w => ⟨_, rfl, Extends.write w _⟩
  | .slice t, vs, hv, w => by
    obtain ⟨w', hw', hext⟩ :=
      foldlM_extends (fun v hmem w => Typ.write_extends t v (hv v hmem) w) w.list.1
    refine ⟨w'.listEnd w.list.2, ?_, hext.listEnd⟩
    simp only [Typ.write, hw']
    rfl
  | .array _ t, vs, hv, w => by
    obtain ⟨w', hw', hext⟩ :=
      foldlM_extends (fun v hmem w => Typ.write_extends t v (hv v hmem) w) w.list.1
    refine ⟨w'.listEnd w.list.2, ?_, hext.listEnd⟩
    simp only [Typ.write, hw']
    rfl
  | .struct _ fs, v, hv, w => by
    obtain ⟨w', hw', hext⟩ := Fields.write_extends fs v hv w.list.1
    refine ⟨w'.listEnd w.list.2, ?_, hext.listEnd⟩
    simp only [Typ.write, hw']
    rfl
  | .ptr t, none, _, w => ⟨_, rfl, writeNil_extends _⟩
  | .ptr t, some v, hv, w => Typ.write_extends t v (hv v rfl) w

theorem Fields.write_extends : (fs : Fields) → (v : fs.Val) → fs.NonNeg v → (w : Encbuf) →
    ∃ w', fs.write v w = .ok w' ∧ Extends w w' (fs.encode v).flatten
  | .nil, _, _, w => ⟨w, rfl, Extends.refl w⟩
  | .cons _ t fs, v, hv, w => by
    obtain ⟨w1, hw1, hext1⟩ := Typ.write_extends t v.1 hv.1 w
    obtain ⟨w2, hw2, hext2⟩ := Fields.write_extends fs v.2 hv.2 w1
    refine ⟨w2, ?_, hext1.trans hext2⟩
    simp only [Fields.write, hw1]
    exact hw2
  | .nilPtr _ k t fs, (none, vs), hv, w => by
    obtain ⟨w2, hw2, hext2⟩ := Fields.write_extends fs vs hv.2 (writeNil k w)
    exact ⟨w2, hw2, (writeNil_extends k).trans hext2⟩
  | .nilPtr _ k t fs, (some v, vs), hv, w => by
    obtain ⟨w1, hw1, hext1⟩ := Typ.write_extends t v (hv.1 v rfl) w
    obtain ⟨w2, hw2, hext2⟩ := Fields.write_extends fs vs hv.2 w1
    refine ⟨w2, ?_, hext1.trans hext2⟩
    simp only [Fields.write, hw1]
    exact hw2
  | .tail _ t, vs, hv, w =>
    foldlM_extends (fun v hmem w => Typ.write_extends t v (hv v hmem) w) w

end

theorem encodeToBytes_eq (t : Typ) (v : t.Val) (hv : t.NonNeg v) :
    encodeToBytes t v = .ok (t.encode v) := by
  obtain ⟨w', hw', hext⟩ := t.write_extends v hv .reset
  rw [encodeToBytes, hw', Except.map, hext.toBytes]

end GethComments.Rlp
