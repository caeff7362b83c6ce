import GethComments.Rlp.Encbuf

/-!
# The decoder's stream

`rlp/decode.go`: a stream over a reader, with the kind of the next value once its header has been
read, and the position in each list that is open. Sizes and positions are unsigned 64-bit numbers
in the source; a position never exceeds its size, so no subtraction wraps.

* `skip`, `core`: the stream some bytes further, and a stream without what it remembers of headers;
* `readFull_of_room`, `readFull_eq_ok`: bytes are read exactly where there is room for them;
* `nextKind_putHead`, `nextKind_byte`, `nextKind_eq_ok`: headers are read, and only canonical ones.
-/

namespace GethComments.Rlp

open List

/-! ## Errors -/

inductive ReadError where
  | eof
  | unexpectedEOF
  | eol
  | expectedString
  | expectedList
  | canonInt
  | canonSize
  | elemTooLarge
  | valueTooLarge
  | moreThanOneValue
  | notInList
  | notAtEOL
  | uintOverflow
  | invalidBool (n : Nat)
  /-- A `decodeError`: the message, the type, and the places it was passed through. -/
  | typed (msg typ : String) (ctx : List String)
  deriving DecidableEq, Repr

namespace ReadError

/-- `wrapStreamError`. -/
def wrap (typ : String) : ReadError → ReadError
  | canonInt => typed "non-canonical integer (leading zero bytes)" typ []
  | canonSize => typed "non-canonical size information" typ []
  | expectedList => typed "expected input list" typ []
  | expectedString => typed "expected input string or byte" typ []
  | uintOverflow => typed "input string too long" typ []
  | notAtEOL => typed "input list has too many elements" typ []
  | e => e

/-- `addErrorContext`. -/
def addContext (place : String) : ReadError → ReadError
  | typed msg typ ctx => typed msg typ (ctx ++ [place])
  | e => e

/-- `Stream.Decode`: an error with a place also gets the type that is decoded into. -/
def inTarget (typ : String) : ReadError → ReadError
  | typed msg typ' ctx => typed msg typ' (if ctx = [] then [] else ctx ++ ["(" ++ typ ++ ")"])
  | e => e

end ReadError

/-! ## The stream -/

structure ListPos where
  pos : Nat
  size : Nat
  deriving DecidableEq, Repr

structure Stream where
  /-- What the reader still has. -/
  r : Bytes
  remaining : Nat
  limited : Bool
  /-- The kind of the value ahead, once its header has been read. -/
  kind : Option ValueKind
  size : Nat
  byteval : UInt8
  kinderr : Option ReadError
  /-- The innermost list first. -/
  stack : List ListPos
  deriving DecidableEq, Repr

namespace Stream

/-- `Reset`, with the limit of the input where there is one. -/
def reset (r : Bytes) (limit : Option Nat) : Stream :=
  ⟨r, limit.getD 0, limit.isSome, none, 0, 0, none, []⟩

/-- The part of `willRead` about the input limit. -/
def willReadLimited (s : Stream) (n : Nat) : Except ReadError Unit × Stream :=
  if s.limited then
    if n > s.remaining then (.error .valueTooLarge, s)
    else (.ok (), { s with remaining := s.remaining - n })
  else (.ok (), s)

def willRead (s : Stream) (n : Nat) : Except ReadError Unit × Stream :=
  let s := { s with kind := none }
  match s.stack with
  | [] => s.willReadLimited n
  | tos :: rest =>
    if n > tos.size - tos.pos then (.error .elemTooLarge, s)
    else { s with stack := ⟨tos.pos + n, tos.size⟩ :: rest }.willReadLimited n

def readFull (s : Stream) (n : Nat) : Except ReadError Bytes × Stream :=
  match s.willRead n with
  | (.error e, s) => (.error e, s)
  | (.ok (), s) =>
    if s.r.length < n then (.error .unexpectedEOF, { s with r := [] })
    else (.ok (s.r.take n), { s with r := s.r.drop n })

def readByte (s : Stream) : Except ReadError UInt8 × Stream :=
  match s.willRead 1 with
  | (.error e, s) => (.error e, s)
  | (.ok (), s) =>
    match s.r with
    | [] => (.error .unexpectedEOF, s)
    | b :: rest => (.ok b, { s with r := rest })

def readUint (s : Stream) (size : Nat) : Except ReadError Nat × Stream :=
  match size with
  | 0 => (.ok 0, { s with kind := none })
  | 1 =>
    match s.readByte with
    | (.error e, s) => (.error e, s)
    | (.ok b, s) => (.ok b.toNat, s)
  | size =>
    match s.readFull size with
    | (.error e, s) => (.error e, s)
    | (.ok b, s) => if b.head? = some 0 then (.error .canonSize, s) else (.ok (setBytes b), s)

/-- What `readKind` returns besides the stream: also with an error the kind and the size. -/
structure Header where
  kind : ValueKind
  size : Nat
  err : Option ReadError

/-- A size of `n` bytes, which must not fit into the tag. -/
def readSize (kind : ValueKind) (s : Stream) (n : Nat) : Header × Stream :=
  match s.readUint n with
  | (.error e, s) => (⟨kind, 0, some e⟩, s)
  | (.ok size, s) => (⟨kind, size, if size < 56 then some .canonSize else none⟩, s)

def readKind (s : Stream) : Header × Stream :=
  match s.readByte with
  | (.error e, s) =>
    -- At top level the end of the input is not an error of the value.
    let atEnd : Bool := s.stack.isEmpty && (e = .unexpectedEOF || e = .valueTooLarge)
    (⟨.byte, 0, some (if atEnd then .eof else e)⟩, s)
  | (.ok b, s) =>
    let s := { s with byteval := 0 }
    if b.toNat < 0x80 then (⟨.byte, 0, none⟩, { s with byteval := b })
    else if b.toNat < 0xb8 then (⟨.string, b.toNat - 0x80, none⟩, s)
    else if b.toNat < 0xc0 then readSize .string s (b.toNat - 0xb7)
    else if b.toNat < 0xf8 then (⟨.list, b.toNat - 0xc0, none⟩, s)
    else readSize .list s (b.toNat - 0xf7)

/-- The check of a value's size: at top level against the input, in a list against the list. -/
def checkSize (s : Stream) (size : Nat) : Option ReadError :=
  match s.stack with
  | [] => if s.limited ∧ size > s.remaining then some .valueTooLarge else none
  | tos :: _ => if size > tos.size - tos.pos then some .elemTooLarge else none

def AtEnd (s : Stream) : Prop := ∃ tos ∈ s.stack.head?, tos.pos = tos.size

instance (s : Stream) : Decidable s.AtEnd :=
  decidable_of_iff (s.stack.head?.any fun tos => tos.pos = tos.size) (by
    unfold AtEnd
    cases s.stack.head? <;> simp)

/-- The part of `Kind` that reads a header. -/
def readHeader (s : Stream) : Except ReadError (ValueKind × Nat) × Stream :=
  let (h, s) := readKind { s with kinderr := none }
  match h.err.or (s.checkSize h.size) with
  | some e => (.error e, { s with kind := some h.kind, size := h.size, kinderr := some e })
  | none => (.ok (h.kind, h.size), { s with kind := some h.kind, size := h.size, kinderr := none })

/-- `Kind`. An error of an earlier header is returned again. -/
def nextKind (s : Stream) : Except ReadError (ValueKind × Nat) × Stream :=
  match s.kind with
  | some kind =>
    match s.kinderr with
    | some e => (.error e, s)
    | none => (.ok (kind, s.size), s)
  | none =>
    if s.AtEnd then (.error .eol, { s with kinderr := none }) else s.readHeader

/-- `Bytes`. -/
def getBytes (s : Stream) : Except ReadError Bytes × Stream :=
  match s.nextKind with
  | (.error e, s) => (.error e, s)
  | (.ok (.byte, _), s) => (.ok [s.byteval], { s with kind := none })
  | (.ok (.string, size), s) =>
    match s.readFull size with
    | (.error e, s) => (.error e, s)
    | (.ok b, s) =>
      if size = 1 ∧ (b.headD 0).toNat < 128 then (.error .canonSize, s) else (.ok b, s)
  | (.ok (.list, _), s) => (.error .expectedString, s)

/-- `uint`. -/
def getUint (s : Stream) (maxbits : Nat) : Except ReadError Nat × Stream :=
  match s.nextKind with
  | (.error e, s) => (.error e, s)
  | (.ok (.byte, _), s) =>
    -- A zero byte leaves the kind as it is.
    if s.byteval = 0 then (.error .canonInt, s) else (.ok s.byteval.toNat, { s with kind := none })
  | (.ok (.string, size), s) =>
    if size > maxbits / 8 then (.error .uintOverflow, s)
    else
      match s.readUint size with
      | (.error .canonSize, s) => (.error .canonInt, s)
      | (.error e, s) => (.error e, s)
      | (.ok v, s) => if size > 0 ∧ v < 128 then (.error .canonSize, s) else (.ok v, s)
  | (.ok (.list, _), s) => (.error .expectedString, s)

/-- `Bool`. -/
def getBool (s : Stream) : Except ReadError Bool × Stream :=
  match s.getUint 8 with
  | (.error e, s) => (.error e, s)
  | (.ok 0, s) => (.ok false, s)
  | (.ok 1, s) => (.ok true, s)
  | (.ok n, s) => (.error (.invalidBool n), s)

def list (s : Stream) : Except ReadError Nat × Stream :=
  match s.nextKind with
  | (.error e, s) => (.error e, s)
  | (.ok (.list, size), s) =>
    (.ok size, { s with stack := ⟨0, size⟩ :: s.stack, kind := none, size := 0 })
  | (.ok _, s) => (.error .expectedList, s)

/-- `n` bytes of the innermost list have been read. -/
def advance (n : Nat) : List ListPos → List ListPos
  | [] => []
  | tos :: rest => ⟨tos.pos + n, tos.size⟩ :: rest

def listEnd (s : Stream) : Except ReadError Unit × Stream :=
  match s.stack with
  | [] => (.error .notInList, s)
  | tos :: rest =>
    if tos.pos ≠ tos.size then (.error .notAtEOL, s)
    else (.ok (), { s with stack := advance tos.size rest, kind := none, size := 0 })

/-! ## Positions -/

def skip (s : Stream) (n : Nat) : Stream :=
  { s with
    r := s.r.drop n
    remaining := if s.limited then s.remaining - n else s.remaining
    stack := advance n s.stack
    kind := none }

/-- Into a list. -/
def push (s : Stream) (size : Nat) : Stream :=
  { s with stack := ⟨0, size⟩ :: s.stack, kind := none }

/-- Without what only matters as long as a kind is there. -/
def core (s : Stream) : Stream := { s with size := 0, byteval := 0, kinderr := none }

/-- There are `n` bytes to read: of the reader, within the limit, in the innermost list. -/
structure Room (s : Stream) (n : Nat) : Prop where
  input : n ≤ s.r.length
  limit : s.limited → n ≤ s.remaining
  list : ∀ tos ∈ s.stack.head?, n ≤ tos.size - tos.pos

variable {s s' s'' : Stream} {n m size : Nat}

@[simp] theorem advance_advance (n m : Nat) (st : List ListPos) :
    advance m (advance n st) = advance (n + m) st := by
  cases st <;> simp [advance, Nat.add_assoc]

@[simp] theorem skip_skip (s : Stream) (n m : Nat) : (s.skip n).skip m = s.skip (n + m) := by
  unfold skip
  simp only [drop_drop, advance_advance]
  congr 1
  split <;> omega

theorem skip_zero (s : Stream) : s.skip 0 = { s with kind := none } := by
  have hadv : advance 0 s.stack = s.stack := by
    cases s.stack <;> rfl
  simp [skip, hadv]

@[simp] theorem core_skip (s : Stream) (n : Nat) : (s.skip n).core = s.core.skip n := rfl

theorem core_skip_zero (h : s.kind = none) : s.core.skip 0 = s.core := by
  rw [skip_zero]
  cases s
  cases h
  rfl

theorem kind_of_core (h : s'.core = s.core) : s'.kind = s.kind :=
  show s'.core.kind = s.core.kind by rw [h]

theorem kind_of_skip (h : s'.core = s.core.skip n) : s'.kind = none :=
  show s'.core.kind = none by rw [h]; rfl

theorem skip_trans (h : s'.core = s.core.skip n) (h' : s''.core = s'.core.skip m) :
    s''.core = s.core.skip (n + m) := by
  rw [h', h, skip_skip]

theorem room_zero (s : Stream) : s.Room 0 :=
  ⟨Nat.zero_le _, fun _ => Nat.zero_le _, fun _ _ => Nat.zero_le _⟩

theorem Room.mono (h : s.Room n) (hle : m ≤ n) : s.Room m :=
  ⟨le_trans hle h.input, fun hl => le_trans hle (h.limit hl),
    fun tos ht => le_trans hle (h.list tos ht)⟩

theorem Room.skip (h : s.Room (n + m)) : (s.skip n).Room m := by
  refine ⟨?_, fun hl => ?_, fun tos ht => ?_⟩
  · have := h.input
    simp only [Stream.skip, length_drop]
    omega
  · have hl : s.limited = true := hl
    have := h.limit hl
    simp only [Stream.skip, hl, if_true]
    omega
  · cases hst : s.stack with
    | nil => simp [Stream.skip, hst, advance] at ht
    | cons top rest =>
      have := h.list top (by simp [hst])
      simp only [Stream.skip, hst, advance, head?_cons, Option.mem_def,
        Option.some.injEq] at ht
      subst ht
      dsimp only
      omega

theorem Room.add (h : s.Room n) (h' : (s.skip n).Room m) : s.Room (n + m) := by
  refine ⟨?_, fun hl => ?_, fun tos ht => ?_⟩
  · have h1 := h.input
    have h2 := h'.input
    simp only [Stream.skip, length_drop] at h2
    omega
  · have h1 := h.limit hl
    have h2 := h'.limit hl
    simp only [Stream.skip, hl, if_true] at h2
    omega
  · have h1 := h.list tos ht
    cases hst : s.stack with
    | nil => simp [hst] at ht
    | cons top rest =>
      obtain rfl : top = tos := by simpa [hst] using ht
      have h2 := h'.list ⟨top.pos + n, top.size⟩ (by simp [Stream.skip, hst, advance])
      dsimp only at h2
      omega

theorem Room.congr (h : s.Room n) (hc : s'.core = s.core) : s'.Room n := by
  have hr : s'.r = s.r := show s'.core.r = s.core.r by rw [hc]
  have hrem : s'.remaining = s.remaining := show s'.core.remaining = s.core.remaining by rw [hc]
  have hlim : s'.limited = s.limited := show s'.core.limited = s.core.limited by rw [hc]
  have hst : s'.stack = s.stack := show s'.core.stack = s.core.stack by rw [hc]
  exact ⟨hr ▸ h.input, by rw [hlim, hrem]; exact h.limit, by rw [hst]; exact h.list⟩

/-! ## Reading bytes -/

theorem willReadLimited_of_le (h : s.limited → n ≤ s.remaining) : s.willReadLimited n =
      (.ok (), { s with remaining := if s.limited then s.remaining - n else s.remaining }) := by
  unfold willReadLimited
  split
  case isTrue hl => rw [if_neg (Nat.not_lt.mpr (h hl))]
  case isFalse => rfl

theorem willRead_of_room (h : s.Room n) : s.willRead n = (.ok (), { s.skip n with r := s.r }) := by
  unfold willRead skip
  cases hst : s.stack with
  | nil => exact willReadLimited_of_le h.limit
  | cons tos rest =>
    dsimp only
    rw [if_neg (Nat.not_lt.mpr (h.list tos (by simp [hst])))]
    exact willReadLimited_of_le h.limit

theorem readFull_of_room (h : s.Room n) : s.readFull n = (.ok (s.r.take n), s.skip n) := by
  rw [readFull, willRead_of_room h]
  simp [Nat.not_lt.mpr h.input, skip]

variable {b : UInt8} {rest : Bytes} {s₁ : Stream} {hd : Header}

theorem readByte_of_room (h : s.Room 1) (hr : s.r = b :: rest) :
    s.readByte = (.ok b, s.skip 1) := by
  rw [readByte, willRead_of_room h]
  simp [hr, skip]

theorem willReadLimited_eq_ok (h : s.willReadLimited n = (.ok (), s')) :
    (s.limited → n ≤ s.remaining) ∧
      s' = { s with remaining := if s.limited then s.remaining - n else s.remaining } := by
  unfold willReadLimited at h
  split at h
  case isTrue hl =>
    split at h
    · cases h
    case isFalse hle =>
      cases h
      exact ⟨fun _ => Nat.not_lt.mp hle, by rw [if_pos hl]⟩
  case isFalse hl =>
    cases h
    exact ⟨fun h => absurd h hl, by rw [if_neg hl]⟩

theorem willRead_eq_ok (h : s.willRead n = (.ok (), s')) :
    (s.limited → n ≤ s.remaining) ∧ (∀ tos ∈ s.stack.head?, n ≤ tos.size - tos.pos) ∧
      s' = { s.skip n with r := s.r } := by
  unfold willRead at h
  cases hst : s.stack with
  | nil =>
    simp only [hst] at h
    obtain ⟨hle, rfl⟩ := willReadLimited_eq_ok h
    exact ⟨hle, by simp, by simp [skip, hst, advance]⟩
  | cons tos rest =>
    simp only [hst] at h
    split at h
    · cases h
    case isFalse hroom =>
      obtain ⟨hle, rfl⟩ := willReadLimited_eq_ok h
      exact ⟨hle, by simpa using hroom, by simp [skip, hst, advance]⟩

theorem readFull_eq_ok {b : Bytes} (h : s.readFull n = (.ok b, s')) :
    s.Room n ∧ b = s.r.take n ∧ s' = s.skip n := by
  unfold readFull at h
  split at h
  · cases h
  case _ s₁ hwill =>
    obtain ⟨hlimit, hlist, rfl⟩ := willRead_eq_ok hwill
    split at h
    · cases h
    case isFalse hlen =>
      cases h
      exact ⟨⟨Nat.not_lt.mp hlen, hlimit, hlist⟩, rfl, rfl⟩

theorem readByte_eq_ok (h : s.readByte = (.ok b, s')) :
    s.Room 1 ∧ (∃ rest, s.r = b :: rest) ∧ s' = s.skip 1 := by
  unfold readByte at h
  split at h
  · cases h
  case _ s₁ hwill =>
    obtain ⟨hlimit, hlist, rfl⟩ := willRead_eq_ok hwill
    split at h
    · cases h
    case _ b' rest hr =>
      cases h
      have hr : s.r = b :: rest := hr
      refine ⟨⟨by simp [hr], hlimit, hlist⟩, ⟨rest, hr⟩, ?_⟩
      simp [skip, hr]

/-! ## Numbers -/

theorem readUint_of_room {b : Bytes} (h : s.Room b.length) (hr : s.r = b ++ rest)
    (hb : b.head? ≠ some 0 ∨ b.length = 1) :
    s.readUint b.length = (.ok (setBytes b), s.skip b.length) := by
  match b, h, hr, hb with
  | [], _, _, _ => rw [length_nil, skip_zero]; rfl
  | [x], h, hr, _ =>
    simp only [length_singleton, readUint]
    rw [readByte_of_room h hr]
    simp [setBytes]
  | x :: y :: b, h, hr, hb =>
    have htake : s.r.take (x :: y :: b).length = x :: y :: b := by rw [hr, take_left]
    simp only [length_cons, readUint] at h htake ⊢
    rw [readFull_of_room h, htake]
    have hne : (x :: y :: b).head? ≠ some 0 := by
      rcases hb with hb | hb
      · exact hb
      · simp at hb
    simp only [if_neg hne]

theorem readUint_eq_ok (h : s.readUint n = (.ok m, s')) :
    s.Room n ∧ m = setBytes (s.r.take n) ∧ (1 < n → (s.r.take n).head? ≠ some 0) ∧
      s' = s.skip n := by
  unfold readUint at h
  split at h
  · cases h
    exact ⟨room_zero s, by simp, by omega, (skip_zero s).symm⟩
  · split at h
    · cases h
    case _ b s₁ hbyte =>
      cases h
      obtain ⟨hroom, ⟨rest, hr⟩, rfl⟩ := readByte_eq_ok hbyte
      exact ⟨hroom, by simp [hr, setBytes], by omega, rfl⟩
  · split at h
    · cases h
    case _ b s₁ hfull =>
      obtain ⟨hroom, rfl, rfl⟩ := readFull_eq_ok hfull
      split at h
      · cases h
      case isFalse hne =>
        cases h
        exact ⟨hroom, rfl, fun _ => hne, rfl⟩

/-! ## Headers -/

def smallTag : ValueKind → Nat
  | .list => 0xc0
  | _ => 0x80

def largeTag : ValueKind → Nat
  | .list => 0xf7
  | _ => 0xb7

theorem headsize_pos (n : Nat) : 0 < headsize n := by
  unfold headsize
  split <;> omega

/-- The stream after a header of `h` bytes, with the value's kind and size. -/
structure Ahead (s : Stream) (h : Nat) (k : ValueKind) (size : Nat) (s' : Stream) : Prop where
  kind : s'.kind = some k
  size : s'.size = size
  kinderr : s'.kinderr = none
  pos : (s'.skip 0).core = s.core.skip h

variable {h : Nat} {k : ValueKind}

section

variable (ha : Ahead s h k size s')
include ha

theorem Ahead.skip (n : Nat) : (s'.skip n).core = s.core.skip (h + n) := by
  have hpos := congrArg (Stream.skip · n) ha.pos
  simpa using hpos

theorem Ahead.done : ({ s' with kind := none } : Stream).core = s.core.skip h := by
  rw [← skip_zero]
  exact ha.pos

theorem Ahead.input : s'.r = s.r.drop h := by
  have hpos := congrArg Stream.r ha.pos
  simpa [Stream.skip, core] using hpos

theorem Ahead.room : s'.Room n ↔ (s.skip h).Room n := by
  have hcore : (s'.skip 0).core = (s.skip h).core := ha.pos
  have hzero : ∀ {s : Stream}, (s.skip 0).Room n ↔ s.Room n := by
    intro s
    rw [skip_zero]
    exact ⟨fun h => ⟨h.input, h.limit, h.list⟩, fun h => ⟨h.input, h.limit, h.list⟩⟩
  rw [← hzero]
  exact ⟨fun h => h.congr hcore.symm, fun h => h.congr hcore⟩

end

theorem not_atEnd_of_room (hr : s.Room n) (hn : 0 < n) : ¬ s.AtEnd := by
  rintro ⟨tos, ht, heq⟩
  have := hr.list tos ht
  omega

theorem checkSize_of_room (hr : s.Room n) : s.checkSize n = none := by
  unfold checkSize
  split
  · exact if_neg fun hl => by have := hr.limit hl.1; omega
  case _ tos rest hst =>
    exact if_neg (Nat.not_lt.mpr (hr.list tos (by simp [hst])))

theorem nextKind_of_readKind {byteval : UInt8} (hk : s.kind = none) (hend : ¬ s.AtEnd)
    (hread : readKind { s with kinderr := none } = (⟨k, size, none⟩, s₁))
    (hpos : s₁.core = s.core.skip h) (hbyte : s₁.byteval = byteval)
    (hc : s₁.checkSize size = none) :
    ∃ s', s.nextKind = (.ok (k, size), s') ∧ Ahead s h k size s' ∧ s'.byteval = byteval := by
  refine ⟨{ s₁ with kind := some k, size := size, kinderr := none }, ?_, ⟨rfl, rfl, rfl, ?_⟩, hbyte⟩
  · rw [nextKind, hk]
    simp only [if_neg hend, readHeader, hread, Option.none_or, hc]
  · rw [skip_zero, ← hpos]
    have hnone : s₁.kind = none := kind_of_skip hpos
    cases s₁
    simp only at hnone
    subst hnone
    rfl

theorem room_of_kinderr (hr : s.Room n) : ({ s with kinderr := none } : Stream).Room n :=
  ⟨hr.input, hr.limit, hr.list⟩

theorem nextKind_byte {x : UInt8} (hk : s.kind = none) (hroom : s.Room 1) (hr : s.r = x :: rest)
    (hx : x.toNat < 0x80) :
    ∃ s', s.nextKind = (.ok (.byte, 0), s') ∧ Ahead s 1 .byte 0 s' ∧ s'.byteval = x := by
  have hread : readKind { s with kinderr := none } =
      (⟨.byte, 0, none⟩, { ({ s with kinderr := none } : Stream).skip 1 with byteval := x }) := by
    rw [readKind, readByte_of_room (room_of_kinderr hroom) hr]
    simp [hx]
  exact nextKind_of_readKind hk (not_atEnd_of_room hroom one_pos) hread rfl rfl
    (checkSize_of_room (room_zero _))

theorem readSize_of_room (h56 : 56 ≤ n) (hroom : s.Room (bytes n).length)
    (hr : s.r = bytes n ++ rest) :
    readSize k s (bytes n).length = (⟨k, n, none⟩, s.skip (bytes n).length) := by
  rw [readSize, readUint_of_room hroom hr (Or.inl (head_bytes_ne_zero n))]
  simp [setBytes_bytes, Nat.not_lt.mpr h56]

theorem readKind_putHead (hkind : k ≠ .byte) (hn : n < 2 ^ 64) (hroom : s.Room (headsize n))
    (hr : s.r = putHead (smallTag k) (largeTag k) n ++ rest) :
    s.readKind = (⟨k, n, none⟩, { s.skip (headsize n) with byteval := 0 }) := by
  unfold putHead at hr
  unfold headsize at hroom ⊢
  split at hr
  case isTrue h56 =>
    rw [if_pos h56] at hroom ⊢
    rw [readKind, readByte_of_room hroom hr]
    have htag : smallTag k + n < 256 := by cases k <;> simp [smallTag] at * <;> omega
    simp only [toNat_ofNat_tag htag]
    cases k with
    | byte => exact absurd rfl hkind
    | string => simp [smallTag, show ¬ 128 + n < 128 by omega, show 128 + n < 184 by omega]
    | list =>
      simp [smallTag, show ¬ 192 + n < 128 by omega, show ¬ 192 + n < 184 by omega,
        show 192 + n < 248 by omega]
  case isFalse h56 =>
    obtain ⟨hpos, hle⟩ := length_bytes_size hn (by omega)
    rw [if_neg h56] at hroom ⊢
    rw [readKind, readByte_of_room (hroom.mono (by omega)) hr]
    have htag : largeTag k + (bytes n).length < 256 := by
      cases k <;> simp [largeTag] at * <;> omega
    have hrest : readSize k { s.skip 1 with byteval := 0 } (bytes n).length =
        (⟨k, n, none⟩, { s.skip (1 + (bytes n).length) with byteval := 0 }) := by
      have hroom' : ({ s.skip 1 with byteval := 0 } : Stream).Room (bytes n).length :=
        Room.congr hroom.skip rfl
      have hr' : ({ s.skip 1 with byteval := 0 } : Stream).r = bytes n ++ rest := by simp [skip, hr]
      rw [readSize_of_room (Nat.not_lt.mp h56) hroom' hr', ← skip_skip s]
      rfl
    simp only [toNat_ofNat_tag htag]
    cases k with
    | byte => exact absurd rfl hkind
    | string =>
      simpa [largeTag, show ¬ 183 + (bytes n).length < 128 by omega,
        show ¬ 183 + (bytes n).length < 184 by omega, show 183 + (bytes n).length < 192 by omega]
        using hrest
    | list =>
      simpa [largeTag, show ¬ 247 + (bytes n).length < 128 by omega,
        show ¬ 247 + (bytes n).length < 184 by omega, show ¬ 247 + (bytes n).length < 192 by omega,
        show ¬ 247 + (bytes n).length < 248 by omega] using hrest

theorem nextKind_putHead (hk : s.kind = none) (hkind : k ≠ .byte) (hn : n < 2 ^ 64)
    (hroom : s.Room (headsize n + n)) (hr : s.r = putHead (smallTag k) (largeTag k) n ++ rest) :
    ∃ s', s.nextKind = (.ok (k, n), s') ∧ Ahead s (headsize n) k n s' := by
  have hpos := headsize_pos n
  have hread := readKind_putHead hkind hn (room_of_kinderr (hroom.mono (by omega))) hr
  obtain ⟨s', hnext, ha, -⟩ := nextKind_of_readKind hk
    (not_atEnd_of_room hroom (by omega)) hread rfl rfl
    (checkSize_of_room (Room.congr hroom.skip rfl))
  exact ⟨s', hnext, ha⟩

/-! ## Only canonical headers are read -/

theorem readSize_eq (hread : readSize k s n = (hd, s₁)) (herr : hd.err = none) (hn1 : 1 ≤ n) :
    s.Room n ∧ hd.kind = k ∧ s.r.take n = bytes hd.size ∧ 56 ≤ hd.size ∧ s₁ = s.skip n := by
  unfold readSize at hread
  split at hread
  · cases hread
    cases herr
  case _ m s2 huint =>
    obtain ⟨hroom, rfl, hlead, rfl⟩ := readUint_eq_ok huint
    cases hread
    have h56 : ¬ setBytes (s.r.take n) < 56 := by
      intro hlt
      simp [hlt] at herr
    refine ⟨hroom, rfl, ?_, Nat.not_lt.mp h56, rfl⟩
    refine (bytes_setBytes ?_).symm
    rcases Nat.lt_or_eq_of_le hn1 with hlt | rfl
    · exact hlead hlt
    · intro hzero
      refine h56 ?_
      obtain ⟨x, rest, hr⟩ : ∃ x rest, s.r = x :: rest := exists_cons_of_length_pos hroom.input
      rw [hr] at hzero ⊢
      simp only [take_succ_cons, take_zero, head?_cons, Option.some.injEq] at hzero
      simp [hzero, setBytes]

/-- `hd` is the canonical header of a string or a list, and has been read. -/
def Canonical (s : Stream) (hd : Header) (s₁ : Stream) : Prop :=
  ∃ rest, hd.kind ≠ .byte ∧ hd.size < 2 ^ 64 ∧ s.Room (headsize hd.size) ∧
    s.r = putHead (smallTag hd.kind) (largeTag hd.kind) hd.size ++ rest ∧
    s₁ = { s.skip (headsize hd.size) with byteval := 0 }

theorem canonical_short (hroom : s.Room 1) (hr : s.r = b :: rest) (hkind : k ≠ .byte)
    (hb : b.toNat = smallTag k + n) (h56 : n < 56) :
    Canonical s ⟨k, n, none⟩ { s.skip 1 with byteval := 0 } := by
  have hsize : headsize n = 1 := if_pos h56
  refine ⟨rest, hkind, by dsimp only; omega, hsize ▸ hroom, ?_, by rw [hsize]⟩
  rw [hr, putHead, if_pos h56, ← hb, UInt8.ofNat_toNat]
  rfl

theorem canonical_long (hroom : s.Room 1) (hr : s.r = b :: rest) (hkind : k ≠ .byte)
    (hb : b.toNat = largeTag k + n) (hn1 : 1 ≤ n) (hn8 : n ≤ 8)
    (hread : readSize k { s.skip 1 with byteval := 0 } n = (hd, s₁)) (herr : hd.err = none) :
    Canonical s hd s₁ := by
  obtain ⟨hroom', rfl, htake, h56, rfl⟩ := readSize_eq hread herr hn1
  have hrest : ({ s.skip 1 with byteval := 0 } : Stream).r = rest := by simp [skip, hr]
  rw [hrest] at htake
  have hlen : (bytes hd.size).length = n := by
    have hle := hroom'.input
    rw [hrest] at hle
    rw [← htake, length_take, Nat.min_eq_left hle]
  have hsize : headsize hd.size = 1 + n := by rw [headsize, if_neg (Nat.not_lt.mpr h56), hlen]
  refine ⟨rest.drop n, hkind, ?_, ?_, ?_, ?_⟩
  · have hlt := length_bytes_le_iff.mp (hlen.trans_le hn8)
    simpa using hlt
  · rw [hsize]
    exact hroom.add (Room.congr hroom' rfl)
  · rw [hr, putHead, if_neg (Nat.not_lt.mpr h56), hlen, ← hb, UInt8.ofNat_toNat, ← htake]
    simp
  · rw [hsize, ← skip_skip s]
    rfl

theorem readKind_eq (hread : s.readKind = (hd, s₁)) (herr : hd.err = none) :
    (∃ x rest, s.r = x :: rest ∧ x.toNat < 0x80 ∧ s.Room 1 ∧ hd = ⟨.byte, 0, none⟩ ∧
      s₁ = { s.skip 1 with byteval := x }) ∨ Canonical s hd s₁ := by
  unfold readKind at hread
  split at hread
  · cases hread
    cases herr
  case _ b s2 hbyte =>
    obtain ⟨hroom, ⟨rest, hr⟩, rfl⟩ := readByte_eq_ok hbyte
    have hb := b.toNat_lt
    dsimp only at hread
    split at hread
    case isTrue hlt =>
      cases hread
      exact Or.inl ⟨b, rest, hr, hlt, hroom, rfl, rfl⟩
    case isFalse h1 =>
      right
      split at hread
      case isTrue h2 =>
        cases hread
        exact canonical_short hroom hr (by decide) (by simp only [smallTag]; omega) (by omega)
      case isFalse h2 =>
        split at hread
        case isTrue h3 =>
          exact canonical_long hroom hr (by decide) (by simp only [largeTag]; omega) (by omega)
            (by omega) hread herr
        case isFalse h3 =>
          split at hread
          case isTrue h4 =>
            cases hread
            exact canonical_short hroom hr (by decide) (by simp only [smallTag]; omega) (by omega)
          case isFalse h4 =>
            exact canonical_long hroom hr (by decide) (by simp only [largeTag]; omega) (by omega)
              (by omega) hread herr

theorem nextKind_eq_ok (hk : s.kind = none) (hnext : s.nextKind = (.ok (k, size), s')) :
    (∃ x rest, s.r = x :: rest ∧ x.toNat < 0x80 ∧ s.Room 1 ∧ k = .byte ∧ size = 0 ∧
      Ahead s 1 .byte 0 s' ∧ s'.byteval = x) ∨
    (∃ rest, k ≠ .byte ∧ size < 2 ^ 64 ∧ s.Room (headsize size) ∧
      s.r = putHead (smallTag k) (largeTag k) size ++ rest ∧ Ahead s (headsize size) k size s' ∧
      (s.skip (headsize size)).checkSize size = none) := by
  rw [nextKind, hk] at hnext
  simp only at hnext
  split at hnext
  · cases hnext
  case isFalse hend =>
    unfold readHeader at hnext
    cases hread : ({ s with kinderr := none } : Stream).readKind with
    | mk hd s₁ =>
      rw [hread] at hnext
      dsimp only at hnext
      split at hnext
      · cases hnext
      case _ hor =>
        obtain ⟨herr, hc⟩ := Option.or_eq_none_iff.mp hor
        cases hnext
        rcases readKind_eq hread herr with ⟨x, rest, hr, hx, hroom, rfl, rfl⟩ |
          ⟨rest, hne, hlt, hroom, hr, rfl⟩
        · exact Or.inl ⟨x, rest, hr, hx, Room.congr hroom rfl, rfl, rfl, ⟨rfl, rfl, rfl, by
            rw [skip_zero]; rfl⟩, rfl⟩
        · exact Or.inr ⟨rest, hne, hlt, Room.congr hroom rfl, hr, ⟨rfl, rfl, rfl, by
            rw [skip_zero]; rfl⟩, hc⟩

end Stream

end GethComments.Rlp
