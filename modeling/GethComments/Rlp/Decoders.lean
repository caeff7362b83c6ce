import GethComments.Rlp.Values

/-!
# Decoding into types

The decoders of `rlp/decode.go` for the types of package `rlp`, into a new value of the type. The
loop over the elements of a slice has no bound in the source; here it is given `fuel` rounds, and a
result of `none` means that they were not enough.

* `bindOk_eq_ok`: what a decoder in two steps has done;
* `Typ.decode`, `decodeBytes`: the decoder of a type, and of a whole input.
-/

namespace GethComments.Rlp

/-- What a decoder leaves; `none` if it is still running. -/
abbrev Outcome (α : Type) := Option (Except ReadError α × Stream)

namespace Outcome

variable {α β : Type}

/-- Go on after a success. -/
def bindOk (d : Outcome α) (f : α → Stream → Outcome β) : Outcome β :=
  match d with
  | none => none
  | some (.error e, s) => some (.error e, s)
  | some (.ok a, s) => f a s

def mapError (f : ReadError → ReadError) (d : Outcome α) : Outcome α :=
  d.map fun (res, s) => (res.mapError f, s)

theorem bindOk_eq_ok {d : Outcome α} {f : α → Stream → Outcome β} {b : β} {s' : Stream}
    (h : d.bindOk f = some (.ok b, s')) :
    ∃ a s, d = some (.ok a, s) ∧ f a s = some (.ok b, s') := by
  unfold bindOk at h
  split at h
  · cases h
  · cases h
  · exact ⟨_, _, rfl, h⟩

theorem mapError_eq_ok {g : ReadError → ReadError} {d : Outcome α} {a : α} {s : Stream} :
    d.mapError g = some (.ok a, s) ↔ d = some (.ok a, s) := by
  rcases d with - | ⟨- | a', s'⟩ <;> simp [mapError, Except.mapError]

end Outcome

/-! ## Simple types -/

section Simple

variable {α : Type}

/-- An operation of the stream, whose errors get the name of the type. -/
def wrapResult (typ : String) (res : Except ReadError α × Stream) : Except ReadError α × Stream :=
  (res.1.mapError (·.wrap typ), res.2)

def decodeUint (w : Width) (s : Stream) : Except ReadError (Fin (2 ^ w.bits)) × Stream :=
  match wrapResult (Typ.uint w).goName (s.getUint w.bits) with
  | (.error e, s) => (.error e, s)
  | (.ok n, s) => (.ok (Fin.ofNat (2 ^ w.bits) n), s)

def decodeBigInt (s : Stream) : Except ReadError (Option Int) × Stream :=
  match wrapResult Typ.bigInt.goName s.getBytes with
  | (.error e, s) => (.error e, s)
  | (.ok b, s) =>
    if b.head? = some 0 then (.error (ReadError.canonInt.wrap Typ.bigInt.goName), s)
    else (.ok (some (setBytes b)), s)

def decodeByteArray (typ : String) (n : Nat) (s : Stream) :
    Except ReadError { b : Bytes // b.length = n } × Stream :=
  match s.nextKind with
  | (.error e, s) => (.error e, s)
  | (.ok (.byte, _), s) =>
    if n = 0 then (.error (.typed "input string too long" typ []), s)
    else if h : n = 1 then
      -- The error of `Uint` is not looked at: a zero byte is not taken off the stream.
      let (res, s) := s.getUint 64
      (.ok ⟨[UInt8.ofNat (res.toOption.getD 0)], h ▸ rfl⟩, s)
    else (.error (.typed "input string too short" typ []), s)
  | (.ok (.string, size), s) =>
    if n < size then (.error (.typed "input string too long" typ []), s)
    else if n > size then (.error (.typed "input string too short" typ []), s)
    else
      match s.readFull n with
      | (.error e, s) => (.error e, s)
      | (.ok b, s) =>
        if size = 1 ∧ (b.headD 0).toNat < 128 then (.error (ReadError.canonSize.wrap typ), s)
        -- `readFull` fills its buffer, so the length is right.
        else if h : b.length = n then (.ok ⟨b, h⟩, s)
        else (.error .unexpectedEOF, s)
  | (.ok (.list, _), s) => (.error (ReadError.expectedString.wrap typ), s)

/-- `ListEnd` after a value. -/
def endList (f : ReadError → ReadError) (v : α) (s : Stream) : Outcome α :=
  match s.listEnd with
  | (.error e, s) => some (.error (f e), s)
  | (.ok (), s) => some (.ok v, s)

/-! ## Lists -/

def decodeSliceElems (dec : Stream → Outcome α) : Nat → Nat → Stream → Outcome (List α)
  | 0, _, _ => none
  | fuel + 1, i, s =>
    match dec s with
    | none => none
    | some (.error .eol, s) => some (.ok [], s)
    | some (.error e, s) => some (.error (e.addContext ("[" ++ toString i ++ "]")), s)
    | some (.ok v, s) =>
      (decodeSliceElems dec fuel (i + 1) s).bindOk fun vs s => some (.ok (v :: vs), s)

def decodeListSlice (fuel : Nat) (typ : String) (dec : Stream → Outcome α) (s : Stream) :
    Outcome (List α) :=
  match s.list with
  | (.error e, s) => some (.error (e.wrap typ), s)
  | (.ok size, s) =>
    if size = 0 then endList id [] s
    else (decodeSliceElems dec fuel 0 s).bindOk fun vs s => endList id vs s

/-- The loop of `decodeListArray` over `k` elements, the first with index `i`. -/
def decodeArrayElems (dec : Stream → Outcome α) : Nat → Nat → Stream → Outcome (List α)
  | 0, _, s => some (.ok [], s)
  | k + 1, i, s =>
    match dec s with
    | none => none
    | some (.error .eol, s) => some (.ok [], s)
    | some (.error e, s) => some (.error (e.addContext ("[" ++ toString i ++ "]")), s)
    | some (.ok v, s) =>
      (decodeArrayElems dec k (i + 1) s).bindOk fun vs s => some (.ok (v :: vs), s)

def decodeListArray (n : Nat) (typ : String) (dec : Stream → Outcome α) (s : Stream) :
    Outcome { l : List α // l.length = n } :=
  match s.list with
  | (.error e, s) => some (.error (e.wrap typ), s)
  | (.ok _, s) =>
    (decodeArrayElems dec n 0 s).bindOk fun vs s =>
      if h : vs.length = n then endList (·.wrap typ) ⟨vs, h⟩ s
      else some (.error (.typed "input list has too few elements" typ []), s)

/-! ## Structures and pointers -/

/-- The error of a field: the end of the list means that the field is missing. -/
def fieldError (struct name : String) : ReadError → ReadError
  | .eol => .typed "too few elements" struct []
  | e => e.addContext ("." ++ name)

/-- `makeNilPtrDecoder`. -/
def decodeNilPtr (typ : String) (nilKind : NilKind) (dec : Stream → Outcome α) (s : Stream) :
    Outcome (Option α) :=
  match s.nextKind with
  | (.error e, s) => some (.error (e.wrap typ), s)
  | (.ok (kind, size), s) =>
    if kind ≠ .byte ∧ size = 0 then
      if kind ≠ nilKind.kind then
        some (.error (.typed ("wrong kind of empty value (got " ++ kind.toString ++ ", want " ++
          nilKind.kind.toString ++ ")") typ []), s)
      else some (.ok none, { s with kind := none })
    else (dec s).bindOk fun v s => some (.ok (some v), s)

end Simple

mutual

/-- `makeDecoder`. -/
def Typ.decode (fuel : Nat) : (t : Typ) → Stream → Outcome t.Val
  | .uint w, s => some (decodeUint w s)
  | .bool, s => some (wrapResult Typ.bool.goName s.getBool)
  | .string, s => some (wrapResult Typ.string.goName s.getBytes)
  | .bytes name, s => some (wrapResult name s.getBytes)
  | .bigInt, s => some (decodeBigInt s)
  | .byteArray name n, s => some (decodeByteArray name n s)
  | .slice t, s => decodeListSlice fuel (Typ.slice t).goName (fun s => t.decode fuel s) s
  | .array n t, s => decodeListArray n (Typ.array n t).goName (fun s => t.decode fuel s) s
  | .struct name fs, s =>
    match s.list with
    | (.error e, s) => some (.error (e.wrap name), s)
    | (.ok _, s) =>
      (fs.decode fuel name s).bindOk fun v s => endList (·.wrap name) v s
  | .ptr t, s => (t.decode fuel s).bindOk fun v s => some (.ok (some v), s)

/-- The fields of the structure `struct`. -/
def Fields.decode (fuel : Nat) : (fs : Fields) → String → Stream → Outcome fs.Val
  | .nil, _, s => some (.ok (), s)
  | .cons name t fs, struct, s =>
    ((t.decode fuel s).mapError (fieldError struct name)).bindOk fun v s =>
      (fs.decode fuel struct s).bindOk fun vs s => some (.ok (v, vs), s)
  | .nilPtr name kind t fs, struct, s =>
    ((decodeNilPtr (Typ.ptr t).goName kind (fun s => t.decode fuel s) s).mapError
      (fieldError struct name)).bindOk fun v s =>
      (fs.decode fuel struct s).bindOk fun vs s => some (.ok (v, vs), s)
  | .tail name t, struct, s =>
    (decodeSliceElems (fun s => t.decode fuel s) fuel 0 s).mapError (fieldError struct name)

end

/-- `Stream.Decode`. -/
def Stream.decode (fuel : Nat) (t : Typ) (s : Stream) : Outcome t.Val :=
  (t.decode fuel s).mapError (·.inTarget t.goName)

def decodeBytes (fuel : Nat) (t : Typ) (b : Bytes) : Option (Except ReadError t.Val) :=
  match Stream.decode fuel t (.reset b (some b.length)) with
  | none => none
  | some (.error e, _) => some (.error e)
  | some (.ok v, s) => if s.r.length > 0 then some (.error .moreThanOneValue) else some (.ok v)

end GethComments.Rlp
