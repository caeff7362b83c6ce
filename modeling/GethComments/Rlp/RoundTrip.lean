import GethComments.Rlp.Decoders

/-!
# Values are read back as they were written

For values without negative integers, without nil pointers other than those that a tag allows, and
without an array of one byte that is zero.

* `decode_of_nextKind`: a decoder may look at the kind first;
* `decode_of_atEnd`: at the end of a list every decoder says so;
* `decode_of_at`: where the encoding of a value is next, the decoder returns the value and stands
  after the encoding;
* `decode_encode`: so does `DecodeBytes` on what `EncodeToBytes` returns.
-/

namespace GethComments.Rlp

open GethComments.Rlp.Stream List Outcome

variable {α : Type} {s s' : Stream} {fuel : Nat} {dec : Stream → Outcome α} {enc : α → Bytes}
  {vs : List α} {x : ValueKind × Nat}

/-! ## Looking at the kind -/

theorem nextKind_nextKind (h : s.nextKind = (.ok x, s')) :
    s'.nextKind = s.nextKind := by
  rw [h]
  unfold nextKind at h
  split at h
  case _ kind hk =>
    split at h
    · cases h
    case _ herr =>
      cases h
      rw [nextKind, hk]
      simp only [herr]
  case _ hk =>
    split at h
    · cases h
    · unfold readHeader at h
      dsimp only at h
      split at h
      · cases h
      · cases h
        rfl

/-- A decoder that is called after `Kind` does what it does without it. -/
theorem Typ.decode_of_nextKind (h : s.nextKind = (.ok x, s')) : (t : Typ) →
    t.decode fuel s' = t.decode fuel s
  | .uint w => by simp only [Typ.decode, decodeUint, getUint, nextKind_nextKind h]
  | .bool => by simp only [Typ.decode, getBool, getUint, nextKind_nextKind h]
  | .string => by simp only [Typ.decode, getBytes, nextKind_nextKind h]
  | .bytes _ => by simp only [Typ.decode, getBytes, nextKind_nextKind h]
  | .bigInt => by simp only [Typ.decode, decodeBigInt, getBytes, nextKind_nextKind h]
  | .byteArray _ n => by simp only [Typ.decode, decodeByteArray, nextKind_nextKind h]
  | .slice t => by simp only [Typ.decode, decodeListSlice, list, nextKind_nextKind h]; rfl
  | .array n t => by simp only [Typ.decode, decodeListArray, list, nextKind_nextKind h]; rfl
  | .struct name fs => by simp only [Typ.decode, list, nextKind_nextKind h]
  | .ptr t => by simp only [Typ.decode, Typ.decode_of_nextKind h t]

/-! ## The end of a list -/

theorem nextKind_of_atEnd (hk : s.kind = none) (hend : s.AtEnd) :
    s.nextKind = (.error .eol, { s with kinderr := none }) := by
  rw [nextKind, hk]
  simp only [if_pos hend]

theorem Typ.decode_of_atEnd (hk : s.kind = none) (hend : s.AtEnd) : (t : Typ) →
    t.decode fuel s = some (.error .eol, { s with kinderr := none })
  | .uint w => by rw [Typ.decode, decodeUint, getUint, nextKind_of_atEnd hk hend]; rfl
  | .bool => by rw [Typ.decode, getBool, getUint, nextKind_of_atEnd hk hend]; rfl
  | .string => by rw [Typ.decode, getBytes, nextKind_of_atEnd hk hend]; rfl
  | .bytes _ => by rw [Typ.decode, getBytes, nextKind_of_atEnd hk hend]; rfl
  | .bigInt => by rw [Typ.decode, decodeBigInt, getBytes, nextKind_of_atEnd hk hend]; rfl
  | .byteArray _ n => by rw [Typ.decode, decodeByteArray, nextKind_of_atEnd hk hend]; rfl
  | .slice t => by rw [Typ.decode, decodeListSlice, list, nextKind_of_atEnd hk hend]; rfl
  | .array n t => by rw [Typ.decode, decodeListArray, list, nextKind_of_atEnd hk hend]; rfl
  | .struct name fs => by rw [Typ.decode, list, nextKind_of_atEnd hk hend]; rfl
  | .ptr t => by rw [Typ.decode, Typ.decode_of_atEnd hk hend t]; rfl

/-! ## Simple types -/

theorem decodeUint_of_at {w : Width} {v : Fin (2 ^ w.bits)} (h : s.At (encodeUint v.val)) :
    ∃ s', decodeUint w s = (.ok v, s') ∧ s'.core = s.core.skip (encodeUint v.val).length := by
  have hbits : 256 ^ (w.bits / 8) = 2 ^ w.bits := by cases w <;> decide
  obtain ⟨s', huint, hpos⟩ := getUint_of_at (by rw [hbits]; exact v.isLt)
    (Nat.lt_of_lt_of_le v.isLt w.bound) h
  refine ⟨s', ?_, hpos⟩
  rw [decodeUint, huint]
  simp [wrapResult, Except.mapError]

theorem decodeBigInt_of_at {n : Int} (hn : 0 ≤ n) (hlen : (encodeUint n.toNat).length < 2 ^ 64)
    (h : s.At (encodeUint n.toNat)) :
    ∃ s', decodeBigInt s = (.ok (some n), s') ∧
      s'.core = s.core.skip (encodeUint n.toNat).length := by
  have hbytes := length_le_encodeString (bytes n.toNat)
  unfold encodeUint at h hlen ⊢
  obtain ⟨s', hget, hpos⟩ := getBytes_of_at (by omega) h
  refine ⟨s', ?_, hpos⟩
  rw [decodeBigInt, hget]
  simp [wrapResult, Except.mapError, head_bytes_ne_zero, setBytes_bytes, Int.toNat_of_nonneg hn]

theorem bytes_toNat {b : UInt8} (hb : b ≠ 0) : bytes b.toNat = [b] := by
  have hset : setBytes [b] = b.toNat := by simp [setBytes]
  rw [← hset]
  exact bytes_setBytes (by simpa using hb)

theorem decodeByteArray_of_at {typ : String} {n : Nat} {v : { b : Bytes // b.length = n }}
    (hv : v.val ≠ [0]) (hlen : (encodeString v.val).length < 2 ^ 64)
    (h : s.At (encodeString v.val)) :
    ∃ s', decodeByteArray typ n s = (.ok v, s') ∧
      s'.core = s.core.skip (encodeString v.val).length := by
  obtain ⟨b, rfl⟩ := v
  have hbytes := length_le_encodeString b
  rcases encodeString_cases b with ⟨x, rfl, hx, henc⟩ | ⟨hcanon, henc⟩
  · -- a single byte is read as a number, which fails for zero only
    have hx0 : x ≠ 0 := fun hx0 => hv (by rw [hx0])
    simp only [henc] at h ⊢
    obtain ⟨rest, hr⟩ := h.input
    obtain ⟨s1, hnext, -⟩ := nextKind_byte h.armed h.room hr hx
    have huint : encodeUint x.toNat = [x] := by rw [encodeUint, bytes_toNat hx0, henc]
    have hbits : x.toNat < 256 ^ (64 / 8) := Nat.lt_of_lt_of_le x.toNat_lt (by decide)
    obtain ⟨s2, hget, hpos⟩ := getUint_of_at hbits (hbits.trans_le (by decide)) (huint.symm ▸ h)
    have hsame : s1.getUint 64 = s.getUint 64 := by simp only [getUint, nextKind_nextKind hnext]
    refine ⟨s2, ?_, huint ▸ hpos⟩
    rw [decodeByteArray, hnext]
    simp [hsame, hget, Except.toOption]
  · simp only [henc] at h hlen hbytes ⊢
    obtain ⟨s1, hnext, ha⟩ := nextKind_of_at (k := .string) (by decide) (by omega) h
    obtain ⟨hfull, hpos⟩ := readFull_of_ahead h ha
    refine ⟨_, ?_, hpos⟩
    rw [decodeByteArray, hnext]
    simp only [lt_irrefl, if_false, hfull, if_neg hcanon, dite_true]

/-! ## Lists -/

/-- What a decoder does with the encoding of `v`. -/
def Reads (dec : Stream → Outcome α) (enc : Bytes) (v : α) : Prop :=
  ∀ s : Stream, s.At enc → ∃ s', dec s = some (.ok v, s') ∧ s'.core = s.core.skip enc.length

/-- The decoder sees the end of a list. -/
def Stops (dec : Stream → Outcome α) : Prop :=
  ∀ s : Stream, s.kind = none → s.AtEnd → ∃ s', dec s = some (.error .eol, s') ∧ s'.core = s.core

theorem Typ.stops (t : Typ) (fuel : Nat) : Stops fun s => t.decode fuel s :=
  fun _ hk hend => ⟨_, t.decode_of_atEnd hk hend, rfl⟩

/-- The items `enc` are the rest of the list that the stream is in. -/
def Last (s : Stream) (enc : Bytes) : Prop :=
  ∃ tos rest, s.stack = tos :: rest ∧ tos.pos + enc.length = tos.size

theorem Last.atEnd (h : Last s []) : s.AtEnd := by
  obtain ⟨tos, rest, hst, heq⟩ := h
  exact ⟨tos, by simp [hst], heq⟩

theorem Last.right {s' : Stream} {enc enc' : Bytes} (h : Last s (enc ++ enc'))
    (hs : s'.core = s.core.skip enc.length) : Last s' enc' := by
  obtain ⟨tos, rest, hst, heq⟩ := h
  have hst' : s'.core.stack = (s.core.skip enc.length).stack := by rw [hs]
  refine ⟨⟨tos.pos + enc.length, tos.size⟩, rest, ?_, ?_⟩
  · simpa [core, skip, hst, advance] using hst'
  · rw [length_append] at heq
    dsimp only
    omega

theorem decodeSliceElems_of_at
    (hdec : ∀ v ∈ vs, Reads dec (enc v) v) (hstop : Stops dec) (hfuel : vs.length < fuel)
    (i : Nat) (hat : s.At (vs.map enc).flatten) (hlast : Last s (vs.map enc).flatten) :
    ∃ s', decodeSliceElems dec fuel i s = some (.ok vs, s') ∧
      s'.core = s.core.skip (vs.map enc).flatten.length := by
  induction vs generalizing fuel i s with
  | nil =>
    obtain ⟨fuel, rfl⟩ := Nat.exists_eq_succ_of_ne_zero (Nat.ne_of_gt hfuel)
    obtain ⟨s', hs', hcore⟩ := hstop s hat.armed hlast.atEnd
    refine ⟨s', by rw [decodeSliceElems, hs'], ?_⟩
    exact hcore.trans (core_skip_zero hat.armed).symm
  | cons v vs ih =>
    obtain ⟨fuel, rfl⟩ := Nat.exists_eq_succ_of_ne_zero (Nat.ne_of_gt (Nat.zero_lt_of_lt hfuel))
    rw [map_cons, flatten_cons] at hat hlast ⊢
    obtain ⟨s1, hs1, hpos1⟩ := hdec v mem_cons_self s hat.left
    obtain ⟨s2, hs2, hpos2⟩ := ih (fun u hu => hdec u (mem_cons_of_mem _ hu))
      (by simpa using hfuel) (i + 1) (hat.right hpos1) (hlast.right hpos1)
    refine ⟨s2, ?_, ?_⟩
    · rw [decodeSliceElems, hs1]
      simp only [hs2]
      rfl
    · rw [length_append]
      exact skip_trans hpos1 hpos2

theorem decodeArrayElems_of_at
    (hdec : ∀ v ∈ vs, Reads dec (enc v) v) (i : Nat) (hat : s.At (vs.map enc).flatten) :
    ∃ s', decodeArrayElems dec vs.length i s = some (.ok vs, s') ∧
      s'.core = s.core.skip (vs.map enc).flatten.length := by
  induction vs generalizing i s with
  | nil => exact ⟨s, rfl, (core_skip_zero hat.armed).symm⟩
  | cons v vs ih =>
    rw [map_cons, flatten_cons] at hat ⊢
    obtain ⟨s1, hs1, hpos1⟩ := hdec v mem_cons_self s hat.left
    obtain ⟨s2, hs2, hpos2⟩ := ih (fun u hu => hdec u (mem_cons_of_mem _ hu)) (i + 1)
      (hat.right hpos1)
    refine ⟨s2, ?_, ?_⟩
    · rw [length_cons, decodeArrayElems, hs1]
      simp only [hs2]
      rfl
    · rw [length_append]
      exact skip_trans hpos1 hpos2

theorem list_of_body {body : Bytes} (hlen : body.length < 2 ^ 64)
    (hat : s.At (putHead 0xc0 0xf7 body.length ++ body)) :
    ∃ s1, s.list = (.ok body.length, s1) ∧ s1.At body ∧ Last s1 body ∧
      ∀ s2 : Stream, s2.core = s1.core.skip body.length → ∃ s3, s2.listEnd = (.ok (), s3) ∧
        s3.core = s.core.skip (putHead 0xc0 0xf7 body.length ++ body).length := by
  obtain ⟨s1, hlist, hat1, hpos1⟩ := list_of_at hlen hat
  have hst : s1.stack = ⟨0, body.length⟩ :: advance (headsize body.length) s.stack :=
    stack_of_push hpos1 (core_skip_zero hat1.armed).symm
  refine ⟨s1, hlist, hat1, ⟨_, _, hst, Nat.zero_add _⟩, fun s2 hs2 => ?_⟩
  obtain ⟨hend, hcore⟩ := listEnd_of_stack hpos1 hs2
  exact ⟨_, hend, by rw [length_append, length_putHead]; exact hcore⟩

theorem decodeListSlice_of_at {typ : String} (hdec : ∀ v ∈ vs, Reads dec (enc v) v)
    (hpos : ∀ v ∈ vs, enc v ≠ []) (hstop : Stops dec) (hfuel : vs.length < fuel)
    (hlen : (vs.map enc).flatten.length < 2 ^ 64) (hat : s.At (encodeList (vs.map enc))) :
    ∃ s', decodeListSlice fuel typ dec s = some (.ok vs, s') ∧
      s'.core = s.core.skip (encodeList (vs.map enc)).length := by
  obtain ⟨s1, hlist, hat1, hlast, hend⟩ := list_of_body hlen hat
  by_cases hnil : vs = []
  · subst hnil
    obtain ⟨s2, hs2, hpos2⟩ := hend s1 (core_skip_zero hat1.armed).symm
    refine ⟨s2, ?_, hpos2⟩
    rw [decodeListSlice, hlist]
    simp [endList, hs2]
  · have hbody : (vs.map enc).flatten.length ≠ 0 := by
      obtain ⟨v, vs, rfl⟩ := exists_cons_of_ne_nil hnil
      simpa using fun h => absurd h (hpos v mem_cons_self)
    obtain ⟨s2, hs2, hpos2⟩ := decodeSliceElems_of_at hdec hstop hfuel 0 hat1 hlast
    obtain ⟨s3, hs3, hpos3⟩ := hend s2 hpos2
    refine ⟨s3, ?_, hpos3⟩
    rw [decodeListSlice, hlist]
    simp only [if_neg hbody, hs2, bindOk, endList, hs3]

theorem decodeListArray_of_at {n : Nat} {typ : String} {vs : { l : List α // l.length = n }}
    (hdec : ∀ v ∈ vs.val, Reads dec (enc v) v)
    (hlen : (vs.val.map enc).flatten.length < 2 ^ 64)
    (hat : s.At (encodeList (vs.val.map enc))) :
    ∃ s', decodeListArray n typ dec s = some (.ok vs, s') ∧
      s'.core = s.core.skip (encodeList (vs.val.map enc)).length := by
  obtain ⟨vs, rfl⟩ := vs
  obtain ⟨s1, hlist, hat1, -, hend⟩ := list_of_body hlen hat
  obtain ⟨s2, hs2, hpos2⟩ := decodeArrayElems_of_at hdec 0 hat1
  obtain ⟨s3, hs3, hpos3⟩ := hend s2 hpos2
  refine ⟨s3, ?_, hpos3⟩
  rw [decodeListArray, hlist]
  simp only [hs2, bindOk, endList, hs3, dite_true]

/-! ## All types -/

theorem putHead_ne_nil (smalltag largetag size : Nat) : putHead smalltag largetag size ≠ [] := by
  rw [← length_pos_iff_ne_nil, length_putHead]
  exact headsize_pos size

theorem encodeString_ne_nil (b : Bytes) : encodeString b ≠ [] := by
  rcases encodeString_cases b with ⟨x, -, -, henc⟩ | ⟨-, henc⟩ <;> simp [henc, putHead_ne_nil]

theorem encodeList_ne_nil (items : List Bytes) : encodeList items ≠ [] := by
  simp [encodeList, putHead_ne_nil]

/-- What encodings look like. -/
def Encoded (e : Bytes) : Prop := (∃ b, e = encodeString b) ∨ ∃ items, e = encodeList items

theorem Encoded.ne_nil {e : Bytes} (h : Encoded e) : e ≠ [] := by
  rcases h with ⟨b, rfl⟩ | ⟨items, rfl⟩
  · exact encodeString_ne_nil b
  · exact encodeList_ne_nil items

theorem Typ.encoded : (t : Typ) → (v : t.Val) → Encoded (t.encode v)
  | .uint _, _ | .bool, _ | .string, _ | .bytes _, _ | .bigInt, _ | .byteArray _ _, _ =>
    .inl ⟨_, rfl⟩
  | .slice _, _ | .array _ _, _ | .struct _ _, _ => .inr ⟨_, rfl⟩
  | .ptr t, none => by
    rw [Typ.encode]
    cases t.defaultNilKind with
    | string => exact .inl ⟨[], rfl⟩
    | list => exact .inr ⟨[], rfl⟩
  | .ptr t, some v => t.encoded v

theorem Typ.encode_ne_nil (t : Typ) (v : t.Val) : t.encode v ≠ [] := (t.encoded v).ne_nil

/-! ### Pointers that a tag makes nil -/

theorem nextKind_of_encoded {e : Bytes} (h : Encoded e) (hne : NotEmpty e)
    (hlen : e.length < 2 ^ 64) (hat : s.At e) :
    ∃ k size s', s.nextKind = (.ok (k, size), s') ∧ ¬ (k ≠ .byte ∧ size = 0) := by
  rcases h with ⟨b, rfl⟩ | ⟨items, rfl⟩
  · have hbytes := length_le_encodeString b
    rcases encodeString_cases b with ⟨x, rfl, hx, henc⟩ | ⟨-, henc⟩
    · rw [henc] at hat
      obtain ⟨rest, hr⟩ := hat.input
      obtain ⟨s1, hnext, -⟩ := nextKind_byte hat.armed hat.room hr hx
      exact ⟨_, _, s1, hnext, fun h => h.1 rfl⟩
    · rw [henc] at hat
      obtain ⟨s1, hnext, -⟩ := nextKind_of_at (k := .string) (by decide) (by omega) hat
      refine ⟨_, _, s1, hnext, fun h => hne.1 ?_⟩
      rw [length_eq_zero_iff.mp h.2]
      rfl
  · have hbody := length_encodeList items
    obtain ⟨s1, hnext, -⟩ := nextKind_of_at (k := .list) (by decide) (by omega) hat
    refine ⟨_, _, s1, hnext, fun h => hne.2 ?_⟩
    rw [encodeList, length_eq_zero_iff.mp h.2]
    rfl

theorem decodeNilPtr_of_at (typ : String) {k : NilKind} {v : Option α}
    (hdec : ∀ u, v = some u → Reads dec (enc u) u)
    (hsame : ∀ s s' x, s.nextKind = (.ok x, s') → dec s' = dec s)
    (henc : ∀ u, v = some u → Encoded (enc u) ∧ NotEmpty (enc u))
    (hlen : (v.elim k.encode enc).length < 2 ^ 64) (hat : s.At (v.elim k.encode enc)) :
    ∃ s', decodeNilPtr typ k dec s = some (.ok v, s') ∧
      s'.core = s.core.skip (v.elim k.encode enc).length := by
  cases v with
  | none =>
    have hput : k.encode =
        putHead (smallTag k.kind) (largeTag k.kind) ([] : Bytes).length ++ [] := by
      cases k <;> rfl
    have hbyte : k.kind ≠ .byte := by cases k <;> decide
    simp only [Option.elim_none] at hat ⊢
    rw [hput] at hat
    obtain ⟨s1, hnext, ha⟩ := nextKind_of_at hbyte (by decide) hat
    refine ⟨{ s1 with kind := none }, ?_, ?_⟩
    · rw [decodeNilPtr, hnext]
      simp [hbyte]
    · rw [hput, append_nil]
      exact ha.done
  | some u =>
    obtain ⟨hshape, hne⟩ := henc u rfl
    obtain ⟨kind, size, s1, hnext, hfull⟩ := nextKind_of_encoded hshape hne hlen hat
    obtain ⟨s2, hs2, hpos⟩ := hdec u rfl s hat
    refine ⟨s2, ?_, hpos⟩
    rw [decodeNilPtr, hnext]
    simp only [if_neg hfull, hsame s s1 _ hnext, hs2, bindOk]

theorem length_items (enc : α → Bytes) (hpos : ∀ v ∈ vs, enc v ≠ []) :
    vs.length ≤ (vs.map enc).flatten.length ∧
      ∀ v ∈ vs, (enc v).length ≤ (vs.map enc).flatten.length := by
  induction vs with
  | nil => simp
  | cons v vs ih =>
    obtain ⟨hv, hvs⟩ := forall_mem_cons.mp hpos
    obtain ⟨hcount, hitem⟩ := ih hvs
    have hlen := length_pos_of_ne_nil hv
    simp only [map_cons, flatten_cons, length_append, length_cons]
    refine ⟨by omega, forall_mem_cons.mpr ⟨Nat.le_add_right _ _, fun u hu => ?_⟩⟩
    exact (hitem u hu).trans (Nat.le_add_left _ _)

theorem reads_struct {name : String} {fs : Fields} {v : fs.Val}
    (hlen : (fs.encode v).flatten.length < 2 ^ 64)
    (hfields : ∀ s : Stream, s.At (fs.encode v).flatten → Last s (fs.encode v).flatten →
      ∃ s', fs.decode fuel name s = some (.ok v, s') ∧
        s'.core = s.core.skip (fs.encode v).flatten.length) :
    Reads (fun s => (Typ.struct name fs).decode fuel s) (encodeList (fs.encode v)) v := by
  intro s hat
  obtain ⟨s1, hlist, hat1, hlast, hend⟩ := list_of_body hlen hat
  obtain ⟨s2, hs2, hpos2⟩ := hfields s1 hat1 hlast
  obtain ⟨s3, hs3, hpos3⟩ := hend s2 hpos2
  refine ⟨s3, ?_, hpos3⟩
  simp only [Typ.decode, hlist, hs2, bindOk, endList, hs3]

mutual

/-- Where the encoding of a value is next, the decoder of its type returns the value and stands
after the encoding. -/
theorem Typ.decode_of_at : (t : Typ) → (v : t.Val) → t.NonNeg v → t.Regular v →
    (t.encode v).length < 2 ^ 64 → (t.encode v).length < fuel →
    Reads (fun s => t.decode fuel s) (t.encode v) v
  | .uint _, v, _, _, _, _ => fun s hat => by
    obtain ⟨s', hs', hpos⟩ := decodeUint_of_at hat
    exact ⟨s', congrArg some hs', hpos⟩
  | .bool, v, _, _, _, _ => fun s hat => by
    obtain ⟨s', hs', hpos⟩ := getBool_of_at hat
    exact ⟨s', by simp only [Typ.decode, hs']; rfl, hpos⟩
  | .string, v, _, _, hlen, _ => fun s hat => by
    obtain ⟨s', hs', hpos⟩ := getBytes_of_at (lt_of_le_of_lt (length_le_encodeString v) hlen) hat
    exact ⟨s', by simp only [Typ.decode, hs']; rfl, hpos⟩
  | .bytes _, v, _, _, hlen, _ => fun s hat => by
    obtain ⟨s', hs', hpos⟩ := getBytes_of_at (lt_of_le_of_lt (length_le_encodeString v) hlen) hat
    exact ⟨s', by simp only [Typ.decode, hs']; rfl, hpos⟩
  | .bigInt, none, _, hnil, _, _ => absurd rfl hnil
  | .bigInt, some n, hv, _, hlen, _ => fun s hat => by
    obtain ⟨s', hs', hpos⟩ := decodeBigInt_of_at (hv n rfl) hlen hat
    exact ⟨s', congrArg some hs', hpos⟩
  | .byteArray _ _, v, _, hv, hlen, _ => fun s hat => by
    obtain ⟨s', hs', hpos⟩ := decodeByteArray_of_at hv hlen hat
    exact ⟨s', congrArg some hs', hpos⟩
  | .slice t, vs, hv, hnil, hlen, hfuel => fun s hat => by
    have hbody := length_encodeList (map (fun v => t.encode v) vs)
    obtain ⟨hcount, hitem⟩ := length_items (fun v => t.encode v)
      fun v (_ : List.Mem v vs) => t.encode_ne_nil v
    simp only [Typ.encode] at hlen hfuel
    refine decodeListSlice_of_at (fun v hmem => ?_) (fun v _ => t.encode_ne_nil v) (t.stops fuel)
      (by omega) (by omega) hat
    have hle := hitem v hmem
    exact Typ.decode_of_at t v (hv v hmem) (hnil v hmem) (by omega) (by omega)
  | .array _ t, vs, hv, hnil, hlen, hfuel => fun s hat => by
    have hbody := length_encodeList (vs.val.map fun v => t.encode v)
    obtain ⟨-, hitem⟩ := length_items (fun v => t.encode v)
      fun v (_ : v ∈ vs.val) => t.encode_ne_nil v
    simp only [Typ.encode] at hlen hfuel
    refine decodeListArray_of_at (fun v hmem => ?_) (by omega) hat
    have hle := hitem v hmem
    exact Typ.decode_of_at t v (hv v hmem) (hnil v hmem) (by omega) (by omega)
  | .struct name fs, v, hv, hnil, hlen, hfuel => fun s hat => by
    have hbody := length_encodeList (fs.encode v)
    simp only [Typ.encode] at hlen hfuel
    exact reads_struct (by omega) (Fields.decode_of_at fs v hv hnil (by omega) (by omega) name)
      s hat
  | .ptr t, none, _, hnil, _, _ => by
    obtain ⟨u, hu, -⟩ := hnil
    cases hu
  | .ptr t, some v, hv, hnil, hlen, hfuel => fun s hat => by
    obtain ⟨u, hu, hnil⟩ := hnil
    cases hu
    obtain ⟨s', hs', hpos⟩ := Typ.decode_of_at t v (hv v rfl) hnil hlen hfuel s hat
    refine ⟨s', ?_, hpos⟩
    simp only [Typ.decode, hs', bindOk]

theorem Fields.decode_of_at : (fs : Fields) → (v : fs.Val) → fs.NonNeg v →
    fs.Regular v → (fs.encode v).flatten.length < 2 ^ 64 → (fs.encode v).flatten.length < fuel →
    ∀ (struct : String) (s : Stream), s.At (fs.encode v).flatten → Last s (fs.encode v).flatten →
      ∃ s', fs.decode fuel struct s = some (.ok v, s') ∧
        s'.core = s.core.skip (fs.encode v).flatten.length
  | .nil, _, _, _, _, _, struct, s, hat, _ => ⟨s, rfl, (core_skip_zero hat.armed).symm⟩
  | .cons name t fs, v, hv, hnil, hlen, hfuel, struct, s, hat, hlast => by
    simp only [Fields.encode, flatten_cons] at hlen hfuel hat hlast ⊢
    have hsum := @List.length_append _ (t.encode v.1) (fs.encode v.2).flatten
    obtain ⟨s1, hs1, hpos1⟩ := Typ.decode_of_at t v.1 hv.1 hnil.1 (by omega) (by omega) s
      hat.left
    obtain ⟨s2, hs2, hpos2⟩ := Fields.decode_of_at fs v.2 hv.2 hnil.2 (by omega) (by omega)
      struct s1 (hat.right hpos1) (hlast.right hpos1)
    refine ⟨s2, ?_, ?_⟩
    · simp only [Fields.decode, mapError_eq_ok.mpr hs1, hs2, bindOk]
      rfl
    · rw [hsum]
      exact skip_trans hpos1 hpos2
  | .nilPtr name k t fs, v, hv, hnil, hlen, hfuel, struct, s, hat, hlast => by
    obtain ⟨u, vs⟩ := v
    simp only [Fields.encode_nilPtr, flatten_cons] at hlen hfuel hat hlast ⊢
    have hsum := @List.length_append _ (u.elim k.encode (fun v => t.encode v))
      (fs.encode vs).flatten
    have hhead : (u.elim k.encode (fun v => t.encode v)).length < 2 ^ 64 := by omega
    have hreads : ∀ w, u = some w → Reads (fun s => t.decode fuel s) (t.encode w) w := by
      intro w hw
      subst hw
      simp only [Option.elim_some] at hsum hlen hfuel
      exact Typ.decode_of_at t w (hv.1 w rfl) (hnil.1 w rfl).1 (by omega) (by omega)
    obtain ⟨s1, hs1, hpos1⟩ := decodeNilPtr_of_at (Typ.ptr t).goName hreads
      (fun s s' x hx => t.decode_of_nextKind hx)
      (fun w hw => ⟨t.encoded w, (hnil.1 w hw).2⟩) hhead hat.left
    obtain ⟨s2, hs2, hpos2⟩ := Fields.decode_of_at fs vs hv.2 hnil.2 (by omega) (by omega)
      struct s1 (hat.right hpos1) (hlast.right hpos1)
    refine ⟨s2, ?_, ?_⟩
    · simp only [Fields.decode, mapError_eq_ok.mpr hs1, hs2, bindOk]
    · rw [hsum]
      exact skip_trans hpos1 hpos2
  | .tail name t, vs, hv, hnil, hlen, hfuel, struct, s, hat, hlast => by
    obtain ⟨hcount, hitem⟩ := length_items (fun v => t.encode v)
      fun v (_ : List.Mem v vs) => t.encode_ne_nil v
    simp only [Fields.encode] at hlen hfuel hat hlast ⊢
    have hdec : ∀ v, List.Mem v vs → Reads (fun s => t.decode fuel s) (t.encode v) v := by
      intro v hmem
      have hle := hitem v hmem
      exact Typ.decode_of_at t v (hv v hmem) (hnil v hmem) (by omega) (by omega)
    have hcount : length vs < fuel := by omega
    obtain ⟨s', hs', hpos⟩ := decodeSliceElems_of_at hdec (t.stops fuel) hcount 0 hat hlast
    exact ⟨s', by rw [Fields.decode]; exact mapError_eq_ok.mpr hs', hpos⟩

end

/-! ## Round trips -/

theorem at_reset {enc rest : Bytes} {limit : Option Nat} (hlimit : ∀ n ∈ limit, enc.length ≤ n) :
    (Stream.reset (enc ++ rest) limit).At enc := by
  refine ⟨rfl, ⟨?_, fun hl => ?_, ?_⟩, rest, rfl⟩
  · simp [Stream.reset]
  · obtain ⟨n, hn⟩ := Option.isSome_iff_exists.mp hl
    simpa [Stream.reset, hn] using hlimit n hn
  · simp [Stream.reset]

theorem Reads.decode {t : Typ} {v : t.Val} {enc : Bytes}
    (h : Reads (fun s => t.decode fuel s) enc v) (hat : s.At enc) :
    ∃ s', Stream.decode fuel t s = some (.ok v, s') ∧ s'.core = s.core.skip enc.length := by
  obtain ⟨s', hs', hpos⟩ := h s hat
  exact ⟨s', mapError_eq_ok.mpr hs', hpos⟩

theorem Reads.decode_reset {t : Typ} {v : t.Val} {enc : Bytes}
    (h : Reads (fun s => t.decode fuel s) enc v) (rest : Bytes) {limit : Option Nat}
    (hlimit : ∀ n ∈ limit, enc.length ≤ n) :
    ∃ s', Stream.decode fuel t (.reset (enc ++ rest) limit) = some (.ok v, s') ∧ s'.r = rest := by
  obtain ⟨s', hs', hpos⟩ := h.decode (at_reset hlimit)
  have hr : s'.core.r = ((Stream.reset (enc ++ rest) limit).core.skip enc.length).r := by rw [hpos]
  exact ⟨s', hs', by simpa [core, skip, Stream.reset] using hr⟩

theorem Reads.decodeBytes {t : Typ} {v : t.Val} {enc : Bytes}
    (h : Reads (fun s => t.decode fuel s) enc v) : decodeBytes fuel t enc = some (.ok v) := by
  obtain ⟨s', hs', hr⟩ := h.decode_reset [] (fun n (hn : n ∈ some enc.length) => by simp_all)
  rw [append_nil] at hs'
  simp [Rlp.decodeBytes, hs', hr]

/-- A value is encoded; its encoding is decoded to the value, as a whole input and from any stream
in which it is next, and nothing after it is read. -/
theorem decode_encode (t : Typ) (v : t.Val) (hneg : t.NonNeg v) (hreg : t.Regular v) :
    ∃ b, encodeToBytes t v = .ok b ∧ ∀ fuel, b.length < 2 ^ 64 → b.length < fuel →
      decodeBytes fuel t b = some (.ok v) ∧
      (∀ rest limit, (∀ n ∈ limit, b.length ≤ n) →
        ∃ s', Stream.decode fuel t (.reset (b ++ rest) limit) = some (.ok v, s') ∧ s'.r = rest) ∧
      ∀ s : Stream, s.At b → ∃ s', Stream.decode fuel t s = some (.ok v, s') ∧
        s'.core = s.core.skip b.length := by
  refine ⟨t.encode v, encodeToBytes_eq t v hneg, fun fuel hlen hfuel => ?_⟩
  have hreads := t.decode_of_at v hneg hreg hlen hfuel
  exact ⟨hreads.decodeBytes, fun rest limit hlimit => hreads.decode_reset rest hlimit,
    fun s hat => hreads.decode hat⟩

/-- A structure with a number, a list of texts, a pointer to an address and one that may be nil. -/
def sampleTyp : Typ :=
  .struct "sample" (.cons "Nonce" (.uint .w64) (.cons "Names" (.slice .string)
    (.cons "To" (.ptr (.byteArray "address" 2)) (.nilPtr "From" .string (.byteArray "address" 2)
      (.cons "Value" .bigInt .nil)))))

def sampleVal : sampleTyp.Val :=
  ((300 : Fin (2 ^ 64)), ([[1], [200, 201], []] : List Bytes),
    (some ⟨[7, 8], rfl⟩ : Option { b : Bytes // b.length = 2 }),
    (none : Option { b : Bytes // b.length = 2 }), (some 5 : Option Int), ())

def sampleBytes : Bytes :=
  [0xce, 0x82, 0x01, 0x2c, 0xc5, 0x01, 0x82, 0xc8, 0xc9, 0x80, 0x82, 0x07, 0x08, 0x80, 0x05]

theorem decode_encode_sample : encodeToBytes sampleTyp sampleVal = .ok sampleBytes ∧
      decodeBytes 100 sampleTyp sampleBytes = some (.ok sampleVal) := by
  have hbytes : encodeToBytes sampleTyp sampleVal = .ok sampleBytes := by decide
  have hneg : sampleTyp.NonNeg sampleVal :=
    ⟨trivial, fun _ _ => trivial, fun _ _ => trivial, fun _ h => (nomatch h),
      fun n hn => by cases hn; decide, trivial⟩
  have hreg : sampleTyp.Regular sampleVal :=
    ⟨trivial, fun _ _ => trivial, ⟨_, rfl, (by decide : [7, 8] ≠ ([0] : Bytes))⟩,
      fun _ h => (nomatch h), Option.some_ne_none _, trivial⟩
  obtain ⟨b, hb, hdec⟩ := decode_encode sampleTyp sampleVal hneg hreg
  obtain rfl : sampleBytes = b := Except.ok.inj (hbytes.symm.trans hb)
  exact ⟨hbytes, (hdec 100 (by decide) (by decide)).1⟩

end GethComments.Rlp
