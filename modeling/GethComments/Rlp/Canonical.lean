import GethComments.Rlp.Reading

/-!
# An input that is accepted is an encoding

For all types without a byte array of length 1, tags included: whatever a decoder accepts is the
encoding of the value that it returns.

* `Typ.sound`: the encoding of a value that a decoder returns was next;
* `encode_decode`: `EncodeToBytes` gives back what `DecodeBytes` accepted.
-/

namespace GethComments.Rlp

open GethComments.Rlp.Stream Option Outcome

mutual

def Typ.NoUnit : Typ → Prop
  | .byteArray _ n => n ≠ 1
  | .slice t => t.NoUnit
  | .array _ t => t.NoUnit
  | .struct _ fs => fs.NoUnit
  | .ptr t => t.NoUnit
  | .uint _ | .bool | .string | .bytes _ | .bigInt => True

def Fields.NoUnit : Fields → Prop
  | .nil => True
  | .cons _ t fs => t.NoUnit ∧ fs.NoUnit
  | .nilPtr _ _ t fs => t.NoUnit ∧ fs.NoUnit
  | .tail _ t => t.NoUnit

end

variable {α : Type} {s s' : Stream} {fuel : Nat}

/-! ## Simple types -/

variable {typ : String} {n : Nat} {f : ReadError → ReadError} {dec : Stream → Outcome α}
  {enc : α → Bytes} {good : α → Prop}

theorem wrapResult_eq_ok {res : Except ReadError α × Stream} {v : α}
    (h : wrapResult typ res = (.ok v, s')) : res = (.ok v, s') := by
  rcases res with ⟨e | a, s1⟩
  · cases h
  · exact h

theorem at_of_decodeUint {w : Width} {v : Fin (2 ^ w.bits)} (hk : s.kind = none)
    (h : decodeUint w s = (.ok v, s')) :
    s.At (encodeUint v.val) ∧ s'.core = s.core.skip (encodeUint v.val).length := by
  unfold decodeUint at h
  split at h
  · cases h
  case _ n s1 hres =>
    cases h
    have hbits : 256 ^ (w.bits / 8) = 2 ^ w.bits := by cases w <;> decide
    obtain ⟨hat, hpos, hlt⟩ := at_of_getUint (by cases w <;> decide) hk (wrapResult_eq_ok hres)
    rw [hbits] at hlt
    have hval : (Fin.ofNat (2 ^ w.bits) n).val = n := Nat.mod_eq_of_lt hlt
    rw [hval]
    exact ⟨hat, hpos⟩

theorem at_of_decodeBigInt {v : Option Int} (hk : s.kind = none)
    (h : decodeBigInt s = (.ok v, s')) :
    s.At (encodeUint (v.getD 0).toNat) ∧
      s'.core = s.core.skip (encodeUint (v.getD 0).toNat).length ∧ ∀ n, v = some n → 0 ≤ n := by
  unfold decodeBigInt at h
  split at h
  · cases h
  case _ b s1 hres =>
    split at h
    · cases h
    case isFalse hlead =>
      cases h
      obtain ⟨hat, hpos⟩ := at_of_getBytes hk (wrapResult_eq_ok hres)
      rw [getD_some, Int.toNat_natCast, encodeUint, bytes_setBytes hlead]
      refine ⟨hat, hpos, fun n hn => ?_⟩
      rw [← some.inj hn]
      exact Int.natCast_nonneg _

theorem at_of_decodeByteArray {v : { b : Bytes // b.length = n }} (hn : n ≠ 1) (hk : s.kind = none)
    (h : decodeByteArray typ n s = (.ok v, s')) :
    s.At (encodeString v.val) ∧ s'.core = s.core.skip (encodeString v.val).length := by
  unfold decodeByteArray at h
  dsimp only at h
  split at h
  · cases h
  · split at h
    · cases h
    · cases h
  case _ size s1 hnext =>
    split at h
    · cases h
    case isFalse hlt =>
      split at h
      · cases h
      case isFalse hgt =>
        obtain rfl : n = size := by omega
        split at h
        · cases h
        case _ b s2 hfull =>
          split at h
          · cases h
          case isFalse hcanon =>
            split at h
            case isTrue hlen =>
              cases h
              refine at_of_getBytes hk ?_
              rw [getBytes, hnext]
              simp only [hfull, if_neg hcanon]
            case isFalse => cases h
  · cases h

/-! ## Lists -/

/-- What a decoder returns was next. -/
def Sound (dec : Stream → Outcome α) (enc : α → Bytes) (good : α → Prop) : Prop :=
  ∀ (s : Stream) (v : α) (s' : Stream), s.kind = none → dec s = some (.ok v, s') →
    s.At (enc v) ∧ s'.core = s.core.skip (enc v).length ∧ good v

theorem sound_of_some {op : Stream → Except ReadError α × Stream}
    (h : ∀ {s v s'}, s.kind = none → op s = (.ok v, s') →
      s.At (enc v) ∧ s'.core = s.core.skip (enc v).length) :
    Sound (fun s => some (op s)) enc fun _ => True := by
  intro s v s' hk hop
  obtain ⟨hat, hpos⟩ := h hk (some.inj hop)
  exact ⟨hat, hpos, trivial⟩

/-- An end of the list leaves the stream where it is. -/
def Stays (dec : Stream → Outcome α) : Prop :=
  ∀ (s s' : Stream), s.kind = none → dec s = some (.error .eol, s') → s'.core = s.core

section Loops

variable {vs : List α} {i : Nat}

/-- The elements that a loop returns were next. -/
def ElemsAt (enc : α → Bytes) (good : α → Prop) (s : Stream) (vs : List α) (s' : Stream) : Prop :=
  s.At (vs.map enc).flatten ∧ s'.core = s.core.skip (vs.map enc).flatten.length ∧ ∀ v ∈ vs, good v

theorem elemsAt_nil (hk : s.kind = none) (hs : s'.core = s.core) : ElemsAt enc good s [] s' :=
  ⟨at_nil hk, hs.trans (core_skip_zero hk).symm, by simp⟩

variable (hdec : Sound dec enc good) (hstay : Stays dec) (hk : s.kind = none)
include hdec hstay hk

theorem elemsAt_nextElem {rest : Stream → Outcome (List α)}
    (hrest : ∀ s1 vs, s1.kind = none → rest s1 = some (.ok vs, s') → ElemsAt enc good s1 vs s')
    (h : nextElem (dec s) i rest = some (.ok vs, s')) : ElemsAt enc good s vs s' := by
  unfold nextElem at h
  split at h
  · cases h
  case _ s1 heol =>
    cases h
    exact elemsAt_nil hk (hstay s s' hk heol)
  · cases h
  case _ v s1 hv =>
    obtain ⟨vs', s2, hvs, hout⟩ := bindOk_eq_ok h
    cases hout
    obtain ⟨hat, hpos, hgood⟩ := hdec s v s1 hk hv
    obtain ⟨hat', hpos', hgood'⟩ := hrest s1 vs' (kind_of_skip hpos) hvs
    simp only [ElemsAt, List.map_cons, List.flatten_cons, List.length_append]
    refine ⟨hat.append hpos hat', skip_trans hpos hpos', ?_⟩
    simpa using ⟨hgood, hgood'⟩

theorem at_of_decodeSliceElems (h : decodeSliceElems dec fuel i s = some (.ok vs, s')) :
    ElemsAt enc good s vs s' := by
  induction fuel generalizing i s vs with
  | zero => cases h
  | succ fuel ih => exact elemsAt_nextElem hdec hstay hk (fun _ _ hk => ih hk) h

theorem at_of_decodeArrayElems {k : Nat} (h : decodeArrayElems dec k i s = some (.ok vs, s')) :
    ElemsAt enc good s vs s' := by
  induction k generalizing i s vs with
  | zero =>
    cases h
    exact elemsAt_nil hk rfl
  | succ k ih => exact elemsAt_nextElem hdec hstay hk (fun _ _ hk => ih hk) h

end Loops

theorem endList_eq_ok {v v' : α} (h : endList f v s = some (.ok v', s')) :
    s.listEnd = (.ok (), s') ∧ v' = v := by
  unfold endList at h
  split at h
  · cases h
  case _ s1 hend =>
    cases h
    exact ⟨hend, rfl⟩

theorem armed_of_list (hk : s.kind = none) (h : s.list = (.ok n, s')) : s'.kind = none := by
  obtain ⟨-, -, -, -, hpos, -⟩ := list_eq_ok hk h
  exact show s'.core.kind = none by rw [hpos]; rfl

theorem ElemsAt.list {vs : List α} {s1 s2 : Stream}
    (h : ElemsAt enc good s1 vs s2) (hk : s.kind = none) (hlist : s.list = (.ok n, s1))
    (hend : s2.listEnd = (.ok (), s')) :
    s.At (encodeList (vs.map enc)) ∧ s'.core = s.core.skip (encodeList (vs.map enc)).length ∧
      ∀ v ∈ vs, good v := by
  obtain ⟨hat1, hpos1, hgood⟩ := h
  obtain ⟨hat, hpos⟩ := at_of_list hk hlist hat1 hpos1 hend
  exact ⟨hat, hpos, hgood⟩

theorem at_of_decodeListSlice
    {vs : List α} (hdec : Sound dec enc good) (hstay : Stays dec) (hk : s.kind = none)
    (h : decodeListSlice fuel typ dec s = some (.ok vs, s')) :
    s.At (encodeList (vs.map enc)) ∧ s'.core = s.core.skip (encodeList (vs.map enc)).length ∧
      ∀ v ∈ vs, good v := by
  unfold decodeListSlice at h
  split at h
  · cases h
  case _ n s1 hlist =>
    have hk1 := armed_of_list hk hlist
    split at h
    · obtain ⟨hend, rfl⟩ := endList_eq_ok h
      exact (elemsAt_nil hk1 rfl).list hk hlist hend
    · obtain ⟨vs', s2, hvs, hout⟩ := bindOk_eq_ok h
      obtain ⟨hend, rfl⟩ := endList_eq_ok hout
      exact (at_of_decodeSliceElems hdec hstay hk1 hvs).list hk hlist hend

theorem at_of_decodeListArray
    {vs : { l : List α // l.length = n }} (hdec : Sound dec enc good) (hstay : Stays dec)
    (hk : s.kind = none) (h : decodeListArray n typ dec s = some (.ok vs, s')) :
    s.At (encodeList (vs.val.map enc)) ∧
      s'.core = s.core.skip (encodeList (vs.val.map enc)).length ∧ ∀ v ∈ vs.val, good v := by
  unfold decodeListArray at h
  split at h
  · cases h
  case _ m s1 hlist =>
    have hk1 := armed_of_list hk hlist
    obtain ⟨vs', s2, hvs, hout⟩ := bindOk_eq_ok h
    split at hout
    · obtain ⟨hend, rfl⟩ := endList_eq_ok hout
      exact (at_of_decodeArrayElems hdec hstay hk1 hvs).list hk hlist hend
    · cases hout

/-! ## All types -/

/-! ### `EOL` comes from the end of a list only -/

theorem addContext_ne_eol {place : String} {e : ReadError} (h : e ≠ .eol) :
    e.addContext place ≠ .eol := by
  cases e <;> simp_all [ReadError.addContext]

theorem fieldError_ne_eol (struct name : String) (e : ReadError) :
    fieldError struct name e ≠ .eol := by
  cases e <;> simp [fieldError, ReadError.addContext]

theorem listEnd_ne_eol : s.listEnd.1 ≠ .error .eol := by
  unfold listEnd
  repeat' split
  all_goals simp

/-- The outcome is not the end of a list. -/
def Outcome.NotEol (d : Outcome α) : Prop := ∀ s, d ≠ some (.error .eol, s)

theorem notEol_some {res : Except ReadError α × Stream} (h : res.1 ≠ .error .eol) :
    Outcome.NotEol (some res) := by
  intro s heq
  rw [some.inj heq] at h
  exact h rfl

theorem notEol_bindOk {β : Type} {d : Outcome α} {f : α → Stream → Outcome β} (hd : d.NotEol)
    (hf : ∀ a s, (f a s).NotEol) : (d.bindOk f).NotEol := by
  rcases d with - | ⟨e | a, s1⟩
  · exact fun s h => nomatch h
  · intro s h
    cases h
    exact hd _ rfl
  · exact hf a s1

theorem notEol_mapError (hf : ∀ e, f e ≠ .eol) (d : Outcome α) : (d.mapError f).NotEol := by
  rcases d with - | ⟨e | a, s1⟩
  · exact fun s h => nomatch h
  · exact notEol_some (by simpa [Except.mapError] using hf e)
  · exact notEol_some (by simp [Except.mapError])

theorem notEol_endList (hf : ∀ e, e ≠ .eol → f e ≠ .eol) (v : α) : (endList f v s).NotEol := by
  have hend := @listEnd_ne_eol s
  unfold endList
  split
  case _ e s1 h =>
    rw [h] at hend
    exact notEol_some (by simpa using hf e (by simpa using hend))
  · exact notEol_some (by simp)

theorem notEol_nextElem {d : Outcome α} {i : Nat} {rest : Stream → Outcome (List α)}
    (hrest : ∀ s, (rest s).NotEol) : (nextElem d i rest).NotEol := by
  unfold nextElem
  split
  · exact fun s h => nomatch h
  · exact notEol_some (by simp)
  case _ e s1 hne => exact notEol_some (by simpa using addContext_ne_eol hne)
  · exact notEol_bindOk (hrest _) fun a s => notEol_some (by simp)

theorem notEol_decodeSliceElems (dec : Stream → Outcome α) (fuel i : Nat) :
    (decodeSliceElems dec fuel i s).NotEol := by
  induction fuel generalizing i s with
  | zero => exact fun s h => nomatch h
  | succ fuel ih => exact notEol_nextElem fun _ => ih _

theorem notEol_decodeArrayElems (dec : Stream → Outcome α) (k i : Nat) :
    (decodeArrayElems dec k i s).NotEol := by
  induction k generalizing i s with
  | zero => exact notEol_some (by simp)
  | succ k ih => exact notEol_nextElem fun _ => ih _

section

variable (hk : s.kind = none) (hend : ¬ s.AtEnd)

include hk hend

theorem notEol_list {e : ReadError} (h : s.list = (.error e, s')) :
    Outcome.NotEol (some (.error (e.wrap typ), s') : Outcome α) := by
  have hlist := list_decodes.notEol hk hend
  rw [h] at hlist
  exact notEol_some (by simpa using wrap_ne_eol (by simpa using hlist))

theorem notEol_decodeListSlice (typ : String) (dec : Stream → Outcome α) :
    (decodeListSlice fuel typ dec s).NotEol := by
  unfold decodeListSlice
  split
  case _ e s1 h => exact notEol_list hk hend h
  · split
    · exact notEol_endList (fun _ h => h) _
    · exact notEol_bindOk (notEol_decodeSliceElems _ _ _)
        fun _ _ => notEol_endList (fun _ h => h) _

theorem notEol_decodeListArray (n : Nat) (typ : String) (dec : Stream → Outcome α) :
    (decodeListArray n typ dec s).NotEol := by
  unfold decodeListArray
  split
  case _ e s1 h => exact notEol_list hk hend h
  · refine notEol_bindOk (notEol_decodeArrayElems _ _ _) fun vs s => ?_
    split
    · exact notEol_endList (fun _ h => wrap_ne_eol h) _
    · exact notEol_some (by simp)

end

theorem Fields.notEol : (fs : Fields) → (struct : String) → (s : Stream) →
    (fs.decode fuel struct s).NotEol
  | .nil, _, s => notEol_some (by simp)
  | .cons name t fs, struct, s =>
    notEol_bindOk (notEol_mapError (fieldError_ne_eol struct name) _) fun _ s =>
      notEol_bindOk (Fields.notEol fs struct s) fun _ _ => notEol_some (by simp)
  | .nilPtr name kind t fs, struct, s =>
    notEol_bindOk (notEol_mapError (fieldError_ne_eol struct name) _) fun _ s =>
      notEol_bindOk (Fields.notEol fs struct s) fun _ _ => notEol_some (by simp)
  | .tail name t, struct, s => notEol_mapError (fieldError_ne_eol struct name) _

theorem Typ.notEol (hk : s.kind = none) (hend : ¬ s.AtEnd) : (t : Typ) → (t.decode fuel s).NotEol
  | .uint w => notEol_some ((decodeUint_decodes w).notEol hk hend)
  | .bool => notEol_some ((wrapResult_decodes getBool_decodes).notEol hk hend)
  | .string => notEol_some ((wrapResult_decodes getBytes_decodes).notEol hk hend)
  | .bytes _ => notEol_some ((wrapResult_decodes getBytes_decodes).notEol hk hend)
  | .bigInt => notEol_some (decodeBigInt_decodes.notEol hk hend)
  | .byteArray _ n => notEol_some (decodeByteArray_ne_eol hk hend n)
  | .slice t => notEol_decodeListSlice hk hend _ _
  | .array n t => notEol_decodeListArray hk hend _ _ _
  | .struct name fs => by
    simp only [Typ.decode]
    split
    case _ e s1 h => exact notEol_list hk hend h
    · exact notEol_bindOk (fs.notEol name _) fun _ _ => notEol_endList (fun _ h => wrap_ne_eol h) _
  | .ptr t => notEol_bindOk (Typ.notEol hk hend t) fun _ _ => notEol_some (fun h => nomatch h)

theorem Typ.stays (t : Typ) : Stays fun s => t.decode fuel s := by
  intro s s' hk h
  by_cases hend : s.AtEnd
  · cases (t.decode_of_atEnd hk hend).symm.trans h
    rfl
  · exact absurd h (t.notEol hk hend s')

/-! ### What was next -/

theorem at_of_decodeNilPtr {k : NilKind} {v : Option α} (hdec : Sound dec enc good)
    (hsame : ∀ s s' x, s.nextKind = (.ok x, s') → dec s' = dec s) (hk : s.kind = none)
    (h : decodeNilPtr typ k dec s = some (.ok v, s')) :
    s.At (v.elim k.encode enc) ∧ s'.core = s.core.skip (v.elim k.encode enc).length ∧
      ∀ u, v = some u → good u := by
  unfold decodeNilPtr at h
  split at h
  · cases h
  case _ kind size s1 hnext =>
    split at h
    case isTrue hempty =>
      obtain ⟨hne, rfl⟩ := hempty
      split at h
      · cases h
      case isFalse hkind =>
        cases h
        rcases nextKind_eq_ok hk hnext with ⟨_, _, _, _, _, rfl, -⟩ |
          ⟨rest, -, -, hroom, hr, ha, -⟩
        · exact absurd rfl hne
        · have henc : putHead (smallTag kind) (largeTag kind) 0 = k.encode := by
            rw [not_not.mp hkind]
            cases k <;> rfl
          rw [henc] at hr
          refine ⟨⟨hk, ?_, rest, hr⟩, ?_, by simp⟩
          · have hlen : k.encode.length = headsize 0 := by rw [← henc, length_putHead]
            rw [elim_none, hlen]
            exact hroom
          · rw [← skip_zero, ha.pos, elim_none, ← henc, length_putHead]
    case isFalse =>
      obtain ⟨u, s2, hu, hout⟩ := bindOk_eq_ok h
      cases hout
      rw [hsame s s1 _ hnext] at hu
      obtain ⟨hat, hpos, hgood⟩ := hdec s u s' hk hu
      exact ⟨hat, hpos, fun w hw => some.inj hw ▸ hgood⟩

mutual

theorem Typ.sound : (t : Typ) → t.NoUnit →
    Sound (fun s => t.decode fuel s) (fun v => t.encode v) (fun v => t.NonNeg v)
  | .uint _, _ => sound_of_some at_of_decodeUint
  | .bool, _ => sound_of_some fun hk h => at_of_getBool hk (wrapResult_eq_ok h)
  | .string, _ => sound_of_some fun hk h => at_of_getBytes hk (wrapResult_eq_ok h)
  | .bytes _, _ => sound_of_some fun hk h => at_of_getBytes hk (wrapResult_eq_ok h)
  | .bigInt, _ => fun s v s' hk h => at_of_decodeBigInt hk (some.inj h)
  | .byteArray _ _, hn => sound_of_some fun hk h => at_of_decodeByteArray hn hk h
  | .slice t, hn => fun s v s' hk h => at_of_decodeListSlice (Typ.sound t hn) t.stays hk h
  | .array _ t, hn => fun s v s' hk h => at_of_decodeListArray (Typ.sound t hn) t.stays hk h
  | .struct name fs, hn => fun s v s' hk h => by
    simp only [Typ.decode] at h
    split at h
    · cases h
    case _ n s1 hlist =>
      obtain ⟨v', s2, hv, hout⟩ := bindOk_eq_ok h
      obtain ⟨hend, rfl⟩ := endList_eq_ok hout
      obtain ⟨hat1, hpos1, hneg⟩ := Fields.sound fs hn name s1 _ s2 (armed_of_list hk hlist) hv
      obtain ⟨hat, hpos⟩ := at_of_list hk hlist hat1 hpos1 hend
      exact ⟨hat, hpos, hneg⟩
  | .ptr t, hn => fun s v s' hk h => by
    obtain ⟨u, s1, hu, hout⟩ := bindOk_eq_ok h
    cases hout
    obtain ⟨hat, hpos, hneg⟩ := Typ.sound t hn s u s' hk hu
    exact ⟨hat, hpos, fun w hw => some.inj hw ▸ hneg⟩

theorem Fields.sound : (fs : Fields) → fs.NoUnit → (struct : String) →
    Sound (fun s => fs.decode fuel struct s) (fun v => (fs.encode v).flatten)
      (fun v => fs.NonNeg v)
  | .nil, _, _ => fun s v s' hk h => by
    cases h
    exact ⟨at_nil hk, (core_skip_zero hk).symm, trivial⟩
  | .cons name t fs, hn, struct => fun s v s' hk h => by
    obtain ⟨u, s1, hu, hrest⟩ := bindOk_eq_ok h
    obtain ⟨vs, s2, hvs, hout⟩ := bindOk_eq_ok hrest
    cases hout
    obtain ⟨hat, hpos, hneg⟩ := Typ.sound t hn.1 s u s1 hk (mapError_eq_ok.mp hu)
    obtain ⟨hat', hpos', hneg'⟩ := Fields.sound fs hn.2 struct s1 vs s' (kind_of_skip hpos) hvs
    simp only [Fields.encode, List.flatten_cons, List.length_append]
    exact ⟨hat.append hpos hat', skip_trans hpos hpos', hneg, hneg'⟩
  | .nilPtr name kind t fs, hn, struct => fun s v s' hk h => by
    obtain ⟨u, s1, hu, hrest⟩ := bindOk_eq_ok h
    obtain ⟨vs, s2, hvs, hout⟩ := bindOk_eq_ok hrest
    cases hout
    obtain ⟨hat, hpos, hneg⟩ := at_of_decodeNilPtr (Typ.sound t hn.1)
      (fun s s' x hx => t.decode_of_nextKind hx) hk (mapError_eq_ok.mp hu)
    obtain ⟨hat', hpos', hneg'⟩ := Fields.sound fs hn.2 struct s1 vs s' (kind_of_skip hpos) hvs
    simp only [Fields.encode_nilPtr, List.flatten_cons, List.length_append]
    exact ⟨hat.append hpos hat', skip_trans hpos hpos', hneg, hneg'⟩
  | .tail name t, hn, struct => fun s v s' hk h =>
    at_of_decodeSliceElems (Typ.sound t hn) t.stays hk (mapError_eq_ok.mp h)

end

/-- What `DecodeBytes` accepts is what `EncodeToBytes` makes of the value, so that a value has only
one input. -/
theorem encode_decode (t : Typ) (ht : t.NoUnit) (fuel : Nat) (b : Bytes) (v : t.Val)
    (h : decodeBytes fuel t b = some (.ok v)) :
    encodeToBytes t v = .ok b ∧ ∀ fuel' b', decodeBytes fuel' t b' = some (.ok v) → b' = b := by
  have hone : ∀ fuel b, decodeBytes fuel t b = some (.ok v) → encodeToBytes t v = .ok b := by
    intro fuel b h
    unfold decodeBytes at h
    split at h
    · cases h
    · cases h
    case _ v' s' hdec =>
      split at h
      · cases h
      case isFalse hempty =>
        cases h
        obtain ⟨hat, hpos, hneg⟩ := t.sound ht _ v s' rfl (mapError_eq_ok.mp hdec)
        obtain ⟨rest, hr⟩ := hat.input
        have hb : b = t.encode v ++ rest := hr
        have hrest : s'.core.r = ((Stream.reset b (some b.length)).core.skip
          (t.encode v).length).r := by rw [hpos]
        have hnil : rest = [] := by
          have hs' : s'.r = rest := by simpa [core, skip, Stream.reset, hb] using hrest
          rw [← hs', ← List.length_eq_zero_iff]
          omega
        rw [encodeToBytes_eq t v hneg, hb, hnil, List.append_nil]
  refine ⟨hone fuel b h, fun fuel' b' h' => ?_⟩
  have heq := hone fuel' b' h'
  rw [hone fuel b h] at heq
  exact (Except.ok.inj heq).symm

/-- The first fields of a transaction whose recipient may be missing. -/
def callTyp : Typ :=
  .struct "types.txdata" (.cons "AccountNonce" (.uint .w64)
    (.nilPtr "Recipient" .string (.byteArray "common.Address" 20)
      (.cons "Payload" (.bytes "[]uint8") .nil)))

def creationVal : callTyp.Val :=
  ((0 : Fin (2 ^ 64)), (none : Option { b : Bytes // b.length = 20 }), ([200] : Bytes), ())

instance : DecidableEq callTyp.Val :=
  inferInstanceAs (DecidableEq (Fin (2 ^ 64) × Option { b : Bytes // b.length = 20 } ×
    Bytes × Unit))

theorem encode_decode_creation :
    decodeBytes 9 callTyp [0xc4, 0x80, 0x80, 0x81, 0xc8] = some (.ok creationVal) ∧
      encodeToBytes callTyp creationVal = .ok [0xc4, 0x80, 0x80, 0x81, 0xc8] := by
  have hdec : decodeBytes 9 callTyp [0xc4, 0x80, 0x80, 0x81, 0xc8] = some (.ok creationVal) := by
    decide
  have hunit : callTyp.NoUnit := by simp [callTyp, Typ.NoUnit, Fields.NoUnit]
  exact ⟨hdec, (encode_decode callTyp hunit 9 _ creationVal hdec).1⟩

end GethComments.Rlp
