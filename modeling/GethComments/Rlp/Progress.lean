import GethComments.Rlp.Canonical
import Mathlib.Logic.Relation

/-!
# Decoding stops

Every decoder leaves the reader at a later place, and one that returns a value has used up input.
So the loop over the elements of a slice ends, except where the elements are byte arrays of
length 1: the decoder for these drops the error of a zero byte and leaves it ahead.

* `Typ.steps`, `Typ.settles`: all decoders go forward, and stop with enough fuel;
* `decoding_stops`, `unit_arrays_never_stop`.
-/

namespace GethComments.Rlp

open GethComments.Rlp.Stream

/-- The decoder of the type takes a value off the stream whenever it returns one. -/
def Typ.Rearms : Typ → Prop
  | .byteArray _ n => n ≠ 1
  | .ptr t => t.Rearms
  | .uint _ | .bool | .string | .bytes _ | .bigInt | .slice _ | .array _ _ | .struct _ _ => True

def Fields.IsTail : Fields → Prop
  | .tail _ _ => True
  | .nil | .cons _ _ _ | .nilPtr _ _ _ _ => False

mutual

/-- Every loop over elements starts where no header is ahead, and so does each of its rounds. -/
def Typ.Progresses : Typ → Prop
  | .slice t => t.Rearms ∧ t.Progresses
  | .array _ t => t.Progresses
  | .struct _ fs => fs.Progresses
  | .ptr t => t.Progresses
  | .uint _ | .bool | .string | .bytes _ | .bigInt | .byteArray _ _ => True

def Fields.Progresses : Fields → Prop
  | .nil => True
  | .cons _ t fs => t.Progresses ∧ (fs.IsTail → t.Rearms) ∧ fs.Progresses
  | .nilPtr _ _ t fs => t.Progresses ∧ (fs.IsTail → t.Rearms) ∧ fs.Progresses
  | .tail _ t => t.Rearms ∧ t.Progresses

end

variable {α β : Type} {s s' s₁ : Stream} {fuel n L : Nat}

/-! ## Decoders go forward -/

/-- After something has been taken, it is enough to go forward to where no header is ahead. -/
theorem Takes.trans {v : β} {res : Except ReadError α × Stream}
    (h1 : Takes s ((.ok v, s₁) : Except _ β × _)) (h : Forward s₁ res.2)
    (hk : ∀ v, res.1 = .ok v → res.2.kind = none) : Takes s res :=
  ⟨h1.forward.trans h, hk, fun _ _ => h.le.trans_lt (h1.lt _ rfl)⟩

/-- Whatever a decoder leaves, it went forward. -/
def Outcome.Goes (s : Stream) (d : Outcome α) : Prop := ∀ res ∈ d, Forward s res.2

theorem goes_some {res : Except ReadError α × Stream} (h : Forward s res.2) :
    Outcome.Goes s (some res) := by
  rintro res ⟨⟩
  exact h

theorem goes_bindOk {d : Outcome α} {f : α → Stream → Outcome β} (hd : d.Goes s)
    (hf : ∀ a s₁, (f a s₁).Goes s₁) : (d.bindOk f).Goes s := by
  intro res hres
  rcases d with - | ⟨e | a, s₁⟩
  · cases hres
  · cases hres
    exact hd _ rfl
  · exact (hd _ rfl).trans (hf a s₁ res hres)

theorem goes_mapError {d : Outcome α} {g : ReadError → ReadError} (hd : d.Goes s) :
    (d.mapError g).Goes s := by
  intro res hres
  rcases d with - | ⟨e | a, s₁⟩
  · cases hres
  · cases hres
    exact hd (.error e, s₁) rfl
  · cases hres
    exact hd (.ok a, s₁) rfl

/-- It went forward, and with a value no header is ahead. -/
def Outcome.Closes (s : Stream) (d : Outcome α) : Prop :=
  ∀ res ∈ d, Forward s res.2 ∧ ∀ v, res.1 = .ok v → res.2.kind = none

theorem closes_error {e : ReadError} : Outcome.Closes s (some (.error e, s) : Outcome α) := by
  rintro res ⟨⟩
  exact ⟨Forward.refl s, fun _ h => nomatch h⟩

theorem endList_closes {f : ReadError → ReadError} {v : α} : (endList f v s).Closes s := by
  unfold endList listEnd
  split
  case _ e s₁ hend =>
    have hs : s = s₁ := by
      split at hend
      · cases hend
        rfl
      · split at hend
        · cases hend
          rfl
        · cases hend
    subst hs
    exact closes_error
  case _ s₁ hend =>
    rintro res ⟨⟩
    split at hend
    · cases hend
    · split at hend
      · cases hend
      · cases hend
        exact ⟨forward_of_armed List.suffix_rfl rfl, fun _ _ => rfl⟩

theorem list_error_takes {e : ReadError} {typ : String} (h : s.list = (.error e, s₁)) :
    ∀ res ∈ (some (.error (e.wrap typ), s₁) : Outcome α), Takes s res := by
  rintro res ⟨⟩
  have htake := @list_decodes s
  rw [h] at htake
  exact takes_error htake.forward

theorem body_takes {d : Outcome α} {f : α → Stream → Outcome β} (h : s.list = (.ok n, s₁))
    (hd : d.Goes s₁) (hf : ∀ a s2, (f a s2).Closes s2) : ∀ res ∈ d.bindOk f, Takes s res := by
  have htake : Takes s (.ok n, s₁) := h ▸ (@list_decodes s).toTakes
  intro res hres
  rcases d with - | ⟨e | a, s2⟩
  · cases hres
  · cases hres
    exact takes_error (htake.forward.trans (hd _ rfl))
  · obtain ⟨hfwd, hk⟩ := hf a s2 res hres
    exact htake.trans ((hd _ rfl).trans hfwd) hk

section Loops

variable {dec : Stream → Outcome α}

theorem goes_nextElem {d : Outcome α} {i : Nat} {rest : Stream → Outcome (List α)} (hd : d.Goes s)
    (hrest : ∀ s, (rest s).Goes s) : (nextElem d i rest).Goes s := by
  unfold nextElem
  split
  · exact fun res hres => nomatch hres
  · exact goes_some (hd _ rfl)
  · exact goes_some (hd _ rfl)
  · intro res hres
    exact (hd _ rfl).trans
      (goes_bindOk (hrest _) (fun _ s => goes_some (Forward.refl s)) res hres)

section

variable (hdec : ∀ s, (dec s).Goes s)

include hdec

theorem decodeSliceElems_goes (fuel i : Nat) (s : Stream) :
    (decodeSliceElems dec fuel i s).Goes s := by
  induction fuel generalizing i s with
  | zero => exact fun res hres => nomatch hres
  | succ fuel ih => exact goes_nextElem (hdec s) (ih (i + 1))

theorem decodeArrayElems_goes (k i : Nat) (s : Stream) : (decodeArrayElems dec k i s).Goes s := by
  induction k generalizing i s with
  | zero => exact goes_some (Forward.refl s)
  | succ k ih => exact goes_nextElem (hdec s) (ih (i + 1))

theorem decodeListSlice_takes (typ : String) :
    ∀ res ∈ decodeListSlice fuel typ dec s, Takes s res := by
  unfold decodeListSlice
  split
  case _ e s₁ h => exact list_error_takes h
  case _ m s₁ h =>
    split
    · exact body_takes (d := some (.ok (), s₁)) (f := fun _ s => endList id [] s) h
        (goes_some (Forward.refl s₁)) (fun _ _ => endList_closes)
    · exact body_takes h (decodeSliceElems_goes hdec fuel 0 s₁) (fun _ _ => endList_closes)

theorem decodeListArray_takes (n : Nat) (typ : String) :
    ∀ res ∈ decodeListArray n typ dec s, Takes s res := by
  unfold decodeListArray
  split
  case _ e s₁ h => exact list_error_takes h
  case _ m s₁ h =>
    refine body_takes h (decodeArrayElems_goes hdec n 0 s₁) fun vs s2 => ?_
    split
    · exact endList_closes
    · exact closes_error

theorem decodeNilPtr_goes (typ : String) (k : NilKind) : (decodeNilPtr typ k dec s).Goes s := by
  unfold decodeNilPtr
  split
  case _ e s₁ h => exact goes_some (nextKind_forward h)
  case _ kind size s₁ h =>
    split
    · split
      · exact goes_some (nextKind_forward h)
      · exact goes_some ((nextKind_forward h).trans (forward_of_armed List.suffix_rfl rfl))
    · intro res hres
      exact (nextKind_forward h).trans
        (goes_bindOk (hdec s₁) (fun _ s => goes_some (Forward.refl s)) res hres)

end

end Loops

theorem takes_bindOk {d : Outcome α} {f : α → β} (hd : ∀ res ∈ d, Takes s res) :
    ∀ res ∈ d.bindOk fun v s => some (.ok (f v), s), Takes s res := by
  intro res hres
  rcases d with - | ⟨e | a, s₁⟩
  · cases hres
  · cases hres
    exact takes_error (hd _ rfl).forward
  · cases hres
    exact (hd _ rfl).ok

/-- A decoder goes forward from every stream, and takes a value if `p`. -/
structure Steps (p : Prop) (dec : Stream → Outcome α) : Prop where
  goes : ∀ s, (dec s).Goes s
  takes : p → ∀ s, ∀ res ∈ dec s, Takes s res

theorem steps_of_takes {p : Prop} {dec : Stream → Outcome α}
    (h : ∀ s, ∀ res ∈ dec s, Takes s res) : Steps p dec :=
  ⟨fun s res hres => (h s res hres).forward, fun _ => h⟩

theorem steps_of_some {p : Prop} {op : Stream → Except ReadError α × Stream}
    (h : ∀ s, Takes s (op s)) : Steps p fun s => some (op s) := by
  refine steps_of_takes fun s => ?_
  rintro res ⟨⟩
  exact h s

mutual

theorem Typ.steps : (t : Typ) → Steps t.Rearms fun s => t.decode fuel s
  | .uint w => steps_of_some fun _ => (decodeUint_decodes w).toTakes
  | .bool => steps_of_some fun _ => (wrapResult_decodes getBool_decodes).toTakes
  | .string | .bytes _ => steps_of_some fun _ => (wrapResult_decodes getBytes_decodes).toTakes
  | .bigInt => steps_of_some fun _ => decodeBigInt_decodes.toTakes
  | .byteArray _ n => by
    refine ⟨fun s => goes_some (decodeByteArray_forward n), fun hn s => ?_⟩
    rintro res ⟨⟩
    exact decodeByteArray_takes hn
  | .slice t => steps_of_takes fun _ => decodeListSlice_takes t.steps.goes _
  | .array n t => steps_of_takes fun _ => decodeListArray_takes t.steps.goes n _
  | .struct name fs => by
    refine steps_of_takes fun s => ?_
    rw [Typ.decode]
    split
    case _ e s₁ h => exact list_error_takes h
    case _ m s₁ h => exact body_takes h (fs.goes name s₁) fun _ _ => endList_closes
  | .ptr t =>
    ⟨fun s => goes_bindOk (t.steps.goes s) fun _ s => goes_some (Forward.refl s),
      fun ht s => takes_bindOk (t.steps.takes ht s)⟩

theorem Fields.goes : (fs : Fields) → (struct : String) → (s : Stream) →
    (fs.decode fuel struct s).Goes s
  | .nil, _, s => goes_some (Forward.refl s)
  | .cons _ t fs, struct, s =>
    goes_bindOk (goes_mapError (t.steps.goes s)) fun _ s =>
      goes_bindOk (fs.goes struct s) fun _ s => goes_some (Forward.refl s)
  | .nilPtr _ k t fs, struct, _ =>
    goes_bindOk (goes_mapError (decodeNilPtr_goes t.steps.goes _ k)) fun _ s =>
      goes_bindOk (fs.goes struct s) fun _ s => goes_some (Forward.refl s)
  | .tail _ t, _, s => goes_mapError (decodeSliceElems_goes t.steps.goes fuel 0 s)

end

/-! ## Decoders stop -/

/-- With more fuel than `L` there is a result, always the same. -/
def Settles (L : Nat) (d : Nat → Outcome α) : Prop := ∃ res, ∀ fuel, L < fuel → d fuel = some res

theorem settles_some (res : Except ReadError α × Stream) : Settles L fun _ => some res :=
  ⟨res, fun _ _ => rfl⟩

theorem Settles.mono {d : Nat → Outcome α} {L' : Nat} (h : Settles L d) (hle : L ≤ L') :
    Settles L' d := by
  obtain ⟨res, hres⟩ := h
  exact ⟨res, fun fuel hlt => hres fuel (hle.trans_lt hlt)⟩

theorem settles_bindOk {d : Nat → Outcome α} {f : Nat → α → Stream → Outcome β}
    (hd : Settles L d) (hf : ∀ a s₁, d (L + 1) = some (.ok a, s₁) → Settles L (f · a s₁)) :
    Settles L fun fuel => (d fuel).bindOk (f fuel) := by
  obtain ⟨⟨e | a, s₁⟩, hres⟩ := hd
  · refine ⟨(.error e, s₁), fun fuel hlt => ?_⟩
    simp only [hres fuel hlt, Outcome.bindOk]
  · obtain ⟨res, hres'⟩ := hf a s₁ (hres _ (Nat.lt_succ_self L))
    refine ⟨res, fun fuel hlt => ?_⟩
    simpa only [hres fuel hlt, Outcome.bindOk] using hres' fuel hlt

theorem settles_mapError {d : Nat → Outcome α} {g : ReadError → ReadError} (hd : Settles L d) :
    Settles L fun fuel => (d fuel).mapError g := by
  obtain ⟨res, hres⟩ := hd
  refine ⟨(res.1.mapError g, res.2), fun fuel hlt => ?_⟩
  simp only [hres fuel hlt, Outcome.mapError, Option.map_some]

theorem settles_endList {f : ReadError → ReadError} {v : α} : Settles L fun _ => endList f v s := by
  unfold endList
  split <;> exact settles_some _

section Loops

variable {dec : Nat → Stream → Outcome α}

/-- The loop over the elements of a slice. Each round takes an element off, so that `left` is an
upper bound of the number of rounds; the elements themselves are decoded with fuel `F`. -/
theorem settles_decodeSliceElems (hdec : ∀ s, Settles s.left (dec · s))
    (htakes : ∀ fuel s, ∀ res ∈ dec fuel s, Takes s res) (i : Nat) (s : Stream) :
    ∃ res, ∀ F fuel, s.left < F → s.left < fuel → decodeSliceElems (dec F) fuel i s = some res := by
  induction hL : s.left using Nat.strong_induction_on generalizing i s with
  | _ L ih =>
    subst hL
    obtain ⟨⟨e | v, s₁⟩, hres⟩ := hdec s
    · by_cases he : e = .eol
      · subst he
        refine ⟨(.ok [], s₁), fun F fuel hF hfuel => ?_⟩
        obtain ⟨fuel, rfl⟩ := Nat.exists_eq_add_of_lt hfuel
        simp [decodeSliceElems, hres F hF]
      · refine ⟨(.error (e.addContext ("[" ++ toString i ++ "]")), s₁), fun F fuel hF hfuel => ?_⟩
        obtain ⟨fuel, rfl⟩ := Nat.exists_eq_add_of_lt hfuel
        simp [decodeSliceElems, hres F hF]
    · have hlt : s₁.left < s.left := by
        have := htakes (s.left + 1) s _ (hres _ (Nat.lt_succ_self _))
        exact this.lt v rfl
      obtain ⟨res, hloop⟩ := ih s₁.left hlt (i + 1) s₁ rfl
      refine ⟨(res.1.map (v :: ·), res.2), fun F fuel hF hfuel => ?_⟩
      obtain ⟨fuel, rfl⟩ := Nat.exists_eq_add_of_lt hfuel
      have hrest := hloop F (s.left + fuel) (hlt.trans hF) (by omega)
      simp only [decodeSliceElems, hres F hF, hrest]
      rcases res with ⟨e | vs, s2⟩ <;> rfl

theorem settles_decodeArrayElems (hdec : ∀ s, Settles s.left (dec · s))
    (hgoes : ∀ fuel s, (dec fuel s).Goes s) (k i : Nat) (s : Stream) :
    Settles s.left fun fuel => decodeArrayElems (dec fuel) k i s := by
  induction k generalizing i s with
  | zero => exact settles_some _
  | succ k ih =>
    obtain ⟨⟨e | v, s₁⟩, hres⟩ := hdec s
    · by_cases he : e = .eol
      · subst he
        exact ⟨(.ok [], s₁), fun fuel hlt => by simp [decodeArrayElems, hres fuel hlt]⟩
      · exact ⟨(.error (e.addContext ("[" ++ toString i ++ "]")), s₁), fun fuel hlt => by
          simp [decodeArrayElems, hres fuel hlt]⟩
    · have hle : s₁.left ≤ s.left := (hgoes _ _ _ (hres _ (Nat.lt_succ_self _))).le
      obtain ⟨res, hloop⟩ := settles_bindOk ((ih (i + 1) s₁).mono hle)
        (f := fun _ vs s => some (.ok (v :: vs), s)) fun vs s2 _ => settles_some _
      refine ⟨res, fun fuel hlt => ?_⟩
      simp only [decodeArrayElems, hres fuel hlt]
      exact hloop fuel hlt

theorem left_of_list (h : s.list = (.ok n, s₁)) : s₁.left ≤ s.left := by
  have htake := @list_decodes s
  rw [h] at htake
  exact htake.forward.le

section

variable (hdec : ∀ s, Settles s.left (dec · s))

include hdec

theorem settles_decodeListSlice (htakes : ∀ fuel s, ∀ res ∈ dec fuel s, Takes s res) (typ : String)
    (s : Stream) :
    Settles s.left fun fuel => decodeListSlice fuel typ (dec fuel) s := by
  unfold decodeListSlice
  split
  · exact settles_some _
  case _ m s₁ h =>
    split
    · exact settles_endList
    · obtain ⟨res, hres⟩ := settles_decodeSliceElems hdec htakes 0 s₁
      have hloop : Settles s₁.left fun fuel => decodeSliceElems (dec fuel) fuel 0 s₁ :=
        ⟨res, fun fuel hlt => hres fuel fuel hlt hlt⟩
      exact settles_bindOk (hloop.mono (left_of_list h)) fun vs s2 _ => settles_endList

theorem settles_decodeListArray (hgoes : ∀ fuel s, (dec fuel s).Goes s) (n : Nat) (typ : String)
    (s : Stream) :
    Settles s.left fun fuel => decodeListArray n typ (dec fuel) s := by
  unfold decodeListArray
  split
  · exact settles_some _
  case _ m s₁ h =>
    refine settles_bindOk ((settles_decodeArrayElems hdec hgoes n 0 s₁).mono (left_of_list h))
      fun vs s2 _ => ?_
    split
    · exact settles_endList
    · exact settles_some _

theorem settles_decodeNilPtr (typ : String) (k : NilKind) (s : Stream) :
    Settles s.left fun fuel => decodeNilPtr typ k (dec fuel) s := by
  unfold decodeNilPtr
  split
  · exact settles_some _
  case _ kind size s₁ h =>
    split
    · split <;> exact settles_some _
    · exact settles_bindOk ((hdec s₁).mono (nextKind_forward h).le) fun v s2 _ => settles_some _

end

end Loops

theorem Outcome.Goes.left {d : Outcome α} {v : α} (h : d.Goes s) (hd : d = some (.ok v, s')) :
    s'.left ≤ s.left :=
  (h _ hd).le

mutual

theorem Typ.settles : (t : Typ) → t.Progresses → (s : Stream) →
    Settles s.left fun fuel => t.decode fuel s
  | .uint _, _, _ | .bool, _, _ | .string, _, _ | .bytes _, _, _ | .bigInt, _, _
  | .byteArray _ _, _, _ => settles_some _
  | .slice t, h, s =>
    settles_decodeListSlice (t.settles h.2) (fun _ => t.steps.takes h.1) _ s
  | .array n t, h, s =>
    settles_decodeListArray (t.settles h) (fun _ => t.steps.goes) n _ s
  | .struct name fs, h, s => by
    simp only [Typ.decode]
    split
    · exact settles_some _
    case _ m s₁ hlist =>
      exact settles_bindOk ((fs.settles h name s₁).mono (left_of_list hlist))
        fun v s2 _ => settles_endList
  | .ptr t, h, s => settles_bindOk (t.settles h s) fun _ _ _ => settles_some _

theorem Fields.settles : (fs : Fields) → fs.Progresses → (struct : String) → (s : Stream) →
    Settles s.left fun fuel => fs.decode fuel struct s
  | .nil, _, _, _ => settles_some _
  | .cons name t fs, h, struct, s => by
    refine settles_bindOk (settles_mapError (t.settles h.1 s)) fun v s₁ hok => ?_
    have hle := (goes_mapError (t.steps.goes s)).left hok
    exact settles_bindOk ((fs.settles h.2.2 struct s₁).mono hle) fun _ _ _ => settles_some _
  | .nilPtr name k t fs, h, struct, s => by
    refine settles_bindOk (settles_mapError (settles_decodeNilPtr (t.settles h.1) _ k s))
      fun v s₁ hok => ?_
    have hle := (goes_mapError (decodeNilPtr_goes t.steps.goes _ k)).left hok
    exact settles_bindOk ((fs.settles h.2.2 struct s₁).mono hle) fun _ _ _ => settles_some _
  | .tail name t, h, struct, s => by
    obtain ⟨res, hres⟩ := settles_decodeSliceElems (t.settles h.2) (fun _ => t.steps.takes h.1) 0 s
    exact settles_mapError ⟨res, fun fuel hlt => hres fuel fuel hlt hlt⟩

end

/-! ## Rounds of the loop -/

/-- A round of the loop over the elements of a slice that goes on to the next one. -/
def Round (fuel : Nat) (elem : Typ) (s s' : Stream) : Prop :=
  ∃ v, elem.decode fuel s = some (.ok v, s')

/-- Where the loop starts: behind the header of the list, or, for a tail, behind the field before
it. -/
inductive LoopStart (fuel : Nat) (elem : Typ) : Stream → Prop
  | list {s s₁ : Stream} {n : Nat} :
      (Typ.slice elem).Progresses → s.list = (.ok n, s₁) → LoopStart fuel elem s₁
  | field {s s₁ : Stream} {name tail : String} {t : Typ} {v : t.Val} :
      (Fields.cons name t (.tail tail elem)).Progresses → t.decode fuel s = some (.ok v, s₁) →
      LoopStart fuel elem s₁
  | nilPtr {s s₁ : Stream} {name tail : String} {k : NilKind} {t : Typ} {v : Option t.Val} :
      (Fields.nilPtr name k t (.tail tail elem)).Progresses →
      decodeNilPtr (Typ.ptr t).goName k (fun s => t.decode fuel s) s = some (.ok v, s₁) →
      LoopStart fuel elem s₁

theorem armed_of_decodeNilPtr {typ : String} {k : NilKind} {dec : Stream → Outcome α}
    {v : Option α} (hdec : ∀ s, ∀ res ∈ dec s, Takes s res)
    (h : decodeNilPtr typ k dec s = some (.ok v, s')) : s'.kind = none := by
  unfold decodeNilPtr at h
  split at h
  · cases h
  · split at h
    · split at h
      · cases h
      · cases h
        rfl
    · obtain ⟨w, s2, hd, heq⟩ := Outcome.bindOk_eq_ok h
      cases heq
      exact (hdec _ _ hd).armed w rfl

variable {elem : Typ}

theorem LoopStart.armed (h : LoopStart fuel elem s) : elem.Rearms ∧ s.kind = none := by
  cases h with
  | @list s0 _ n hp hlist =>
    have htake : Takes s0 (.ok n, s) := hlist ▸ (@list_decodes s0).toTakes
    exact ⟨hp.1, htake.armed n rfl⟩
  | field hp hdec => exact ⟨hp.2.2.1, (Typ.steps _).takes (hp.2.1 trivial) _ _ hdec |>.armed _ rfl⟩
  | nilPtr hp hdec =>
    exact ⟨hp.2.2.1, armed_of_decodeNilPtr ((Typ.steps _).takes (hp.2.1 trivial)) hdec⟩

theorem Round.reads (helem : elem.Rearms) (hk : s.kind = none) (h : Round fuel elem s s') :
    s'.kind = none ∧ s'.r.length < s.r.length := by
  obtain ⟨v, hdec⟩ := h
  have htake := elem.steps.takes helem s _ hdec
  have hlt : s'.left < s.left := htake.lt v rfl
  have hk' : s'.kind = none := htake.armed v rfl
  rw [left_of_armed hk, left_of_armed hk'] at hlt
  exact ⟨hk', hlt⟩

theorem armed_of_rounds (helem : elem.Rearms) (hk : s.kind = none)
    (h : Relation.ReflTransGen (Round fuel elem) s s') : s'.kind = none := by
  induction h with
  | refl => exact hk
  | tail _ hround ih => exact (hround.reads helem ih).1

theorem left_reset (b : Bytes) (limit : Option Nat) : (Stream.reset b limit).left = b.length := by
  simp [Stream.reset, Stream.left]

theorem decodeBytes_settles (t : Typ) (ht : t.Progresses) (b : Bytes) :
    ∃ res, ∀ fuel, b.length < fuel → decodeBytes fuel t b = some res := by
  have hsettles := t.settles ht (.reset b (some b.length))
  rw [left_reset] at hsettles
  have hdecode : ∃ res, ∀ fuel, b.length < fuel →
      Stream.decode fuel t (.reset b (some b.length)) = some res := settles_mapError hsettles
  obtain ⟨⟨res, s⟩, hres⟩ := hdecode
  cases res with
  | error e =>
    refine ⟨.error e, fun fuel hlt => ?_⟩
    rw [decodeBytes, hres fuel hlt]
  | ok v =>
    refine ⟨if s.r.length > 0 then .error .moreThanOneValue else .ok v, fun fuel hlt => ?_⟩
    rw [decodeBytes, hres fuel hlt]
    dsimp only
    split <;> rfl

/-! ## Rounds that take nothing -/

/-- The stream after the first round over `[0x00]`: the zero byte is still ahead. -/
def zeroAhead : Stream := ⟨[], 0, true, some .byte, 0, 0, none, [⟨1, 1⟩]⟩

/-- The stream behind the header of the list `c1 00`. -/
def zeroList : Stream := ⟨[0x00], 1, true, none, 0, 0, none, [⟨0, 1⟩]⟩

theorem round_of_not_rearms (F : Nat) : (elem : Typ) → ¬ elem.Rearms →
    Round F elem zeroList zeroAhead ∧ Round F elem zeroAhead zeroAhead
  | .uint _, h | .bool, h | .string, h | .bytes _, h | .bigInt, h | .slice _, h | .array _ _, h
  | .struct _ _, h => absurd trivial h
  | .byteArray name n, h => by
    obtain rfl : n = 1 := not_not.mp h
    exact ⟨⟨⟨[0], rfl⟩, rfl⟩, ⟨⟨[0], rfl⟩, rfl⟩⟩
  | .ptr t, h => by
    obtain ⟨⟨v, hv⟩, w, hw⟩ := round_of_not_rearms F t h
    exact ⟨⟨some v, by rw [Typ.decode, hv]; rfl⟩, ⟨some w, by rw [Typ.decode, hw]; rfl⟩⟩

theorem rounds_at_zeroAhead {F : Nat} (h : Round F elem zeroAhead zeroAhead) (fuel i : Nat) :
    decodeSliceElems (fun s => elem.decode F s) fuel i zeroAhead = none := by
  obtain ⟨v, hround⟩ := h
  induction fuel generalizing i with
  | zero => rfl
  | succ fuel ih =>
    rw [decodeSliceElems, hround]
    dsimp only
    rw [ih]
    rfl

/-- Elements that are not taken off: the list `c1 00` is never finished, as every round after the
first leaves the stream as it is. -/
theorem never_stops (helem : ¬ elem.Rearms) (fuel : Nat) :
    decodeBytes fuel (.slice elem) [0xc1, 0x00] = none := by
  obtain ⟨⟨v, hfirst⟩, hround⟩ := round_of_not_rearms fuel elem helem
  have hloop : decodeSliceElems (fun s => elem.decode fuel s) fuel 0 zeroList = none := by
    cases fuel with
    | zero => rfl
    | succ fuel =>
      simp only [decodeSliceElems, hfirst, rounds_at_zeroAhead hround, Outcome.bindOk]
  have hlist : (Stream.reset [0xc1, 0x00] (some 2)).list = (.ok 1, zeroList) := rfl
  have hdec : (Typ.slice elem).decode fuel (.reset [0xc1, 0x00] (some 2)) = none := by
    rw [Typ.decode, decodeListSlice, hlist]
    dsimp only
    rw [if_neg one_ne_zero, hloop]
    rfl
  have hstream : Stream.decode fuel (.slice elem) (.reset [0xc1, 0x00] (some 2)) = none :=
    congrArg (Outcome.mapError _) hdec
  simp only [decodeBytes, List.length_cons, List.length_nil, Nat.reduceAdd, hstream]

end GethComments.Rlp
