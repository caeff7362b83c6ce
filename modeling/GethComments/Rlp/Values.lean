import GethComments.Rlp.Stream

/-!
# Values in a stream

What the operations of a stream do with one value. Each is stated in both directions: where the
encoding of a value is next and there is room for it, the operation returns the value and stands
after the encoding; and where it returns a value, the encoding of that value was next.

* `getBytes_of_at`, `at_of_getBytes`: strings;
* `getUint_of_at`, `at_of_getUint`, `getBool_of_at`, `at_of_getBool`: numbers and booleans;
* `list_of_at`, `listEnd_of_at`, `at_of_list`: lists around their items.
-/

namespace GethComments.Rlp.Stream

open List

variable {s s' s'' : Stream} {n m size : Nat} {k : ValueKind} {enc enc' : Bytes}

/-- No header has been read, the bytes `enc` are next, and there is room for them. -/
structure At (s : Stream) (enc : Bytes) : Prop where
  armed : s.kind = none
  room : s.Room enc.length
  input : ∃ rest, s.r = enc ++ rest

theorem At.congr (h : s.At enc) (hc : s'.core = s.core) : s'.At enc := by
  have hr : s'.r = s.r := show s'.core.r = s.core.r by rw [hc]
  exact ⟨(kind_of_core hc).trans h.armed, h.room.congr hc, hr ▸ h.input⟩

theorem at_nil (hk : s.kind = none) : s.At [] :=
  ⟨hk, room_zero s, s.r, rfl⟩

theorem At.left (h : s.At (enc ++ enc')) : s.At enc := by
  obtain ⟨rest, hr⟩ := h.input
  exact ⟨h.armed, h.room.mono (by simp), enc' ++ rest, by rw [hr, append_assoc]⟩

theorem At.right (h : s.At (enc ++ enc')) (hs : s'.core = s.core.skip enc.length) : s'.At enc' := by
  obtain ⟨rest, hr⟩ := h.input
  have hroom := h.room
  rw [length_append] at hroom
  have hskip : (s.skip enc.length).At enc' :=
    ⟨rfl, hroom.skip, rest, by simp [skip, hr, append_assoc]⟩
  exact hskip.congr hs

theorem At.append (h : s.At enc) (hs : s'.core = s.core.skip enc.length) (h' : s'.At enc') :
    s.At (enc ++ enc') := by
  obtain ⟨rest, hr⟩ := h.input
  have hskip : (s.skip enc.length).At enc' := h'.congr hs.symm
  obtain ⟨rest', hr'⟩ := hskip.input
  refine ⟨h.armed, ?_, rest', ?_⟩
  · rw [length_append]
    exact h.room.add hskip.room
  · have hrest : rest = enc' ++ rest' := by simpa [skip, hr] using hr'
    rw [hr, hrest, append_assoc]

/-! ## Strings -/

variable {b body : Bytes} {h : Nat} {s1 s2 : Stream}

theorem readFull_of_ahead {hd : Bytes} (h : s.At (hd ++ b)) (ha : Ahead s hd.length k size s') :
    s'.readFull b.length = (.ok b, s'.skip b.length) ∧
      (s'.skip b.length).core = s.core.skip (hd ++ b).length := by
  obtain ⟨rest, hr⟩ := h.input
  have hroom := h.room
  rw [length_append] at hroom
  have hin : s'.r.take b.length = b := by
    rw [ha.input, hr, append_assoc, drop_left, take_left]
  refine ⟨?_, by rw [ha.skip, length_append]⟩
  rw [readFull_of_room (ha.room.mpr hroom.skip), hin]

theorem nextKind_of_at (hkind : k ≠ .byte) (hlen : body.length < 2 ^ 64)
    (h : s.At (putHead (smallTag k) (largeTag k) body.length ++ body)) :
    ∃ s', s.nextKind = (.ok (k, body.length), s') ∧
      Ahead s (putHead (smallTag k) (largeTag k) body.length).length k body.length s' := by
  obtain ⟨rest, hr⟩ := h.input
  have hroom := h.room
  rw [length_append, length_putHead] at hroom
  rw [append_assoc] at hr
  obtain ⟨s', hnext, ha⟩ := nextKind_putHead h.armed hkind hlen hroom hr
  exact ⟨s', hnext, by rw [length_putHead]; exact ha⟩

theorem getBytes_of_at (hlen : b.length < 2 ^ 64) (h : s.At (encodeString b)) :
    ∃ s', s.getBytes = (.ok b, s') ∧ s'.core = s.core.skip (encodeString b).length := by
  rcases encodeString_cases b with ⟨x, rfl, hx, henc⟩ | ⟨hcanon, henc⟩
  · rw [henc] at h ⊢
    obtain ⟨rest, hr⟩ := h.input
    obtain ⟨s1, hnext, ha, rfl⟩ := nextKind_byte h.armed h.room hr hx
    exact ⟨{ s1 with kind := none }, by rw [getBytes, hnext], ha.done⟩
  · rw [henc] at h ⊢
    obtain ⟨s1, hnext, ha⟩ := nextKind_of_at (k := .string) (by decide) hlen h
    obtain ⟨hfull, hpos⟩ := readFull_of_ahead h ha
    exact ⟨_, by rw [getBytes, hnext]; simp only [hfull, if_neg hcanon], hpos⟩

theorem at_of_ahead {hd rest : Bytes} (hk : s.kind = none) (hroom : s.Room hd.length)
    (hr : s.r = hd ++ rest) (ha : Ahead s hd.length k size s') (hroom' : s'.Room n) :
    s.At (hd ++ s'.r.take n) ∧ (s'.r.take n).length = n := by
  have hin : s'.r = rest := by rw [ha.input, hr, drop_left]
  have hlen : (s'.r.take n).length = n := by rw [length_take, Nat.min_eq_left hroom'.input]
  refine ⟨⟨hk, ?_, rest.drop n, ?_⟩, hlen⟩
  · rw [length_append, hlen]
    exact hroom.add (ha.room.mp hroom')
  · rw [hr, hin, append_assoc, take_append_drop]

theorem at_of_byte {x : UInt8} {rest : Bytes} (hk : s.kind = none) (hroom : s.Room 1)
    (hr : s.r = x :: rest) : s.At [x] := ⟨hk, hroom, rest, hr⟩

theorem at_of_getBytes (hk : s.kind = none) (h : s.getBytes = (.ok b, s')) :
    s.At (encodeString b) ∧ s'.core = s.core.skip (encodeString b).length := by
  unfold getBytes at h
  split at h
  · cases h
  case _ size' s1 hnext =>
    cases h
    rcases nextKind_eq_ok hk hnext with ⟨x, rest, hr, hx, hroom, -, -, ha, rfl⟩ | ⟨_, hne, -⟩
    · have henc : encodeString [s1.byteval] = [s1.byteval] := by
        rw [encodeString, if_pos (UInt8.le_iff_toNat_le.mpr (Nat.le_of_lt_succ hx))]
      rw [henc]
      exact ⟨at_of_byte hk hroom hr, ha.done⟩
    · exact absurd rfl hne
  case _ size s1 hnext =>
    rcases nextKind_eq_ok hk hnext with ⟨_, _, _, _, _, hcon, -⟩ |
      ⟨rest, -, hlt, hroom, hr, ha, -⟩
    · cases hcon
    split at h
    · cases h
    case _ b' s2 hfull =>
      obtain ⟨hroom', rfl, rfl⟩ := readFull_eq_ok hfull
      split at h
      · cases h
      case isFalse hcanon =>
        cases h
        rw [← length_putHead (smallTag .string) (largeTag .string)] at hroom ha
        obtain ⟨hat, hlen⟩ := at_of_ahead hk hroom hr ha hroom'
        have henc : encodeString (s1.r.take size) =
            putHead (smallTag .string) (largeTag .string) size ++ s1.r.take size := by
          rcases encodeString_cases (s1.r.take size) with ⟨x, hx, hlt, -⟩ | ⟨-, henc⟩
          · rw [hx] at hcanon hlen
            exact absurd ⟨hlen.symm, hlt⟩ hcanon
          · rw [henc, hlen]
            rfl
        rw [henc]
        exact ⟨hat, by rw [ha.skip, length_append, hlen]⟩
  · cases h

/-! ## Numbers -/

theorem getUint_of_at {maxbits i : Nat} (hi : i < 256 ^ (maxbits / 8)) (hlt : i < 2 ^ 64)
    (h : s.At (encodeUint i)) :
    ∃ s', s.getUint maxbits = (.ok i, s') ∧ s'.core = s.core.skip (encodeUint i).length := by
  unfold encodeUint at h ⊢
  have hlen8 : (bytes i).length ≤ 8 := length_bytes_le_iff.mpr (by simpa using hlt)
  rcases encodeString_cases (bytes i) with ⟨x, hb, hx, henc⟩ | ⟨hcanon, henc⟩
  · rw [henc] at h ⊢
    have hxi : x.toNat = i := by
      have hread := setBytes_bytes i
      rw [hb] at hread
      simpa [setBytes] using hread
    have hx0 : x ≠ 0 := fun h0 => head_bytes_ne_zero i (by rw [hb, h0]; rfl)
    obtain ⟨rest, hr⟩ := h.input
    obtain ⟨s1, hnext, ha, rfl⟩ := nextKind_byte h.armed h.room hr hx
    exact ⟨{ s1 with kind := none }, by rw [getUint, hnext]; simp only [if_neg hx0, hxi], ha.done⟩
  · change _ = putHead (smallTag .string) (largeTag .string) _ ++ _ at henc
    rw [henc] at h ⊢
    obtain ⟨s1, hnext, ha⟩ := nextKind_of_at (by decide) (by omega) h
    obtain ⟨rest, hr⟩ := h.input
    have hroom := h.room
    rw [length_append] at hroom
    have hin : s1.r = bytes i ++ rest := by rw [ha.input, hr, append_assoc, drop_left]
    have hread := readUint_of_room (ha.room.mpr hroom.skip) hin (Or.inl (head_bytes_ne_zero i))
    rw [setBytes_bytes] at hread
    have hsize : ¬((bytes i).length > 0 ∧ i < 128) := by
      rintro ⟨hpos, hsmall⟩
      have hle : (bytes i).length ≤ 1 := length_bytes_le_iff.mpr (by omega)
      obtain ⟨x, hx⟩ := length_eq_one_iff.mp (Nat.le_antisymm hle hpos)
      have hread := setBytes_bytes i
      rw [hx] at hread hcanon
      have hxi : x.toNat = i := by simpa [setBytes] using hread
      exact hcanon ⟨rfl, by simpa [hxi] using hsmall⟩
    have hfits : ¬ (bytes i).length > maxbits / 8 := Nat.not_lt.mpr (length_bytes_le_iff.mpr hi)
    refine ⟨s1.skip (bytes i).length, ?_, by rw [ha.skip, length_append]⟩
    rw [getUint, hnext]
    simp only [if_neg hfits, hread, if_neg hsize]

theorem encodeUint_setBytes {b : Bytes} (hlead : 1 < b.length → b.head? ≠ some 0)
    (hcanon : ¬ (b.length > 0 ∧ setBytes b < 128)) :
    b.head? ≠ some 0 ∧ encodeUint (setBytes b) =
      putHead (smallTag .string) (largeTag .string) b.length ++ b := by
  have hhead : b.head? ≠ some 0 := by
    intro hzero
    rcases Nat.lt_or_ge 1 b.length with hlt | hle
    · exact hlead hlt hzero
    · obtain rfl : b = [0] := by
        cases b with
        | nil => cases hzero
        | cons x b =>
          obtain rfl : b = [] := by simpa using hle
          simpa using hzero
      exact hcanon (by simp [setBytes])
  refine ⟨hhead, ?_⟩
  rw [encodeUint, bytes_setBytes hhead]
  rcases encodeString_cases b with ⟨x, rfl, hlt, -⟩ | ⟨-, henc⟩
  · exact absurd ⟨by simp, by simpa [setBytes] using hlt⟩ hcanon
  · exact henc

theorem at_of_getUint {maxbits v : Nat} (hbits : 8 ≤ maxbits) (hk : s.kind = none)
    (h : s.getUint maxbits = (.ok v, s')) :
    s.At (encodeUint v) ∧ s'.core = s.core.skip (encodeUint v).length ∧
      v < 256 ^ (maxbits / 8) := by
  unfold getUint at h
  split at h
  · cases h
  case _ size' s1 hnext =>
    split at h
    · cases h
    case isFalse hx0 =>
      cases h
      rcases nextKind_eq_ok hk hnext with ⟨x, rest, hr, hx, hroom, -, -, ha, rfl⟩ | ⟨_, hne, -⟩
      · have henc : encodeUint s1.byteval.toNat = [s1.byteval] := by
          have h0 : s1.byteval.toNat ≠ 0 := fun h => hx0 (UInt8.toNat_inj.mp (by simpa using h))
          rw [encodeUint, bytes_of_lt h0 (by omega), UInt8.ofNat_toNat, encodeString,
            if_pos (UInt8.le_iff_toNat_le.mpr (Nat.le_of_lt_succ hx))]
        rw [henc]
        refine ⟨at_of_byte hk hroom hr, ha.done, ?_⟩
        calc s1.byteval.toNat < 256 ^ 1 := by omega
          _ ≤ 256 ^ (maxbits / 8) := Nat.pow_le_pow_right (by omega) (by omega)
      · exact absurd rfl hne
  case _ size s1 hnext =>
    rcases nextKind_eq_ok hk hnext with ⟨_, _, _, _, _, hcon, -⟩ |
      ⟨rest, -, hlt, hroom, hr, ha, -⟩
    · cases hcon
    split at h
    · cases h
    case isFalse hfits =>
      split at h
      · cases h
      · cases h
      case _ v' s2 hread =>
        obtain ⟨hroom', rfl, hlead, rfl⟩ := readUint_eq_ok hread
        split at h
        · cases h
        case isFalse hcanon =>
          cases h
          rw [← length_putHead (smallTag .string) (largeTag .string)] at hroom ha
          obtain ⟨hat, hlen⟩ := at_of_ahead hk hroom hr ha hroom'
          obtain ⟨hhead, henc⟩ := encodeUint_setBytes (b := s1.r.take size)
            (fun h => hlead (hlen ▸ h)) fun h => hcanon ⟨hlen ▸ h.1, h.2⟩
          rw [henc, hlen]
          refine ⟨hat, by rw [ha.skip, length_append, hlen], ?_⟩
          refine length_bytes_le_iff.mp ?_
          rw [bytes_setBytes hhead, hlen]
          exact Nat.not_lt.mp hfits
  · cases h

theorem getBool_of_at {v : Bool} (h : s.At (encodeUint (cond v 1 0))) :
    ∃ s', s.getBool = (.ok v, s') ∧ s'.core = s.core.skip (encodeUint (cond v 1 0)).length := by
  obtain ⟨s', huint, hpos⟩ := @getUint_of_at s 8 _ (by cases v <;> decide)
    (by cases v <;> decide) h
  refine ⟨s', ?_, hpos⟩
  rw [getBool, huint]
  cases v <;> rfl

theorem at_of_getBool {v : Bool} (hk : s.kind = none) (h : s.getBool = (.ok v, s')) :
    s.At (encodeUint (cond v 1 0)) ∧ s'.core = s.core.skip (encodeUint (cond v 1 0)).length := by
  unfold getBool at h
  split at h
  · cases h
  case _ s1 huint =>
    cases h
    obtain ⟨hat, hpos, -⟩ := at_of_getUint le_rfl hk huint
    exact ⟨hat, hpos⟩
  case _ s1 huint =>
    cases h
    obtain ⟨hat, hpos, -⟩ := at_of_getUint le_rfl hk huint
    exact ⟨hat, hpos⟩
  · cases h

/-! ## Lists -/

theorem Ahead.push (ha : Ahead s h .list n s') :
    ({ s' with stack := ⟨0, n⟩ :: s'.stack, kind := none, size := 0 } : Stream).core =
      (s.core.skip h).push n := by
  rw [← ha.pos, skip_zero]
  rfl

theorem list_of_at (hlen : body.length < 2 ^ 64)
    (h : s.At (putHead 0xc0 0xf7 body.length ++ body)) :
    ∃ s', s.list = (.ok body.length, s') ∧ s'.At body ∧
      s'.core = (s.core.skip (headsize body.length)).push body.length := by
  obtain ⟨s1, hnext, ha⟩ := @nextKind_of_at s .list body (by decide) hlen h
  obtain ⟨rest, hr⟩ := h.input
  have hroom := h.room
  rw [length_append] at hroom
  have hroom1 := ha.room.mpr hroom.skip
  have hin : s1.r = body ++ rest := by
    rw [ha.input, hr, append_assoc, smallTag, largeTag, drop_left]
  refine ⟨{ s1 with stack := ⟨0, body.length⟩ :: s1.stack, kind := none, size := 0 },
    by rw [list, hnext], ⟨rfl, ⟨hroom1.input, hroom1.limit, ?_⟩, rest, hin⟩, ?_⟩
  · simp
  · rw [length_putHead] at ha
    exact ha.push

theorem stack_of_push (h1 : s1.core = (s.core.skip h).push n) (h2 : s2.core = s1.core.skip m) :
    s2.stack = ⟨m, n⟩ :: advance h s.stack := by
  have hst : s2.core.stack = ((s.core.skip h).push n |>.skip m).stack := by rw [h2, h1]
  simpa [push, skip, core, advance] using hst

theorem listEnd_of_stack (h1 : s1.core = (s.core.skip h).push n) (h2 : s2.core = s1.core.skip n) :
    s2.listEnd = (.ok (), { s2 with stack := advance (h + n) s.stack, kind := none, size := 0 }) ∧
      ({ s2 with stack := advance (h + n) s.stack, kind := none, size := 0 } : Stream).core =
        s.core.skip (h + n) := by
  have hst := stack_of_push h1 h2
  refine ⟨by rw [listEnd, hst]; simp, ?_⟩
  have hcore : ({ s2 with stack := advance (h + n) s.stack, kind := none, size := 0 } :
      Stream).core = { s2.core with stack := advance (h + n) s.stack, kind := none } := rfl
  have hskip := skip_skip s.core h n
  rw [hcore, h2, h1, ← hskip]
  simp only [skip, push, advance_advance]
  rfl

theorem list_eq_ok (hk : s.kind = none) (h : s.list = (.ok n, s')) :
    ∃ rest, n < 2 ^ 64 ∧ s.Room (headsize n) ∧ s.r = putHead 0xc0 0xf7 n ++ rest ∧
      s'.core = (s.core.skip (headsize n)).push n ∧
      (s.skip (headsize n)).checkSize n = none := by
  unfold list at h
  split at h
  · cases h
  case _ size s1 hnext =>
    cases h
    rcases nextKind_eq_ok hk hnext with ⟨_, _, _, _, _, hcon, -⟩ |
      ⟨rest, -, hlt, hroom, hr, ha, hc⟩
    · cases hcon
    · exact ⟨rest, hlt, hroom, hr, ha.push, hc⟩
  · cases h

theorem room_of_push (h1 : s1.core = s.core.push n) (hroom : s1.Room m) (hc : s.checkSize m = none)
    : s.Room m := by
  have hpush : (s.push n).Room m := hroom.congr h1.symm
  refine ⟨hpush.input, hpush.limit, fun tos ht => ?_⟩
  unfold checkSize at hc
  split at hc
  case _ hst => simp [hst] at ht
  case _ top rest hst =>
    obtain rfl : top = tos := by simpa [hst] using ht
    by_contra hgt
    rw [if_pos (Nat.not_le.mp hgt)] at hc
    cases hc

theorem at_of_list (hk : s.kind = none) (h1 : s.list = (.ok n, s1)) (hat : s1.At body)
    (h2 : s2.core = s1.core.skip body.length) (hend : s2.listEnd = (.ok (), s')) :
    s.At (putHead 0xc0 0xf7 body.length ++ body) ∧
      s'.core = s.core.skip (putHead 0xc0 0xf7 body.length ++ body).length := by
  obtain ⟨rest, -, hroom, hr, hpos, hc⟩ := list_eq_ok hk h1
  have hst := stack_of_push hpos h2
  have hn : body.length = n := by
    unfold listEnd at hend
    rw [hst] at hend
    dsimp only at hend
    split at hend
    · cases hend
    case isFalse heq => exact not_not.mp heq
  subst hn
  obtain ⟨hok, hcore⟩ := listEnd_of_stack hpos h2
  rw [hok] at hend
  cases hend
  obtain ⟨rest', hr'⟩ := hat.input
  have hrest : rest = body ++ rest' := by
    have hin : s1.core.r = ((s.core.skip (headsize body.length)).push body.length).r := by rw [hpos]
    have hin' : s1.r = s.r.drop (headsize body.length) := by simpa [push, skip, core] using hin
    rw [hr', hr, ← length_putHead 0xc0 0xf7, drop_left] at hin'
    exact hin'.symm
  refine ⟨⟨hk, ?_, rest', by rw [hr, hrest, append_assoc]⟩, ?_⟩
  · rw [length_append, length_putHead]
    exact hroom.add (room_of_push hpos hat.room hc)
  · rw [length_append, length_putHead]
    exact hcore

end GethComments.Rlp.Stream
