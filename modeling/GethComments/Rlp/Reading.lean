import GethComments.Rlp.RoundTrip

/-!
# What the operations of a stream do

Whatever an operation returns, the reader is at a later place, and one that returns a value has
used up input: bytes of the reader, or the header that the stream remembers. The end of a list is
reported by `Kind` alone, where the list has no more elements.

* `left`: how much input there is, a remembered header included;
* `Consumes`: what reading bytes does;
* `Forward`, `Takes`, `Decodes`: what an operation does to the input.
-/

namespace GethComments.Rlp

open GethComments.Rlp.Stream List

/-- The bytes of the reader, and one for a header that has been read without an error. -/
def Stream.left (s : Stream) : Nat := s.r.length + if s.kind ≠ none ∧ s.kinderr = none then 1 else 0

variable {α β : Type} {s s' s1 : Stream} {n : Nat} {e : ReadError}

theorem left_of_armed (h : s.kind = none) : s.left = s.r.length := by simp [left, h]

theorem length_le_left : s.r.length ≤ s.left := Nat.le_add_right _ _

theorem length_lt_left (h : s.kind ≠ none ∧ s.kinderr = none) : s.r.length < s.left := by
  rw [left, if_pos h]
  exact Nat.lt_succ_self _

/-! ## Reading bytes -/

/-- The reader goes forward, no header is ahead, and an error is not the end of a list. -/
structure Consumes (s : Stream) (res : Except ReadError α × Stream) : Prop where
  suffix : res.2.r <:+ s.r
  armed : res.2.kind = none
  notEol : res.1 ≠ .error .eol

theorem Consumes.error {res : Except ReadError α × Stream} (h : Consumes s res)
    (heq : res = (.error e, s')) : Consumes s ((.error e, s') : Except _ β × _) := by
  subst heq
  exact ⟨h.suffix, h.armed, fun heol => h.notEol (congrArg _ (Except.error.inj heol))⟩

theorem Consumes.next {res : Except ReadError α × Stream} {v : α} {res' : Except ReadError β}
    (h : Consumes s res) (heq : res = (.ok v, s1)) (hr : s'.r <:+ s1.r) (hk : s'.kind = s1.kind)
    (hne : res' ≠ .error .eol) : Consumes s (res', s') := by
  subst heq
  exact ⟨hr.trans h.suffix, hk.trans h.armed, hne⟩

theorem willRead_consumes (n : Nat) : Consumes s (s.willRead n) := by
  simp only [willRead, willReadLimited]
  repeat' split
  all_goals exact ⟨List.suffix_rfl, rfl, by simp⟩

theorem readFull_consumes (n : Nat) : Consumes s (s.readFull n) := by
  unfold readFull
  split
  case _ e s1 h => exact (willRead_consumes n).error h
  case _ s1 h =>
    split
    · exact (willRead_consumes n).next h nil_suffix rfl (by simp)
    · exact (willRead_consumes n).next h (drop_suffix _ _) rfl (by simp)

theorem readByte_consumes : Consumes s s.readByte := by
  unfold readByte
  split
  case _ e s1 h => exact (willRead_consumes 1).error h
  case _ s1 h =>
    split
    · exact (willRead_consumes 1).next h suffix_rfl rfl (by simp)
    case _ b rest hcons => exact (willRead_consumes 1).next h (by simp [hcons]) rfl (by simp)

theorem readUint_consumes (n : Nat) : Consumes s (s.readUint n) := by
  unfold readUint
  split
  · exact ⟨List.suffix_rfl, rfl, by simp⟩
  · split
    case _ e s1 h => exact readByte_consumes.error h
    case _ b s1 h => exact readByte_consumes.next h suffix_rfl rfl (by simp)
  · split
    case _ e s1 h => exact (readFull_consumes n).error h
    case _ b s1 h =>
      split
      · exact (readFull_consumes n).next h suffix_rfl rfl (by simp)
      · exact (readFull_consumes n).next h suffix_rfl rfl (by simp)

theorem readSize_reads (k : ValueKind) (n : Nat) :
    (readSize k s n).2.r <:+ s.r ∧ (readSize k s n).1.err ≠ some .eol := by
  have huint := @readUint_consumes s n
  unfold readSize
  split
  case _ e s1 h =>
    rw [h] at huint
    exact ⟨huint.suffix, by simpa using huint.notEol⟩
  case _ m s1 h =>
    rw [h] at huint
    refine ⟨huint.suffix, ?_⟩
    dsimp only
    split <;> simp

theorem readKind_reads : s.readKind.2.r <:+ s.r ∧ s.readKind.1.err ≠ some .eol := by
  have hbyte := @readByte_consumes s
  unfold readKind
  split
  case _ e s1 h =>
    rw [h] at hbyte
    refine ⟨hbyte.suffix, ?_⟩
    dsimp only
    split
    · simp
    · simpa using hbyte.notEol
  case _ b s1 h =>
    rw [h] at hbyte
    have hsize : ∀ k n, (readSize k { s1 with byteval := 0 } n).2.r <:+ s.r ∧
        (readSize k { s1 with byteval := 0 } n).1.err ≠ some .eol :=
      fun k n => (readSize_reads k n).imp_left fun hr => hr.trans hbyte.suffix
    dsimp only
    split
    · exact ⟨hbyte.suffix, by simp⟩
    split
    · exact ⟨hbyte.suffix, by simp⟩
    split
    · exact hsize _ _
    split
    · exact ⟨hbyte.suffix, by simp⟩
    · exact hsize _ _

theorem nextKind_suffix : s.nextKind.2.r <:+ s.r := by
  unfold nextKind
  split
  · split <;> exact suffix_rfl
  · split
    · exact suffix_rfl
    · have hr := (@readKind_reads { s with kinderr := none }).1
      unfold readHeader
      dsimp only
      split <;> exact hr

theorem checkSize_ne_eol (n : Nat) : s.checkSize n ≠ some .eol := by
  unfold checkSize
  repeat' split
  all_goals simp

theorem nextKind_ne_eol (hk : s.kind = none) (hend : ¬ s.AtEnd) : s.nextKind.1 ≠ .error .eol := by
  rw [nextKind, hk]
  simp only [if_neg hend]
  unfold readHeader
  dsimp only
  split
  case _ e h =>
    intro heol
    obtain rfl : e = .eol := by simpa using heol
    rcases Option.or_eq_some_iff.mp h with herr | ⟨-, hc⟩
    · exact readKind_reads.2 herr
    · exact checkSize_ne_eol _ hc
  · simp

theorem Stream.Ahead.left {h size : Nat} {k : ValueKind} (ha : Ahead s h k size s')
    (hroom : s.Room h) (hpos : 0 < h) : s'.left ≤ s.left := by
  have hin := hroom.input
  have hle := @length_le_left s
  simp only [Stream.left, ha.input, ha.kind, ha.kinderr, length_drop] at hle ⊢
  simp only [ne_eq, reduceCtorEq, not_false_eq_true, and_self, if_true]
  omega

/-! ## What an operation does -/

/-- The reader goes forward and input is not brought back. -/
structure Forward (s s' : Stream) : Prop where
  suffix : s'.r <:+ s.r
  le : s'.left ≤ s.left

theorem Forward.refl (s : Stream) : Forward s s := ⟨List.suffix_rfl, le_rfl⟩

theorem Forward.trans (h : Forward s s1) (h' : Forward s1 s') : Forward s s' :=
  ⟨h'.suffix.trans h.suffix, h'.le.trans h.le⟩

/-- A value is taken off the stream where one is returned. -/
structure Takes (s : Stream) (res : Except ReadError α × Stream) : Prop where
  forward : Forward s res.2
  armed : ∀ v, res.1 = .ok v → res.2.kind = none
  lt : ∀ v, res.1 = .ok v → res.2.left < s.left

theorem takes_error (h : Forward s s') : Takes s ((.error e, s') : Except _ α × _) :=
  ⟨h, fun _ h => (nomatch h), fun _ h => nomatch h⟩

theorem Takes.ok {v : α} {w : β} (h : Takes s ((.ok v, s') : Except _ α × _)) :
    Takes s ((.ok w, s') : Except _ β × _) :=
  ⟨h.forward, fun _ _ => h.armed _ rfl, fun _ _ => h.lt _ rfl⟩

theorem forward_of_armed (hr : s'.r <:+ s.r) (hk : s'.kind = none) : Forward s s' :=
  ⟨hr, (left_of_armed hk).trans_le (hr.length_le.trans length_le_left)⟩

variable {x : ValueKind × Nat} {typ : String}

theorem nextKind_ok (h : s.nextKind = (.ok x, s')) :
    (s'.kind ≠ none ∧ s'.kinderr = none) ∧ s'.left ≤ s.left := by
  cases hk : s.kind with
  | none =>
    obtain ⟨k, size⟩ := x
    rcases nextKind_eq_ok hk h with ⟨-, -, -, -, hroom, -, -, ha, -⟩ | ⟨-, -, -, hroom, -, ha, -⟩
    · exact ⟨⟨by simp [ha.kind], ha.kinderr⟩, ha.left hroom one_pos⟩
    · exact ⟨⟨by simp [ha.kind], ha.kinderr⟩, ha.left hroom (headsize_pos _)⟩
  | some k =>
    rw [nextKind, hk] at h
    simp only at h
    split at h
    · cases h
    case _ herr =>
      cases h
      exact ⟨⟨by simp [hk], herr⟩, le_rfl⟩

theorem nextKind_error (h : s.nextKind = (.error e, s')) : s'.left ≤ s.left := by
  have hsuf : s'.r <:+ s.r := by simpa [h] using @nextKind_suffix s
  unfold nextKind at h
  split at h
  · split at h
    · cases h
      exact le_rfl
    · cases h
  case _ hk =>
    split at h
    · cases h
      simp [left, hk]
    · unfold readHeader at h
      dsimp only at h
      split at h
      · cases h
        refine le_trans ?_ (hsuf.length_le.trans length_le_left)
        simp [left]
      · cases h

theorem nextKind_forward {res : Except ReadError (ValueKind × Nat)} (h : s.nextKind = (res, s')) :
    Forward s s' := by
  refine ⟨by simpa [h] using @nextKind_suffix s, ?_⟩
  cases res with
  | error e => exact nextKind_error h
  | ok x => exact (nextKind_ok h).2

/-- A value is taken where one is returned, and the end of a list is reported only there. -/
structure Decodes (s : Stream) (res : Except ReadError α × Stream) : Prop extends Takes s res where
  notEol : s.kind = none → ¬ s.AtEnd → res.1 ≠ .error .eol

theorem Decodes.error {res : Except ReadError α × Stream} (h : Decodes s res)
    (heq : res = (.error e, s')) : Decodes s ((.error e, s') : Except _ β × _) := by
  subst heq
  refine ⟨takes_error h.forward, fun hk hend heol => ?_⟩
  exact h.notEol hk hend (congrArg _ (Except.error.inj heol))

theorem Decodes.next {res : Except ReadError α × Stream} {v : α} {res' : Except ReadError β}
    (h : Decodes s res) (heq : res = (.ok v, s')) (hne : res' ≠ .error .eol) :
    Decodes s (res', s') := by
  subst heq
  exact ⟨⟨h.forward, fun _ _ => h.armed v rfl, fun _ _ => h.lt v rfl⟩, fun _ _ => hne⟩

theorem decodes_of_nextKind_error (h : s.nextKind = (.error e, s')) :
    Decodes s ((.error e, s') : Except _ α × _) := by
  refine ⟨takes_error (nextKind_forward h), fun hk hend => ?_⟩
  have hne := nextKind_ne_eol hk hend
  rw [h] at hne
  simpa using hne

theorem decodes_refused (h : s.nextKind = (.ok x, s')) (he : e ≠ .eol) :
    Decodes s ((.error e, s') : Except _ α × _) :=
  ⟨takes_error (nextKind_forward h), fun _ _ => by simpa using he⟩

theorem Consumes.decodes {res : Except ReadError α × Stream} (h : s.nextKind = (.ok x, s1))
    (hread : Consumes s1 res) : Decodes s res := by
  have hfwd := (nextKind_forward h).trans (forward_of_armed hread.suffix hread.armed)
  refine ⟨⟨hfwd, fun _ _ => hread.armed, fun _ _ => ?_⟩, fun _ _ => hread.notEol⟩
  calc res.2.left = res.2.r.length := left_of_armed hread.armed
    _ ≤ s1.r.length := hread.suffix.length_le
    _ < s1.left := length_lt_left (nextKind_ok h).1
    _ ≤ s.left := (nextKind_ok h).2

theorem getBytes_decodes : Decodes s s.getBytes := by
  unfold getBytes
  split
  case _ e s1 h => exact decodes_of_nextKind_error h
  case _ s1 h => exact Consumes.decodes h ⟨List.suffix_rfl, rfl, by simp⟩
  case _ size s1 h =>
    have hread := @readFull_consumes s1 size
    split
    case _ e s2 hfull => exact (hread.error hfull).decodes h
    case _ b s2 hfull =>
      split
      · exact (hread.next hfull suffix_rfl rfl (by simp)).decodes h
      · exact (hfull ▸ hread).decodes h
  case _ s1 h => exact decodes_refused h (by simp)

theorem getUint_decodes (maxbits : Nat) : Decodes s (s.getUint maxbits) := by
  unfold getUint
  split
  case _ e s1 h => exact decodes_of_nextKind_error h
  case _ s1 h =>
    split
    · exact decodes_refused h (by simp)
    · exact Consumes.decodes h ⟨List.suffix_rfl, rfl, by simp⟩
  case _ size s1 h =>
    have hread := @readUint_consumes s1 size
    split
    · exact decodes_refused h (by simp)
    split
    case _ s2 huint =>
      rw [huint] at hread
      exact Consumes.decodes h ⟨hread.suffix, hread.armed, by simp⟩
    case _ e s2 _ huint => exact (hread.error huint).decodes h
    case _ v s2 huint =>
      split
      · exact (hread.next huint suffix_rfl rfl (by simp)).decodes h
      · exact (huint ▸ hread).decodes h
  case _ s1 h => exact decodes_refused h (by simp)

theorem getBool_decodes : Decodes s s.getBool := by
  have h := @getUint_decodes s 8
  unfold getBool
  split
  case _ e s1 hget => exact h.error hget
  all_goals
    rename_i hget
    exact h.next hget (by simp)

theorem list_decodes : Decodes s s.list := by
  unfold Stream.list
  split
  case _ e s1 h => exact decodes_of_nextKind_error h
  case _ size s1 h => exact Consumes.decodes h ⟨List.suffix_rfl, rfl, by simp⟩
  case _ s1 _ h => exact decodes_refused h (by simp)

/-! ## Simple types -/

theorem wrap_ne_eol {typ : String} (h : e ≠ .eol) : e.wrap typ ≠ .eol := by
  cases e <;> simp_all [ReadError.wrap]

theorem wrapResult_decodes {typ : String} {res : Except ReadError α × Stream}
    (h : Decodes s res) : Decodes s (wrapResult typ res) := by
  rcases res with ⟨e | v, s1⟩
  · refine ⟨takes_error h.forward, fun hk hend => ?_⟩
    have he : e ≠ .eol := by simpa using h.notEol hk hend
    simpa [wrapResult, Except.mapError] using wrap_ne_eol he
  · exact h

theorem decodeUint_decodes (w : Width) : Decodes s (decodeUint w s) := by
  have h := @wrapResult_decodes _ s (Typ.uint w).goName _ (getUint_decodes w.bits)
  unfold decodeUint
  split
  case _ e s1 hget => exact h.error hget
  case _ n s1 hget => exact h.next hget (by simp)

theorem decodeBigInt_decodes : Decodes s (decodeBigInt s) := by
  have h := @wrapResult_decodes _ s Typ.bigInt.goName _ getBytes_decodes
  unfold decodeBigInt
  split
  case _ e s1 hget => exact h.error hget
  case _ b s1 hget =>
    split
    · exact h.next hget (by simp [ReadError.wrap])
    · exact h.next hget (by simp)

/-- A zero byte read into an array of length 1 may stay ahead; otherwise the array is taken. -/
theorem decodeByteArray_decodes (n : Nat) : Decodes s (decodeByteArray typ n s) ∨
    n = 1 ∧ ∃ x s1 v, s.nextKind = (.ok x, s1) ∧
      decodeByteArray typ n s = (.ok v, (s1.getUint 64).2) := by
  unfold decodeByteArray
  dsimp only
  split
  case _ e s1 h => exact .inl (decodes_of_nextKind_error h)
  case _ s1 h =>
    split
    · exact .inl (decodes_refused h (by simp))
    split
    case isTrue hn => exact .inr ⟨hn, _, s1, _, h, rfl⟩
    · exact .inl (decodes_refused h (by simp))
  case _ size s1 h =>
    have hread := @readFull_consumes s1 n
    left
    split
    · exact decodes_refused h (by simp)
    split
    · exact decodes_refused h (by simp)
    split
    case _ e s2 hfull => exact (hread.error hfull).decodes h
    case _ b s2 hfull =>
      split
      · exact (hread.next hfull suffix_rfl rfl (by simp [ReadError.wrap])).decodes h
      split
      · exact (hread.next hfull suffix_rfl rfl (by simp)).decodes h
      · exact (hread.next hfull suffix_rfl rfl (by simp)).decodes h
  case _ s1 h => exact .inl (decodes_refused h (by simp [ReadError.wrap]))

theorem decodeByteArray_forward (n : Nat) : Forward s (decodeByteArray typ n s).2 := by
  rcases @decodeByteArray_decodes s typ n with h | ⟨-, x, s1, v, h, heq⟩
  · exact h.forward
  · rw [heq]
    exact (nextKind_forward h).trans (getUint_decodes 64).forward

theorem decodeByteArray_takes (hn : n ≠ 1) : Takes s (decodeByteArray typ n s) :=
  ((decodeByteArray_decodes n).resolve_right fun h => hn h.1).toTakes

theorem decodeByteArray_ne_eol (hk : s.kind = none) (hend : ¬ s.AtEnd) (n : Nat) :
    (decodeByteArray typ n s).1 ≠ .error .eol := by
  rcases @decodeByteArray_decodes s typ n with h | ⟨-, x, s1, v, h, heq⟩
  · exact h.notEol hk hend
  · simp [heq]

/-! ## Elements of a list -/

/-- A round of the loops over the elements of a slice and of an array. -/
def nextElem (d : Outcome α) (i : Nat) (rest : Stream → Outcome (List α)) : Outcome (List α) :=
  match d with
  | none => none
  | some (.error .eol, s) => some (.ok [], s)
  | some (.error e, s) => some (.error (e.addContext ("[" ++ toString i ++ "]")), s)
  | some (.ok v, s) => (rest s).bindOk fun vs s => some (.ok (v :: vs), s)

end GethComments.Rlp
