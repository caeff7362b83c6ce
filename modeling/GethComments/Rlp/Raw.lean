import GethComments.Rlp.Stream

/-!
# Splitting encoded values

`rlp/raw.go`: values are taken off the front of a byte string without decoding them. Sizes are
unsigned 64-bit numbers in the source; a value is never larger than its input, so none wraps.

* `IsItem`: what stands at the front of any input is read as one value;
* `isItem_string`, `isItem_list`: encoded strings and lists are;
* `countValues_flatten`: the values of a list are counted;
* `encodeString_append_inj`, `encodeList_inj`: what is written determines what was written.
-/

namespace GethComments.Rlp

open List

namespace Raw

def readSize (b : Bytes) (slen : Nat) : Except ReadError Nat :=
  if b.length < slen then .error .unexpectedEOF
  else
    let s := setBytes (b.take slen)
    -- Sizes below 56 have no bytes of their own, and there is no leading zero.
    if s < 56 ∨ b.head? = some 0 then .error .canonSize else .ok s

/-- The tag: kind, tag size and content size. -/
def readTag (b : UInt8) (rest : Bytes) : Except ReadError (ValueKind × Nat × Nat) :=
  let n := b.toNat
  if n < 0x80 then .ok (.byte, 0, 1)
  else if n < 0xb8 then
    if n - 0x80 = 1 ∧ rest.head?.any (·.toNat < 128) then .error .canonSize
    else .ok (.string, 1, n - 0x80)
  else if n < 0xc0 then (readSize rest (n - 0xb7)).map fun size => (.string, n - 0xb7 + 1, size)
  else if n < 0xf8 then .ok (.list, 1, n - 0xc0)
  else (readSize rest (n - 0xf7)).map fun size => (.list, n - 0xf7 + 1, size)

def readKind (buf : Bytes) : Except ReadError (ValueKind × Nat × Nat) :=
  match buf with
  | [] => .error .unexpectedEOF
  | b :: rest => do
    let (k, tagsize, contentsize) ← readTag b rest
    if contentsize > buf.length - tagsize then .error .valueTooLarge
    else .ok (k, tagsize, contentsize)

/-- `Split`: the kind and the content of the first value, and the bytes after it. -/
def split (b : Bytes) : Except ReadError (ValueKind × Bytes × Bytes) := do
  let (k, ts, cs) ← readKind b
  .ok (k, (b.drop ts).take cs, b.drop (ts + cs))

def splitString (b : Bytes) : Except ReadError (Bytes × Bytes) := do
  let (k, content, rest) ← split b
  if k = .list then .error .expectedString else .ok (content, rest)

def splitList (b : Bytes) : Except ReadError (Bytes × Bytes) := do
  let (k, content, rest) ← split b
  if k ≠ .list then .error .expectedList else .ok (content, rest)

/-- The loop of `CountValues`, which takes at least one byte in each round. -/
def countLoop : Nat → Bytes → Except ReadError Nat
  | _, [] => .ok 0
  | 0, _ :: _ => .ok 0
  | fuel + 1, b => do
    let (_, tagsize, size) ← readKind b
    let i ← countLoop fuel (b.drop (tagsize + size))
    .ok (i + 1)

def countValues (b : Bytes) : Except ReadError Nat := countLoop b.length b

/-! ## Values at the front -/

/-- The bytes are read as one value with this kind and content, whatever follows. -/
def IsItem (e : Bytes) (k : ValueKind) (c : Bytes) : Prop :=
  ∃ tag, e = tag ++ c ∧ ∀ rest, readKind (e ++ rest) = .ok (k, tag.length, c.length)

variable {e c : Bytes} {k : ValueKind}

theorem split_item (h : IsItem e k c) (rest : Bytes) : split (e ++ rest) = .ok (k, c, rest) := by
  obtain ⟨tag, rfl, hread⟩ := h
  have hdrop : (tag ++ c ++ rest).drop (tag.length + c.length) = rest := drop_left' (by simp)
  rw [split, hread]
  show Except.ok (k, _, _) = _
  rw [hdrop, append_assoc, drop_left, take_left]

theorem splitString_item (h : IsItem e k c) (hk : k ≠ .list) (rest : Bytes) :
    splitString (e ++ rest) = .ok (c, rest) := by
  rw [splitString, split_item h]
  exact if_neg hk

theorem splitList_item (h : IsItem e .list c) (rest : Bytes) :
    splitList (e ++ rest) = .ok (c, rest) := by
  rw [splitList, split_item h]
  rfl

theorem IsItem.ne_nil (h : IsItem e k c) : e ≠ [] := by
  rintro rfl
  obtain ⟨tag, -, hread⟩ := h
  exact (nomatch hread [])

theorem countLoop_flatten (es : List Bytes) : ∀ fuel, es.flatten.length ≤ fuel →
    (∀ e ∈ es, ∃ k c, IsItem e k c) → countLoop fuel es.flatten = .ok es.length := by
  induction es with
  | nil =>
    intro fuel _ _
    cases fuel <;> rfl
  | cons e es ih =>
    intro fuel hfuel hes
    obtain ⟨k, c, hitem⟩ := hes e (by simp)
    have hne := hitem.ne_nil
    have hpos := length_pos_of_ne_nil hne
    obtain ⟨tag, heq, hread⟩ := hitem
    have hlen : tag.length + c.length = e.length := by rw [heq, length_append]
    simp only [flatten_cons, length_append] at hfuel ⊢
    obtain ⟨fuel, rfl⟩ : ∃ f, fuel = f + 1 := ⟨fuel - 1, by omega⟩
    have hrest := ih fuel (by omega) fun e' he' => hes e' (mem_cons_of_mem _ he')
    rw [countLoop, hread]
    · show (countLoop fuel ((e ++ es.flatten).drop (tag.length + c.length)) >>= fun i => _) = _
      rw [hlen, drop_left, hrest]
      rfl
    · exact fun h => hne (append_eq_nil_iff.mp h).1

theorem countValues_flatten (es : List Bytes) (h : ∀ e ∈ es, ∃ k c, IsItem e k c) :
    countValues es.flatten = .ok es.length :=
  countLoop_flatten es _ le_rfl h

/-! ## Encoded values -/

theorem readSize_bytes {n : Nat} (h56 : 56 ≤ n) (rest : Bytes) :
    readSize (bytes n ++ rest) (bytes n).length = .ok n := by
  have hne : bytes n ≠ [] := by
    intro heq
    have := setBytes_bytes n
    rw [heq, setBytes_nil] at this
    omega
  have hhead : (bytes n ++ rest).head? ≠ some 0 := by
    rw [head?_append_of_ne_nil _ hne]
    exact head_bytes_ne_zero n
  have hlen : ¬ (bytes n ++ rest).length < (bytes n).length := by simp
  rw [readSize, if_neg hlen, take_left, setBytes_bytes]
  exact if_neg (by simp only [hhead, or_false]; omega)

theorem isItem_putHead {small large : Nat} (hlen : c.length < sizeBound)
    (hsmall : ∀ rest, c.length < 56 →
      readTag (UInt8.ofNat (small + c.length)) (c ++ rest) = .ok (k, 1, c.length))
    (hlarge : ∀ size rest, 1 ≤ size → size ≤ 8 → readTag (UInt8.ofNat (large + size)) rest =
      (readSize rest size).map fun n => (k, size + 1, n)) :
    IsItem (putHead small large c.length ++ c) k c := by
  refine ⟨_, rfl, fun rest => ?_⟩
  unfold putHead
  split
  case isTrue h56 =>
    rw [singleton_append, cons_append, readKind, hsmall rest h56]
    show (if c.length > (_ :: (c ++ rest)).length - 1 then _ else _) = _
    rw [if_neg (by simp)]
    rfl
  case isFalse h56 =>
    obtain ⟨hpos, hle⟩ := length_bytes_size hlen (by omega)
    rw [cons_append, cons_append, append_assoc, readKind, hlarge _ _ hpos hle,
      readSize_bytes (Nat.not_lt.mp h56)]
    show (if c.length > (_ :: (bytes c.length ++ (c ++ rest))).length -
      ((bytes c.length).length + 1) then _ else _) = _
    rw [if_neg (by simp)]
    rfl

def stringKind (v : Bytes) : ValueKind :=
  match v with
  | [x] => if x.toNat < 0x80 then .byte else .string
  | _ => .string

theorem stringKind_ne_list (v : Bytes) : stringKind v ≠ .list := by
  unfold stringKind
  split
  · split <;> simp
  · simp

theorem isItem_string {v : Bytes} (h : v.length < sizeBound) :
    IsItem (encodeString v) (stringKind v) v := by
  rcases encodeString_cases v with ⟨x, rfl, hx, heq⟩ | ⟨hne, heq⟩
  · refine ⟨[], by simp [heq], fun rest => ?_⟩
    simp [heq, stringKind, hx, readKind, readTag]
    rfl
  · have hkind : stringKind v = .string := by
      unfold stringKind
      split
      case _ x => exact if_neg fun hx => hne ⟨rfl, hx⟩
      · rfl
    rw [heq, hkind]
    refine isItem_putHead h (fun rest h56 => ?_) fun size rest hpos hle => ?_
    · have h1 : ¬ 0x80 + v.length < 0x80 := by omega
      have h2 : 0x80 + v.length < 0xb8 := by omega
      have h3 : ¬ (v.length = 1 ∧ (v ++ rest).head?.any (·.toNat < 128) = true) := by
        rintro ⟨hone, hany⟩
        obtain ⟨x, rfl⟩ := length_eq_one_iff.mp hone
        exact hne ⟨rfl, by simpa using hany⟩
      simp only [readTag, toNat_ofNat_tag (show 0x80 + v.length < 256 by omega), if_neg h1,
        if_pos h2, Nat.add_sub_cancel_left, if_neg h3]
    · have h1 : ¬ 0xb7 + size < 0x80 := by omega
      have h2 : ¬ 0xb7 + size < 0xb8 := by omega
      have h3 : 0xb7 + size < 0xc0 := by omega
      simp only [readTag, toNat_ofNat_tag (show 0xb7 + size < 256 by omega), if_neg h1, if_neg h2,
        if_pos h3, Nat.add_sub_cancel_left]

theorem isItem_list {items : List Bytes} (h : items.flatten.length < sizeBound) :
    IsItem (encodeList items) .list items.flatten := by
  refine isItem_putHead h (fun rest h56 => ?_) fun size rest hpos hle => ?_
  · have h1 : ¬ 0xc0 + items.flatten.length < 0x80 := by omega
    have h2 : ¬ 0xc0 + items.flatten.length < 0xb8 := by omega
    have h3 : ¬ 0xc0 + items.flatten.length < 0xc0 := by omega
    have h4 : 0xc0 + items.flatten.length < 0xf8 := by omega
    simp only [readTag, toNat_ofNat_tag (show 0xc0 + items.flatten.length < 256 by omega),
      if_neg h1, if_neg h2, if_neg h3, if_pos h4, Nat.add_sub_cancel_left]
  · have h1 : ¬ 0xf7 + size < 0x80 := by omega
    have h2 : ¬ 0xf7 + size < 0xb8 := by omega
    have h3 : ¬ 0xf7 + size < 0xc0 := by omega
    have h4 : ¬ 0xf7 + size < 0xf8 := by omega
    simp only [readTag, toNat_ofNat_tag (show 0xf7 + size < 256 by omega), if_neg h1, if_neg h2,
      if_neg h3, if_neg h4, Nat.add_sub_cancel_left]

/-! ## Items are told apart -/

theorem IsItem.append_inj {e' c' rest rest' : Bytes} {k' : ValueKind} (h : IsItem e k c)
    (h' : IsItem e' k' c') (heq : e ++ rest = e' ++ rest') : c = c' ∧ rest = rest' := by
  have hsplit := split_item h rest
  rw [heq, split_item h' rest'] at hsplit
  cases hsplit
  exact ⟨rfl, rfl⟩

end Raw

variable {rest rest' : Bytes}

theorem encodeString_append_inj {b b' : Bytes} (hlen : (encodeString b ++ rest).length < sizeBound)
    (h : encodeString b ++ rest = encodeString b' ++ rest') :
    b = b' ∧ rest = rest' ∧ rest.length < sizeBound := by
  have hlen' := hlen
  rw [h] at hlen'
  rw [length_append] at hlen hlen'
  have hb := length_le_encodeString b
  have hb' := length_le_encodeString b'
  obtain ⟨hc, hrest⟩ := (Raw.isItem_string (v := b) (by omega)).append_inj
    (Raw.isItem_string (v := b') (by omega)) h
  exact ⟨hc, hrest, by omega⟩

theorem encodeUint_append_inj {n n' : Nat} (hlen : (encodeUint n ++ rest).length < sizeBound)
    (h : encodeUint n ++ rest = encodeUint n' ++ rest') :
    n = n' ∧ rest = rest' ∧ rest.length < sizeBound := by
  obtain ⟨hbytes, hrest⟩ := encodeString_append_inj hlen h
  exact ⟨by rw [← setBytes_bytes n, hbytes, setBytes_bytes], hrest⟩

theorem encodeList_inj {items items' : List Bytes} (hlen : items.flatten.length < sizeBound)
    (hlen' : items'.flatten.length < sizeBound) (h : encodeList items = encodeList items') :
    items.flatten = items'.flatten :=
  ((Raw.isItem_list hlen).append_inj (Raw.isItem_list hlen') (congrArg (· ++ []) h)).1

end GethComments.Rlp
