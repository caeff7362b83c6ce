import GethComments.Types.Rlp
import GethComments.Lib.Radix

/-!
# Key encodings of the trie

`trie/encoding.go`: keys as bytes, as nibbles with a terminator, and in the compact form of the
stored nodes. The children of a full node are indexed by nibbles and the terminator, so these are
one type.

* `Hexed`: nibbles with the terminator at the end and nowhere else;
* `eq_of_begins`: no such word is a proper prefix of another;
* `compactToHex_hexToCompact`: the compact form is decoded to the key.
-/

namespace GethComments.Trie

open List UInt8

/-- A nibble, or the terminator 16. -/
abbrev Nibble := Fin 17

abbrev Hex := List Nibble

instance neZeroSeventeen : NeZero 17 := ⟨by decide⟩

def nibble (n : Nat) : Nibble := Fin.ofNat 17 n

def keybytesToHex (str : Bytes) : Hex :=
  (str.flatMap fun b => [nibble (b.toNat / 16), nibble (b.toNat % 16)]) ++ [16]

/-- `hasTerm`: whether a key has the terminator flag. -/
def hasTerm (s : Hex) : Bool := s.getLast? = some 16

def decodeNibbles : Hex → Bytes
  | a :: b :: rest => ofNat (a.val <<< 4 ||| b.val) :: decodeNibbles rest
  | _ => []

def hexToCompact (hex : Hex) : Bytes :=
  let terminator := if hasTerm hex then 1 else 0
  let hex := if hasTerm hex then hex.dropLast else hex
  let flag := terminator <<< 5
  match hex with
  | [] => [ofNat flag]
  | nib :: rest =>
    if hex.length % 2 = 1 then ofNat (flag ||| 1 <<< 4 ||| nib.val) :: decodeNibbles rest
    else ofNat flag :: decodeNibbles hex

def compactToHex (compact : Bytes) : Hex :=
  match keybytesToHex compact with
  | [] => []
  | first :: rest =>
    if compact = [] then []
    else
      -- Delete the terminator, then the flag, with the odd nibble or without.
      let base := if first.val < 2 then (first :: rest).dropLast else first :: rest
      base.drop (2 - first.val % 2)

/-- `hexToKeybytes`, which panics on keys of odd length. -/
def hexToKeybytes (hex : Hex) : Option Bytes :=
  let hex := if hasTerm hex then hex.dropLast else hex
  if hex.length % 2 ≠ 0 then none else some (decodeNibbles hex)

def prefixLen (a b : Hex) : Nat := Radix.Tree.commonLen a b

/-! ## Terminated words -/

/-- What is left of a key: nothing, or nibbles and the terminator. -/
def Hexed (k : Hex) : Prop := k = [] ∨ ∃ ns : Hex, k = ns ++ [16] ∧ 16 ∉ ns

theorem hexed_keybytesToHex (str : Bytes) : Hexed (keybytesToHex str) := by
  refine Or.inr ⟨_, rfl, ?_⟩
  simp only [mem_flatMap, mem_cons, not_mem_nil, or_false, not_exists, not_and,
    not_or]
  intro b _
  have := b.toNat_lt
  constructor
  · intro h
    have := congrArg Fin.val h
    simp [nibble, Fin.ofNat] at this
    omega
  · intro h
    have := congrArg Fin.val h
    simp [nibble, Fin.ofNat] at this
    omega

variable {k k' ns : Hex} {a : Nibble}

theorem Hexed.tail (h : Hexed (a :: k)) : Hexed k := by
  rcases h with h | ⟨ns, hns, hmem⟩
  · cases h
  · cases ns with
    | nil =>
      simp only [nil_append, cons.injEq] at hns
      exact Or.inl hns.2
    | cons b ns =>
      simp only [cons_append, cons.injEq] at hns
      exact Or.inr ⟨ns, hns.2, fun hm => hmem (mem_cons_of_mem _ hm)⟩

theorem Hexed.right (p : Hex) (h : Hexed (p ++ k)) : Hexed k := by
  induction p with
  | nil => exact h
  | cons a p ih => exact ih h.tail

theorem Hexed.eq_nil (h : Hexed (16 :: k)) : k = [] := by
  rcases h with h | ⟨ns, hns, hmem⟩
  · cases h
  · cases ns with
    | nil => simpa using hns
    | cons b ns =>
      simp only [cons_append, cons.injEq] at hns
      exact absurd (hns.1 ▸ mem_cons_self) hmem

theorem Hexed.ne_nil (h : Hexed (a :: k)) (ha : a ≠ 16) : k ≠ [] := by
  rintro rfl
  rcases h with h | ⟨ns, hns, -⟩
  · cases h
  · have := congrArg getLast? hns
    simp at this
    exact ha this

theorem Hexed.not_mem (p : Hex) (h : Hexed (p ++ k)) (hk : k ≠ []) : 16 ∉ p := by
  induction p with
  | nil => simp
  | cons a p ih =>
    rw [mem_cons, not_or]
    refine ⟨?_, ih h.tail⟩
    rintro rfl
    exact hk (append_eq_nil_iff.mp (Hexed.eq_nil h)).2

/-- No terminated word is a proper prefix of another. -/
theorem Hexed.eq_of_begins (h : Hexed k) (h' : Hexed k') (hne : k ≠ []) (hpre : k <+: k') :
    k = k' := by
  induction k generalizing k' with
  | nil => exact absurd rfl hne
  | cons a k ih =>
    obtain ⟨rest, rfl⟩ := hpre
    by_cases ha : a = 16
    · subst ha
      obtain rfl := h.eq_nil
      have hrest : rest = [] := Hexed.eq_nil h'
      rw [hrest, append_nil]
    · have hk : k = k ++ rest := ih h.tail h'.tail (h.ne_nil ha) (prefix_append _ _)
      rw [cons_append, ← hk]

theorem keybytesToHex_cons (b : UInt8) (str : Bytes) : keybytesToHex (b :: str) =
    nibble (b.toNat / 16) :: nibble (b.toNat % 16) :: keybytesToHex str := rfl

theorem keybytesToHex_ne_nil (str : Bytes) : keybytesToHex str ≠ [] := by simp [keybytesToHex]

theorem byte_eq_of_nibbles {b b' : UInt8} (h1 : nibble (b.toNat / 16) = nibble (b'.toNat / 16))
    (h2 : nibble (b.toNat % 16) = nibble (b'.toNat % 16)) : b = b' := by
  have h1 := congrArg Fin.val h1
  have h2 := congrArg Fin.val h2
  have := b.toNat_lt
  have := b'.toNat_lt
  simp only [nibble, Fin.ofNat] at h1 h2
  exact UInt8.toNat_inj.mp (by omega)

theorem keybytesToHex_injective : Function.Injective keybytesToHex := by
  intro s
  induction s with
  | nil =>
    intro s' h
    cases s' with
    | nil => rfl
    | cons b s' => simpa [keybytesToHex] using congrArg length h
  | cons b s ih =>
    intro s' h
    cases s' with
    | nil => simpa [keybytesToHex] using congrArg length h
    | cons b' s' =>
      simp only [keybytesToHex_cons, cons.injEq] at h
      rw [byte_eq_of_nibbles h.1 h.2.1, ih h.2.2]

/-! ## The compact form -/

theorem nibbles_ofNat (a b : Nibble) (ha : a ≠ 16) (hb : b ≠ 16) :
    nibble ((ofNat (a.val <<< 4 ||| b.val)).toNat / 16) = a ∧
    nibble ((ofNat (a.val <<< 4 ||| b.val)).toNat % 16) = b := by
  revert a b
  decide

theorem keybytesToHex_decodeNibbles : (ns : Hex) → 16 ∉ ns → ns.length % 2 = 0 →
    keybytesToHex (decodeNibbles ns) = ns ++ [16]
  | [], _, _ => rfl
  | [_], _, h => by simp at h
  | a :: b :: ns, hmem, hlen => by
    simp only [mem_cons, not_or] at hmem
    obtain ⟨h1, h2⟩ := nibbles_ofNat a b (Ne.symm hmem.1) (Ne.symm hmem.2.1)
    have hlen' : ns.length % 2 = 0 := by
      simp only [length_cons] at hlen
      omega
    rw [decodeNibbles, keybytesToHex_cons, h1, h2, keybytesToHex_decodeNibbles ns hmem.2.2 hlen']
    rfl

theorem hasTerm_append (ns : Hex) : hasTerm (ns ++ [16]) = true := by simp [hasTerm]

theorem hasTerm_eq_false (h : 16 ∉ ns) : hasTerm ns = false := by
  simp only [hasTerm, decide_eq_false_iff_not]
  exact fun hlast => h (mem_of_getLast? hlast)

theorem nibbles_flag (term : Bool) (b : Nibble) (hb : b ≠ 16) :
    let flag := (if term then 1 else 0) <<< 5
    (nibble ((ofNat flag).toNat / 16) = (if term then 2 else 0) ∧
      nibble ((ofNat flag).toNat % 16) = 0) ∧
    nibble ((ofNat (flag ||| 1 <<< 4 ||| b.val)).toNat / 16) = (if term then 3 else 1) ∧
    nibble ((ofNat (flag ||| 1 <<< 4 ||| b.val)).toNat % 16) = b := by
  revert term b
  decide

theorem hexToCompact_eq (ns : Hex) (h : 16 ∉ ns) (term : Bool) :
    hexToCompact (ns ++ if term then [16] else []) =
      let flag := (if term then 1 else 0) <<< 5
      if ns.length % 2 = 1 then
        ofNat (flag ||| 1 <<< 4 ||| (ns.headD 0).val) :: decodeNibbles ns.tail
      else ofNat flag :: decodeNibbles ns := by
  cases term with
  | true =>
    simp only [hexToCompact, if_true, hasTerm_append, dropLast_concat]
    cases ns with
    | nil => rfl
    | cons a ns => rfl
  | false =>
    simp only [hexToCompact, Bool.false_eq_true, if_false, append_nil, hasTerm_eq_false h]
    cases ns with
    | nil => rfl
    | cons a ns => rfl

theorem compactToHex_cons (b : UInt8) (s : Bytes) : compactToHex (b :: s) =
      let x := nibble (b.toNat / 16)
      let y := nibble (b.toNat % 16)
      (x :: y :: if x.val < 2 then (keybytesToHex s).dropLast else keybytesToHex s).drop
        (2 - x.val % 2) := by
  have hne := keybytesToHex_ne_nil s
  simp only [compactToHex, keybytesToHex_cons, reduceCtorEq, if_false]
  split <;> simp [dropLast_cons_of_ne_nil, hne]

theorem compactToHex_hexToCompact (ns : Hex) (h : 16 ∉ ns) (term : Bool) :
    compactToHex (hexToCompact (ns ++ if term then [16] else [])) =
      ns ++ if term then [16] else [] := by
  rw [hexToCompact_eq ns h term]
  by_cases hodd : ns.length % 2 = 1
  · obtain ⟨a, ns, rfl⟩ := exists_cons_of_length_pos (l := ns) (by omega)
    simp only [mem_cons, not_or] at h
    obtain ⟨-, hx, hy⟩ := nibbles_flag term a (Ne.symm h.1)
    have hrest : keybytesToHex (decodeNibbles ns) = ns ++ [16] :=
      keybytesToHex_decodeNibbles ns h.2 (by simp only [length_cons] at hodd; omega)
    simp only [hodd, if_true, headD_cons, tail_cons, compactToHex_cons, hx, hy, hrest]
    cases term <;> simp
  · obtain ⟨⟨hx, hy⟩, -⟩ := nibbles_flag term 0 (by decide)
    have hrest : keybytesToHex (decodeNibbles ns) = ns ++ [16] :=
      keybytesToHex_decodeNibbles ns h (by omega)
    simp only [hodd, if_false, compactToHex_cons, hx, hy, hrest]
    cases term <;> simp

theorem compactToHex_leftInvOn :
    Set.LeftInvOn compactToHex hexToCompact
      {h | ∃ ns : Hex, 16 ∉ ns ∧ (h = ns ++ [16] ∨ h = ns)} := by
  rintro h ⟨ns, hns, rfl | rfl⟩
  · exact compactToHex_hexToCompact ns hns true
  · simpa using compactToHex_hexToCompact h hns false

theorem hexToKeybytes_keybytesToHex (k : Bytes) : hexToKeybytes (keybytesToHex k) = some k := by
  obtain hnil | ⟨ns, hns, hmem⟩ := hexed_keybytesToHex k
  · exact absurd hnil (keybytesToHex_ne_nil k)
  · have hlen : ns.length % 2 = 0 := by
      have := congrArg length hns
      simp [keybytesToHex] at this
      omega
    have hk : decodeNibbles ns = k :=
      keybytesToHex_injective (by rw [keybytesToHex_decodeNibbles ns hmem hlen, hns])
    rw [hexToKeybytes, hns]
    simp [hasTerm_append, hlen, hk]

end GethComments.Trie
