import GethComments.Rlp.Raw
import GethComments.Trie.Node

/-!
# Decoding nodes

`decodeNode` of `trie/node.go`. A node that is smaller than a hash is decoded inside of its parent.

* `Node.Readable`: the parts of a node are told apart by their encodings;
* `Node.decodeNode_rlp`: such a node is decoded from its encoding;
* `decodeNode_enc`: the encoding of a tree is decoded to its node.
-/

namespace GethComments.Trie

open GethComments.Rlp List Raw

/-- Decoding errors. The fuel of the model is counted in bytes and is enough for every input. -/
inductive DecodeError where
  | unexpectedEOF
  | notList (e : ReadError)
  | elements (c : Nat)
  | rlp (e : ReadError)
  | invalidValue (e : ReadError)
  | oversized (size : Nat)
  | stringSize (size : Nat)
  /-- A `decodeError`: the error, and the path to the invalid child. -/
  | path (what : DecodeError) (stack : List String)
  | fuel
  deriving DecidableEq, Repr

namespace DecodeError

/-- `wrapError` -/
def wrap (ctx : String) : DecodeError → DecodeError
  | path what stack => path what (stack ++ [ctx])
  | e => path e [ctx]

end DecodeError

/-- `decodeRef`: a child, and the bytes after it; `decode` is for embedded nodes. -/
def decodeRef (decode : Bytes → Except DecodeError LiveNode) (buf : Bytes) :
    Except DecodeError (LiveNode × Bytes) :=
  match split buf with
  | .error e => .error (.rlp e)
  | .ok (kind, val, rest) =>
    if kind = .list then
      let size := buf.length - rest.length
      if size > 32 then .error (.oversized size) else (decode buf).map fun n => (n, rest)
    else if kind = .string ∧ val.length = 0 then .ok (.nil, rest)
    else if kind = .string ∧ val.length = 32 then .ok (.hash val, rest)
    else .error (.stringSize val.length)

def decodeShort (ref : Bytes → Except DecodeError (LiveNode × Bytes)) (hash : Option Bytes)
    (elems : Bytes) : Except DecodeError LiveNode :=
  match splitString elems with
  | .error e => .error (.rlp e)
  | .ok (kbuf, rest) =>
    let key := compactToHex kbuf
    if hasTerm key then
      match splitString rest with
      | .error e => .error (.invalidValue e)
      | .ok (val, _) => .ok (.short key (.value val) ⟨hash, false⟩)
    else
      match ref rest with
      | .error e => .error (e.wrap "val")
      | .ok (r, _) => .ok (.short key r ⟨hash, false⟩)

def decodeChildren (ref : Bytes → Except DecodeError (LiveNode × Bytes)) :
    List Nat → Bytes → Except DecodeError (List LiveNode × Bytes)
  | [], elems => .ok ([], elems)
  | i :: is, elems => do
    let (cld, rest) ← (ref elems).mapError (·.wrap ("[" ++ toString i ++ "]"))
    let (clds, rest) ← decodeChildren ref is rest
    .ok (cld :: clds, rest)

def decodeFull (ref : Bytes → Except DecodeError (LiveNode × Bytes)) (hash : Option Bytes)
    (elems : Bytes) : Except DecodeError LiveNode := do
  let (clds, rest) ← decodeChildren ref (range 16) elems
  match splitString rest with
  | .error e => .error (.rlp e)
  | .ok (val, _) =>
    let last : LiveNode := if val.length > 0 then .value val else .nil
    .ok (.full (fun i => if i = 16 then last else clds.getD i.val .nil) ⟨hash, false⟩)

/-- `decodeNode` -/
def decodeLoop : Nat → Option Bytes → Bytes → Except DecodeError LiveNode
  | 0, _, _ => .error .fuel
  | fuel + 1, hash, buf =>
    if buf.length = 0 then .error .unexpectedEOF
    else
      match splitList buf with
      | .error e => .error (.notList e)
      | .ok (elems, _) =>
        let ref := decodeRef (decodeLoop fuel none)
        -- The error of counting is dropped, and the count is zero.
        match (countValues elems).toOption.getD 0 with
        | 2 => (decodeShort ref hash elems).mapError (·.wrap "short")
        | 17 => (decodeFull ref hash elems).mapError (·.wrap "full")
        | c => .error (.elements c)

def decodeNode (hash : Option Bytes) (buf : Bytes) : Except DecodeError LiveNode :=
  decodeLoop (buf.length + 1) hash buf

/-! ## Shape of the keys -/

section Shape

variable {key : Hex} {c : Tree} {ts : Nibble → Tree}

theorem Sound.inner (h : Sound (.full ts)) {i : Nibble} (hi : i ≠ 16) :
    ts i = .nil ∨ branches (ts i) = true := by
  cases ht : ts i with
  | nil => exact Or.inl rfl
  | value v =>
    have hhex : Hexed [i] := h.hexed [i] (by simp [Radix.Tree.get, ht])
    exact absurd rfl (hhex.ne_nil hi)
  | short key c => exact Or.inr rfl
  | full ch => exact Or.inr rfl

theorem Sound.shortKey (h : Sound (.short key c)) : ∃ ns : Hex, 16 ∉ ns ∧
      ((∃ v, c = .value v) ∧ key = ns ++ [16] ∨ branches c = true ∧ key = ns) := by
  obtain ⟨hne, hsolid, hwf⟩ := h.wf
  cases c with
  | nil => exact hsolid.elim
  | short nk c => exact hsolid.elim
  | value v =>
    have hhex := h.hexed (key ++ []) (by rw [Radix.Tree.get_short_append]; simp [Radix.Tree.get])
    rw [append_nil] at hhex
    obtain rfl | ⟨ns, rfl, hns⟩ := hhex
    · exact absurd rfl hne
    · exact ⟨ns, hns, Or.inl ⟨⟨v, rfl⟩, rfl⟩⟩
  | full ch =>
    obtain ⟨k, v, hk⟩ := Radix.Tree.exists_get _ hwf (by simp)
    have hne : k ≠ [] := by
      rintro rfl
      simp [Radix.Tree.get] at hk
    have hhex := h.hexed (key ++ k) (by rw [Radix.Tree.get_short_append, hk]; simp)
    exact ⟨key, hhex.not_mem key hne, Or.inr ⟨rfl, rfl⟩⟩

theorem Sound.compact_key (h : Sound (.short key c)) : compactToHex (hexToCompact key) = key := by
  obtain ⟨ns, hns, ⟨-, rfl⟩ | ⟨-, rfl⟩⟩ := h.shortKey
  · simpa using compactToHex_hexToCompact ns hns true
  · simpa using compactToHex_hexToCompact key hns false

end Shape

/-! ## Decoding what was encoded -/

theorem length_lt_encodeList {e : Bytes} {items : List Bytes} (he : e ∈ items) :
    e.length < (encodeList items).length :=
  (sublist_flatten_of_mem he).length_le.trans_lt (length_encodeList items)

theorem decodeChildren_map {ref : Bytes → Except DecodeError (LiveNode × Bytes)} {e : Nat → Bytes}
    {n : Nat → LiveNode} (is : List Nat) (h : ∀ i ∈ is, ∀ rest, ref (e i ++ rest) = .ok (n i, rest))
    (rest : Bytes) :
    decodeChildren ref is ((is.map e).flatten ++ rest) = .ok (is.map n, rest) := by
  induction is with
  | nil => rfl
  | cons i is ih =>
    have ih := ih fun j hj => h j (mem_cons_of_mem _ hj)
    rw [map_cons, flatten_cons, append_assoc, decodeChildren, h i (by simp)]
    show (decodeChildren ref is _ >>= fun r => _) = _
    rw [ih]
    rfl

theorem decodeFull_eq {ref : Bytes → Except DecodeError (LiveNode × Bytes)} {hash : Option Bytes}
    {elems rest val rest' : Bytes} {clds : List LiveNode}
    (h : decodeChildren ref (range 16) elems = .ok (clds, rest))
    (hs : splitString rest = .ok (val, rest')) :
    decodeFull ref hash elems = .ok (.full (fun i =>
      if i = 16 then (if val.length > 0 then .value val else .nil) else clds.getD i.val .nil)
      ⟨hash, false⟩) := by
  simp only [decodeFull, h, bind, Except.bind, hs]

theorem finRange_eq : finRange 17 = (range 16).map nibble ++ [16] := by decide

namespace Node

/-- The node as it is encoded: its keys are in compact form. -/
def compact : LiveNode → Collapsed
  | nil => nil
  | short key val flags => short (hexToCompact key) val.compact flags
  | full ch flags => full (fun i => (ch i).compact) flags
  | hash h => hash h
  | value v => value v

/-- The node as it is read back: the flags hold the hash of the outermost node only. -/
def read : Option Bytes → LiveNode → LiveNode
  | cached, short key val _ => short key (val.read none) ⟨cached, false⟩
  | cached, full ch _ => full (fun i => (ch i).read none) ⟨cached, false⟩
  | _, n => n

/-- Embedded nodes take at most 32 bytes. -/
def Embeds (n : LiveNode) : Prop := n.asHash = none → n.compact.rlp.length ≤ 32

/-- The parts of the node are told apart by their encodings: a short node has a value where its
key is terminated and only there, and a full node has one in its last place and only there. -/
def Readable : LiveNode → Prop
  | nil | value _ => False
  | hash h => h.length = 32
  | short key val _ => ∃ ns : Hex, 16 ∉ ns ∧
      (key = ns ++ [16] ∧ (∃ v, val = value v) ∨ key = ns ∧ val.Readable ∧ val.Embeds)
  | full ch _ => ∀ i, if i = 16 then ch i = nil ∨ ∃ v, v ≠ [] ∧ ch i = value v
      else ch i = nil ∨ (ch i).Readable ∧ (ch i).Embeds

def part (m : Collapsed) : Bytes := if m.isNil then encodeString [] else m.rlp

/-- The items of the list that encodes a node. -/
def items : LiveNode → List Bytes
  | short key val _ => [encodeString (hexToCompact key), val.compact.rlp]
  | full ch _ => (finRange 17).map fun i => part (ch i).compact
  | nil | hash _ | value _ => []

variable {n : LiveNode}

theorem Readable.hash_or_list (h : n.Readable) : (∃ x, n = hash x ∧ x.length = 32) ∨
    n.asHash = none ∧ n.compact.rlp = encodeList n.items := by
  cases n with
  | nil | value v => exact h.elim
  | hash x => exact Or.inl ⟨x, rfl, h⟩
  | short key val flags | full ch flags => exact Or.inr ⟨rfl, rfl⟩

theorem Readable.rlp_eq (h : n.Readable) (hn : n.asHash = none) :
    n.compact.rlp = encodeList n.items := by
  rcases h.hash_or_list with ⟨x, rfl, -⟩ | ⟨-, heq⟩
  · cases hn
  · exact heq

theorem Readable.part_eq (h : n.Readable) : part n.compact = n.compact.rlp := by
  cases n with
  | nil => exact h.elim
  | value v | hash h | short key val flags | full ch flags => rfl

theorem length_item {e : Bytes} (h : n.Readable) (hn : n.asHash = none) (he : e ∈ n.items) :
    e.length < n.compact.rlp.length := by
  rw [h.rlp_eq hn]
  exact length_lt_encodeList he

theorem isItem_hash {h : Bytes} (hlen : h.length = 32) : Raw.IsItem (encodeString h) .string h := by
  have hkind : stringKind h = .string := by
    unfold stringKind
    split
    case _ x => cases hlen
    · rfl
  exact hkind ▸ isItem_string (by rw [hlen]; decide)

theorem isItem_rlp (h : n.Readable) (hlen : n.compact.rlp.length < sizeBound) :
    ∃ k c, Raw.IsItem n.compact.rlp k c := by
  rcases h.hash_or_list with ⟨x, rfl, hx⟩ | ⟨-, heq⟩
  · exact ⟨_, _, isItem_hash hx⟩
  · rw [heq] at hlen ⊢
    exact ⟨_, _, isItem_list ((length_encodeList _).trans hlen)⟩

theorem decodeRef_rlp (h : n.Readable) (hsmall : n.Embeds)
    {decode : Bytes → Except DecodeError LiveNode} (hdecode : n.asHash = none → ∀ rest,
      decode (n.compact.rlp ++ rest) = .ok (n.read none)) (rest : Bytes) :
    decodeRef decode (n.compact.rlp ++ rest) = .ok (n.read none, rest) := by
  rcases h.hash_or_list with ⟨x, rfl, hx⟩ | ⟨hn, heq⟩
  · rw [compact, rlp, decodeRef, split_item (isItem_hash hx)]
    simp [hx, read]
  · have hle := hsmall hn
    have hitem : Raw.IsItem n.compact.rlp .list n.items.flatten := by
      rw [heq] at hle ⊢
      exact isItem_list ((length_encodeList _).trans_le (hle.trans (by decide)))
    rw [decodeRef, split_item hitem]
    simp only [if_true, length_append, Nat.add_sub_cancel]
    rw [if_neg (by omega), hdecode hn]
    rfl

theorem decodeLoop_eq (h : n.Readable) (hn : n.asHash = none)
    (hlen : n.compact.rlp.length < sizeBound) (hitems : ∀ e ∈ n.items, ∃ k c, Raw.IsItem e k c)
    (fuel : Nat) (hash : Option Bytes) (rest : Bytes) :
    decodeLoop (fuel + 1) hash (n.compact.rlp ++ rest) =
      let ref := decodeRef (decodeLoop fuel none)
      match n.items.length with
      | 2 => (decodeShort ref hash n.items.flatten).mapError (·.wrap "short")
      | 17 => (decodeFull ref hash n.items.flatten).mapError (·.wrap "full")
      | c => .error (.elements c) := by
  rw [h.rlp_eq hn] at hlen ⊢
  have hitem := isItem_list ((length_encodeList n.items).trans hlen)
  have hne : ¬ (encodeList n.items ++ rest).length = 0 := by simp [hitem.ne_nil]
  rw [decodeLoop, if_neg hne, splitList_item hitem]
  simp only [countValues_flatten _ hitems]
  rfl

theorem isItem_value {v : Bytes} (hlen : (encodeString v).length < sizeBound) :
    Raw.IsItem (encodeString v) (stringKind v) v :=
  isItem_string ((length_le_encodeString v).trans_lt hlen)

theorem splitString_value {v : Bytes} (hlen : (encodeString v).length < sizeBound) :
    splitString (encodeString v) = .ok (v, []) := by
  have h := splitString_item (isItem_value hlen) (stringKind_ne_list v) []
  rwa [append_nil] at h

/-- A node is decoded from its encoding, with enough fuel. -/
def Decodes (n : LiveNode) : Prop :=
  n.Readable → n.asHash = none → n.compact.rlp.length < sizeBound → ∀ fuel hash rest,
    n.compact.rlp.length ≤ fuel → decodeLoop fuel hash (n.compact.rlp ++ rest) = .ok (n.read hash)

theorem decodes_short {key : Hex} {val : LiveNode} {flags : NodeFlag} (ih : val.Decodes) :
    (short key val flags).Decodes := by
  intro h _ hlen fuel hash rest hfuel
  have hkeylen := length_item h rfl (e := encodeString (hexToCompact key)) (by simp [items])
  have hvallen := length_item h rfl (e := val.compact.rlp) (by simp [items])
  obtain ⟨fuel, rfl⟩ : ∃ f, fuel = f + 1 := ⟨fuel - 1, by omega⟩
  have hkey := isItem_value (hkeylen.trans hlen)
  have hsplit := splitString_item hkey (stringKind_ne_list _)
  obtain ⟨ns, hns, ⟨rfl, v, rfl⟩ | ⟨rfl, hval, hsmall⟩⟩ := id h
  · have hv := isItem_value (v := v) (hvallen.trans hlen)
    have hcompact := compactToHex_hexToCompact ns hns true
    rw [if_pos rfl] at hcompact
    rw [decodeLoop_eq h rfl hlen (by simpa [items, compact, rlp] using ⟨⟨_, _, hkey⟩, _, _, hv⟩)]
    simp only [items, length_cons, length_nil, flatten_cons, flatten_nil,
      append_nil, decodeShort, hsplit, hcompact, hasTerm_append, if_true, compact, rlp,
      splitString_value (hvallen.trans hlen)]
    rfl
  · have hcompact := compactToHex_hexToCompact key hns false
    simp only [Bool.false_eq_true, if_false, append_nil] at hcompact
    have href := decodeRef_rlp hval hsmall (fun hn rest =>
      ih hval hn (hvallen.trans hlen) fuel none rest (by omega)) []
    rw [append_nil] at href
    rw [decodeLoop_eq h rfl hlen
      (by simpa [items] using ⟨⟨_, _, hkey⟩, isItem_rlp hval (hvallen.trans hlen)⟩)]
    simp only [items, length_cons, length_nil, flatten_cons, flatten_nil,
      append_nil, decodeShort, hsplit, hcompact, hasTerm_eq_false hns, Bool.false_eq_true,
      if_false, href]
    rfl

theorem splitString_last {n : LiveNode} (h : n = nil ∨ ∃ v, v ≠ [] ∧ n = value v)
    (hlen : (part n.compact).length < sizeBound) : ∃ v, splitString (part n.compact) =
      .ok (v, []) ∧ (if v.length > 0 then value v else nil) = n.read none := by
  rcases h with rfl | ⟨v, hv, rfl⟩
  · exact ⟨[], splitString_value (v := []) hlen, rfl⟩
  · exact ⟨v, splitString_value hlen, if_pos (length_pos_of_ne_nil hv)⟩

theorem decodeRef_nil (decode : Bytes → Except DecodeError LiveNode) (rest : Bytes) :
    decodeRef decode (encodeString [] ++ rest) = .ok (nil, rest) := by
  rw [decodeRef, split_item (isItem_string (by decide))]
  rfl

theorem isItem_part {ch : Fin 17 → LiveNode} {flags : NodeFlag} (h : (full ch flags).Readable)
    (i : Fin 17) (hlen : (part (ch i).compact).length < sizeBound) :
    ∃ k c, Raw.IsItem (part (ch i).compact) k c := by
  have hempty : ∃ k c, Raw.IsItem (part (nil : LiveNode).compact) k c :=
    ⟨_, _, isItem_value (v := []) (by decide)⟩
  have hi := h i
  split at hi
  · rcases hi with hnil | ⟨v, -, hv⟩
    · rwa [hnil]
    · rw [hv] at hlen ⊢
      exact ⟨_, _, isItem_value hlen⟩
  · rcases hi with hnil | ⟨hread, -⟩
    · rwa [hnil]
    · rw [hread.part_eq] at hlen ⊢
      exact isItem_rlp hread hlen

theorem decodes_full {ch : Fin 17 → LiveNode} {flags : NodeFlag} (ih : ∀ i, (ch i).Decodes) :
    (full ch flags).Decodes := by
  intro h _ hlen fuel hash rest hfuel
  have hpart := fun i => length_item h rfl (e := part (ch i).compact) (by simp [items])
  obtain ⟨fuel, rfl⟩ : ∃ f, fuel = f + 1 := ⟨fuel - 1, by have := hpart 0; omega⟩
  have href : ∀ i : Nat, i ∈ range 16 → ∀ rest,
      decodeRef (decodeLoop fuel none) (part (ch (nibble i)).compact ++ rest) =
        .ok ((ch (nibble i)).read none, rest) := by
    intro i hi rest
    have h16 : nibble i ≠ 16 := by
      revert i
      decide
    have hlen' := hpart (nibble i)
    have hi := h (nibble i)
    rw [if_neg h16] at hi
    rcases hi with hnil | ⟨hread, hsmall⟩
    · rw [hnil]
      exact decodeRef_nil _ rest
    · rw [hread.part_eq] at hlen' ⊢
      exact decodeRef_rlp hread hsmall (fun hn rest =>
        ih _ hread hn (hlen'.trans hlen) fuel none rest (by omega)) rest
  have hlast := h 16
  rw [if_pos rfl] at hlast
  obtain ⟨v, hsplit, hlast⟩ := splitString_last hlast ((hpart 16).trans hlen)
  have hflat : (items (full ch flags)).flatten =
      ((range 16).map fun i => part (ch (nibble i)).compact).flatten ++
        part (ch 16).compact := by
    simp only [items, finRange_eq, map_append, map_map, flatten_append,
      map_cons, map_nil, flatten_cons, flatten_nil, append_nil]
    rfl
  have hcount : (items (full ch flags)).length = 17 := by simp [items]
  rw [decodeLoop_eq h rfl hlen fun e he => by
    obtain ⟨i, -, rfl⟩ := mem_map.mp he
    exact isItem_part h i ((hpart i).trans hlen), hcount, hflat]
  show (decodeFull _ hash _).mapError _ = _
  rw [decodeFull_eq (decodeChildren_map (range 16) href _) hsplit, hlast]
  show Except.ok (Node.full _ _) = .ok (Node.full _ _)
  congr 2
  funext i
  split
  case isTrue h16 => rw [h16]
  case isFalse h16 =>
    have hi : i.val < 16 := by
      have := i.isLt
      have : i.val ≠ 16 := fun h => h16 (Fin.ext h)
      omega
    have hnib : nibble i.val = i := Fin.ext (Nat.mod_eq_of_lt i.isLt)
    simp [hi, hnib]

theorem decodes (n : LiveNode) : n.Decodes := by
  induction n with
  | nil | value v => exact fun h => h.elim
  | hash h => exact fun _ hn => (nomatch hn)
  | short key val flags ih => exact decodes_short ih
  | full ch flags ih => exact decodes_full ih

theorem decodeNode_rlp (h : n.Readable) (hn : n.asHash = none)
    (hlen : n.compact.rlp.length < sizeBound) (hash : Option Bytes) :
    decodeNode hash n.compact.rlp = .ok (n.read hash) := by
  have h := decodes n h hn hlen (n.compact.rlp.length + 1) hash [] (by omega)
  rwa [append_nil] at h

end Node

section Enc

variable [HashFns] {t : Tree}

/-- The encodings of all nodes are byte slices, whose lengths are machine integers. -/
def Fits : Tree → Prop
  | .nil => True
  | .value v => (enc (.value v)).length < 2 ^ 63
  | .short key c => (enc (.short key c)).length < 2 ^ 63 ∧ Fits c
  | .full ch => (enc (.full ch)).length < 2 ^ 63 ∧ ∀ i, Fits (ch i)

instance decidableFits : (t : Tree) → Decidable (Fits t)
  | .nil => isTrue trivial
  | .value _ => inferInstanceAs (Decidable (_ < _))
  | .short _ c =>
    have := decidableFits c
    inferInstanceAs (Decidable (_ ∧ _))
  | .full ch =>
    have := fun i => decidableFits (ch i)
    inferInstanceAs (Decidable (_ ∧ ∀ _, _))

theorem Fits.length_lt (h : Fits t) : (enc t).length < 2 ^ 63 := by
  cases t with
  | nil => simp [enc, encodeString, putHead]
  | value v => exact h
  | short key c => exact h.1
  | full ch => exact h.1

def child (t : Tree) : LiveNode := if Sealed false t then .hash (treeHash t) else loaded none t

theorem read_loaded (t : Tree) : ∀ hash hash', (loaded hash' t).read hash = loaded hash t := by
  induction t with
  | nil | value v => exact fun _ _ => rfl
  | short key c ih =>
    intro hash hash'
    simp only [loaded, Node.read]
    congr 1
    split
    · rfl
    · exact ih none none
  | full ts ih =>
    intro hash hash'
    simp only [loaded, Node.read]
    congr 1
    funext i
    split
    · rfl
    · exact ih i none none

theorem part_child (h : Node.part (loaded none t).compact = enc t) :
    Node.part (child t).compact = link t (enc t) := by
  unfold child
  by_cases hs : Sealed false t
  · rw [if_pos hs, link_of_sealed hs]
    rfl
  · rw [if_neg hs, link_of_not_sealed hs, h]

variable (hsum : ∀ b, (HashFns.keccak256 b).length = 32)
include hsum

theorem readable_child
    (hb : branches t = true) (henc : Node.part (loaded none t).compact = enc t)
    (h : (loaded none t).Readable) : (child t).Readable ∧ (child t).Embeds := by
  unfold child
  by_cases hs : Sealed false t
  · rw [if_pos hs]
    exact ⟨hsum _, fun hn => (nomatch hn)⟩
  · rw [if_neg hs]
    refine ⟨h, fun _ => ?_⟩
    rw [← h.part_eq, henc]
    by_contra hlt
    exact hs ⟨hb, Or.inr (by omega)⟩

theorem loaded_spec (t : Tree) :
    Sound t → ∀ hash, Node.part (loaded hash t).compact = enc t ∧
      (branches t = true → (loaded hash t).Readable) := by
  induction t with
  | nil => exact fun _ _ => ⟨rfl, nofun⟩
  | value v => exact fun _ _ => ⟨rfl, nofun⟩
  | short key c ih =>
    intro hsound hash
    obtain ⟨henc, hread⟩ := ih hsound.child none
    obtain ⟨ns, hns, ⟨⟨v, rfl⟩, rfl⟩ | ⟨hb, rfl⟩⟩ := hsound.shortKey
    · refine ⟨?_, fun _ => ⟨ns, hns, Or.inl ⟨rfl, v, if_neg not_sealed_value⟩⟩⟩
      simp only [loaded, if_neg not_sealed_value, enc]
      rfl
    · have hchild := readable_child hsum hb henc (hread hb)
      refine ⟨?_, fun _ => ⟨key, hns, Or.inr ⟨rfl, hchild⟩⟩⟩
      have hlink := part_child henc
      rw [hchild.1.part_eq] at hlink
      rw [enc, ← hlink]
      rfl
  | full ts ih =>
    intro hsound hash
    have hchild := fun i => ih i (hsound.branch i) none
    refine ⟨?_, fun _ i => ?_⟩
    · rw [enc]
      show encodeList _ = _
      congr 2
      funext i
      exact part_child (hchild i).1
    · show if i = 16 then child (ts i) = .nil ∨ ∃ v, v ≠ [] ∧ child (ts i) = .value v
        else child (ts i) = .nil ∨ (child (ts i)).Readable ∧ (child (ts i)).Embeds
      split
      case isTrue h16 =>
        subst h16
        rcases hsound.last with heq | ⟨v, heq⟩
        · exact Or.inl (by rw [heq]; exact if_neg not_sealed_nil)
        · refine Or.inr ⟨v, ?_, by rw [heq]; exact if_neg not_sealed_value⟩
          rintro rfl
          exact hsound.filled [16] (by simp [Radix.Tree.get, heq])
      case isFalse h16 =>
        rcases hsound.inner h16 with heq | hb
        · exact Or.inl (by rw [heq]; exact if_neg not_sealed_nil)
        · exact Or.inr (readable_child hsum hb (hchild i).1 ((hchild i).2 hb))

theorem decodeNode_enc (hsound : Sound t)
    (hfits : Fits t) (hb : branches t = true) (hash : Option Bytes) :
    decodeNode hash (enc t) = .ok (loaded hash t) := by
  obtain ⟨henc, hread⟩ := loaded_spec hsum t hsound none
  have hread := hread hb
  rw [hread.part_eq] at henc
  have hn : (loaded none t).asHash = none := by cases t <;> rfl
  have hlen := hfits.length_lt
  rw [← henc] at hlen ⊢
  rw [Node.decodeNode_rlp hread hn (hlen.trans (by decide)), read_loaded]

end Enc

/-- Hex-prefix coding: keys and nodes are decoded to what was encoded. -/
theorem hexPrefix_decodes :
    (∀ ns : Hex, 16 ∉ ns → ∀ term : Bool,
      compactToHex (hexToCompact (ns ++ if term then [16] else [])) =
        ns ++ if term then [16] else []) ∧
    Set.InjOn hexToCompact {h | ∃ ns : Hex, 16 ∉ ns ∧ (h = ns ++ [16] ∨ h = ns)} ∧
    (∀ k : Bytes, hexToKeybytes (keybytesToHex k) = some k ∧
      hexToKeybytes (compactToHex (hexToCompact (keybytesToHex k))) = some k) ∧
    (∀ (n : LiveNode) (hash : Option Bytes), n.Readable → n.asHash = none →
      n.compact.rlp.length < sizeBound → decodeNode hash n.compact.rlp = .ok (n.read hash)) := by
  refine ⟨fun ns h term => compactToHex_hexToCompact ns h term, ?_, ?_, ?_⟩
  · exact Set.LeftInvOn.injOn compactToHex_leftInvOn
  · intro k
    have hk := hexToKeybytes_keybytesToHex k
    obtain hnil | ⟨ns, hns, hmem⟩ := hexed_keybytesToHex k
    · exact absurd hnil (keybytesToHex_ne_nil k)
    · have hcompact : compactToHex (hexToCompact (keybytesToHex k)) = keybytesToHex k :=
        compactToHex_leftInvOn ⟨ns, hmem, Or.inl hns⟩
      exact ⟨hk, by rw [hcompact, hk]⟩
  · exact fun n hash h hn hlen => Node.decodeNode_rlp h hn hlen hash

/-- A full node with an embedded leaf, a hash and a value. -/
def mixedNode : LiveNode :=
  .full (fun i => if i = 1 then .short [2, 16] (.value [5]) newFlag
    else if i = 2 then .hash (List.replicate 32 7)
    else if i = 16 then .value [9] else .nil) newFlag

theorem readable_mixedNode : mixedNode.Readable := by
  intro i
  by_cases h1 : i = 1
  · subst h1
    exact Or.inr ⟨⟨[2], by decide, Or.inl ⟨rfl, [5], rfl⟩⟩, fun _ => by decide⟩
  · by_cases h2 : i = 2
    · subst h2
      exact Or.inr ⟨rfl, fun h => by cases h⟩
    · by_cases h16 : i = 16
      · subst h16
        exact Or.inr ⟨[9], by decide, rfl⟩
      · simp only [h1, h2, h16, if_false]
        exact Or.inl trivial

theorem hexPrefix_decodes_mixedNode : mixedNode.Readable ∧
    decodeNode none mixedNode.compact.rlp = .ok (mixedNode.read none) :=
  ⟨readable_mixedNode,
    hexPrefix_decodes.2.2.2 mixedNode none readable_mixedNode rfl (by decide +kernel)⟩

set_option maxRecDepth 2000 in
/-- A key without terminator over a value: the value is taken for a reference. -/
theorem decodeNode_unterminated : let n : LiveNode := .short [1] (.value [5]) newFlag
    decodeNode none n.compact.rlp = .error (.path (.stringSize 1) ["val", "short"]) := by rfl

end GethComments.Trie
