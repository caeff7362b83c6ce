import GethComments.Rlp.Raw
import GethComments.Rlp.RoundTrip

/-!
# Splitting what was encoded

The functions of `rlp/raw.go` on the output of the encoder, for all types.
-/

namespace GethComments.Rlp

open List

theorem Encoded.isItem {e : Bytes} (h : Encoded e) (hlen : e.length < 2 ^ 64) :
    ∃ k c, Raw.IsItem e k c := by
  rcases h with ⟨b, rfl⟩ | ⟨items, rfl⟩
  · exact ⟨_, _, Raw.isItem_string ((length_le_encodeString b).trans_lt hlen)⟩
  · exact ⟨_, _, Raw.isItem_list ((length_encodeList items).trans hlen)⟩

/-- The encodings of any values, one after the other, are counted and taken off one by one. -/
theorem countValues_encoded (bs : List Bytes) (h : ∀ b ∈ bs, b.length < 2 ^ 64 ∧
      ∃ (t : Typ) (v : t.Val), t.NonNeg v ∧ encodeToBytes t v = .ok b) :
    Raw.countValues bs.flatten = .ok bs.length ∧
      ∀ b ∈ bs, ∀ rest, ∃ k c, Raw.split (b ++ rest) = .ok (k, c, rest) := by
  have hitem : ∀ b ∈ bs, ∃ k c, Raw.IsItem b k c := by
    intro b hb
    obtain ⟨hlen, t, v, hneg, henc⟩ := h b hb
    obtain rfl : t.encode v = b := Except.ok.inj ((encodeToBytes_eq t v hneg).symm.trans henc)
    exact (t.encoded v).isItem hlen
  refine ⟨Raw.countValues_flatten bs hitem, fun b hb rest => ?_⟩
  obtain ⟨k, c, hkc⟩ := hitem b hb
  exact ⟨k, c, Raw.split_item hkc rest⟩

/-- A number with a header, a list of texts and a boolean. -/
def encodings : List Bytes := [[0x82, 0x01, 0x2c], [0xc5, 0x01, 0x82, 0xc8, 0xc9, 0x80], [0x01]]

theorem countValues_encoded_three :
    Raw.countValues [0x82, 0x01, 0x2c, 0xc5, 0x01, 0x82, 0xc8, 0xc9, 0x80, 0x01] = .ok 3 ∧
      (∃ k c, Raw.split [0x82, 0x01, 0x2c, 0xc5, 0x01, 0x82, 0xc8, 0xc9, 0x80, 0x01] =
        .ok (k, c, [0xc5, 0x01, 0x82, 0xc8, 0xc9, 0x80, 0x01])) ∧
      ∃ k c, Raw.split [0xc5, 0x01, 0x82, 0xc8, 0xc9, 0x80, 0x01] = .ok (k, c, [0x01]) := by
  obtain ⟨hcount, hsplit⟩ := countValues_encoded encodings fun b hb => by
    simp only [encodings, mem_cons, not_mem_nil, or_false] at hb
    rcases hb with rfl | rfl | rfl
    · exact ⟨by decide, .uint .w64, (300 : Fin (2 ^ 64)), trivial, by decide⟩
    · exact ⟨by decide, .slice .string, ([[1], [200, 201], []] : List Bytes), fun _ _ => trivial,
        by decide⟩
    · exact ⟨by decide, .bool, true, trivial, by decide⟩
  exact ⟨hcount, hsplit [0x82, 0x01, 0x2c] (by decide) _,
    hsplit [0xc5, 0x01, 0x82, 0xc8, 0xc9, 0x80] (by decide) [0x01]⟩

end GethComments.Rlp
