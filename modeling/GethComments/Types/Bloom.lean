import GethComments.State.StateDB
import Mathlib.Data.Nat.Bitwise

/-!
# Bloom filters of logs

`core/types/bloom9.go`: a filter of 2048 bits, in 256 bytes.
-/

namespace GethComments

open List Nat

theorem testBit_foldl_or {α : Type} (f : α → Nat) (xs : List α) (i : Nat) {a : Nat} :
    (xs.foldl (fun n x => n ||| f x) a).testBit i = true ↔
      a.testBit i = true ∨ ∃ x ∈ xs, (f x).testBit i = true := by
  induction xs generalizing a with
  | nil => simp
  | cons x xs ih => simp [ih, or_assoc]

variable [HashFns]

def bloom9 (b : Bytes) : Nat :=
  let b := HashFns.keccak256 b
  [0, 2, 4].foldl (fun r i =>
    r ||| 1 <<< (((b.getD (i + 1) 0).toNat + (b.getD i 0).toNat <<< 8) &&& 2047)) 0

def logsBloom (logs : List State.Log) : Nat :=
  logs.foldl (fun bin log =>
    log.topics.foldl (fun bin b => bin ||| bloom9 b) (bin ||| bloom9 log.address)) 0

/-- `CreateBloom`, which reads the logs of the receipts; more than 256 bytes are a panic. -/
def createBloom (receipts : List (List State.Log)) : Option Bytes :=
  let b := bytes (receipts.foldl (fun bin logs => bin ||| logsBloom logs) 0)
  if 256 < b.length then none else some (replicate (256 - b.length) 0 ++ b)

def bloomLookup (bin topic : Bytes) : Bool := setBytes bin &&& bloom9 topic == bloom9 topic

theorem testBit_logsBloom (logs : List State.Log) (i : Nat) :
    (logsBloom logs).testBit i = true ↔
      ∃ log ∈ logs, ∃ b ∈ log.address :: log.topics, (bloom9 b).testBit i = true := by
  have heq : logsBloom logs = (logs.flatMap fun log => log.address :: log.topics).foldl
      (fun bin b => bin ||| bloom9 b) 0 := by
    rw [foldl_flatMap]
    rfl
  rw [heq, testBit_foldl_or]
  simp only [zero_testBit, Bool.false_eq_true, false_or, mem_flatMap]
  grind

theorem lt_of_testBit_bloom9 {b : Bytes} {i : Nat} (h : (bloom9 b).testBit i = true) :
    i < 2048 := by
  obtain h | ⟨j, -, h⟩ := (testBit_foldl_or _ _ i).mp h
  · simp at h
  · rw [one_shiftLeft, testBit_two_pow, decide_eq_true_eq] at h
    exact h ▸ Nat.lt_succ_of_le and_le_right

/-- **Bloom filters.** There is room for all bits in the filter of a block, and it finds what has no
other bits than the addresses and the topics in the logs have together. -/
theorem createBloom_finds_iff (receipts : List (List State.Log)) :
    ∃ bloom, createBloom receipts = some bloom ∧
      ∀ topic, bloomLookup bloom topic = true ↔ ∀ i, (bloom9 topic).testBit i = true →
        ∃ logs ∈ receipts, ∃ log ∈ logs, ∃ b ∈ log.address :: log.topics,
          (bloom9 b).testBit i = true := by
  have hbits := fun i => testBit_foldl_or (a := 0) logsBloom receipts i
  simp only [zero_testBit, Bool.false_eq_true, false_or, testBit_logsBloom] at hbits
  generalize hbin : receipts.foldl (fun bin logs => bin ||| logsBloom logs) 0 = bin at hbits
  have hlen : (bytes bin).length ≤ 256 := by
    rw [length_bytes_le_iff, show 256 = 2 ^ 8 from rfl, ← pow_mul]
    refine lt_pow_two_of_testBit bin fun i hi => Bool.eq_false_iff.mpr fun htrue => ?_
    obtain ⟨_, _, _, _, b, -, hb⟩ := (hbits i).mp htrue
    exact absurd (lt_of_testBit_bloom9 hb) (by omega)
  refine ⟨_, by rw [createBloom, hbin, if_neg (by omega)], fun topic => ?_⟩
  simp only [← hbits]
  rw [bloomLookup, setBytes_replicate_append, setBytes_bytes, beq_iff_eq]
  refine ⟨fun h i hi => ?_, fun h => eq_of_testBit_eq fun i => ?_⟩
  · rw [← h, testBit_and, Bool.and_eq_true] at hi
    exact hi.1
  · rw [testBit_and, Bool.and_eq_right_iff_imp]
    exact h i

end GethComments
