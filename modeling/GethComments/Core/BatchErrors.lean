import GethComments.Core.PurchaseSignatures
import GethComments.Core.TxPoolLoop

/-!
# The errors of a batch of transactions

`addTxs` adds the transactions that are new and merges their errors into the slots that the
known ones left free. The loop looks for the first free slot and does not pass it by when a
transaction had no error.

* `mergeErrs_eq`: the errors fill the free slots from the front;
* `addTxs_errors_iff`: when every error stands at its transaction.
-/

namespace GethComments.TxPool

/-! ## Free slots -/

/-- The free slots take the entries of the second list in turn. -/
def fillSlots : List (Option TxError) → List (Option TxError) → List (Option TxError)
  | some err :: slots, errs => some err :: fillSlots slots errs
  | none :: slots, err :: errs => err :: fillSlots slots errs
  | slots, _ => slots

variable {slots errs : List (Option TxError)}

theorem length_fillSlots (slots errs : List (Option TxError)) :
    (fillSlots slots errs).length = slots.length := by
  fun_induction fillSlots slots errs <;> simp_all

theorem fillSlots_of_none (h : ∀ err ∈ errs, err = none) : fillSlots slots errs = slots := by
  fun_induction fillSlots slots errs <;> simp_all

theorem mergeErrs_nil (errs : List (Option TxError)) : mergeErrs [] errs = [] := by
  induction errs with
  | nil => rfl
  | cons err errs ih => exact ih

theorem mergeErrs_some (err : TxError) (slots errs : List (Option TxError)) :
    mergeErrs (some err :: slots) errs = some err :: mergeErrs slots errs := by
  induction errs generalizing slots with
  | nil => rfl
  | cons e errs ih => exact ih _

/-- The loop leaves out the transactions without an error. -/
theorem mergeErrs_eq (slots errs : List (Option TxError)) :
    mergeErrs slots errs = fillSlots slots (errs.filter Option.isSome) := by
  induction slots generalizing errs with
  | nil => rw [mergeErrs_nil, fillSlots.eq_3] <;> simp
  | cons slot slots ih =>
    cases slot with
    | some err => rw [mergeErrs_some, ih, fillSlots]
    | none =>
      induction errs with
      | nil => rfl
      | cons err errs ihe =>
        cases err with
        | none => exact ihe
        | some err => exact (mergeErrs_some err slots errs).trans (congrArg _ (ih errs))

/-- With as many entries as free slots, leaving some out makes no difference only at the end. -/
theorem fillSlots_filter_iff (h : slots.countP Option.isNone = errs.length) :
    fillSlots slots (errs.filter Option.isSome) = fillSlots slots errs ↔
      errs.Pairwise fun a b => a = none → b = none := by
  fun_induction fillSlots slots errs with
  | case1 err slots errs ih => simp [fillSlots, ih (by simpa using h)]
  | case2 slots err errs ih =>
    cases err with
    | some err => simp [fillSlots, ih (by simpa using h)]
    | none =>
      rw [List.pairwise_cons, List.filter_cons_of_neg (by simp)]
      constructor
      · intro heq
        have hnone : ∀ err ∈ errs, err = none := by
          cases hf : errs.filter Option.isSome with
          | nil => simpa using hf
          | cons err rest =>
            have hsome := List.mem_filter.mp (hf ▸ List.mem_cons_self)
            rw [hf, fillSlots] at heq
            simp [(List.cons.inj heq).1] at hsome
        exact ⟨fun err herr _ => hnone err herr,
          List.pairwise_of_forall_mem_list fun _ _ b hb _ => hnone b hb⟩
      · rintro ⟨hnone, -⟩
        have hf : errs.filter Option.isSome = [] := by
          simpa using fun err herr => hnone err herr rfl
        rw [hf, fillSlots_of_none fun err herr => hnone err herr rfl,
          fillSlots_of_none fun err herr => by cases herr]
  | case3 slots errs h1 h2 =>
    cases slots with
    | nil => cases errs <;> simp_all [fillSlots]
    | cons slot slots => cases slot <;> cases errs <;> simp_all

/-! ## The errors of `addTxs` -/

section

variable [HashFns]

/-- The transactions that the pool knows before a batch. -/
def known (pool : TxPool) (tx : Transaction) : Bool := (pool.all.get tx.hash).isSome

/-- The error of every transaction of a batch: those that `start` knows are refused, the others
are added in turn. -/
def errorsOf (start : TxPool) (isLocal : Bool) : TxPool → List Transaction → List (Option TxError)
  | _, [] => []
  | pool, tx :: txs =>
    if start.known tx then some .alreadyKnown :: errorsOf start isLocal pool txs
    else match pool.add tx isLocal with
      | (pool, .error err) => some err :: errorsOf start isLocal pool txs
      | (pool, .ok _) => none :: errorsOf start isLocal pool txs

theorem errorsOf_eq (start pool : TxPool) (isLocal : Bool) (txs : List Transaction) :
    errorsOf start isLocal pool txs =
      fillSlots (txs.map fun tx => if start.known tx then some .alreadyKnown else none)
        (pool.addTxsLocked isLocal (txs.filter fun tx => !start.known tx)).2.1 := by
  induction txs generalizing pool with
  | nil => rfl
  | cons tx txs ih =>
    by_cases hk : start.known tx
    · simp [errorsOf, hk, fillSlots, ih]
    · rcases hadd : pool.add tx isLocal with ⟨pool', res⟩
      cases res <;> simp [errorsOf, hk, fillSlots, ih, addTxsLocked, hadd]

theorem length_addTxsLocked (pool : TxPool) (isLocal : Bool) (txs : List Transaction) :
    (pool.addTxsLocked isLocal txs).2.1.length = txs.length := by
  induction txs generalizing pool with
  | nil => rfl
  | cons tx txs ih =>
    rcases hadd : pool.add tx isLocal with ⟨pool', res⟩
    cases res <;> simp [addTxsLocked, hadd, ih]

/-- **Where `addTxs` reports errors.** The result has one entry for each transaction. Entry by
entry it is the error of that transaction, none if it was accepted, exactly if no new
transaction of the batch is refused after another one was accepted. -/
theorem addTxs_errors_iff (pool : TxPool) (txs : List Transaction) (isLocal : Bool) :
    (pool.addTxs txs isLocal).2.1.length = txs.length ∧
      ((pool.addTxs txs isLocal).2.1 = errorsOf pool isLocal pool txs ↔
        (pool.addTxsLocked isLocal (txs.filter fun tx => !pool.known tx)).2.1.Pairwise
          fun a b => a = none → b = none) := by
  have hadd : (pool.addTxs txs isLocal).2.1 =
      mergeErrs (txs.map fun tx => if pool.known tx then some .alreadyKnown else none)
        (pool.addTxsLocked isLocal (txs.filter fun tx => !pool.known tx)).2.1 := by
    rw [addTxs_eq]
    rfl
  rw [hadd, mergeErrs_eq, errorsOf_eq]
  refine ⟨by rw [length_fillSlots, List.length_map], fillSlots_filter_iff ?_⟩
  rw [length_addTxsLocked, List.countP_map, List.countP_eq_length_filter]
  congr 2
  funext tx
  cases h : pool.known tx <;> simp [h]

end

section

attribute [local instance] HashFns.plain

/-- A purchase that is accepted and one with another signature that is not: the error is
reported for the first. -/
theorem addTxs_errors_shifted : errorsOf genesisPool false genesisPool
        [purchaseOf 0 [10] [49, 55] [2] [2], purchaseOf 1 [8] [49, 55] [2] [3]] =
      [none, some .verifySig] ∧
    (genesisPool.addTxs [purchaseOf 0 [10] [49, 55] [2] [2], purchaseOf 1 [8] [49, 55] [2] [3]]
      false).2.1 = [some .verifySig, none] := by
  decide +kernel

end

end GethComments.TxPool
