import GethComments.Types.Block

/-!
# Executing the transactions of a block

`IntrinsicGas`, `TransitionDb`, `ApplyTransaction` and `Process`. The virtual machine,
the consensus engine, the signature scheme and the Merkle tries are parameters,
collected in `ExecEnv`. Execution reads the message fields of a transaction and its
hash; it does not look at commitments or proofs.
-/

namespace GethComments

inductive ExecError where
  | invalidSender
  | nonceTooHigh
  | nonceTooLow
  | insufficientBalanceForGas
  | gasLimitReached
  | insufficientBalance
  deriving DecidableEq, Repr

inductive VmError where
  | insufficientBalance
  | other
  deriving DecidableEq, Repr

/-- What a run of the virtual machine leaves behind. -/
structure EvmResult where
  state : StateDB
  gas : UInt64
  refund : UInt64
  logs : List Bytes
  err : Option VmError

/-- A message; `CheckNonce` is false for those that do not come from a transaction. -/
structure Message where
  sender : Address
  recipient : Option Address
  nonce : UInt64
  gasPrice : Nat
  gas : UInt64
  value : Int
  data : Bytes
  checkNonce : Bool

structure Receipt where
  postState : Bytes
  failed : Bool
  cumulativeGasUsed : UInt64
  txHash : Hash
  gasUsed : UInt64
  contractAddress : Option Address
  logs : List Bytes
  deriving DecidableEq

/-- What the consensus engine can read of the chain: not the commitment database. -/
structure ChainReader where
  currentHeader : Header
  blocks : UInt64 → Hash → Option Block
  canonical : UInt64 → Option Hash

structure ExecEnv where
  /-- `Sender` under the signer of a block number. -/
  sender : Nat → Transaction → Option Address
  homestead : Nat → Bool
  istanbul : Nat → Bool
  byzantium : Nat → Bool
  /-- The irregular state change of the DAO fork, where the block number calls for it. -/
  daoFork : Nat → StateDB → StateDB
  evmCreate : Header → StateDB → Address → Bytes → UInt64 → Int → EvmResult
  evmCall : Header → StateDB → Address → Address → Bytes → UInt64 → Int → EvmResult
  createAddress : Address → UInt64 → Address
  intermediateRoot : StateDB → Hash
  /-- The rewards and other extras of the consensus engine. -/
  finalize : ChainReader → Header → StateDB → List Transaction → List Header → StateDB

/-! ## One transaction -/

/-- `IntrinsicGas`, with unsigned 64-bit arithmetic and without overflow checks. -/
def intrinsicGas (data : Bytes) (contractCreation isHomestead isEIP2028 : Bool) : UInt64 :=
  let gas : UInt64 := if contractCreation && isHomestead then 53000 else 21000
  if data.length > 0 then
    let nz := UInt64.ofNat (data.countP (· ≠ 0))
    let nonZeroGas : UInt64 := if isEIP2028 then 16 else 68
    let z := UInt64.ofNat data.length - nz
    gas + nz * nonZeroGas + z * 4
  else gas

namespace StateDB

def addBalance (st : StateDB) (a : Address) (amount : Int) : StateDB :=
  { st with balance := Function.update st.balance a (st.balance a + amount) }

def setNonce (st : StateDB) (a : Address) (nonce : UInt64) : StateDB :=
  { st with nonce := Function.update st.nonce a nonce }

end StateDB

/-- `buyGas`: the sender pays for all the gas and the block's gas pool provides it. -/
def buyGas (st : StateDB) (gp : UInt64) (msg : Message) : Except ExecError (StateDB × UInt64) :=
  let mgval : Int := msg.gas.toNat * msg.gasPrice
  if st.balance msg.sender < mgval then .error .insufficientBalanceForGas
  else if gp < msg.gas then .error .gasLimitReached
  else .ok (st.addBalance msg.sender (-mgval), gp - msg.gas)

def preCheck (st : StateDB) (gp : UInt64) (msg : Message) : Except ExecError (StateDB × UInt64) :=
  if msg.checkNonce ∧ st.nonce msg.sender < msg.nonce then .error .nonceTooHigh
  else if msg.checkNonce ∧ st.nonce msg.sender > msg.nonce then .error .nonceTooLow
  else buyGas st gp msg

structure Transition where
  state : StateDB
  gp : UInt64
  usedGas : UInt64
  failed : Bool
  logs : List Bytes

/-- `refundGas` and the payment of the miner. -/
def settleGas (header : Header) (msg : Message) (gp : UInt64) (r : EvmResult) : Transition :=
  let used := msg.gas - r.gas
  let refund := if used / 2 > r.refund then r.refund else used / 2
  let gas := r.gas + refund
  let usedGas := msg.gas - gas
  let st := r.state.addBalance msg.sender (gas.toNat * msg.gasPrice)
  let st := st.addBalance header.coinbase (usedGas.toNat * msg.gasPrice)
  { state := st, gp := gp + gas, usedGas := usedGas, failed := r.err.isSome, logs := r.logs }

/-- `TransitionDb`. An error of the machine only fails the transaction, except for
a missing balance. -/
def transitionDb (env : ExecEnv) (header : Header) (st : StateDB) (gp : UInt64) (msg : Message) :
    Except ExecError Transition := do
  let (st, gp) ← preCheck st gp msg
  let intrinsic := intrinsicGas msg.data msg.recipient.isNone (env.homestead header.number)
    (env.istanbul header.number)
  let gas := msg.gas - intrinsic
  let r := match msg.recipient with
    | none => env.evmCreate header st msg.sender msg.data gas msg.value
    | some recipient =>
      let st := st.setNonce msg.sender (st.nonce msg.sender + 1)
      env.evmCall header st msg.sender recipient msg.data gas msg.value
  if r.err = some .insufficientBalance then .error .insufficientBalance
  else .ok (settleGas header msg gp r)

def asMessage (env : ExecEnv) (number : Nat) (tx : Transaction) : Option Message :=
  (env.sender number tx).map fun sender =>
    { sender := sender, recipient := tx.recipient, nonce := tx.accountNonce, gasPrice := tx.price,
      gas := tx.gasLimit, value := tx.amount, data := tx.payload, checkNonce := true }

variable [HashFns]

/-- The state, the gas pool, the gas used so far and the receipts. -/
structure Processed where
  state : StateDB
  gp : UInt64
  usedGas : UInt64
  receipts : List Receipt

def applyTransaction (env : ExecEnv) (header : Header) (p : Processed) (tx : Transaction) :
    Except ExecError Processed :=
  match asMessage env header.number tx with
  | none => .error .invalidSender
  | some msg => do
      let t ← transitionDb env header p.state p.gp msg
      let usedGas := p.usedGas + t.usedGas
      let receipt : Receipt :=
        { postState := if env.byzantium header.number then [] else env.intermediateRoot t.state
          failed := t.failed
          cumulativeGasUsed := usedGas
          txHash := tx.hash
          gasUsed := t.usedGas
          contractAddress := if msg.recipient.isNone then
            some (env.createAddress msg.sender tx.accountNonce) else none
          logs := t.logs }
      .ok { state := t.state, gp := t.gp, usedGas := usedGas, receipts := p.receipts ++ [receipt] }

/-- `Process`: the transactions in order, then the engine's extras. -/
def process (env : ExecEnv) (reader : ChainReader) (block : Block) (st : StateDB) :
    Except ExecError Processed := do
  let start : Processed :=
    { state := env.daoFork block.header.number st, gp := block.header.gasLimit, usedGas := 0,
      receipts := [] }
  let p ← block.transactions.foldlM (applyTransaction env block.header) start
  .ok { p with state :=
    env.finalize reader block.header p.state block.transactions block.uncles }

end GethComments
