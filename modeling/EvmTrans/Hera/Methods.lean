/-
# `EvmTrans.Hera.Methods` — the functions a contract imports.

Each is a method of `EthereumInterface`: it charges, checks, loads what its pointers point at, asks
the host, and stores the answer, in the ORDER of the source, because what was done before a throw
stays done.

`eeiCall` and `eeiCreate` are cut at `m_host.call`: what comes before makes the message, or the
answer of a call that is not made; what comes behind takes the client's result.
-/
import EvmTrans.Hera.Interface

namespace EvmTrans.Hera

open Lib (Program)

variable {W : Type}

namespace EthereumInterface

variable (I : EthereumInterface W)

/-! ## §1 — gas, the message and the block. -/

def eeiUseGas (gas : BitVec 64) : Eei W Unit := do
  ensureCondition (0 ≤ gas.toInt) (.ArgumentOutOfRange "Negative gas supplied.")
  takeGas gas.toInt

def eeiGetGasLeft : Eei W Int := do
  I.takeInterfaceGas GasSchedule.base
  return (← get).result.gasLeft

def eeiGetAddress (resultOffset : BitVec 32) : Eei W Unit := do
  I.takeInterfaceGas GasSchedule.base
  storeAddress I.msg.destination resultOffset

def eeiGetExternalBalance (addressOffset resultOffset : BitVec 32) : Eei W Unit := do
  I.takeInterfaceGas GasSchedule.balance
  let address ← loadAddress addressOffset
  let balance := I.host.getBalance (← get).world address
  storeUint128 balance resultOffset

/-- 1 is returned where the host has no hash, and nothing is stored. -/
def eeiGetBlockHash (number : BitVec 64) (resultOffset : BitVec 32) : Eei W (BitVec 32) := do
  I.takeInterfaceGas GasSchedule.blockhash
  let blockhash := I.host.getBlockHash (← get).world number.toInt
  if isZero blockhash then return 1
  storeBytes32 blockhash resultOffset
  return 0

def eeiGetCaller (resultOffset : BitVec 32) : Eei W Unit := do
  I.takeInterfaceGas GasSchedule.base
  storeAddress I.msg.sender resultOffset

def eeiGetCallValue (resultOffset : BitVec 32) : Eei W Unit := do
  I.takeInterfaceGas GasSchedule.base
  storeUint128 I.msg.value resultOffset

def eeiGetBlockCoinbase (resultOffset : BitVec 32) : Eei W Unit := do
  I.takeInterfaceGas GasSchedule.base
  storeAddress I.host.getTxContext.blockCoinbase resultOffset

def eeiGetBlockDifficulty (offset : BitVec 32) : Eei W Unit := do
  I.takeInterfaceGas GasSchedule.base
  storeUint256 I.host.getTxContext.blockDifficulty offset

def eeiGetBlockGasLimit : Eei W Int := do
  I.takeInterfaceGas GasSchedule.base
  return I.host.getTxContext.blockGasLimit

def eeiGetTxGasPrice (valueOffset : BitVec 32) : Eei W Unit := do
  I.takeInterfaceGas GasSchedule.base
  storeUint128 I.host.getTxContext.txGasPrice valueOffset

def eeiGetBlockNumber : Eei W Int := do
  I.takeInterfaceGas GasSchedule.base
  return I.host.getTxContext.blockNumber

def eeiGetBlockTimestamp : Eei W Int := do
  I.takeInterfaceGas GasSchedule.base
  return I.host.getTxContext.blockTimestamp

def eeiGetTxOrigin (resultOffset : BitVec 32) : Eei W Unit := do
  I.takeInterfaceGas GasSchedule.base
  storeAddress I.host.getTxContext.txOrigin resultOffset

/-! ## §2 — copies. -/

def eeiGetCallDataSize : Eei W (BitVec 32) := do
  I.takeInterfaceGas GasSchedule.base
  return BitVec.ofNat 32 I.msg.input.length

/-- A request past the end is cut to what is left; `m_msg.input_size - dataOffset` is a `size_t`
made 32 bits. -/
def eeiCallDataCopy (resultOffset dataOffset length : BitVec 32) : Eei W Unit := do
  I.safeChargeDataCopy length GasSchedule.verylow
  if (dataOffset + length).toNat ≤ I.msg.input.length then
    storeMemoryView I.msg.input dataOffset resultOffset length
  else
    storeMemoryView I.msg.input dataOffset resultOffset
      (BitVec.ofNat 32 I.msg.input.length - dataOffset)

def eeiCodeCopy (resultOffset codeOffset length : BitVec 32) : Eei W Unit := do
  I.safeChargeDataCopy length GasSchedule.verylow
  storeMemoryView I.code codeOffset resultOffset length

def eeiGetCodeSize : Eei W (BitVec 32) := do
  I.takeInterfaceGas GasSchedule.base
  return BitVec.ofNat 32 I.code.length

def eeiExternalCodeCopy (addressOffset resultOffset codeOffset length : BitVec 32) :
    Eei W Unit := do
  I.safeChargeDataCopy length GasSchedule.extcode
  let address ← loadAddress addressOffset
  let copied := I.host.copyCode (← get).world address codeOffset.toNat length.toNat
  ensureCondition (copied.length = length.toNat)
    (.InvalidMemoryAccess "Out of bounds (source) memory copy")
  storeMemoryView copied 0 resultOffset length

def eeiGetExternalCodeSize (addressOffset : BitVec 32) : Eei W (BitVec 32) := do
  I.takeInterfaceGas GasSchedule.extcode
  let address ← loadAddress addressOffset
  return BitVec.ofNat 32 (I.host.getCodeSize (← get).world address)

def eeiGetReturnDataSize : Eei W (BitVec 32) := do
  I.takeInterfaceGas GasSchedule.base
  return BitVec.ofNat 32 (← get).lastReturnData.length

def eeiReturnDataCopy (dataOffset offset size : BitVec 32) : Eei W Unit := do
  I.safeChargeDataCopy size GasSchedule.verylow
  storeMemoryView (← get).lastReturnData offset dataOffset size

/-! ## §3 — effects on the world, and the end. -/

/-- A topic is loaded when there is one, and is zero otherwise. -/
def loadTopic (there : Prop) [Decidable there] (topic : BitVec 32) : Eei W Bytes32 :=
  if there then loadBytes32 topic else return Bytes32.of 0

/-- The four topics. -/
def loadTopics (numberOfTopics topic1 topic2 topic3 topic4 : BitVec 32) : Eei W (List Bytes32) := do
  let t₁ ← loadTopic (1 ≤ numberOfTopics) topic1
  let t₂ ← loadTopic (2 ≤ numberOfTopics) topic2
  let t₃ ← loadTopic (3 ≤ numberOfTopics) topic3
  let t₄ ← loadTopic (numberOfTopics = 4) topic4
  return [t₁, t₂, t₃, t₄]

/-- What a log costs: the first two products are of 32 bits. -/
def logCost (length numberOfTopics : BitVec 32) : Int :=
  ((GasSchedule.log + GasSchedule.logTopic * numberOfTopics).toNat : Int) +
    GasSchedule.logData * length.toNat

def eeiLog (dataOffset length numberOfTopics topic1 topic2 topic3 topic4 : BitVec 32) :
    Eei W Unit := do
  I.takeInterfaceGas (logCost length numberOfTopics)
  ensureCondition (¬ I.msg.isStatic) (.StaticModeViolation "log")
  ensureCondition (numberOfTopics ≤ 4) (.ContractValidationFailure "Too many topics specified")
  let topics ← loadTopics numberOfTopics topic1 topic2 topic3 topic4
  ensureSourceMemoryBounds dataOffset length
  let data ← loadMemoryBytes dataOffset (List.replicate length.toNat 0) length.toNat
  modify fun s =>
    { s with world :=
      I.host.emitLog s.world I.msg.destination data (topics.take numberOfTopics.toNat) }

def eeiStorageStore (pathOffset valueOffset : BitVec 32) : Eei W Unit := do
  I.takeInterfaceGas GasSchedule.storageStoreChange
  ensureCondition (¬ I.msg.isStatic) (.StaticModeViolation "storageStore")
  let path ← loadBytes32 pathOffset
  let value ← loadBytes32 valueOffset
  let current := I.host.getStorage (← get).world I.msg.destination path
  Program.when (isZero current ∧ ¬ isZero value)
    (I.takeInterfaceGas (GasSchedule.storageStoreCreate - GasSchedule.storageStoreChange))
  modify fun s => { s with world := I.host.setStorage s.world I.msg.destination path value }

def eeiStorageLoad (pathOffset resultOffset : BitVec 32) : Eei W Unit := do
  I.takeInterfaceGas GasSchedule.storageLoad
  let path ← loadBytes32 pathOffset
  let result := I.host.getStorage (← get).world I.msg.destination path
  storeBytes32 result resultOffset

def eeiSelfDestruct (addressOffset : BitVec 32) : Eei W Unit := do
  I.takeInterfaceGas GasSchedule.selfdestruct
  ensureCondition (¬ I.msg.isStatic) (.StaticModeViolation "selfDestruct")
  let address ← loadAddress addressOffset
  Program.when (¬ I.host.accountExists (← get).world address) (I.takeInterfaceGas
    GasSchedule.callNewAccount)
  modify fun s => { s with world := I.host.selfdestruct s.world I.msg.destination address }
  raise .EndExecution

end EthereumInterface

/-- `eeiRevertOrFinish`; it takes no gas. -/
def eeiRevertOrFinish (revert : Bool) (offset size : BitVec 32) : Eei W Unit := do
  ensureSourceMemoryBounds offset size
  modify fun s => { s with result.returnValue := List.replicate size.toNat 0 }
  let bs ← loadMemoryBytes offset (List.replicate size.toNat 0) size.toNat
  modify fun s => { s with result.returnValue := bs, result.isRevert := revert }
  raise .EndExecution

def eeiFinish (offset size : BitVec 32) : Eei W Unit := eeiRevertOrFinish false offset size
def eeiRevert (offset size : BitVec 32) : Eei W Unit := eeiRevertOrFinish true offset size

/-! ## §4 — calls. -/

/-- What comes before `m_host.call`: the code of a call that is not made, or the message. -/
inductive Outgoing where
  | refused (code : BitVec 32)
  | call (msg : EvmcMessage)

namespace EthereumInterface

variable (I : EthereumInterface W)

/-- The message of `eeiCall`, without its input and gas: destination, flags and depth, then the
`switch (kind)`. -/
def callMessage (kind : EEICallKind) (addressOffset valueOffset : BitVec 32) :
    Eei W EvmcMessage := do
  let destination ← loadAddress addressOffset
  let flags := I.msg.flags &&& EVMC_STATIC
  let depth := I.msg.depth + 1
  match kind with
  | .Call => do
    let value ← loadUint128 valueOffset
    Program.when (¬ isZero value) (ensureCondition (¬ I.msg.isStatic) (.StaticModeViolation "call"))
    return ⟨.EVMC_CALL, flags, depth, 0, destination, I.msg.destination, [], value⟩
  | .CallCode => do
    let value ← loadUint128 valueOffset
    return ⟨.EVMC_CALLCODE, flags, depth, 0, destination, I.msg.destination, [], value⟩
  | .CallDelegate =>
    return ⟨.EVMC_DELEGATECALL, flags, depth, 0, destination, I.msg.sender, [], I.msg.value⟩
  | .CallStatic =>
    return ⟨.EVMC_CALL, flags ||| EVMC_STATIC, depth, 0, destination, I.msg.destination, [],
      Bytes32.of 0⟩

end EthereumInterface

/-- The input of a message: no bounds are asked for where there are no bytes. -/
def loadInput (dataOffset dataLength : BitVec 32) : Eei W (List Byte) := do
  if dataLength = 0 then return []
  ensureSourceMemoryBounds dataOffset dataLength
  loadMemoryBytes dataOffset (List.replicate dataLength.toNat 0) dataLength.toNat

namespace EthereumInterface

variable (I : EthereumInterface W)

/-- The charges for a value that is sent, and whether the sender has it. -/
def chargeTransfer (kind : EEICallKind) (msg : EvmcMessage) : Eei W Bool := do
  if (kind = .Call ∨ kind = .CallCode) ∧ ¬ isZero msg.value then
    I.takeInterfaceGas GasSchedule.valuetransfer
    if ¬ (← I.enoughSenderBalanceFor msg.value) then return false
    else
      Program.when (kind = .Call ∧ ¬ I.host.accountExists (← get).world msg.destination)
        (I.takeInterfaceGas GasSchedule.callNewAccount)
      return true
  else return true

/-- The gas forwarded, with the stipend, which every message with a value gets. -/
def forwardGas (gas : Int) (msg : EvmcMessage) : Eei W EvmcMessage := do
  let gas := min gas (maxCallGas (← get).result.gasLeft)
  I.takeInterfaceGas gas
  return { msg with gas := if ¬ isZero msg.value then gas + GasSchedule.valueStipend else gas }

/-- `eeiCall`, up to `m_host.call`. -/
def eeiCallBegin (kind : EEICallKind) (gas : BitVec 64)
    (addressOffset valueOffset dataOffset dataLength : BitVec 32) : Eei W Outgoing := do
  ensureCondition (0 ≤ gas.toInt) (.ArgumentOutOfRange "Negative gas supplied.")
  let msg ← I.callMessage kind addressOffset valueOffset
  let input ← loadInput dataOffset dataLength
  I.takeInterfaceGas GasSchedule.call
  if 1024 ≤ I.msg.depth then return .refused 1
  if ¬ (← I.chargeTransfer kind msg) then return .refused 1
  return .call (← I.forwardGas gas.toInt { msg with input := input })

/-- `eeiCreate`, up to `m_host.call`. -/
def eeiCreateBegin (valueOffset dataOffset length : BitVec 32) : Eei W Outgoing := do
  I.takeInterfaceGas GasSchedule.create
  ensureCondition (¬ I.msg.isStatic) (.StaticModeViolation "create")
  let value ← loadUint128 valueOffset
  if 1024 ≤ I.msg.depth then return .refused 1
  if ¬ (← I.enoughSenderBalanceFor value) then return .refused 1
  let input ← loadInput dataOffset length
  let gas := maxCallGas (← get).result.gasLeft
  I.takeInterfaceGas gas
  return .call
    ⟨.EVMC_CREATE, 0, I.msg.depth + 1, gas, Address.of 0, I.msg.destination, input, value⟩

end EthereumInterface

/-- The code returned for a status. -/
def EvmcStatus.code : EvmcStatus → BitVec 32
  | .EVMC_SUCCESS => 0
  | .EVMC_REVERT => 2
  | _ => 1

/-- The sum of two `int64_t` as the machine has it: it wraps. C++ itself leaves a sum out of range
open. -/
def int64Add (x y : Int) : Int := (x + y).bmod (2 ^ 64)

section
variable {x y : Int}

theorem int64Add_min : -2 ^ 63 ≤ int64Add x y := by
  unfold int64Add
  rw [Int.bmod_def]
  split <;> omega

theorem int64Add_lt : int64Add x y < 2 ^ 63 := by
  unfold int64Add
  rw [Int.bmod_def]
  split <;> omega

/-- Two numbers that are not below the range together: the sum wraps downwards, if at all. -/
theorem int64Add_le (h : -2 ^ 63 ≤ x + y) : int64Add x y ≤ x + y := by
  unfold int64Add
  rw [Int.bmod_def]
  split <;> omega

theorem int64Add_of_lt (h : -2 ^ 63 ≤ x + y) (hlt : x + y < 2 ^ 63) : int64Add x y = x + y := by
  unfold int64Add
  rw [Int.bmod_def]
  split <;> omega

end

/-- The unspent gas comes back. -/
def returnGas (result : EvmcResult) : Eei W Unit := do
  heraAssert (0 ≤ result.gasLeft) "EVMC returned negative gas left"
  modify fun s => { s with result.gasLeft := int64Add s.result.gasLeft result.gasLeft }

/-- `eeiCall`, behind `m_host.call`. -/
def eeiCallEnd (result : EvmcResult) : Eei W (BitVec 32) := do
  modify fun s => { s with lastReturnData := result.output }
  returnGas result
  return result.statusCode.code

/-- The address of a creation that succeeds is stored, the output of one that fails is kept. -/
def storeCreated (resultOffset : BitVec 32) (result : EvmcResult) : Eei W Unit :=
  if result.statusCode = .EVMC_SUCCESS then do
    storeAddress result.createAddress resultOffset
    modify fun s => { s with lastReturnData := [] }
  else modify fun s => { s with lastReturnData := result.output }

/-- `eeiCreate`, behind `m_host.call`. -/
def eeiCreateEnd (resultOffset : BitVec 32) (result : EvmcResult) : Eei W (BitVec 32) := do
  returnGas result
  storeCreated resultOffset result
  return result.statusCode.code

/-- `m_host.call`, where the client answers at once. -/
def hostCall (call : EvmcMessage → W → EvmcResult × W) (msg : EvmcMessage) : Eei W EvmcResult := do
  let (result, world) := call msg (← get).world
  modify fun s => { s with world := world }
  return result

namespace EthereumInterface

variable (I : EthereumInterface W) (call : EvmcMessage → W → EvmcResult × W)

def eeiCall (kind : EEICallKind) (gas : BitVec 64)
    (addressOffset valueOffset dataOffset dataLength : BitVec 32) : Eei W (BitVec 32) := do
  match ← I.eeiCallBegin kind gas addressOffset valueOffset dataOffset dataLength with
  | .refused code => return code
  | .call msg => eeiCallEnd (← hostCall call msg)

def eeiCreate (valueOffset dataOffset length resultOffset : BitVec 32) : Eei W (BitVec 32) := do
  match ← I.eeiCreateBegin valueOffset dataOffset length with
  | .refused code => return code
  | .call msg => eeiCreateEnd resultOffset (← hostCall call msg)

end EthereumInterface

/-! ## §5 — the host module of the engine. -/

/-- The functions exported to a contract, less the two that call, with their arguments. -/
inductive Request where
  | useGas (gas : BitVec 64)
  | getGasLeft
  | getAddress (resultOffset : BitVec 32)
  | getExternalBalance (addressOffset resultOffset : BitVec 32)
  | getBlockHash (number : BitVec 64) (resultOffset : BitVec 32)
  | getCallDataSize
  | callDataCopy (resultOffset dataOffset length : BitVec 32)
  | getCaller (resultOffset : BitVec 32)
  | getCallValue (resultOffset : BitVec 32)
  | codeCopy (resultOffset codeOffset length : BitVec 32)
  | getCodeSize
  | externalCodeCopy (addressOffset resultOffset codeOffset length : BitVec 32)
  | getExternalCodeSize (addressOffset : BitVec 32)
  | getBlockCoinbase (resultOffset : BitVec 32)
  | getBlockDifficulty (offset : BitVec 32)
  | getBlockGasLimit
  | getTxGasPrice (valueOffset : BitVec 32)
  | log (dataOffset length numberOfTopics topic1 topic2 topic3 topic4 : BitVec 32)
  | getBlockNumber
  | getBlockTimestamp
  | getTxOrigin (resultOffset : BitVec 32)
  | storageStore (pathOffset valueOffset : BitVec 32)
  | storageLoad (pathOffset resultOffset : BitVec 32)
  | finish (offset size : BitVec 32)
  | revert (offset size : BitVec 32)
  | getReturnDataSize
  | returnDataCopy (dataOffset offset size : BitVec 32)
  | selfDestruct (addressOffset : BitVec 32)

/-- And the two that call: `call`, `callCode`, `callDelegate`, `callStatic` and `create`. The module
exports `create2` too, whose method `eeiCreate2` is declared and has no body. -/
inductive CallRequest where
  | call (kind : EEICallKind) (gas : BitVec 64)
      (addressOffset valueOffset dataOffset dataLength : BitVec 32)
  | create (valueOffset dataOffset length resultOffset : BitVec 32)

/-- What a function returns to the contract. -/
inductive Answer where
  | nothing
  | i32 (value : BitVec 32)
  | i64 (value : BitVec 64)
  deriving DecidableEq

/-- `results[0].set_i64(static_cast<uint64_t>(…))`. -/
def Answer.ofInt (v : Int) : Answer := .i64 (BitVec.ofInt 64 v)

/-- The host module. -/
def EthereumInterface.handle (I : EthereumInterface W) : Request → Eei W Answer
  | .useGas gas => do eeiUseGas gas; return .nothing
  | .getGasLeft => return Answer.ofInt (← I.eeiGetGasLeft)
  | .getAddress resultOffset => do I.eeiGetAddress resultOffset; return .nothing
  | .getExternalBalance addressOffset resultOffset => do
    I.eeiGetExternalBalance addressOffset resultOffset; return .nothing
  | .getBlockHash number resultOffset => return .i32 (← I.eeiGetBlockHash number resultOffset)
  | .getCallDataSize => return .i32 (← I.eeiGetCallDataSize)
  | .callDataCopy resultOffset dataOffset length => do
    I.eeiCallDataCopy resultOffset dataOffset length; return .nothing
  | .getCaller resultOffset => do I.eeiGetCaller resultOffset; return .nothing
  | .getCallValue resultOffset => do I.eeiGetCallValue resultOffset; return .nothing
  | .codeCopy resultOffset codeOffset length => do
    I.eeiCodeCopy resultOffset codeOffset length; return .nothing
  | .getCodeSize => return .i32 (← I.eeiGetCodeSize)
  | .externalCodeCopy addressOffset resultOffset codeOffset length => do
    I.eeiExternalCodeCopy addressOffset resultOffset codeOffset length; return .nothing
  | .getExternalCodeSize addressOffset => return .i32 (← I.eeiGetExternalCodeSize addressOffset)
  | .getBlockCoinbase resultOffset => do I.eeiGetBlockCoinbase resultOffset; return .nothing
  | .getBlockDifficulty offset => do I.eeiGetBlockDifficulty offset; return .nothing
  | .getBlockGasLimit => return Answer.ofInt (← I.eeiGetBlockGasLimit)
  | .getTxGasPrice valueOffset => do I.eeiGetTxGasPrice valueOffset; return .nothing
  | .log dataOffset length numberOfTopics topic1 topic2 topic3 topic4 => do
    I.eeiLog dataOffset length numberOfTopics topic1 topic2 topic3 topic4; return .nothing
  | .getBlockNumber => return Answer.ofInt (← I.eeiGetBlockNumber)
  | .getBlockTimestamp => return Answer.ofInt (← I.eeiGetBlockTimestamp)
  | .getTxOrigin resultOffset => do I.eeiGetTxOrigin resultOffset; return .nothing
  | .storageStore pathOffset valueOffset => do
    I.eeiStorageStore pathOffset valueOffset; return .nothing
  | .storageLoad pathOffset resultOffset => do
    I.eeiStorageLoad pathOffset resultOffset; return .nothing
  | .finish offset size => do eeiFinish offset size; return .nothing
  | .revert offset size => do eeiRevert offset size; return .nothing
  | .getReturnDataSize => return .i32 (← I.eeiGetReturnDataSize)
  | .returnDataCopy dataOffset offset size => do
    I.eeiReturnDataCopy dataOffset offset size; return .nothing
  | .selfDestruct addressOffset => do I.eeiSelfDestruct addressOffset; return .nothing

end EvmTrans.Hera
