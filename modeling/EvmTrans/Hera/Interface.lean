/-
# `EvmTrans.Hera.Interface` — the object behind the host functions of a contract.

`EthereumInterface` holds the message in execution, the code and the host; it changes the gas that
is left, the return data, the contract's linear memory and, through the host, the client's world.
Its methods throw: a throw ends the execution and undoes NOTHING by itself.

An access that C++ leaves undefined (a byte out of the linear memory, an index out of a buffer) is a
fault of its own here, which no `catch` of the code sees. That it never happens is proved, not
assumed.
-/
import EvmTrans.HostCopies
import EvmTrans.Lib.Program

namespace EvmTrans.Hera

open Lib (Program read write)

/-! ## §1 — what the client and the VM exchange. -/

/-- `evmc_call_kind`. -/
inductive EvmcCallKind where
  | EVMC_CALL
  | EVMC_DELEGATECALL
  | EVMC_CALLCODE
  | EVMC_CREATE
  | EVMC_CREATE2
  deriving DecidableEq, Repr

/-- `EVMC_STATIC`, the one flag there is. -/
def EVMC_STATIC : BitVec 32 := 1

/-- `evmc_message`, less the salt, which nothing reads. -/
structure EvmcMessage where
  kind : EvmcCallKind
  flags : BitVec 32
  depth : Int
  gas : Int
  destination : Address
  sender : Address
  input : List Byte
  value : Bytes32

/-- `m_msg.flags & EVMC_STATIC`, as a truth value. -/
def EvmcMessage.isStatic (m : EvmcMessage) : Prop := m.flags &&& EVMC_STATIC ≠ 0

instance EvmcMessage.decidableIsStatic (m : EvmcMessage) : Decidable m.isStatic :=
  inferInstanceAs (Decidable (_ ≠ _))

/-- `evmc_status_code`. -/
inductive EvmcStatus where
  | EVMC_SUCCESS
  | EVMC_FAILURE
  | EVMC_REVERT
  | EVMC_OUT_OF_GAS
  | EVMC_INVALID_INSTRUCTION
  | EVMC_UNDEFINED_INSTRUCTION
  | EVMC_STACK_OVERFLOW
  | EVMC_STACK_UNDERFLOW
  | EVMC_BAD_JUMP_DESTINATION
  | EVMC_INVALID_MEMORY_ACCESS
  | EVMC_CALL_DEPTH_EXCEEDED
  | EVMC_STATIC_MODE_VIOLATION
  | EVMC_PRECOMPILE_FAILURE
  | EVMC_CONTRACT_VALIDATION_FAILURE
  | EVMC_ARGUMENT_OUT_OF_RANGE
  | EVMC_WASM_UNREACHABLE_INSTRUCTION
  | EVMC_WASM_TRAP
  | EVMC_INTERNAL_ERROR
  | EVMC_REJECTED
  | EVMC_OUT_OF_MEMORY
  deriving DecidableEq, Repr

/-- `evmc_result`; no output is the empty output. -/
structure EvmcResult where
  statusCode : EvmcStatus
  gasLeft : Int
  output : List Byte
  createAddress : Address
  deriving DecidableEq

/-- `evmc_tx_context`. -/
structure EvmcTxContext where
  txGasPrice : Bytes32
  txOrigin : Address
  blockCoinbase : Address
  blockNumber : Int
  blockTimestamp : Int
  blockGasLimit : Int
  blockDifficulty : Bytes32

/-- `evmc::HostContext` over the client's world `W`, less `call`, which is an exchange and not a
function. The context of the transaction is one for all of it. -/
structure HostContext (W : Type) where
  accountExists : W → Address → Bool
  getStorage : W → Address → Bytes32 → Bytes32
  setStorage : W → Address → Bytes32 → Bytes32 → W
  getBalance : W → Address → Bytes32
  getCodeSize : W → Address → Nat
  copyCode : W → Address → Nat → Nat → List Byte
  selfdestruct : W → Address → Address → W
  getTxContext : EvmcTxContext
  getBlockHash : W → Int → Bytes32
  emitLog : W → Address → List Byte → List Bytes32 → W

/-! ## §2 — exceptions. -/

/-- The exceptions of hera, with their texts. -/
inductive HeraException where
  | InternalErrorException (msg : String)
  | VMTrap (msg : String)
  | ArgumentOutOfRange (msg : String)
  | OutOfGas (msg : String)
  | ContractValidationFailure (msg : String)
  | InvalidMemoryAccess (msg : String)
  | EndExecution
  | StaticModeViolation (functionName : String)
  deriving DecidableEq

/-- How a method ends that does not return: it throws, or it does what C++ leaves undefined. -/
inductive Fault where
  | exception (e : HeraException)
  | undefined
  deriving DecidableEq

/-! ## §3 — the state. -/

/-- `ExecutionResult`. -/
structure ExecutionResult where
  gasLeft : Int
  returnValue : List Byte
  isRevert : Bool
  deriving DecidableEq

/-- What belongs to one execution: `m_result`, `m_lastReturnData`, and the linear memory of its
module. -/
structure Locals where
  result : ExecutionResult
  lastReturnData : List Byte
  memory : LinMem

/-- The locals and the client's world. -/
structure EeiState (W : Type) extends Locals where
  world : W

/-- `EthereumInterface`: the fields that do not change. -/
structure EthereumInterface (W : Type) where
  host : HostContext W
  code : List Byte
  msg : EvmcMessage
  meterGas : Bool

variable {W : Type}

/-- A method. -/
abbrev Eei (W α : Type) := Program Fault (EeiState W) α

/-- `throw`. -/
def raise {α : Type} (e : HeraException) : Eei W α := throw (.exception e)

/-- `ensureCondition(condition, ex, msg)`. -/
def ensureCondition (condition : Prop) [Decidable condition] (e : HeraException) : Eei W Unit :=
  if condition then pure () else raise e

/-- `heraAssert(condition, msg)`. -/
def heraAssert (condition : Prop) [Decidable condition] (msg : String) : Eei W Unit :=
  ensureCondition condition (.InternalErrorException msg)

/-! ## §4 — gas. -/

namespace GasSchedule

def storageLoad : Int := 200
def storageStoreCreate : Int := 20000
def storageStoreChange : Int := 5000
def log : BitVec 32 := 375
def logData : Int := 8
def logTopic : BitVec 32 := 375
def create : Int := 32000
def call : Int := 700
def copy : Int := 3
def blockhash : Int := 800
def balance : Int := 400
def base : Int := 2
def verylow : Int := 3
def extcode : Int := 700
def selfdestruct : Int := 5000
def valuetransfer : Int := 9000
def valueStipend : Int := 2300
def callNewAccount : Int := 25000

end GasSchedule

/-- `takeGas`. -/
def takeGas (gas : Int) : Eei W Unit := do
  let s ← get
  ensureCondition (gas ≤ s.result.gasLeft) (.OutOfGas "Out of gas.")
  modify fun s => { s with result.gasLeft := s.result.gasLeft - gas }

/-- `takeInterfaceGas`. -/
def EthereumInterface.takeInterfaceGas (I : EthereumInterface W) (gas : Int) : Eei W Unit :=
  if ¬ I.meterGas then pure ()
  else do
    heraAssert (0 ≤ gas) "Trying to take negative gas."
    takeGas gas

/-- `safeChargeDataCopy`. -/
def EthereumInterface.safeChargeDataCopy (I : EthereumInterface W) (length : BitVec 32)
    (baseCost : Int) : Eei W Unit := do
  I.takeInterfaceGas baseCost
  I.takeInterfaceGas (GasSchedule.copy * (((length.toNat + 31) / 32 : Nat) : Int))

/-- `maxCallGas`. -/
def maxCallGas (gas : Int) : Int := gas - gas.tdiv 64

/-! ## §5 — memory, a byte at a time. -/

/-- `memoryGet`. -/
def memoryGet (offset : Nat) : Eei W Byte := do
  let s ← get
  if offset < s.memory.size then return s.memory.bytes offset else throw .undefined

/-- `memorySet`. -/
def memorySet (offset : Nat) (value : Byte) : Eei W Unit := do
  let s ← get
  if offset < s.memory.size then
    modify fun s => { s with memory.bytes := write s.memory.bytes offset [value] }
  else throw .undefined

/-- `src[i]`. -/
def byteAt (src : List Byte) (i : Nat) : Eei W Byte :=
  match src[i]? with
  | some b => pure b
  | none => throw .undefined

/-- `ensureSourceMemoryBounds`; the sums are of 32 bits. -/
def ensureSourceMemoryBounds (offset length : BitVec 32) : Eei W Unit := do
  let s ← get
  ensureCondition (offset ≤ offset +
    length) (.InvalidMemoryAccess "Out of bounds (source) memory copy.")
  ensureCondition ((offset + length).toNat ≤ s.memory.size)
    (.InvalidMemoryAccess "Out of bounds (source) memory copy.")

/-- The checks of the three loads: here `length` is a `size_t`, and the sums are of 64 bits. -/
def ensureLoad (srcOffset : BitVec 32) (length : Nat) : Eei W Unit := do
  let s ← get
  ensureCondition (srcOffset.toNat ≤ (srcOffset.toNat + length) % 2 ^ 64)
    (.InvalidMemoryAccess "Out of bounds (source) memory copy.")
  ensureCondition ((srcOffset.toNat + length) % 2 ^ 64 ≤ s.memory.size)
    (.InvalidMemoryAccess "Out of bounds (source) memory copy.")

/-- The checks of the three stores on the destination. -/
def ensureStore (dstOffset length : BitVec 32) : Eei W Unit := do
  let s ← get
  ensureCondition (dstOffset ≤ dstOffset + length)
    (.InvalidMemoryAccess "Out of bounds (destination) memory copy.")
  ensureCondition ((dstOffset + length).toNat ≤ s.memory.size)
    (.InvalidMemoryAccess "Out of bounds (destination) memory copy.")

/-- `for (i = 0; i < length; ++i) … = memoryGet(srcOffset + i)`: the bytes in the order they are
read. -/
def memoryGetLoop (srcOffset : BitVec 32) (length : Nat) : Eei W (List Byte) :=
  (List.range length).mapM fun i => memoryGet (srcOffset + BitVec.ofNat 32 i).toNat

/-- `for (i = 0; i < length; ++i) memorySet(at(i), src[from(i)])`. -/
def memorySetLoop (dst : Nat → BitVec 32) (src : List Byte) (srcIndex : Nat → Nat)
    (length : BitVec 32) : Eei W Unit :=
  forM (List.range length.toNat) fun i => do
    let b ← byteAt src (srcIndex i)
    memorySet (dst i).toNat b

/-- `loadMemory(srcOffset, uint8_t* dst, length)`. -/
def loadMemory (srcOffset : BitVec 32) (length : Nat) : Eei W (List Byte) := do
  ensureLoad srcOffset length
  memoryGetLoop srcOffset length

/-- `loadMemoryReverse`: the byte read at `i` stands at `length - (i + 1)`. -/
def loadMemoryReverse (srcOffset : BitVec 32) (length : Nat) : Eei W (List Byte) := do
  ensureLoad srcOffset length
  let bs ← memoryGetLoop srcOffset length
  return bs.reverse

/-- `loadMemory(srcOffset, bytes& dst, length)`: the first bytes of `dst` are replaced. -/
def loadMemoryBytes (srcOffset : BitVec 32) (dst : List Byte) (length : Nat) :
    Eei W (List Byte) := do
  ensureLoad srcOffset length
  ensureCondition (length ≤
    dst.length) (.InvalidMemoryAccess "Out of bounds (destination) memory copy.")
  let bs ← memoryGetLoop srcOffset length
  return bs ++ dst.drop length

/-- `storeMemoryReverse`. -/
def storeMemoryReverse (src : List Byte) (dstOffset length : BitVec 32) : Eei W Unit := do
  ensureStore dstOffset length
  memorySetLoop (fun i => dstOffset + length - BitVec.ofNat 32 (i + 1)) src id length

/-- `storeMemory(const uint8_t* src, dstOffset, length)`. -/
def storeMemory (src : List Byte) (dstOffset length : BitVec 32) : Eei W Unit := do
  ensureStore dstOffset length
  memorySetLoop (fun i => dstOffset + BitVec.ofNat 32 i) src id length

/-- `storeMemory(bytes_view src, srcOffset, dstOffset, length)`. -/
def storeMemoryView (src : List Byte) (srcOffset dstOffset length : BitVec 32) : Eei W Unit := do
  ensureCondition (srcOffset ≤ srcOffset + length)
    (.InvalidMemoryAccess "Out of bounds (source) memory copy.")
  ensureCondition ((srcOffset + length).toNat ≤ src.length)
    (.InvalidMemoryAccess "Out of bounds (source) memory copy.")
  ensureStore dstOffset length
  memorySetLoop (fun i => dstOffset + BitVec.ofNat 32 i) src
    (fun i => (srcOffset + BitVec.ofNat 32 i).toNat) length

/-! ## §6 — the wrappers. -/

/-- `dst.bytes` of a fixed number of bytes, zeros at first. -/
def fixed (n : Nat) (bs : List Byte) : FixedBytes n :=
  ⟨(bs ++ List.replicate n 0).take n, by simp⟩

def loadBytes32 (srcOffset : BitVec 32) : Eei W Bytes32 :=
  return fixed 32 (← loadMemory srcOffset 32)

def storeBytes32 (src : Bytes32) (dstOffset : BitVec 32) : Eei W Unit :=
  storeMemory src.bytes dstOffset 32

def storeUint256 (src : Bytes32) (dstOffset : BitVec 32) : Eei W Unit :=
  storeMemoryReverse src.bytes dstOffset 32

def loadAddress (srcOffset : BitVec 32) : Eei W Address :=
  return fixed 20 (← loadMemory srcOffset 20)

def storeAddress (src : Address) (dstOffset : BitVec 32) : Eei W Unit :=
  storeMemory src.bytes dstOffset 20

/-- `loadUint128`: the bytes from 16 on. -/
def loadUint128 (srcOffset : BitVec 32) : Eei W Bytes32 :=
  return fixed 32 (List.replicate 16 0 ++ (← loadMemoryReverse srcOffset 16))

/-- `exceedsUint128`. -/
def exceedsUint128 (value : Bytes32) : Prop := ∃ b ∈ value.bytes.take 16, b ≠ 0

instance decidableExceedsUint128 (value : Bytes32) : Decidable (exceedsUint128 value) :=
  inferInstanceAs (Decidable (∃ b ∈ _, _))

/-- `storeUint128`. -/
def storeUint128 (src : Bytes32) (dstOffset : BitVec 32) : Eei W Unit := do
  ensureCondition (¬ exceedsUint128 src)
    (.ArgumentOutOfRange "Account balance (or transaction value) exceeds 128 bits.")
  storeMemoryReverse (src.bytes.drop 16) dstOffset 16

/-- `safeLoadUint128`. -/
def safeLoadUint128 (value : Bytes32) : Eei W (BitVec 128) := do
  ensureCondition (¬ exceedsUint128 value)
    (.ArgumentOutOfRange "Account balance (or transaction value) exceeds 128 bits.")
  return (value.bytes.drop 16).foldl (fun ret b => ret <<< 8 ||| b.setWidth 128) 0

/-- `enoughSenderBalanceFor`. -/
def EthereumInterface.enoughSenderBalanceFor (I : EthereumInterface W) (value : Bytes32) :
    Eei W Bool := do
  let s ← get
  let balance ← safeLoadUint128 (I.host.getBalance s.world I.msg.destination)
  let amount ← safeLoadUint128 value
  return amount ≤ balance

/-- `evmc::is_zero`. -/
def isZero (value : Bytes32) : Prop := value = Bytes32.of 0

instance decidableIsZero (value : Bytes32) : Decidable (isZero value) :=
  inferInstanceAs (Decidable (_ = _))

end EvmTrans.Hera
