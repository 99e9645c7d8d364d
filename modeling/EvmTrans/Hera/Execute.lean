/-
# `EvmTrans.Hera.Execute` — `hera_execute` and the engine around a contract.

`hera_execute` picks the code to run, has it translated or metered by a system contract, runs the
engine, and checks the code that a creation returns. It waits for the client in three places and for
the engine in two, so it is cut there: each part is a function that ends in what `hera_execute` does
NEXT. Whatever a part throws is caught by one list of handlers, which leaves no gas and no output.

The wasm library is a parameter: `readBinary` loads a module against the host functions it may
import.
-/
import EvmTrans.Hera.Calls

namespace EvmTrans.Hera

open Lib (Program)

/-! ## §1 — bytes. -/

/-- `hasWasmPreamble`. -/
def hasWasmPreamble (input : List Byte) : Bool :=
  8 ≤ input.length && input.take 4 == [0, 0x61, 0x73, 0x6d]

/-- `hasWasmVersion`. -/
def hasWasmVersion (input : List Byte) (version : Byte) : Bool :=
  8 ≤ input.length && (input.drop 4).take 4 == [version, 0, 0, 0]

/-! ## §2 — the engine. -/

/-- `wabt::Type`, as far as the host functions use it. -/
inductive WasmType where
  | I32
  | I64
  deriving DecidableEq, Repr

/-- `AppendFuncExport`: a host function that a module may import. -/
structure HostFunc where
  name : String
  params : List WasmType
  results : List WasmType
  deriving DecidableEq

/-- The `"ethereum"` module of `verifyContract`. -/
def verifyModule : List HostFunc :=
  [⟨"useGas", [.I64], []⟩, ⟨"getAddress", [.I32], []⟩, ⟨"getExternalBalance", [.I32, .I32], []⟩,
    ⟨"getBlockHash", [.I64, .I32], [.I32]⟩, ⟨"call", [.I64, .I32, .I32, .I32, .I32], [.I32]⟩,
    ⟨"callDataCopy", [.I32, .I32, .I32], []⟩, ⟨"getCallDataSize", [], [.I32]⟩,
    ⟨"callCode", [.I64, .I32, .I32, .I32, .I32], [.I32]⟩,
    ⟨"callDelegate", [.I64, .I32, .I32, .I32], [.I32]⟩,
    ⟨"callStatic", [.I64, .I32, .I32, .I32], [.I32]⟩, ⟨"storageStore", [.I32, .I32], []⟩,
    ⟨"storageLoad", [.I32, .I32], []⟩, ⟨"getCaller", [.I32], []⟩, ⟨"getCallValue", [.I32], []⟩,
    ⟨"codeCopy", [.I32, .I32, .I32], []⟩, ⟨"getCodeSize", [], [.I32]⟩,
    ⟨"getBlockCoinbase", [.I32], []⟩, ⟨"create", [.I32, .I32, .I32, .I32], [.I32]⟩,
    ⟨"getBlockDifficulty", [.I32], []⟩, ⟨"externalCodeCopy", [.I32, .I32, .I32, .I32], []⟩,
    ⟨"getExternalCodeSize", [.I32], [.I32]⟩, ⟨"getGasLeft", [], [.I64]⟩,
    ⟨"getBlockGasLimit", [], [.I64]⟩, ⟨"getTxGasPrice", [.I32], []⟩,
    ⟨"log", [.I32, .I32, .I32, .I32, .I32, .I32, .I32], []⟩, ⟨"getBlockNumber", [], [.I64]⟩,
    ⟨"getTxOrigin", [.I32], []⟩, ⟨"finish", [.I32, .I32], []⟩, ⟨"revert", [.I32, .I32], []⟩,
    ⟨"getReturnDataSize", [], [.I32]⟩, ⟨"returnDataCopy", [.I32, .I32, .I32], []⟩,
    ⟨"selfDestruct", [.I32], []⟩, ⟨"getBlockTimestamp", [], [.I64]⟩]

/-- And that of `execute`, which has one more. -/
def executeModule : List HostFunc :=
  ⟨"create2", [.I32, .I32, .I32, .I32, .I32], [.I32]⟩ :: verifyModule

/-- What the code asks of a module once it is read. -/
structure WasmModule where
  memoryCount : Nat
  exportsMemory : Bool
  hasStart : Bool
  /-- The export `main`, and whether it is a function. -/
  main : Option Bool
  /-- Its linear memory, when it has one. -/
  memory : LinMem

/-- `WabtEngine`, over the reader of the library. -/
structure WasmEngine where
  readBinary : List HostFunc → List Byte → Option WasmModule

/-- `ensureCondition`, outside a method. -/
def ensure (condition : Prop) [Decidable condition] (e : HeraException) :
    Except HeraException Unit :=
  if condition then pure () else throw e

/-- The checks on a module that `execute` and `verifyContract` make. -/
def WasmEngine.load (engine : WasmEngine) (imports : List HostFunc) (code : List Byte) :
    Except HeraException LinMem :=
  match engine.readBinary imports code with
  | none => throw (.ContractValidationFailure "Module failed to load.")
  | some m => do
    ensure (m.memoryCount = 1) (.ContractValidationFailure "Multiple memory sections exported.")
    ensure m.exportsMemory (.ContractValidationFailure "\"memory\" not found")
    ensure (¬ m.hasStart) (.ContractValidationFailure "Contract contains start function.")
    ensure m.main.isSome (.ContractValidationFailure "\"main\" not found")
    ensure (m.main = some true) (.ContractValidationFailure "\"main\" is not a function")
    return m.memory

/-- `verifyContract`. -/
def WasmEngine.verifyContract (engine : WasmEngine) (code : List Byte) :
    Except HeraException Unit := do
  let _ ← engine.load verifyModule code

/-- `execute`, up to `main`: the interface is built, then the module is read. -/
def WasmEngine.start (engine : WasmEngine) (code : List Byte) (msg : EvmcMessage) :
    Except HeraException Locals := do
  ensure (msg.flags &&& ~~~EVMC_STATIC = 0) (.InternalErrorException "Unknown flags not supported.")
  let memory ← engine.load executeModule code
  return ⟨⟨msg.gas, [], false⟩, [], memory⟩

/-! ## §3 — the instance. -/

/-- `hera_evm1mode`. -/
inductive HeraEvm1Mode where
  | reject
  | fallback
  | evm2wasm_contract
  | runevm_contract
  deriving DecidableEq, Repr

/-- `evmc_revision`. -/
inductive EvmcRevision where
  | EVMC_FRONTIER
  | EVMC_HOMESTEAD
  | EVMC_TANGERINE_WHISTLE
  | EVMC_SPURIOUS_DRAGON
  | EVMC_BYZANTIUM
  | EVMC_CONSTANTINOPLE
  | EVMC_PETERSBURG
  | EVMC_ISTANBUL
  deriving DecidableEq, Repr

/-- `hera_instance`. -/
structure HeraInstance where
  engine : WasmEngine
  evm1mode : HeraEvm1Mode
  metering : Bool
  contract_preload_list : Address → Option (List Byte)

def sentinelAddress : Address := Address.of 0xa
def evm2wasmAddress : Address := Address.of 0xb
def runevmAddress : Address := Address.of 0xc

/-- The message for a system contract: static, at depth 0, from nobody, with all the gas there
is. -/
def systemMessage (address : Address) (input : List Byte) : EvmcMessage :=
  ⟨.EVMC_CALL, EVMC_STATIC, 0, 2 ^ 63 - 1, address, Address.of 0, input, Bytes32.of 0⟩

/-- `callSystemContract`, behind the call, and the check of `sentinel`. -/
def sentinelOutput (result : EvmcResult) : Except HeraException (List Byte) := do
  ensure (result.statusCode = .EVMC_SUCCESS)
    (.ContractValidationFailure "Sentinel has failed on contract. It is invalid.")
  return result.output

/-- And of `evm2wasm`. -/
def evm2wasmOutput (result : EvmcResult) : Except HeraException (List Byte) := do
  ensure (result.statusCode = .EVMC_SUCCESS) (.ContractValidationFailure "evm2wasm has failed.")
  return result.output

/-- `runevm`, behind the local execution of the interpreter. -/
def runevmOutput (result : ExecutionResult) : Except HeraException (List Byte) := do
  ensure (result.isRevert = false) (.ContractValidationFailure "runevm has failed.")
  ensure (0 < result.returnValue.length) (.ContractValidationFailure "Runevm returned empty.")
  ensure (hasWasmPreamble result.returnValue) (.ContractValidationFailure
    "Runevm result has no wasm preamble.")
  return result.returnValue

/-! ## §4 — `hera_execute`. -/

/-- The request that a contract in execution waits for, with the message it sent. -/
structure Pending where
  /-- Where `eeiCreate` stores an address; `eeiCall` stores none. -/
  resultOffset : Option (BitVec 32)
  msg : EvmcMessage

/-- A contract in execution: its message, its code in the state, whether its host functions are
charged for, and its locals. -/
structure Run where
  msg : EvmcMessage
  code : List Byte
  meterGas : Bool
  locals : Locals
  pending : Option Pending

/-- Which system contract `hera_execute` waits for, and what for. -/
inductive SystemCall where
  /-- `evm2wasm`. -/
  | translation
  /-- `sentinel` on the code of a creation. -/
  | constructor
  /-- `sentinel` on the code that is deployed. -/
  | deployment (result : ExecutionResult)

/-- Which execution the engine runs: the interpreter that makes the code, or the contract. -/
inductive Place where
  | runevm
  | contract
  deriving DecidableEq

/-- Where `hera_execute` stands: it has not waited yet, or this is what it waits for. -/
inductive Phase where
  | starting
  | system (call : SystemCall)
  | engine (place : Place) (run : Run)

/-- What a part of `hera_execute` ends in: its result, a message to a system contract, or the
engine. -/
inductive Next where
  | done (result : EvmcResult)
  | system (msg : EvmcMessage) (call : SystemCall)
  | run (place : Place) (run : Run)

/-- The `catch` clauses. -/
def HeraException.status : HeraException → EvmcStatus
  | .EndExecution => .EVMC_INTERNAL_ERROR
  | .VMTrap _ => .EVMC_FAILURE
  | .ArgumentOutOfRange _ => .EVMC_ARGUMENT_OUT_OF_RANGE
  | .OutOfGas _ => .EVMC_OUT_OF_GAS
  | .ContractValidationFailure _ => .EVMC_CONTRACT_VALIDATION_FAILURE
  | .InvalidMemoryAccess _ => .EVMC_INVALID_MEMORY_ACCESS
  | .StaticModeViolation _ => .EVMC_STATIC_MODE_VIOLATION
  | .InternalErrorException _ => .EVMC_INTERNAL_ERROR

/-- A result with a status alone; the rest is zeros. -/
def failed (status : EvmcStatus) : EvmcResult := ⟨status, 0, [], Address.of 0⟩

/-- What an exception makes of a part. -/
def caught : Except HeraException Next → Next
  | .ok next => next
  | .error e => .done (failed e.status)

/-- The result of an execution with the output `output`. -/
def executed (result : ExecutionResult) (output : List Byte) : EvmcResult :=
  ⟨if result.isRevert then .EVMC_REVERT else .EVMC_SUCCESS, result.gasLeft, output, Address.of 0⟩

namespace HeraInstance

variable (hera : HeraInstance)

/-- `engine.execute`. -/
def enter (msg : EvmcMessage) (code runCode : List Byte) (meterInterfaceGas : Bool) :
    Except HeraException Next := do
  let locals ← hera.engine.start runCode msg
  return .run .contract ⟨msg, code, meterInterfaceGas, locals, none⟩

/-- The code to run is known: its version, and the metering of a constructor. -/
def prepare (msg : EvmcMessage) (code runCode : List Byte) (isWasm meterInterfaceGas : Bool) :
    Except HeraException Next := do
  ensure (hasWasmVersion runCode 1)
    (.ContractValidationFailure "Contract has an invalid WebAssembly version.")
  if msg.kind = .EVMC_CREATE ∧ isWasm then
    if hera.metering then return .system (systemMessage sentinelAddress runCode) .constructor
    else
      ensure (hasWasmPreamble runCode ∧ hasWasmVersion runCode 1)
        (.ContractValidationFailure "Invalid contract or metering failed.")
      hera.enter msg code runCode meterInterfaceGas
  else hera.enter msg code runCode meterInterfaceGas

/-- `locallyExecuteSystemContract` on the interpreter: a static message at depth 0, and no
charges. -/
def enterRunevm : Except HeraException Next := do
  let code := (hera.contract_preload_list runevmAddress).getD []
  let msg := systemMessage runevmAddress []
  let locals ← hera.engine.start code msg
  return .run .runevm ⟨msg, code, false, locals, none⟩

/-- `hera_execute`, up to the first wait. -/
def begin (rev : EvmcRevision) (msg : EvmcMessage) (code : List Byte) :
    Except HeraException Next := do
  ensure (rev = .EVMC_BYZANTIUM) (.InternalErrorException "Only Byzantium supported.")
  ensure (0 ≤ msg.gas) (.InternalErrorException "EVMC supplied negative startgas")
  let runCode := (hera.contract_preload_list msg.destination).getD code
  if hasWasmPreamble runCode then hera.prepare msg code runCode true true
  else
    match hera.evm1mode with
    | .evm2wasm_contract => return .system (systemMessage evm2wasmAddress runCode) .translation
    | .fallback => return .done (failed .EVMC_REJECTED)
    | .reject => return .done (failed .EVMC_FAILURE)
    | .runevm_contract => hera.enterRunevm

/-- The code that is deployed is checked, and read once. -/
def deploy (result : ExecutionResult) (returnValue : List Byte) : Except HeraException Next := do
  ensure (hasWasmPreamble returnValue ∧ hasWasmVersion returnValue 1)
    (.ContractValidationFailure "Invalid contract or metering failed.")
  hera.engine.verifyContract returnValue
  return .done (executed result returnValue)

/-- Behind `engine.execute`. -/
def finish (msg : EvmcMessage) (result : ExecutionResult) : Except HeraException Next := do
  ensure (0 ≤ result.gasLeft) (.InternalErrorException "Negative gas left after execution.")
  if msg.kind = .EVMC_CREATE ∧ result.isRevert = false ∧ hasWasmPreamble result.returnValue then
    ensure (hasWasmVersion result.returnValue 1)
      (.ContractValidationFailure "Contract has an invalid WebAssembly version.")
    if hera.metering
        then return .system (systemMessage sentinelAddress result.returnValue) (.deployment result)
    else hera.deploy result result.returnValue
  else return .done (executed result result.returnValue)

/-- Behind the engine, in either place: the interpreter has made the code to run, or the contract is
through. -/
def afterEngine (msg : EvmcMessage) (code : List Byte) (result : ExecutionResult) :
    Place → Except HeraException Next
  | .runevm => do
    let runCode ← runevmOutput result
    ensure (8 < runCode.length) (.ContractValidationFailure "Interpreting via runevm failed")
    hera.prepare msg code runCode false false
  | .contract => hera.finish msg result

/-- Behind the call of a system contract. -/
def afterSystem (msg : EvmcMessage) (code : List Byte) (result : EvmcResult) :
    SystemCall → Except HeraException Next
  | .translation => do
    let runCode ← evm2wasmOutput result
    ensure (8 < runCode.length) (.ContractValidationFailure "Transcompiling via evm2wasm failed")
    hera.prepare msg code runCode false true
  | .constructor => do
    let runCode ← sentinelOutput result
    ensure (hasWasmPreamble runCode ∧ hasWasmVersion runCode 1)
      (.ContractValidationFailure "Invalid contract or metering failed.")
    hera.enter msg code runCode true
  | .deployment execution => do
    let returnValue ← sentinelOutput result
    hera.deploy execution returnValue

end HeraInstance

end EvmTrans.Hera
