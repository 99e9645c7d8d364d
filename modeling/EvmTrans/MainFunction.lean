/-
# `EvmTrans.MainFunction` — the translated `main` as an LLVM pass sees it, and as the host sees it
run.

A pass walks blocks and instructions and recognises host calls by HOW MANY operands they have and
what the LAST one is called (`getOperand(operandsNum-1)->getName()`: the callee is the last operand
of a call). The host sees none of that: an activation of `main` is to it a sequence of requests,
ended by `finish`, `revert`, `selfDestruct` or a trap.

An instruction therefore has two readings here, `Instr.operandNames` for the pass and `Instr.effect`
for the host. Everything private to an activation (registers, linear memory, calldata) is one local
state `L`; an instruction that is no host call is a partial function on it, `none` being a trap.

Interface gas is the host's affair: what an effect takes, and that it may throw for want of gas, is
said where the host is.
-/
import EvmTrans.WordBoundary

namespace EvmTrans.Llvm

/-! ## §1 — host functions of `EEIModule`. -/

/-- The host functions under which other code runs. -/
inductive ExtCall where
  | call | callCode | callStatic | callDelegate | create | create2
  deriving DecidableEq, Repr

/-- The other host functions that answer and return; `log` is one of them. -/
inductive HostQuery where
  | callDataCopy | getCallDataSize | getCallValue | getCaller | codeCopy | externalCodeCopy
  | getGasLeft | log | returnDataSize | returnDataCopy | getTxGasPrice | getTxOrigin
  | getBlockCoinbase | getBlockDifficulty | getBlockGasLimit | getBlockNumber | getBlockTimestamp
  | getBlockHash | getExternalBalance | getAddress | getCodeSize | getExternalCodeSize
  | getReturnDataSize | getBasefee | getChainID | getSelfBalance | getExternalCodeHash
  deriving DecidableEq, Repr

/-- The name under which `EEIModule` declares the function. -/
def ExtCall.name : ExtCall → String
  | .call => "ethereum.call"
  | .callCode => "ethereum.callCode"
  | .callStatic => "ethereum.callStatic"
  | .callDelegate => "ethereum.callDelegate"
  | .create => "ethereum.create"
  | .create2 => "ethereum.create2"

/-- The number of parameters of its `FunctionType`. -/
def ExtCall.params : ExtCall → Nat
  | .call | .callCode | .create2 => 5
  | .callStatic | .callDelegate | .create => 4

@[inherit_doc ExtCall.name]
def HostQuery.name : HostQuery → String
  | .callDataCopy => "ethereum.callDataCopy"
  | .getCallDataSize => "ethereum.getCallDataSize"
  | .getCallValue => "ethereum.getCallValue"
  | .getCaller => "ethereum.getCaller"
  | .codeCopy => "ethereum.codeCopy"
  | .externalCodeCopy => "ethereum.externalCodeCopy"
  | .getGasLeft => "ethereum.getGasLeft"
  | .log => "ethereum.log"
  | .returnDataSize => "ethereum.returnDataSize"
  | .returnDataCopy => "ethereum.returnDataCopy"
  | .getTxGasPrice => "ethereum.getTxGasPrice"
  | .getTxOrigin => "ethereum.getTxOrigin"
  | .getBlockCoinbase => "ethereum.getBlockCoinbase"
  | .getBlockDifficulty => "ethereum.getBlockDifficulty"
  | .getBlockGasLimit => "ethereum.getBlockGasLimit"
  | .getBlockNumber => "ethereum.getBlockNumber"
  | .getBlockTimestamp => "ethereum.getBlockTimestamp"
  | .getBlockHash => "ethereum.getBlockHash"
  | .getExternalBalance => "ethereum.getExternalBalance"
  | .getAddress => "ethereum.getAddress"
  | .getCodeSize => "ethereum.getCodeSize"
  | .getExternalCodeSize => "ethereum.getExternalCodeSize"
  | .getReturnDataSize => "ethereum.getReturnDataSize"
  | .getBasefee => "ethereum.getBasefee"
  | .getChainID => "ethereum.getChainID"
  | .getSelfBalance => "ethereum.getSelfBalance"
  | .getExternalCodeHash => "ethereum.getExternalCodeHash"

@[inherit_doc ExtCall.params]
def HostQuery.params : HostQuery → Nat
  | .log => 7
  | .externalCodeCopy => 4
  | .callDataCopy | .codeCopy | .returnDataCopy => 3
  | .getBlockHash | .getExternalBalance | .getExternalCodeHash => 2
  | .getCallValue | .getCaller | .getTxGasPrice | .getTxOrigin | .getBlockCoinbase
  | .getBlockDifficulty | .getAddress | .getExternalCodeSize | .getSelfBalance => 1
  | .getCallDataSize | .getGasLeft | .returnDataSize | .getBlockGasLimit | .getBlockNumber
  | .getBlockTimestamp | .getCodeSize | .getReturnDataSize | .getBasefee | .getChainID => 0

/-! ## §2 — instructions. -/

/-- What the host hands back: the returned integer, and the bytes it writes or keeps as return
data. -/
structure Reply where
  code : Nat
  data : List Byte

/-- What an activation does next; `P` is where it goes on. A continuation that answers `none` is a
trap: the host could not write its answer into linear memory, or refused the request. -/
inductive Effect (P : Type) where
  | internal (p : P)
  | storageLoad (path : Bytes32) (k : Bytes32 → Option P)
  | storageStore (path value : Bytes32) (p : P)
  | query (fn : HostQuery) (args : List Byte) (k : Reply → Option P)
  | call (fn : ExtCall) (args : List Byte) (k : Reply → P)
  | finish (out : List Byte)
  | revert (out : List Byte)
  | selfDestruct (dest : Address)
  | trap

/-- Change where the activation goes on. -/
def Effect.map {P Q : Type} (f : P → Q) : Effect P → Effect Q
  | .internal p => .internal (f p)
  | .storageLoad path k => .storageLoad path fun b => (k b).map f
  | .storageStore path value p => .storageStore path value (f p)
  | .query fn args k => .query fn args fun r => (k r).map f
  | .call fn args k => .call fn args fun r => f (k r)
  | .finish out => .finish out
  | .revert out => .revert out
  | .selfDestruct dest => .selfDestruct dest
  | .trap => .trap

/-- An instruction of the translated `main`. The arguments of a host call are read off the local
state, and reading them fails outside linear memory. -/
inductive Instr (L : Type) where
  | internal (operands : Nat) (exec : L → Option L)
  | storageLoad (path : L → Option Bytes32) (ret : L → Bytes32 → Option L)
  | storageStore (path value : L → Option Bytes32)
  | query (fn : HostQuery) (args : L → Option (List Byte)) (ret : L → Reply → Option L)
  | call (fn : ExtCall) (args : L → Option (List Byte)) (ret : L → Reply → L)
  | finish (out : L → Option (List Byte))
  | revert (out : L → Option (List Byte))
  | selfDestruct (dest : L → Option Address)

variable {L : Type}

/-- The operands of a call of a host function: the arguments, which are no functions, and the
callee. -/
def callOperands (params : Nat) (name : String) : List String := List.replicate params "" ++ [name]

/-- `getOperand(0)->getName()`, …, `getOperand(n-1)->getName()`. -/
def Instr.operandNames : Instr L → List String
  | .internal operands _ => List.replicate operands ""
  | .storageLoad _ _ => callOperands 2 "ethereum.storageLoad"
  | .storageStore _ _ => callOperands 2 "ethereum.storageStore"
  | .query fn _ _ => callOperands fn.params fn.name
  | .call fn _ _ => callOperands fn.params fn.name
  | .finish _ => callOperands 2 "ethereum.finish"
  | .revert _ => callOperands 2 "ethereum.revert"
  | .selfDestruct _ => callOperands 1 "ethereum.selfDestruct"

/-- What the host sees of an instruction executed in the local state `l`. -/
def Instr.effect (i : Instr L) (l : L) : Effect L :=
  match i with
  | .internal _ exec =>
    match exec l with
    | some l' => .internal l'
    | none => .trap
  | .storageLoad path ret =>
    match path l with
    | some path => .storageLoad path (ret l)
    | none => .trap
  | .storageStore path value =>
    match path l, value l with
    | some path, some value => .storageStore path value l
    | _, _ => .trap
  | .query fn args ret =>
    match args l with
    | some args => .query fn args (ret l)
    | none => .trap
  | .call fn args ret =>
    match args l with
    | some args => .call fn args (ret l)
    | none => .trap
  | .finish out =>
    match out l with
    | some out => .finish out
    | none => .trap
  | .revert out =>
    match out l with
    | some out => .revert out
    | none => .trap
  | .selfDestruct dest =>
    match dest l with
    | some dest => .selfDestruct dest
    | none => .trap

/-! ## §3 — functions. -/

/-- A basic block over instructions `I`. Its terminator is the list of successors and the choice
among them; a terminator that chooses none is `unreachable`. -/
structure Block (I L B : Type) where
  code : List I
  succs : List B
  next : L → Option B
  next_mem : ∀ l b, next l = some b → b ∈ succs

/-- A function. The entry block is nobody's successor and has no label; `body` lists the others in
the order of the function. `compileMain` emits no `ret`. -/
structure Function (I L B : Type) where
  entry : Block I L B
  block : B → Block I L B
  body : List B
  mem_body : ∀ b, b ∈ body

/-- A block that ends the function has no successor. -/
theorem mem_no_succs {B : Type} (_ : L) (b : B) (h : none = some b) : b ∈ [] := nomatch h

/-- A function of two blocks, named by the Booleans. -/
theorem mem_two_blocks (b : Bool) : b ∈ [true, false] := by cases b <;> decide

/-- A branch to either of the two. -/
theorem mem_branches (a b : Bool) (_ : some a = some b) : b ∈ [true, false] := mem_two_blocks b

/-- A program point: the block (`none` is the entry), what is left of it, and the local state. -/
structure Point (I L B : Type) where
  block : Option B
  rest : List I
  loc : L

variable {I B : Type}

/-- The block under a label. -/
def Function.at (f : Function I L B) : Option B → Block I L B
  | none => f.entry
  | some b => f.block b

/-- The begin of a block. -/
def Function.point (f : Function I L B) (b : Option B) (l : L) : Point I L B :=
  ⟨b, (f.at b).code, l⟩

/-- What an activation at a program point does next, when instructions mean `exec`. -/
def Function.next (exec : I → L → Effect L) (f : Function I L B) (p : Point I L B) :
    Effect (Point I L B) :=
  match p.rest with
  | i :: rest => (exec i p.loc).map fun l => ⟨p.block, rest, l⟩
  | [] =>
    match (f.at p.block).next p.loc with
    | some b => .internal (f.point (some b) p.loc)
    | none => .trap

/-- How an activation ends. -/
inductive Ending where
  | finish (out : List Byte)
  | revert (out : List Byte)
  | selfDestruct (dest : Address)
  | trap
  deriving DecidableEq

/-- A storage of zeros. -/
def emptyStorage : Storage := fun _ => Bytes32.of 0

/-- The storage that the host keeps: the writes of an activation that finished or destroyed itself,
and what the activation found when it was entered otherwise. -/
def Ending.storage (e : Ending) (onEntry now : Storage) : Storage :=
  match e with
  | .finish _ | .selfDestruct _ => now
  | .revert _ | .trap => onEntry

end EvmTrans.Llvm
