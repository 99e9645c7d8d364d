/-
# `EvmTrans.OpcodeRequests` — what the branches of `compileBasicBlock` ask the builder for.

`IRBuilder` builds what it is told to: that the operands of an `add` have two types is noticed by an
assertion or by `verifyModule`, not by the code that asked. Here every branch of the switch is the
list of its REQUESTS, with the types of their operands, and `BuilderRequest.wellTyped` is the rule
that LLVM has for each. Values are left out: of an operand only the type is kept, and whether it is
a `ConstantInt`, which `emitEndianConvert` and `Arith256::exp` ask.
-/
import EvmTrans.Arith

namespace EvmTrans

/-! ## §1 — types and requests. -/

/-- The LLVM types in use. -/
inductive Ty where
  | void
  | int (bits : Nat)
  | ptr (elem : Ty)
  | array (elem : Ty)
  | vec (n : Nat) (elem : Ty)
  deriving DecidableEq, Repr

/-- `Type::Word`. -/
abbrev Ty.word : Ty := .int 256

abbrev Ty.i8Ptr : Ty := .ptr (.int 8)
abbrev Ty.i32Ptr : Ty := .ptr (.int 32)

/-- The type that a pointer points to. -/
def Ty.elem : Ty → Ty
  | .ptr t => t
  | t => t

/-- `getScalarSizeInBits()`: 0 for a pointer. -/
def Ty.scalarBits : Ty → Nat
  | .int n => n
  | .vec _ (.int n) => n
  | _ => 0

/-- An instruction that the builder is asked to create, with the types of its operands. -/
inductive BuilderRequest where
  | binOp (lhs rhs : Ty)
  | icmp (lhs rhs : Ty)
  | shift (value amount : Ty)
  | zext (src dst : Ty)
  | trunc (src dst : Ty)
  | bitCast (src dst : Ty)
  | intToPtr (src dst : Ty)
  | alloca (ty : Ty)
  | load (p : Ty) (ty : Ty)
  | store (value p : Ty)
  | gep (base : Ty) (indices : List Ty)
  | call (params args : List Ty)
  | select (cond ifTrue ifFalse : Ty)
  | extractElement (vec index : Ty)
  | br
  | condBr (cond : Ty)
  deriving DecidableEq, Repr

/-- **LLVM's typing rules.** -/
def BuilderRequest.wellTyped : BuilderRequest → Bool
  | .binOp (.int m) (.int n) => m == n
  | .icmp (.int m) (.int n) => m == n
  | .shift (.int m) (.int n) => m == n
  | .zext (.int m) (.int n) => m < n
  | .trunc (.int m) (.int n) => n < m
  | .bitCast (.ptr _) (.ptr _) => true
  | .bitCast (.int m) (.int n) => m == n
  | .bitCast (.int m) (.vec n (.int k)) => m == n * k
  | .intToPtr (.int _) (.ptr _) => true
  | .alloca t => t != .void
  | .load p t => p == .ptr t
  | .store t p => p == .ptr t
  | .gep (.ptr (.array _)) [.int _, .int _] => true
  | .call params args => args == params
  | .select c t f => c == .int 1 && t == f
  | .extractElement (.vec _ _) (.int _) => true
  | .br => true
  | .condBr c => c == .int 1
  | _ => false

/-- A value as the builder sees it: its type, and whether it is a `ConstantInt`. -/
structure Operand where
  ty : Ty
  isConst : Bool
  deriving DecidableEq, Repr

/-- A value of the register stack. -/
def Value.isConst : Value → Bool
  | .const _ _ => true
  | .reg _ _ => false

def Value.operand (v : Value) : Operand := ⟨.int v.width.bits, v.isConst⟩

/-- `Constant::get` and its relatives. -/
def constant (ty : Ty) : Operand := ⟨ty, true⟩

/-- A value, and the requests made on the way to it. -/
structure Emission (α : Type) where
  value : α
  requests : List BuilderRequest

instance : Monad Emission where
  pure a := ⟨a, []⟩
  bind m f := ⟨(f m.value).value, m.requests ++ (f m.value).requests⟩

/-! ## §2 — the builder. -/

namespace Emission

def ask (r : BuilderRequest) (ty : Ty) (isConst : Bool) : Emission Operand := ⟨⟨ty, isConst⟩, [r]⟩

def createBinOp (lhs rhs : Operand) : Emission Operand :=
  ask (.binOp lhs.ty rhs.ty) lhs.ty (lhs.isConst && rhs.isConst)

def createICmp (lhs rhs : Operand) : Emission Operand :=
  ask (.icmp lhs.ty rhs.ty) (.int 1) (lhs.isConst && rhs.isConst)

def createShift (value amount : Operand) : Emission Operand :=
  ask (.shift value.ty amount.ty) value.ty (value.isConst && amount.isConst)

/-- A cast to the type that the value has is the value, here and below. -/
def createZExt (v : Operand) (ty : Ty) : Emission Operand :=
  if v.ty = ty then pure v else ask (.zext v.ty ty) ty v.isConst

def createTrunc (v : Operand) (ty : Ty) : Emission Operand :=
  if v.ty = ty then pure v else ask (.trunc v.ty ty) ty v.isConst

def createZExtOrTrunc (v : Operand) (ty : Ty) : Emission Operand :=
  if v.ty.scalarBits < ty.scalarBits then createZExt v ty
  else if ty.scalarBits < v.ty.scalarBits then createTrunc v ty
  else pure v

/-- Also of pointers, which have no scalar size and so the same one. -/
def createTruncOrBitCast (v : Operand) (ty : Ty) : Emission Operand :=
  if v.ty = ty then pure v
  else if v.ty.scalarBits = ty.scalarBits then ask (.bitCast v.ty ty) ty v.isConst
  else ask (.trunc v.ty ty) ty v.isConst

def createBitCast (v : Operand) (ty : Ty) : Emission Operand :=
  if v.ty = ty then pure v else ask (.bitCast v.ty ty) ty v.isConst

def createIntToPtr (v : Operand) (ty : Ty) : Emission Operand :=
  if v.ty = ty then pure v else ask (.intToPtr v.ty ty) ty false

def createAlloca (ty : Ty) : Emission Operand := ask (.alloca ty) (.ptr ty) false

def createLoad (p : Operand) : Emission Operand := ask (.load p.ty p.ty.elem) p.ty.elem false

def createStore (v p : Operand) : Emission Unit := ⟨(), [.store v.ty p.ty]⟩

def createGEP (base : Operand) (indices : List Operand) : Emission Operand :=
  ask (.gep base.ty (indices.map Operand.ty)) Ty.i8Ptr false

def createSelect (cond ifTrue ifFalse : Operand) : Emission Operand :=
  ask (.select cond.ty ifTrue.ty ifFalse.ty) ifTrue.ty
    (cond.isConst && ifTrue.isConst && ifFalse.isConst)

def createExtractElement (vec index : Operand) : Emission Operand :=
  ask (.extractElement vec.ty index.ty) (.int 8) (vec.isConst && index.isConst)

def createBr : Emission Unit := ⟨(), [.br]⟩

def createCondBr (cond : Operand) : Emission Unit := ⟨(), [.condBr cond.ty]⟩

/-- A declared function: its result and its parameters. -/
structure Func where
  ret : Ty
  params : List Ty

def createCall (f : Func) (args : List Operand) : Emission Operand :=
  ask (.call f.params (args.map Operand.ty)) f.ret false

/-! ## §3 — the declared functions. -/

def funcCallDataCopy : Func := ⟨.void, [Ty.i8Ptr, .int 32, .int 32]⟩
def funcCall : Func := ⟨.int 32, [.int 64, .ptr (.int 160), Ty.i32Ptr, Ty.i8Ptr, .int 32]⟩
def funcCallCode : Func := ⟨.int 32, [.int 64, .ptr (.int 160), Ty.i32Ptr, Ty.i8Ptr, .int 32]⟩
def funcCallStatic : Func := ⟨.int 32, [.int 64, .ptr (.int 160), Ty.i8Ptr, .int 32]⟩
def funcCallDelegate : Func := ⟨.int 32, [.int 64, .ptr (.int 160), Ty.i8Ptr, .int 32]⟩
def funcCreate : Func := ⟨.int 32, [Ty.i32Ptr, Ty.i32Ptr, .int 32, Ty.i32Ptr]⟩
def funcCreate2 : Func := ⟨.int 32, [Ty.i32Ptr, Ty.i32Ptr, .int 32, Ty.i32Ptr, Ty.i32Ptr]⟩
def funcFinish : Func := ⟨.void, [Ty.i8Ptr, .int 32]⟩
def funcGetCallDataSize : Func := ⟨.int 32, []⟩
def funcGetCallValue : Func := ⟨.void, [.ptr (.int 128)]⟩
def funcGetCaller : Func := ⟨.void, [Ty.i32Ptr]⟩
def funcExternalCodeCopy : Func := ⟨.void, [Ty.i32Ptr, Ty.i32Ptr, .int 32, .int 32]⟩
def funcGetGasLeft : Func := ⟨.int 64, []⟩
def funcLog : Func :=
  ⟨.void, [Ty.i32Ptr, .int 32, .int 32, Ty.i32Ptr, Ty.i32Ptr, Ty.i32Ptr, Ty.i32Ptr]⟩
def funcReturnDataCopy : Func := ⟨.void, [Ty.i8Ptr, .int 32, .int 32]⟩
def funcRevert : Func := ⟨.void, [Ty.i8Ptr, .int 32]⟩
def funcSelfDestruct : Func := ⟨.void, [Ty.i32Ptr]⟩
def funcStorageLoad : Func := ⟨.void, [Ty.i32Ptr, Ty.i32Ptr]⟩
def funcStorageStore : Func := ⟨.void, [Ty.i32Ptr, Ty.i32Ptr]⟩
def funcGetTxGasPrice : Func := ⟨.void, [Ty.i32Ptr]⟩
def funcGetTxOrigin : Func := ⟨.void, [Ty.i32Ptr]⟩
def funcGetBlockCoinbase : Func := ⟨.void, [Ty.i32Ptr]⟩
def funcGetBlockDifficulty : Func := ⟨.void, [Ty.i32Ptr]⟩
def funcGetBlockGasLimit : Func := ⟨.int 64, []⟩
def funcGetBlockNumber : Func := ⟨.int 64, []⟩
def funcGetBlockTimestamp : Func := ⟨.int 64, []⟩
def funcGetBlockHash : Func := ⟨.int 32, [.int 64, Ty.i32Ptr]⟩
def funcGetExternalBalance : Func := ⟨.void, [Ty.i32Ptr, Ty.i32Ptr]⟩
def funcGetAddress : Func := ⟨.void, [Ty.i32Ptr]⟩
def funcGetExternalCodeSize : Func := ⟨.int 32, [Ty.i32Ptr]⟩
def funcGetReturnDataSize : Func := ⟨.int 32, []⟩
def funcGetBasefee : Func := ⟨.int 64, []⟩
def funcGetChainID : Func := ⟨.int 64, []⟩
def funcGetSelfBalance : Func := ⟨.void, [Ty.i32Ptr]⟩
def funcGetExternalCodeHash : Func := ⟨.void, [Ty.i32Ptr, Ty.i32Ptr]⟩
def funcKeccak256 : Func := ⟨Ty.word, [Ty.i8Ptr, .int 32]⟩
def funcMemcpy : Func := ⟨.void, [Ty.i8Ptr, Ty.i8Ptr, .int 32]⟩
def funcBswap256 : Func := ⟨Ty.word, [Ty.word]⟩
def funcExp : Func := ⟨Ty.word, [Ty.word, Ty.word]⟩

/-- `emitEndianConvert`: a constant is swapped without the builder. -/
def emitEndianConvert (v : Operand) : Emission Operand :=
  if v.isConst then pure v
  else do
    let ext ← createZExtOrTrunc v Ty.word
    let ext ← (if v.ty ≠ Ty.word then createShift ext (constant ext.ty) else pure ext)
    let reverse ← createCall funcBswap256 [ext]
    createTrunc reverse v.ty

/-! ## §4 — the branches of the switch. -/

/-- `if (lhs->getType() != rhs->getType())`, with its two casts. -/
def sameType (lhs rhs : Operand) : Emission (Operand × Operand) :=
  if lhs.ty ≠ rhs.ty then do
    let lhs ← createZExt lhs Ty.word
    let rhs ← createZExt rhs Ty.word
    return (lhs, rhs)
  else return (lhs, rhs)

/-- `ADD`, `SUB`, `DIV`, `SDIV`, `MOD`, `SMOD`, `AND`, `OR` and `XOR`. -/
def arith (lhs rhs : Operand) : Emission Operand := do
  let (lhs, rhs) ← sameType lhs rhs
  createBinOp lhs rhs

/-- `MUL`, whose second cast reads `lhs`. -/
def mul (lhs rhs : Operand) : Emission Operand :=
  if lhs.ty ≠ rhs.ty then do
    let lhs ← createZExt lhs Ty.word
    let rhs ← createZExt lhs Ty.word
    createBinOp lhs rhs
  else createBinOp lhs rhs

/-- `LT`, `GT`, `SLT`, `SGT` and `EQ`. -/
def compare (lhs rhs : Operand) : Emission Operand := do
  let (lhs, rhs) ← sameType lhs rhs
  let res ← createICmp lhs rhs
  createZExt res Ty.word

/-- `ADDMOD` and `MULMOD`. -/
def modArith (a b m : Operand) : Emission Operand := do
  let divByZero ← createICmp m (constant Ty.word)
  let a ← createZExt a (.int 512)
  let b ← createZExt b (.int 512)
  let m ← createZExt m (.int 512)
  let result ← createBinOp a b
  let result ← createBinOp result m
  let result ← createTrunc result Ty.word
  createSelect divByZero (constant Ty.word) result

/-- `EXP`: `Arith256::exp` computes on two constants itself. -/
def exp (base exponent : Operand) : Emission Operand :=
  if base.isConst && exponent.isConst then pure (constant Ty.word)
  else createCall funcExp [base, exponent]

/-- `NOT`. -/
def bnot (value : Operand) : Emission Operand := createBinOp value (constant value.ty)

/-- `ISZERO`. -/
def iszero (top : Operand) : Emission Operand := do
  let iszero ← createICmp top (constant top.ty)
  createZExt iszero Ty.word

/-- `BYTE`. -/
def byte (idx value : Operand) : Emission Operand := do
  let value ← emitEndianConvert value
  let idxValid ← createICmp idx (constant Ty.word)
  let bytes ← createBitCast value (.vec 32 (.int 8))
  let safeIdx ← createTrunc idx (.int 5)
  let safeIdx ← createZExt safeIdx (.int 64)
  let byte ← createExtractElement bytes safeIdx
  let value ← createZExt byte Ty.word
  createSelect idxValid value (constant Ty.word)

/-- `SIGNEXTEND`. -/
def signextend (idx word : Operand) : Emission Operand := do
  let k32 ← createTrunc idx (.int 5)
  let k32 ← createZExt k32 (.int 64)
  let k32x8 ← createBinOp k32 (constant (.int 64))
  let bitpos ← createBinOp k32x8 (constant (.int 64))
  let bitposEx ← createZExt bitpos Ty.word
  let bitval ← createShift word bitposEx
  let bittest ← createTrunc bitval (.int 1)
  let mask ← createShift (constant Ty.word) bitposEx
  let mask ← createBinOp mask (constant Ty.word)
  let negmask ← createBinOp mask (constant Ty.word)
  let val1 ← createBinOp word negmask
  let val0 ← createBinOp word mask
  let kInRange ← createICmp idx (constant Ty.word)
  let inner ← createSelect bittest val1 val0
  createSelect kInRange inner word

/-- `SHA3`. -/
def sha3 (inOff inSize : Operand) : Emission Operand := do
  let inOff ← createIntToPtr inOff Ty.i8Ptr
  let inSize ← createTruncOrBitCast inSize (.int 32)
  let hash ← createCall funcKeccak256 [inOff, inSize]
  emitEndianConvert hash

/-- `MLOAD`. -/
def mload (addr : Operand) : Emission Operand := do
  let addr ← createIntToPtr addr (.ptr Ty.word)
  let word ← createLoad addr
  emitEndianConvert word

/-- `MSTORE`. `addr` is a pointer by the time its type is compared with `i256`, so the word is
always extended. -/
def mstore (addr word : Operand) : Emission Unit := do
  let addr ← createIntToPtr addr (.ptr Ty.word)
  let word ← (if addr.ty ≠ Ty.word then createZExt word Ty.word else pure word)
  let word ← emitEndianConvert word
  createStore word addr

/-- `MSTORE8`. -/
def mstore8 (addr word : Operand) : Emission Unit := do
  let addr ← createIntToPtr addr Ty.i8Ptr
  let word ← createTrunc word (.int 8)
  let word ← emitEndianConvert word
  createStore word addr

/-- `SLOAD`: the index is stored as it is. -/
def sload (index : Operand) : Emission Operand := do
  let addressPtr ← createAlloca Ty.word
  let valPtr ← createAlloca Ty.word
  let index ← emitEndianConvert index
  createStore index addressPtr
  let slot ← createBitCast addressPtr Ty.i32Ptr
  let result ← createBitCast valPtr Ty.i32Ptr
  let _ ← createCall funcStorageLoad [slot, result]
  let value ← createLoad valPtr
  emitEndianConvert value

/-- `SSTORE`: index and value are extended. -/
def sstore (index value : Operand) : Emission Unit := do
  let index ← createZExt index Ty.word
  let value ← createZExt value Ty.word
  let addressPtr ← createAlloca Ty.word
  let valPtr ← createAlloca Ty.word
  let index ← emitEndianConvert index
  createStore index addressPtr
  let value ← emitEndianConvert value
  createStore value valPtr
  let slot ← createBitCast addressPtr Ty.i32Ptr
  let word ← createBitCast valPtr Ty.i32Ptr
  let _ ← createCall funcStorageStore [slot, word]

/-- `GAS`, `GASLIMIT`, `CHAINID`, `BASEFEE`, `NUMBER` and `TIMESTAMP`. -/
def pushCall (f : Func) : Emission Operand := do
  let value ← createCall f []
  createZExt value Ty.word

/-- `ADDRESS`, `CALLER`, `ORIGIN` and `COINBASE`; two of them convert. -/
def pushAddress (f : Func) (convert : Bool) : Emission Operand := do
  let valPtr ← createAlloca (.int 160)
  let destMemIdx ← createBitCast valPtr Ty.i32Ptr
  let _ ← createCall f [destMemIdx]
  let value ← createLoad valPtr
  let value ← (if convert then emitEndianConvert value else pure value)
  createZExt value Ty.word

/-- `GASPRICE`, `DIFFICULTY` and `SELFBALANCE`: what `f` stores through a pointer, at its own
type. -/
def pushStored (f : Func) (ty : Ty) : Emission Operand := do
  let valPtr ← createAlloca ty
  let destMemIdx ← createBitCast valPtr Ty.i32Ptr
  let _ ← createCall f [destMemIdx]
  createLoad valPtr

/-- `CALLVALUE`, the one whose parameter is an `i128*`. -/
def callvalue : Emission Operand := do
  let valPtr ← createAlloca (.int 128)
  let _ ← createCall funcGetCallValue [valPtr]
  createLoad valPtr

/-- `BLOCKHASH`: the limit is extended to a word, the number is not. -/
def blockhash (number : Operand) : Emission Operand := do
  let limit ← createZExt (constant (.int 64)) Ty.word
  let isBigNumber ← createICmp number limit
  let number ← createTruncOrBitCast number (.int 64)
  let valPtr ← createAlloca Ty.word
  let destMemIdx ← createBitCast valPtr Ty.i32Ptr
  let _ ← createCall funcGetBlockHash [number, destMemIdx]
  let loaded ← createLoad valPtr
  let hash ← createSelect isBigNumber (constant Ty.word) loaded
  emitEndianConvert hash

/-- `BALANCE`. -/
def balance (address : Operand) : Emission Operand := do
  let address ← createTruncOrBitCast address (.int 160)
  let addressPtr ← createAlloca (.int 160)
  let valPtr ← createAlloca (.int 128)
  createStore address addressPtr
  let address32 ← createBitCast addressPtr Ty.i32Ptr
  let val32 ← createBitCast valPtr Ty.i32Ptr
  let _ ← createCall funcGetExternalBalance [address32, val32]
  createLoad valPtr

/-- `EXTCODESIZE`. -/
def extcodesize (address : Operand) : Emission Operand := do
  let address ← createTruncOrBitCast address (.int 160)
  let addressPtr ← createAlloca (.int 160)
  let address ← emitEndianConvert address
  createStore address addressPtr
  let address32 ← createBitCast addressPtr Ty.i32Ptr
  createCall funcGetExternalCodeSize [address32]

/-- `EXTCODEHASH`. -/
def extcodehash (address : Operand) : Emission Operand := do
  let address ← createTruncOrBitCast address (.int 160)
  let addressPtr ← createAlloca (.int 160)
  createStore address addressPtr
  let resultPtr ← createAlloca (.int 32)
  let address32 ← createBitCast addressPtr Ty.i32Ptr
  let _ ← createCall funcGetExternalCodeHash [address32, resultPtr]
  createLoad resultPtr

/-- `CALLDATACOPY` and `RETURNDATACOPY`. -/
def dataCopy (f : Func) (destMemIdx srcIdx reqBytes : Operand) : Emission Unit := do
  let destMemIdx ← createIntToPtr destMemIdx Ty.i8Ptr
  let srcIdx ← createTruncOrBitCast srcIdx (.int 32)
  let reqBytes ← createTruncOrBitCast reqBytes (.int 32)
  let _ ← createCall f [destMemIdx, srcIdx, reqBytes]

/-- `CODECOPY`. -/
def codecopy (destMemIdx srcIdx reqBytes : Operand) : Emission Unit := do
  let destMemIdx ← createIntToPtr destMemIdx Ty.i8Ptr
  let srcIdx ← createTruncOrBitCast srcIdx (.int 32)
  let reqBytes ← createTruncOrBitCast reqBytes (.int 32)
  let pStr ← createGEP (constant (.ptr (.array (.int 8)))) [constant (.int 32), srcIdx]
  let _ ← createCall funcMemcpy [destMemIdx, pStr, reqBytes]

/-- `EXTCODECOPY`. -/
def extcodecopy (addr destMemIdx srcIdx reqBytes : Operand) : Emission Unit := do
  let addr ← createTruncOrBitCast addr (.int 160)
  let addressPtr ← createAlloca (.int 160)
  createStore addr addressPtr
  let address32 ← createBitCast addressPtr Ty.i32Ptr
  let destMemIdx ← createIntToPtr destMemIdx Ty.i32Ptr
  let srcIdx ← createTruncOrBitCast srcIdx (.int 32)
  let reqBytes ← createTruncOrBitCast reqBytes (.int 32)
  let _ ← createCall funcExternalCodeCopy [address32, destMemIdx, srcIdx, reqBytes]

/-- `CALLDATALOAD`. -/
def calldataload (idx : Operand) : Emission Operand := do
  let idx ← createTruncOrBitCast idx (.int 32)
  let dest ← createAlloca Ty.word
  let destMemIdx ← createBitCast dest Ty.i8Ptr
  let _ ← createCall funcCallDataCopy [destMemIdx, idx, constant (.int 32)]
  let value ← createLoad dest
  emitEndianConvert value

/-- An `i128` in a slot, as a pointer for the host. -/
def slot128 (v : Operand) : Emission Operand := do
  let p ← createAlloca (.int 128)
  let v ← createTruncOrBitCast v (.int 128)
  createStore v p
  createBitCast p Ty.i32Ptr

/-- `CREATE`. -/
def create (endowment initOff initSize : Operand) : Emission Operand := do
  let val32 ← slot128 endowment
  let initOff ← createIntToPtr initOff Ty.i32Ptr
  let initSize ← createTruncOrBitCast initSize (.int 32)
  let addressPtr ← createAlloca (.int 160)
  let addr ← createBitCast addressPtr Ty.i32Ptr
  let _ ← createCall funcCreate [val32, initOff, initSize, addr]
  let result ← createLoad addressPtr
  createZExt result Ty.word

/-- `CREATE2`. -/
def create2 (endowment initOff initSize salt : Operand) : Emission Operand := do
  let val32 ← slot128 endowment
  let initOff ← createIntToPtr initOff Ty.i32Ptr
  let initSize ← createTruncOrBitCast initSize (.int 32)
  let addressPtr ← createAlloca (.int 160)
  let addr ← createBitCast addressPtr Ty.i32Ptr
  let salt32 ← slot128 salt
  let _ ← createCall funcCreate2 [val32, initOff, initSize, salt32, addr]
  let result ← createLoad addressPtr
  createZExt result Ty.word

/-- The end of the four calls: the truth value, and the copy of the return data. -/
def afterCall (r outOff outSize : Operand) : Emission Operand := do
  let valided ← createICmp r (constant r.ty)
  let pushed ← createSelect valided (constant Ty.word) (constant Ty.word)
  let outOff ← createIntToPtr outOff Ty.i8Ptr
  let outSize ← createTruncOrBitCast outSize (.int 32)
  let _ ← createCall funcReturnDataCopy [outOff, constant (.int 32), outSize]
  return pushed

/-- `CALL` and `CALLCODE`. The pointer `ValuePtr` goes through `CreateTruncOrBitCast`. -/
def call (f : Func) (callGas address value inOff inSize outOff outSize : Operand) :
    Emission Operand := do
  let callGas ← createTruncOrBitCast callGas (.int 64)
  let addressPtr ← createAlloca (.int 160)
  let address ← createTruncOrBitCast address (.int 160)
  let address ← emitEndianConvert address
  createStore address addressPtr
  let valuePtr ← createAlloca (.int 128)
  let value ← createTruncOrBitCast value (.int 128)
  createStore value valuePtr
  let valuePtr ← createTruncOrBitCast valuePtr Ty.i32Ptr
  let inOff ← createIntToPtr inOff Ty.i8Ptr
  let inSize ← createTruncOrBitCast inSize (.int 32)
  let r ← createCall f [callGas, addressPtr, valuePtr, inOff, inSize]
  afterCall r outOff outSize

/-- `DELEGATECALL` and `STATICCALL`. -/
def delegatecall (f : Func) (callGas address inOff inSize outOff outSize : Operand) :
    Emission Operand := do
  let callGas ← createTruncOrBitCast callGas (.int 64)
  let address ← createTruncOrBitCast address (.int 160)
  let addressPtr ← createAlloca (.int 160)
  let address ← emitEndianConvert address
  createStore address addressPtr
  let inOff ← createIntToPtr inOff Ty.i8Ptr
  let inSize ← createTruncOrBitCast inSize (.int 32)
  let r ← createCall f [callGas, addressPtr, inOff, inSize]
  afterCall r outOff outSize

/-- The topics of a `LOG`: a slot of the topic's own type for each. -/
def topicSlots : List Operand → Emission (List Operand)
  | [] => pure []
  | topic :: topics => do
    let adr ← createAlloca topic.ty
    createStore topic adr
    let adr32 ← createBitCast adr Ty.i32Ptr
    let rest ← topicSlots topics
    return adr32 :: rest

/-- `LOG0` to `LOG4`: missing topics are null pointers, and `topics[0]` to `topics[3]` are
passed. -/
def log (beginIdx numBytes : Operand) (topics : List Operand) : Emission Unit := do
  let beginPtr ← createIntToPtr beginIdx Ty.i32Ptr
  let numBytes ← createTruncOrBitCast numBytes (.int 32)
  let slots ← topicSlots topics
  let slots := slots ++ List.replicate (4 - slots.length) ⟨Ty.i32Ptr, false⟩
  let _ ← createCall funcLog ([beginPtr, numBytes, constant (.int 32)] ++ slots.take 4)

/-- `JUMP`. -/
def jump (idx : Operand) : Emission Unit := do
  createStore idx ⟨.ptr Ty.word, false⟩
  createBr

/-- `JUMPI`. -/
def jumpi (idx rawCond : Operand) : Emission Unit := do
  let cond ← createICmp rawCond (constant rawCond.ty)
  createStore idx ⟨.ptr Ty.word, false⟩
  createCondBr cond

/-- `RETURN`; `isRuntime` says that it hands out the string `runtimeCode`. -/
def ret (isRuntime : Bool) (index size : Operand) : Emission Unit := do
  let index ← createIntToPtr index Ty.i8Ptr
  let size ← createTruncOrBitCast size (.int 32)
  let _ ← (if isRuntime then do
      let pStr ← createGEP (constant (.ptr (.array (.int 8))))
        [constant (.int 32), constant (.int 32)]
      createCall funcFinish [pStr, constant (.int 32)]
    else createCall funcFinish [index, size])
  createBr

/-- `REVERT`. -/
def revert (index size : Operand) : Emission Unit := do
  let index ← createIntToPtr index Ty.i8Ptr
  let size ← createTruncOrBitCast size (.int 32)
  let _ ← createCall funcRevert [index, size]
  createBr

/-- `SUICIDE`. -/
def suicide (dest : Operand) : Emission Unit := do
  let dest ← createIntToPtr dest Ty.i32Ptr
  let _ ← createCall funcSelfDestruct [dest]
  createBr

/-- A branch that calls `stack.push`. -/
def pushes (m : Emission Operand) : Emission (Option Operand) := do
  let v ← m
  return some v

/-- A branch that does not. -/
def silent (m : Emission Unit) : Emission (Option Operand) := do
  m
  return none

/-- **The branch of an instruction**, for the operands in the order of the pops: its requests, and
what it pushes. `POP`, `PUSH`, `DUP`, `SWAP` and `JUMPDEST` ask for nothing, nor does the
`unreachable` of the `default:` branch have operands. -/
def branch (isRuntime : Bool) : Instruction → List Operand → Emission (Option Operand)
  | .ADD, [lhs, rhs] | .SUB, [lhs, rhs] | .DIV, [lhs, rhs] | .SDIV, [lhs, rhs] | .MOD, [lhs, rhs]
  | .SMOD, [lhs, rhs] | .AND, [lhs, rhs] | .OR, [lhs, rhs] | .XOR, [lhs, rhs] =>
    pushes (arith lhs rhs)
  | .MUL, [lhs, rhs] => pushes (mul lhs rhs)
  | .ADDMOD, [a, b, m] | .MULMOD, [a, b, m] => pushes (modArith a b m)
  | .EXP, [base, exponent] => pushes (exp base exponent)
  | .NOT, [value] => pushes (bnot value)
  | .LT, [lhs, rhs] | .GT, [lhs, rhs] | .SLT, [lhs, rhs] | .SGT, [lhs, rhs] | .EQ, [lhs, rhs] =>
    pushes (compare lhs rhs)
  | .ISZERO, [top] => pushes (iszero top)
  | .BYTE, [idx, value] => pushes (byte idx value)
  | .SIGNEXTEND, [idx, word] => pushes (signextend idx word)
  | .SHL, [shift, value] | .SHR, [shift, value] | .SAR, [shift, value] =>
    pushes (createShift value shift)
  | .SHA3, [inOff, inSize] => pushes (sha3 inOff inSize)
  | .MLOAD, [addr] => pushes (mload addr)
  | .MSTORE, [addr, word] => silent (mstore addr word)
  | .MSTORE8, [addr, word] => silent (mstore8 addr word)
  | .MSIZE, [] => pushes (createLoad ⟨.ptr Ty.word, false⟩)
  | .SLOAD, [index] => pushes (sload index)
  | .SSTORE, [index, value] => silent (sstore index value)
  | .JUMP, [idx] => silent (jump idx)
  | .JUMPI, [idx, rawCond] => silent (jumpi idx rawCond)
  | .PC, [] => pushes (pure (constant Ty.word))
  | .GAS, [] => pushes (pushCall funcGetGasLeft)
  | .ADDRESS, [] => pushes (pushAddress funcGetAddress false)
  | .CALLER, [] => pushes (pushAddress funcGetCaller true)
  | .ORIGIN, [] => pushes (pushAddress funcGetTxOrigin true)
  | .COINBASE, [] => pushes (pushAddress funcGetBlockCoinbase false)
  | .GASPRICE, [] => pushes do
    let value ← pushStored funcGetTxGasPrice (.int 128)
    createZExt value Ty.word
  | .DIFFICULTY, [] => pushes (pushStored funcGetBlockDifficulty Ty.word)
  | .GASLIMIT, [] => pushes (pushCall funcGetBlockGasLimit)
  | .CHAINID, [] => pushes (pushCall funcGetChainID)
  | .SELFBALANCE, [] => pushes (pushStored funcGetSelfBalance (.int 128))
  | .BASEFEE, [] => pushes (pushCall funcGetBasefee)
  | .NUMBER, [] => pushes (pushCall funcGetBlockNumber)
  | .TIMESTAMP, [] => pushes (pushCall funcGetBlockTimestamp)
  | .CALLVALUE, [] => pushes callvalue
  | .CODESIZE, [] => pushes (pure (constant (.int 32)))
  | .CALLDATASIZE, [] => pushes (createCall funcGetCallDataSize [])
  | .RETURNDATASIZE, [] => pushes (createCall funcGetReturnDataSize [])
  | .BLOCKHASH, [number] => pushes (blockhash number)
  | .BALANCE, [address] => pushes (balance address)
  | .EXTCODESIZE, [address] => pushes (extcodesize address)
  | .EXTCODEHASH, [address] => pushes (extcodehash address)
  | .CALLDATACOPY, [destMemIdx, srcIdx, reqBytes] =>
    silent (dataCopy funcCallDataCopy destMemIdx srcIdx reqBytes)
  | .RETURNDATACOPY, [destMemIdx, srcIdx, reqBytes] =>
    silent (dataCopy funcReturnDataCopy destMemIdx srcIdx reqBytes)
  | .CODECOPY, [destMemIdx, srcIdx, reqBytes] => silent (codecopy destMemIdx srcIdx reqBytes)
  | .EXTCODECOPY, [addr, destMemIdx, srcIdx, reqBytes] =>
    silent (extcodecopy addr destMemIdx srcIdx reqBytes)
  | .CALLDATALOAD, [idx] => pushes (calldataload idx)
  | .CREATE, [endowment, initOff, initSize] => pushes (create endowment initOff initSize)
  | .CREATE2, [endowment, initOff, initSize, salt] =>
    pushes (create2 endowment initOff initSize salt)
  | .CALL, [callGas, address, value, inOff, inSize, outOff, outSize] =>
    pushes (call funcCall callGas address value inOff inSize outOff outSize)
  | .CALLCODE, [callGas, address, value, inOff, inSize, outOff, outSize] =>
    pushes (call funcCallCode callGas address value inOff inSize outOff outSize)
  | .DELEGATECALL, [callGas, address, inOff, inSize, outOff, outSize] =>
    pushes (delegatecall funcCallDelegate callGas address inOff inSize outOff outSize)
  | .STATICCALL, [callGas, address, inOff, inSize, outOff, outSize] =>
    pushes (delegatecall funcCallStatic callGas address inOff inSize outOff outSize)
  | .RETURN, [index, size] => silent (ret isRuntime index size)
  | .REVERT, [index, size] => silent (revert index size)
  | .SUICIDE, [dest] => silent (suicide dest)
  | .STOP, [] => silent createBr
  | .LOG _, beginIdx :: numBytes :: topics => silent (log beginIdx numBytes topics)
  | _, _ => pure none

end Emission

end EvmTrans
