/-
# `EvmTrans.CompileBasicBlock` — `compileBasicBlock`: one basic block into registers and a
terminator.

The body of a block is compiled with `enableRegs` on: operands come from `m_local`, results go back
to it, and the only code emitted is that of the opcodes themselves, the store of a jump's
destination to `target`, and the terminator. `JUMPDEST` adds the block to the switch of `JumpTable`.

An opcode that is neither a stack nor a control operation is a table entry: how many times its
branch calls `stack.pop()`, whether it pushes, and the integer type of what it pushes. `IRBuilder`
may return a constant, or an operand, in place of an instruction; which ones is LLVM's business, so
the folder is a parameter of the compilation.
-/
import EvmTrans.BasicBlock
import EvmTrans.GlobalStack

namespace EvmTrans

/-! ## §1 — the opcode table. -/

/-- The calls of `stack.pop()` in the branch of an opcode. -/
def Instruction.popCalls : Instruction → Nat
  | .ADD | .SUB | .MUL | .DIV | .SDIV | .MOD | .SMOD | .EXP | .LT | .GT | .SLT | .SGT | .EQ | .AND
  | .OR | .XOR | .BYTE | .SIGNEXTEND | .SHL | .SHR | .SAR | .SHA3 | .MSTORE | .MSTORE8
  | .SSTORE => 2
  | .NOT | .ISZERO | .MLOAD | .SLOAD | .BLOCKHASH | .BALANCE | .EXTCODESIZE | .EXTCODEHASH
  | .CALLDATALOAD => 1
  | .ADDMOD | .MULMOD | .CALLDATACOPY | .RETURNDATACOPY | .CODECOPY | .CREATE => 3
  | .EXTCODECOPY | .CREATE2 => 4
  | .CALL | .CALLCODE => 7
  | .DELEGATECALL | .STATICCALL => 6
  | .LOG n => 2 + n
  | _ => 0

/-- Whether the branch of an opcode calls `stack.push`. -/
def Instruction.pushCall : Instruction → Bool
  | .MSTORE | .MSTORE8 | .SSTORE | .CALLDATACOPY | .RETURNDATACOPY | .CODECOPY | .EXTCODECOPY
  | .LOG _ => false
  | _ => true

/-- The integer type of the value an opcode pushes. The branches that widen unequal operands keep
the type of equal ones; a shift has the type of the shifted value. -/
def resultWidth : Instruction → List Value → Width
  | .CALLVALUE, _ | .BALANCE, _ | .SELFBALANCE, _ => .i128
  | .CALLDATASIZE, _ | .RETURNDATASIZE, _ | .EXTCODESIZE, _ | .EXTCODEHASH, _ => .i32
  | .ADD, [a, b] | .SUB, [a, b] | .MUL, [a, b] | .DIV, [a, b] | .SDIV, [a, b] | .MOD, [a, b]
  | .SMOD, [a, b] | .AND, [a, b] | .OR, [a, b] | .XOR, [a, b] =>
    if a.width = b.width then a.width else .i256
  | .NOT, [a] => a.width
  | .SHL, [_, v] | .SHR, [_, v] | .SAR, [_, v] => v.width
  | _, _ => .i256

/-! ## §2 — the compilation of a block. -/

/-- What `compileBasicBlock` reads besides the block: the fields `Bytecode`, `RetPC` and
`RtWasmCode` of `WASMCompiler`, and `IRBuilder`'s folder, which answers with an operand or with a
constant. -/
structure CompileEnv where
  bytecode : List Byte
  retPC : Nat
  rtWasmCode : List Byte
  fold : Instruction → List Value → Option Value
  fold_mem : ∀ {op args v}, fold op args = some v → v ∈ args ∨ ∃ w x, v = .const w x

theorem fold_mem_none {args : List Value} {v : Value} (h : none = some v) :
    v ∈ args ∨ ∃ w x, v = .const w x :=
  nomatch h

/-- A compilation that folds nothing. -/
def plainEnv (code : List Byte) : CompileEnv where
  bytecode := code
  retPC := 0
  rtWasmCode := []
  fold := fun _ _ => none
  fold_mem := fold_mem_none

/-- `n` calls of `stack.pop()`, the results in the order of the calls. -/
def popCallsN : Nat → Build (List Value)
  | 0 => return []
  | n + 1 => do
    let v ← GlobalStack.pop
    let vs ← popCallsN n
    return v :: vs

/-- `jumpTable->addCase(Constant::get(firstInstrIdx), llvm)`. -/
def addCase (offset : Nat) (l : Label) : Build Unit :=
  modify fun b => { b with cases := b.cases ++ [(BitVec.ofNat 256 offset, l)] }

/-- The branch of an opcode that is neither a stack nor a control operation. -/
def compileOpcode (env : CompileEnv) (op : Instruction) : Build Unit := do
  let args ← popCallsN op.popCalls
  if op.pushCall then
    match env.fold op args with
    | some v => GlobalStack.push v
    | none =>
      let r ← emitReg (resultWidth op args) (.opcode · op args)
      GlobalStack.push r
  else
    let _ ← emitReg .i256 (.opcode · op args)
    return ()

/-- One iteration of the `switch`, for an instruction without push data at offset `it` of block
number `i`. `next` is `_basicBlock.llvm()->getNextNode()`. -/
def compileInst (env : CompileEnv) (bb : BasicBlock) (i : Nat) (next : Label) (it : Nat)
    (inst : Instruction) : Build Unit :=
  match inst with
  | .POP => do
    let _ ← GlobalStack.pop
    return ()
  | .DUP n => GlobalStack.dup (n - 1)
  | .SWAP n => GlobalStack.swap (n - 1)
  | .JUMP => do
    let idx ← GlobalStack.pop
    createStore idx .target
    setTerm (.br .jumpTable (some idx))
  | .JUMPI => do
    let idx ← GlobalStack.pop
    let rawCond ← GlobalStack.pop
    let cond ← emitReg .i1 (.icmpNE · rawCond)
    createStore idx .target
    setTerm (.condBr cond .jumpTable next (some idx))
  | .JUMPDEST => addCase bb.firstInstrIdx (.code i)
  | .PC => GlobalStack.push (constWord it)
  | .CODESIZE =>
    -- `IRB.getInt32((uint32_t)Bytecode.size())`
    GlobalStack.push (.const .i32 (BitVec.ofNat 256 (env.bytecode.length % 2 ^ 32)))
  | .RETURN => do
    let index ← GlobalStack.pop
    let size ← GlobalStack.pop
    if env.retPC ≠ 0 ∧ env.rtWasmCode ≠ [] ∧ it = env.retPC then emit (.finishData env.rtWasmCode)
    else emit (.finish index size)
    setTerm (.br .exit none)
  | .REVERT => do
    let index ← GlobalStack.pop
    let size ← GlobalStack.pop
    emit (.revert index size)
    setTerm (.br .exit none)
  | .SUICIDE => do
    let dest ← GlobalStack.pop
    emit (.selfDestruct dest)
    setTerm (.br .exit none)
  | .STOP => setTerm (.br .exit none)
  | op => compileOpcode env op

/-- The loop of `compileBasicBlock` over `[it, end)`. -/
def compileBasicBlockLoop (env : CompileEnv) (code : List Byte) (bb : BasicBlock) (i : Nat)
    (next : Label) : Nat → Nat → Build Unit
  | 0, _ => return ()
  | fuel + 1, it =>
    if it = bb.endIdx then return ()
    else
      match instAt code it with
      | .PUSH _ => do
        let r := readPushData code it bb.endIdx
        GlobalStack.push (.const .i256 r.1)
        compileBasicBlockLoop env code bb i next fuel (r.2 + 1)
      | .UNDEFINED _ =>
        -- `default:` lifts to `unreachable` and moves `it` to the last byte
        setTerm .unreachable
      | inst => do
        compileInst env bb i next it inst
        compileBasicBlockLoop env code bb i next fuel (it + 1)

/-- `WASMCompiler::compileBasicBlock(_basicBlock, …, stack)`. -/
def compileBasicBlock (env : CompileEnv) (code : List Byte) (bb : BasicBlock) (i : Nat)
    (next : Label) : Build Unit :=
  compileBasicBlockLoop env code bb i next (bb.endIdx - bb.firstInstrIdx) bb.firstInstrIdx

end EvmTrans
