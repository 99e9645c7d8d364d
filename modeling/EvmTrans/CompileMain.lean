/-
# `EvmTrans.CompileMain` — `compileMain` (the register-allocating mode) and `resolveJumps`.

Blocks are compiled twice over: a breadth-first queue along the edges of `dry_run`, which may hand a
block the registers its predecessor left on the stack, and a second loop over the blocks the queue
never reached, which pops every input from `mstk`. Before the terminator each block spills what is
left in `m_local`, so `mstk` and `spPtr` are complete at every block boundary.

The helper blocks are appended to the function in the order `Test`, `JumpTable`, `Abort`, `Exit`,
BEHIND the code blocks. `resolveJumps` then walks the function in that order and makes every block
without a terminator fall into the next one — for the last code block that is `Test`.
-/
import EvmTrans.DryRun
import EvmTrans.CompileBasicBlock

namespace EvmTrans

open Lib (whileLoop)

/-! ## §1 — one block: inputs, body, spill. -/

/-- `for (auto v : vs) _stack.push(v)`. -/
def pushAll : List Value → Build Unit
  | [] => return ()
  | v :: vs => do
    GlobalStack.push v
    pushAll vs

/-- Lower `spPtr` by the registers taken over from the predecessor. -/
def lowerSp (n : Nat) : Build Unit := do
  let tsp ← createLoad .spPtr
  let tsp1 ← createSub tsp (constWord n)
  createStore tsp1 .spPtr

/-- `Instruction(*pbb->begin()) != JUMPDEST || (pbb->bbs_from.size() == 1 &&
Instruction(*pbb->bbs_from[0]->begin()) == JUMPI)`. -/
def mayInherit (code : List Byte) (bs : List BasicBlock) (bb : BasicBlock) : Bool :=
  instAt code bb.firstInstrIdx != .JUMPDEST ||
    (match bb.bbsFrom with
     | [p] => (bs[p]?.map fun b => instAt code b.firstInstrIdx == .JUMPI).getD false
     | _ => false)

/-- The inputs `depStk` of a queued block, top of the stack first: as many as wanted from `pstack`,
the rest popped from memory. -/
def queuedInputs (inherit : Bool) (stkIn : Nat) (pstack : List Value) : Build (List Value) :=
  if inherit && !pstack.isEmpty then do
    let depStk := pstack.take stkIn
    lowerSp depStk.length
    GlobalStack.setRegs false
    let popped ← popCallsN (stkIn - depStk.length)
    return depStk ++ popped
  else do
    GlobalStack.setRegs false
    popCallsN stkIn

/-- The inputs of a block of the second loop. -/
def leftoverInputs (stkIn : Nat) : Build (List Value) := do
  GlobalStack.setRegs false
  popCallsN stkIn

/-- The rest of either loop's body: inputs into `m_local`, the block, and the spill of `view()`
before the terminator. Returns `view()`, top first. -/
def compileWith (env : CompileEnv) (code : List Byte) (bb : BasicBlock) (i : Nat) (next : Label)
    (depStk : List Value) : Build (List Value) := do
  GlobalStack.setRegs true
  pushAll depStk.reverse
  compileBasicBlock env code bb i next
  GlobalStack.setRegs false
  let view := (← get).locals
  pushAll view.reverse
  modify fun b => { b with locals := [] }
  return view

/-! ## §2 — the two loops. -/

/-- The variables of `compileMain`'s loops. `out` collects the finished LLVM blocks; `none` in
`queue` and `visited` is `nullptr`. -/
structure Main where
  next : Nat
  cases : List (Word × Label)
  out : List (Nat × IRBlock)
  queue : List (Option Nat × List Value)
  visited : List (Option Nat)

/-- `llvm()->getNextNode()` of code block `i` of `n`: the next code block, or `Test`. -/
def nextNode (n i : Nat) : Label := if i + 1 < n then .code (i + 1) else .test

/-- The finished block of an insertion point. -/
def Builder.block (b : Builder) (i : Nat) : IRBlock := ⟨.code i, b.code, b.term⟩

/-- The queue loop's work on block `i` with the registers `pstack`. -/
def compileQueued (env : CompileEnv) (code : List Byte) (bs : List BasicBlock) (bb : BasicBlock)
    (i : Nat) (pstack : List Value) : Build (List Value) := do
  let depStk ← queuedInputs (mayInherit code bs bb) bb.stkIn pstack
  compileWith env code bb i (nextNode bs.length i) depStk

/-- The second loop's work on block `i`. -/
def compileLeftover (env : CompileEnv) (code : List Byte) (bs : List BasicBlock) (bb : BasicBlock)
    (i : Nat) : Build (List Value) := do
  let depStk ← leftoverInputs bb.stkIn
  compileWith env code bb i (nextNode bs.length i) depStk

/-- Record what an insertion point holds once block `i` is finished. -/
def Main.finish (m : Main) (i : Nat) (b : Builder) : Main :=
  { m with
    next := b.next
    cases := b.cases
    out := (i, b.block i) :: m.out
    visited := some i :: m.visited }

/-- The blocks in `queue` and `visited`, `nullptr` among them. -/
instance lawfulBEqBlock : LawfulBEq (Option Nat) := inferInstance

/-- The body of `while (!waitingBlocks.empty())`. -/
def queueBody (env : CompileEnv) (code : List Byte) (bs : List BasicBlock) (m : Main) :
    Option Main :=
  match m.queue with
  | [] => none
  | (p, pstack) :: rest =>
    if p ∈ m.visited then some { m with queue := rest }
    else
      match p with
      | none => some { m with queue := rest, visited := none :: m.visited }
      | some i =>
        match bs[i]? with
        | none => some { m with queue := rest, visited := some i :: m.visited }
        | some bb =>
          let (view, b) := compileQueued env code bs bb i pstack (.empty m.next m.cases)
          some { m.finish i b with queue := rest ++ bb.bbsTo.map fun q => (q, view) }

/-- One iteration of the second loop. -/
def leftoverBody (env : CompileEnv) (code : List Byte) (bs : List BasicBlock) (m : Main)
    (i : Nat) : Main :=
  if some i ∈ m.visited then m
  else
    match bs[i]? with
    | none => m
    | some bb => m.finish i (compileLeftover env code bs bb i (.empty m.next m.cases)).2

/-- Entries the queue can ever hold: the root, and one for each recorded edge. -/
def queueFuel (bs : List BasicBlock) : Nat := 1 + (bs.map fun b => b.bbsTo.length).sum

/-- Both loops; register 0 is the load of `target` in `JumpTable`. -/
def compileBlocks (env : CompileEnv) (code : List Byte) (bs : List BasicBlock) : Main :=
  (List.range bs.length).foldl (leftoverBody env code bs)
    (whileLoop (queueBody env code bs) (queueFuel bs) ⟨1, [], [], [(some 0, [])], []⟩)

/-! ## §3 — the function. -/

/-- The LLVM block of code block `i`: empty until one of the loops has filled it. -/
def Main.blockAt (m : Main) (i : Nat) : IRBlock := (m.out.lookup i).getD ⟨.code i, [], none⟩

/-- The blocks of the function in their order, before `resolveJumps`. `Exit` and `Abort` pass a
buffer of size 0 to the host. -/
def functionBlocks (m : Main) (n : Nat) : List IRBlock :=
  ⟨.entry, [], some (.br (.code 0) none)⟩ ::
    ((List.range n).map m.blockAt ++
      [⟨.test, [], none⟩,
       ⟨.jumpTable, [.load 0 .target], some (.switch (.reg .i256 0) m.cases .abort)⟩,
       ⟨.abort, [.revert (constWord 0) (constWord 0)], some (.br .exit none)⟩,
       ⟨.exit, [.finish (constWord 0) (constWord 0)], some .unreachable⟩])

/-- `jumpTable->findCaseValue(constant)->getCaseSuccessor()`. Constants are compared with their
type, so one that is not 256 bits wide has the default successor. -/
def caseSuccessor (cases : List (Word × Label)) (w : Width) (v : Word) : Label :=
  if w = .i256 then ((cases.find? fun c => c.1 == v).map Prod.snd).getD .abort else .abort

/-- The store that `resolveJumps` erases. -/
def Instr.storesTarget : Instr → Bool
  | .store _ .target => true
  | _ => false

/-- Walk back from the terminator and erase the first store to `target`. -/
def eraseTargetStore (code : List Instr) : List Instr :=
  (code.reverse.eraseP Instr.storesTarget).reverse

/-- The body of `resolveJumps`' loop, for a block and the block that follows it. -/
def resolveBlock (cases : List (Word × Label)) (next : Label) (b : IRBlock) : IRBlock :=
  match b.term with
  | none => { b with term := some (.br next none) }
  | some (.br .jumpTable (some (.const w v))) =>
    { b with
      code := eraseTargetStore b.code
      term := some (.br (caseSuccessor cases w v) (some (.const w v))) }
  | some (.condBr c .jumpTable _ (some (.const w v))) =>
    { b with
      code := eraseTargetStore b.code
      term := some (.condBr c (caseSuccessor cases w v) next (some (.const w v))) }
  | some (.condBr c .jumpTable _ d) => { b with term := some (.condBr c .jumpTable next d) }
  | _ => b

/-- `WASMCompiler::resolveJumps(blocks)`: from the second block of the function to the third last,
exclusive. -/
def resolveJumps (cases : List (Word × Label)) (f : List IRBlock) : List IRBlock :=
  f.mapIdx fun k b =>
    if 1 ≤ k ∧ k < f.length - 3 then
      match f[k + 1]? with
      | some nextBlock => resolveBlock cases nextBlock.label b
      | none => b
    else b

/-- `WASMCompiler::compileMain(ExeCode, Name)`. -/
def compileMain (env : CompileEnv) (code : List Byte) : List IRBlock :=
  let bs := dryRun code (createBasicBlocks code)
  let m := compileBlocks env code bs
  resolveJumps m.cases (functionBlocks m bs.length)

end EvmTrans
