/-
# `EvmTrans.SymExec` — one block in `SEngine`.

`symExec` runs the instructions of a block on terms. The registers are fresh for each block, all
zero; memory, the stack array, storage and the jump target are members of the engine and stay as the
instructions leave them. §3 says what a block does to them, by what its instructions are: one that
writes an array makes its term longer, and one that does not leaves all of them alone.
-/
import EvmTrans.SymMemory

namespace EvmTrans.SEngine

open Lib (BinOp CmpOp Simplifier)
open Lib.Expr (ofBv)

/-! ## §1 — instructions. -/

/-- What `operands[index]` stands for: a register, an entry of `m_constants`, a global, or nothing
(-1). -/
inductive Operand where
  | reg (vnumber : Nat)
  | constant (e : Expr)
  | global (name : Name)
  | invalid

/-- The functions that a call may name, by what `symExec` does for them. -/
inductive Callee where
  | callDataCopy | getCallDataSize | getGasLeft | storageLoad | storageStore | getTxGasPrice
  | bswapi256 | getTxOrigin | getBlockCoinbase | getBlockDifficulty | getBlockGasLimit
  | getBlockNumber | getBlockTimestamp | getBlockHash | getExternalBalance | getAddress
  | getCodeSize | getExternalCodeSize | getReturnDataSize
  /-- the functions whose branch is empty, and those without a branch -/
  | ignored
  /-- debug intrinsics and inline assembly -/
  | notEvaluated
  /-- a call through a pointer -/
  | indirect

/-- The instructions in front of a terminator. `target` says that the pointer operand is named
"target". -/
inductive Opcode where
  | call (callee : Callee)
  | select
  | bin (op : BinOp)
  | icmp (predicate : CmpOp)
  | alloca (inst elementBytesSize : Nat)
  | load (target : Bool) (elementbits : Nat)
  | store (target : Bool)
  | getElementPtr (indices : List Nat) (offset : Nat)
  | trunc (w : Nat) | zext (w : Nat) | sext (w : Nat) | intToPtr (w : Nat) | ptrToInt (w : Nat)
  | bitCast
  | insertValue | extractValue | insertElement | extractElement
  /-- `Fence`, and the opcodes that are only reported -/
  | other

/-- `KInstruction`; of a call, the operands are its arguments. -/
structure KInstruction where
  op : Opcode
  operands : List Operand
  dest : Nat

/-- Registers of the block, and the members of the engine. -/
structure Run where
  locals : List Expr
  sym : SymState

/-! ## §2 — `symExec`. -/

/-- `SEngine::eval(ki, index, state)`; `none` where an assertion fails. -/
def evalOperand (ki : KInstruction) (index : Nat) (r : Run) : Option Expr :=
  match ki.operands[index]? with
  | some (.reg vnumber) => r.locals[vnumber]?
  | some (.constant e) => some e
  | some (.global name) => some (ofBv (.const name (.bv 256)))
  | some .invalid | none => none

/-- `SEngine::bindLocal(target, _state, value)`. -/
def bindLocal (ki : KInstruction) (r : Run) (value : Expr) : Option Run :=
  if ki.dest < r.locals.length then some { r with locals := r.locals.set ki.dest value } else none

/-- `resizeVec(_e, _w, isSigned)`. -/
def resizeVec (e : Expr) (w : Nat) (isSigned : Bool) : Option Expr := do
  let ⟨size, x⟩ ← e.bv?
  if size < w then
    return if isSigned then ofBv (.sext (w - size) x) else ofBv (.zext (w - size) x)
  else if w = 0 then none
  else e.extract (w - 1) 0

/-- The arrays' free constant `calldata`. -/
def calldata : Term (.array 32 8) := .const .calldata _

/-- `memStore(arguments[index], val)`. -/
def storeResult (z : Simplifier Name) (arguments : List Expr) (index : Nat) (val : Expr) (r : Run) :
    Option Run := do
  let adr ← arguments[index]?
  let sym ← memStore z adr val r.sym
  return { r with sym := sym }

/-- A host query: the answer is a free constant. -/
def storeAnswer (z : Simplifier Name) (arguments : List Expr) (index : Nat) (answer : Name)
    (r : Run) : Option Run :=
  storeResult z arguments index (ofBv (.const answer (.bv 256))) r

/-- `case Instruction::Call`, behind the evaluation of the arguments. -/
def execCall (z : Simplifier Name) (ki : KInstruction) (arguments : List Expr) (r : Run) : Callee →
    Option Run
  | .callDataCopy => do
    let data ← arguments[1]?
    let offset ← arguments[2]?
    if offset.isNumeral 32 then do
      let byte ← Lib.Expr.select calldata data
      let val ← (List.range' 1 31).foldlM (fun val i => do
        let x ← data.addInt i
        let byte ← Lib.Expr.select calldata x
        val.concat (ofBv byte)) (ofBv byte)
      storeResult z arguments 0 (val.simplify z) r
    else none
  | .getCallDataSize => bindLocal ki r (ofBv (.const .calldatasize (.bv 256)))
  | .getGasLeft => bindLocal ki r (ofBv (.bvVal 1000000000000000000#64))
  | .storageLoad => do
    let adr ← arguments[0]?
    let sidx ← memLoad z adr 256 r.sym
    let sval ← Lib.Expr.select r.sym.storage sidx
    let sym ← memStore z sidx (ofBv sval) r.sym
    return { r with sym := sym }
  | .storageStore => do
    let adr₀ ← arguments[0]?
    let sidx ← memLoad z adr₀ 256 r.sym
    let adr₁ ← arguments[1]?
    let val ← memLoad z adr₁ 256 r.sym
    let storage ← Lib.Expr.store r.sym.storage sidx val
    return { r with sym := { r.sym with storage := storage } }
  | .getTxGasPrice => storeResult z arguments 0 (ofBv (.bvVal 10#128)) r
  | .getTxOrigin => storeAnswer z arguments 0 .origin r
  | .getBlockCoinbase => storeAnswer z arguments 0 .coinbase r
  | .getBlockDifficulty => storeAnswer z arguments 0 .difficult r
  | .getBlockGasLimit => storeAnswer z arguments 0 .gaslimit r
  | .getBlockNumber => storeAnswer z arguments 0 .blocknumber r
  | .getBlockTimestamp => storeAnswer z arguments 0 .timestamp r
  | .getBlockHash => storeAnswer z arguments 0 .blockhash r
  | .getExternalBalance => storeAnswer z arguments 0 .balance r
  | .getAddress => storeAnswer z arguments 0 .address r
  | .getCodeSize => storeAnswer z arguments 0 .codeSize r
  | .getExternalCodeSize => storeAnswer z arguments 1 .codesize r
  | .getReturnDataSize => storeAnswer z arguments 0 .returnsize r
  | .bswapi256 => do
    let v ← arguments[0]?
    bindLocal ki r v
  | .ignored | .notEvaluated => some r
  | .indirect => none

/-- One instruction in front of the terminator. -/
def execInst (z : Simplifier Name) (r : Run) (ki : KInstruction) : Option Run :=
  match ki.op with
  | .call .notEvaluated => some r
  | .call callee => do
    let arguments ← (List.range ki.operands.length).mapM fun j => evalOperand ki j r
    execCall z ki arguments r callee
  | .select => do
    let cond ← evalOperand ki 0 r
    let tExpr ← evalOperand ki 1 r
    let fExpr ← evalOperand ki 2 r
    let result ← Lib.Expr.iteBit cond tExpr fExpr
    bindLocal ki r result
  | .bin op => do
    let left ← evalOperand ki 0 r
    let right ← evalOperand ki 1 r
    let result ← Lib.Expr.bin op left right
    bindLocal ki r result
  | .icmp predicate => do
    let left ← evalOperand ki 0 r
    let right ← evalOperand ki 1 r
    let result ← Lib.Expr.cmpBit predicate left right
    bindLocal ki r result
  | .alloca inst elementBytesSize =>
    if elementBytesSize = 0 then none
    else bindLocal ki r (ofBv (.const (.alloca inst) (.bv (8 * elementBytesSize))))
  | .load true _ => bindLocal ki r r.sym.targetPtr
  | .load false elementbits => do
    let base ← evalOperand ki 0 r
    let value ← memLoad z base elementbits r.sym
    bindLocal ki r value
  | .store true => do
    let value ← evalOperand ki 0 r
    return { r with sym := { r.sym with targetPtr := value } }
  | .store false => do
    let value ← evalOperand ki 0 r
    let base ← evalOperand ki 1 r
    let sym ← memStore z base value r.sym
    return { r with sym := sym }
  | .getElementPtr indices offset => do
    let base ← evalOperand ki 0 r
    -- the values of the indices are not used
    let _ ← indices.mapM fun it => evalOperand ki it r
    let sum ← (if offset = 0 then some base else base.addInt offset)
    bindLocal ki r sum
  | .trunc w | .zext w | .intToPtr w | .ptrToInt w => do
    let e ← evalOperand ki 0 r
    let result ← resizeVec e w false
    bindLocal ki r result
  | .sext w => do
    let e ← evalOperand ki 0 r
    let result ← resizeVec e w true
    bindLocal ki r result
  | .bitCast => do
    let result ← evalOperand ki 0 r
    bindLocal ki r result
  | .insertValue | .extractElement => do
    let _ ← evalOperand ki 0 r
    let _ ← evalOperand ki 1 r
    return r
  | .extractValue => do
    let _ ← evalOperand ki 0 r
    return r
  | .insertElement => do
    let _ ← evalOperand ki 0 r
    let _ ← evalOperand ki 1 r
    let _ ← evalOperand ki 2 r
    return r
  | .other => some r

/-- How a block ends, with the successors that are numbers of blocks. -/
inductive Terminator where
  | ret
  | unreachable
  | br (succ : Nat)
  | condBr (cond : Operand) (ifTrue ifFalse : Nat)
  | switch (cond : Operand)
  | other

inductive BlockName where
  | abort | exit | other
  deriving DecidableEq

structure SymBlock where
  name : BlockName
  body : List KInstruction
  term : Terminator

/-- The condition that a conditional `Br` and a `Switch` push. -/
def Terminator.cond : Terminator → Option Operand
  | .condBr cond _ _ | .switch cond => some cond
  | _ => none

/-- `SEngine::symExec(node, bb)` on `numRegisters` registers: the members of the engine behind the
block, and the node's constraints. -/
def symExec (z : Simplifier Name) (numRegisters : Nat) (bb : SymBlock) (constraints : List Expr)
    (sym : SymState) : Option (List Expr × SymState) := do
  let r ← bb.body.foldlM (execInst z) ⟨List.replicate numRegisters (ofBv (.bvVal (0 : BitVec 256))),
    sym⟩
  match bb.term.cond with
  | none => return (constraints, r.sym)
  | some operand =>
    let cond ← evalOperand ⟨.other, [operand], 0⟩ 0 r
    return (constraints ++ [cond], r.sym)

/-! ## §3 — what a block does to the members. -/

/-- The calls that write to memory, to the stack array or to storage. -/
def Callee.writesArrays : Callee → Bool
  | .getCallDataSize | .getGasLeft | .bswapi256 | .ignored | .notEvaluated | .indirect => false
  | _ => true

def Opcode.writesArrays : Opcode → Bool
  | .store target => !target
  | .call callee => callee.writesArrays
  | _ => false

def Opcode.writesTarget : Opcode → Bool
  | .store target => target
  | _ => false

def SymBlock.writesArrays (bb : SymBlock) : Bool := bb.body.any (·.op.writesArrays)
def SymBlock.writesTarget (bb : SymBlock) : Bool := bb.body.any (·.op.writesTarget)

structure SameArrays (s s' : SymState) : Prop where
  memory : s'.memory = s.memory
  stk : s'.stk = s.stk
  storage : s'.storage = s.storage

/-- The length of the three array terms. -/
def SymState.weight (s : SymState) : Nat := s.memory.size + s.stk.size + s.storage.size

/-- What instructions do to the members: those that write no array leave the arrays as they are,
those that write one make the terms longer. -/
structure Effect (writesArrays writesTarget : Bool) (s s' : SymState) : Prop where
  arrays : writesArrays = false → SameArrays s s'
  grows : writesArrays = true → s.weight < s'.weight
  target : writesTarget = false → s'.targetPtr = s.targetPtr

section Effects

variable {z : Simplifier Name} {s s' s'' : SymState} {r : Run} {ki : KInstruction}

theorem SameArrays.weight_eq (h : SameArrays s s') : s'.weight = s.weight := by
  rw [SymState.weight, SymState.weight, h.memory, h.stk, h.storage]

theorem Effect.refl (s : SymState) : Effect false false s s :=
  ⟨fun _ => ⟨rfl, rfl, rfl⟩, nofun, fun _ => rfl⟩

theorem Effect.weight_le {a t : Bool} (h : Effect a t s s') : s.weight ≤ s'.weight := by
  cases ha : a with
  | false => exact (h.arrays ha).weight_eq.ge
  | true => exact (h.grows ha).le

theorem Effect.trans {a t a' t' : Bool} (h : Effect a t s s') (h' : Effect a' t' s' s'') :
    Effect (a || a') (t || t') s s'' where
  arrays hw := by
    obtain ⟨ha, ha'⟩ := Bool.or_eq_false_iff.mp hw
    have h₁ := h.arrays ha
    have h₂ := h'.arrays ha'
    exact ⟨h₂.memory.trans h₁.memory, h₂.stk.trans h₁.stk, h₂.storage.trans h₁.storage⟩
  grows hw := by
    rcases Bool.or_eq_true_iff.mp hw with ha | ha'
    · exact Nat.lt_of_lt_of_le (h.grows ha) h'.weight_le
    · exact Nat.lt_of_le_of_lt h.weight_le (h'.grows ha')
  target hw := by
    obtain ⟨ht, ht'⟩ := Bool.or_eq_false_iff.mp hw
    exact (h'.target ht').trans (h.target ht)

theorem size_store {i e : Nat} {m m' : Term (.array i e)} {x v : Expr}
    (h : Lib.Expr.store m x v = some m') : m.size < m'.size := by
  obtain ⟨x', -, h⟩ := Option.bind_eq_some_iff.mp h
  obtain ⟨v', -, h⟩ := Option.bind_eq_some_iff.mp h
  cases h
  show m.size < m.size + x'.size + v'.size + 1
  omega

theorem size_storeByte {adr val : Expr} {m m' : Term (.array 256 8)} {i : Nat}
    (h : storeByte adr val m i = some m') : m.size < m'.size := by
  obtain ⟨shr, -, h⟩ := Option.bind_eq_some_iff.mp h
  obtain ⟨x, -, h⟩ := Option.bind_eq_some_iff.mp h
  exact size_store h

/-- The loop of `memStore` makes the term longer, unless it has no bytes to store. -/
theorem size_storeBytes {adr val : Expr} : ∀ {is : List Nat} {m m' : Term (.array 256 8)},
    is.foldlM (storeByte adr val) m = some m' → m.size + is.length ≤ m'.size := by
  intro is
  induction is with
  | nil =>
    intro m m' h
    cases h
    exact Nat.le_refl _
  | cons i is ih =>
    intro m m' h
    rw [List.foldlM_cons] at h
    obtain ⟨m₁, hstep, h⟩ := Option.bind_eq_some_iff.mp h
    have hlt := size_storeByte hstep
    have hle := ih h
    rw [List.length_cons]
    omega

theorem memStore_effect {adr val : Expr} (h : memStore z adr val s = some s') :
    Effect true false s s' := by
  unfold memStore at h
  split at h
  · obtain ⟨iadr, -, h⟩ := Option.bind_eq_some_iff.mp h
    obtain ⟨stk, hstk, h⟩ := Option.bind_eq_some_iff.mp h
    cases h
    have hlt := size_store hstk
    refine ⟨nofun, fun _ => ?_, fun _ => rfl⟩
    simp only [SymState.weight]
    omega
  · obtain ⟨size, hsize, h⟩ := Option.bind_eq_some_iff.mp h
    obtain ⟨memory, hmemory, h⟩ := Option.bind_eq_some_iff.mp h
    cases h
    have hlt := size_storeBytes hmemory
    -- a bit-vector has at least one bit, and so the loop one step
    have hpos : 0 < size := by
      unfold Lib.Expr.bvSize at hsize
      split at hsize
      · cases hsize
        exact Nat.succ_pos _
      · cases hsize
    rw [byteSteps, List.length_range'] at hlt
    refine ⟨nofun, fun _ => ?_, fun _ => rfl⟩
    simp only [SymState.weight]
    omega

/-- What holds of a result, if there is one. -/
def Ensures {α : Type} (m : Option α) (P : α → Prop) : Prop := ∀ a, m = some a → P a

theorem Ensures.bind {α β : Type} {m : Option α} {f : α → Option β} {P : β → Prop}
    (h : ∀ a, m = some a → Ensures (f a) P) : Ensures (m >>= f) P := by
  intro b hb
  obtain ⟨a, ha, hb⟩ := Option.bind_eq_some_iff.mp hb
  exact h a ha b hb

theorem Ensures.some {α : Type} {a : α} {P : α → Prop} (h : P a) : Ensures (some a) P := by
  intro b hb
  cases hb
  exact h

theorem Ensures.none {α : Type} {P : α → Prop} : Ensures (none : Option α) P := nofun

theorem bindLocal_effect (value : Expr) :
    Ensures (bindLocal ki r value) fun r' => Effect false false r.sym r'.sym := by
  unfold bindLocal
  split
  · exact Ensures.some (Effect.refl _)
  · exact Ensures.none

theorem storeResult_effect (arguments : List Expr) (index : Nat) (val : Expr) :
    Ensures (storeResult z arguments index val r) fun r' => Effect true false r.sym r'.sym :=
  Ensures.bind fun _ _ => Ensures.bind fun _ h => Ensures.some (memStore_effect h)

theorem execCall_effect (arguments : List Expr) (callee : Callee) :
    Ensures (execCall z ki arguments r callee) fun r' =>
      Effect callee.writesArrays false r.sym r'.sym := by
  cases callee with
  | callDataCopy =>
    refine Ensures.bind fun data _ => Ensures.bind fun offset _ => ?_
    split
    · refine Ensures.bind fun byte _ => Ensures.bind fun val _ => ?_
      exact storeResult_effect arguments 0 _
    · exact Ensures.none
  | storageLoad =>
    refine Ensures.bind fun adr _ => Ensures.bind fun sidx _ => Ensures.bind fun sval _ => ?_
    exact Ensures.bind fun sym h => Ensures.some (memStore_effect h)
  | storageStore =>
    refine Ensures.bind fun adr₀ _ => Ensures.bind fun sidx _ => Ensures.bind fun adr₁ _ => ?_
    refine Ensures.bind fun val _ => Ensures.bind fun storage h => Ensures.some ?_
    have hlt := size_store h
    refine ⟨nofun, fun _ => ?_, fun _ => rfl⟩
    simp only [SymState.weight]
    omega
  | bswapi256 => exact Ensures.bind fun v _ => bindLocal_effect v
  | getCallDataSize | getGasLeft => exact bindLocal_effect _
  | ignored | notEvaluated => exact Ensures.some (Effect.refl _)
  | indirect => exact Ensures.none
  | _ => exact storeResult_effect arguments _ _

/-- **One instruction.** -/
theorem execInst_effect (z : Simplifier Name) (r : Run) (ki : KInstruction) :
    Ensures (execInst z r ki) fun r' =>
      Effect ki.op.writesArrays ki.op.writesTarget r.sym r'.sym := by
  unfold execInst
  cases ki.op with
  | call callee =>
    have hcall : Ensures (do
        let arguments ← (List.range ki.operands.length).mapM fun j => evalOperand ki j r
        execCall z ki arguments r callee) fun r' => Effect callee.writesArrays false r.sym r'.sym :=
      Ensures.bind fun arguments _ => execCall_effect arguments callee
    cases callee with
    | notEvaluated => exact Ensures.some (Effect.refl _)
    | _ => exact hcall
  | select =>
    refine Ensures.bind fun cond _ => Ensures.bind fun tExpr _ => Ensures.bind fun fExpr _ => ?_
    exact Ensures.bind fun result _ => bindLocal_effect result
  | bin op =>
    refine Ensures.bind fun left _ => Ensures.bind fun right _ => ?_
    exact Ensures.bind fun result _ => bindLocal_effect result
  | icmp predicate =>
    refine Ensures.bind fun left _ => Ensures.bind fun right _ => ?_
    exact Ensures.bind fun result _ => bindLocal_effect result
  | alloca inst elementBytesSize =>
    dsimp only
    split
    · exact Ensures.none
    · exact bindLocal_effect _
  | load target elementbits =>
    cases target with
    | true => exact bindLocal_effect _
    | false => exact Ensures.bind fun base _ => Ensures.bind fun value _ => bindLocal_effect value
  | store target =>
    cases target with
    | true =>
      refine Ensures.bind fun value _ => Ensures.some ⟨fun _ => ⟨rfl, rfl, rfl⟩, nofun, nofun⟩
    | false =>
      refine Ensures.bind fun value _ => Ensures.bind fun base _ => ?_
      exact Ensures.bind fun sym h => Ensures.some (memStore_effect h)
  | getElementPtr indices offset =>
    refine Ensures.bind fun base _ => Ensures.bind fun _ _ => ?_
    exact Ensures.bind fun sum _ => bindLocal_effect sum
  | trunc w | zext w | intToPtr w | ptrToInt w | sext w =>
    exact Ensures.bind fun e _ => Ensures.bind fun result _ => bindLocal_effect result
  | bitCast => exact Ensures.bind fun result _ => bindLocal_effect result
  | insertValue | extractElement =>
    exact Ensures.bind fun _ _ => Ensures.bind fun _ _ => Ensures.some (Effect.refl _)
  | extractValue => exact Ensures.bind fun _ _ => Ensures.some (Effect.refl _)
  | insertElement =>
    refine Ensures.bind fun _ _ => Ensures.bind fun _ _ => Ensures.bind fun _ _ => ?_
    exact Ensures.some (Effect.refl _)
  | other => exact Ensures.some (Effect.refl _)

/-- The instructions of a block, by induction on those left. -/
theorem execBody_effect (z : Simplifier Name) : ∀ (body : List KInstruction) (r : Run),
    Ensures (body.foldlM (execInst z) r) fun r' =>
      Effect (body.any (·.op.writesArrays)) (body.any (·.op.writesTarget)) r.sym r'.sym := by
  intro body
  induction body with
  | nil => exact fun r => Ensures.some (Effect.refl _)
  | cons ki body ih =>
    intro r
    rw [List.foldlM_cons, List.any_cons, List.any_cons]
    refine Ensures.bind fun r₁ h₁ r' h => ?_
    exact (execInst_effect z r ki r₁ h₁).trans (ih r₁ r' h)

/-- **One block**: the effect of its instructions; the terminator adds its condition to the
constraints. -/
theorem symExec_effect (z : Simplifier Name) (numRegisters : Nat) (bb : SymBlock)
    (constraints : List Expr) (s : SymState) :
    Ensures (symExec z numRegisters bb constraints s) fun p =>
      Effect bb.writesArrays bb.writesTarget s p.2 ∧
        ∃ conds, p.1 = constraints ++ conds ∧ conds.length = bb.term.cond.toList.length := by
  refine Ensures.bind fun r hr => ?_
  have heffect := execBody_effect z bb.body _ r hr
  cases bb.term.cond with
  | none => exact Ensures.some ⟨heffect, [], (List.append_nil _).symm, rfl⟩
  | some operand => exact Ensures.bind fun cond _ => Ensures.some ⟨heffect, [cond], rfl, rfl⟩

end Effects

end EvmTrans.SEngine
