/-
# `EvmTrans.StackInputs` — the words a block takes from below are all there, and all needed.

`ctxDep` reads `InstrMap`, `compileBasicBlock` pops and pushes what its `switch` says, and the EVM
has a table of its own. §1 runs the EVM's heights over the instructions of a block: they get through
exactly from the heights that cover `m_stk_in`, and from `m_stk_in` they end at `m_stk_out`. §2
writes the `switch` over any implementation of the stack; with `GlobalStack` it is
`compileBasicBlock`, and with `checked` it stops where `GlobalStack` would make up a word. §3 shows
that it never stops.
-/
import EvmTrans.BlockSim
import EvmTrans.Decoders
import EvmTrans.Lib.Heights

namespace EvmTrans

open Lib (Effect runHeight tally runHeight_eq runHeight_isSome_iff positions)

/-! ## §1 — the heights of the EVM. -/

/-- The words that an instruction has to find on the stack. -/
def Instruction.needs : Instruction → Nat
  | .POP | .JUMP | .SUICIDE => 1
  | .JUMPI | .RETURN | .REVERT => 2
  | .DUP n => n
  | .SWAP n => n + 1
  | op => op.removed

/-- The height behind an instruction that finds them. -/
def Instruction.heightAfter (h : Nat) : Instruction → Nat
  | .PUSH _ | .PC | .DUP _ => h + 1
  | .POP | .JUMP | .SUICIDE => h - 1
  | .JUMPI | .RETURN | .REVERT => h - 2
  | .SWAP _ | .JUMPDEST | .STOP => h
  | op => h - op.removed + if op.adds then 1 else 0

/-- One instruction of the EVM, from a height; `none` is an underflow, or an opcode that is not
defined. -/
def Instruction.height (op : Instruction) (h : Nat) : Option Nat :=
  if op.isUndefined then none else if op.needs ≤ h then some (op.heightAfter h) else none

/-- The instructions at the given offsets, one after the other. -/
def runHeights (code : List Byte) : List Nat → Nat → Option Nat
  | [], h => some h
  | i :: is, h => ((instAt code i).height h).bind (runHeights code is)

variable {W : Type} {ops : Ops W} {code : List Byte} {bb : BasicBlock}

theorem height_of_le {op : Instruction} {h : Nat} (hdef : op.isUndefined = false)
    (hle : op.needs ≤ h) : op.height h = some (op.heightAfter h) := by
  unfold Instruction.height
  rw [hdef, if_neg Bool.false_ne_true, if_pos hle]

/-- The ordinary opcodes have one line of the table. -/
theorem height_ordinary {op : Instruction} (ho : op.ordinary = true) :
    op.isUndefined = false ∧ op.needs = op.removed ∧
      ∀ h, op.heightAfter h = h - op.removed + if op.adds then 1 else 0 := by
  cases op <;> first | exact ⟨rfl, rfl, fun _ => rfl⟩ | cases ho

/-- A step of the EVM has the height of the table behind it. -/
theorem evmStep_height {s s' : EvmSt W} (h : evmStep ops code s = .next s') :
    (instAt code s.pc).height s.stack.length = some s'.stack.length := by
  cases evmStep_cases h with
  | push hi => rw [hi]; rfl
  | jumpdest hi => rw [hi]; rfl
  | pc hi => rw [hi]; rfl
  | pop hi hs => rw [hi, hs]; exact height_of_le rfl (Nat.le_add_left 1 _)
  | jump hi hs hd => rw [hi, hs]; exact height_of_le rfl (Nat.le_add_left 1 _)
  | jumpiTaken hi hs hc hd => rw [hi, hs]; exact height_of_le rfl (Nat.le_add_left 2 _)
  | jumpiFall hi hs => rw [hi, hs]; exact height_of_le rfl (Nat.le_add_left 2 _)
  | @dup n v hi hv =>
    have hpos := instAt_dup_pos hi
    have hlt := (List.getElem?_eq_some_iff.mp hv).1
    have hle : n ≤ s.stack.length := by omega
    rw [hi]
    exact height_of_le rfl hle
  | @swap n a c hi ha hb =>
    have hlt := (List.getElem?_eq_some_iff.mp hb).1
    rw [hi]
    dsimp only
    rw [List.length_set, List.length_set]
    exact height_of_le rfl hlt
  | @ordinary v w hi hlen hx =>
    obtain ⟨hdef, hneeds, hafter⟩ := height_ordinary hi
    rw [height_of_le hdef (hneeds.trans_le hlen), hafter]
    dsimp only
    rw [List.length_append, List.length_drop, Nat.add_comm]
    congr 2
    split
    · rfl
    · rfl

/-- The EVM fails where the table has no height. -/
theorem evmStep_fail {s : EvmSt W} (h : (instAt code s.pc).height s.stack.length = none) :
    evmStep ops code s = .fail := by
  have hshort : ∀ {op : Instruction} {n : Nat}, op.height n = none →
      op.isUndefined = true ∨ n < op.needs := by
    intro op n hn
    unfold Instruction.height at hn
    split at hn
    · rename_i hu
      exact .inl hu
    · split at hn
      · cases hn
      · rename_i hle
        exact .inr (Nat.lt_of_not_le hle)
  have hneeds := hshort h
  by_cases ho : (instAt code s.pc).ordinary = true
  · obtain ⟨hdef, hremoved, -⟩ := height_ordinary ho
    rw [hdef, hremoved] at hneeds
    rw [evmStep_ordinary ops code s ho, if_pos (hneeds.resolve_left Bool.false_ne_true)]
  · unfold evmStep
    cases hi : instAt code s.pc with
    | UNDEFINED x => rfl
    | PUSH n | JUMPDEST | PC | STOP =>
      rw [hi] at hneeds
      exact absurd (hneeds.resolve_left Bool.false_ne_true) (Nat.not_lt_zero _)
    | POP | JUMP | SUICIDE =>
      rw [hi] at hneeds
      have hlen : s.stack.length < 1 := hneeds.resolve_left Bool.false_ne_true
      rw [List.length_eq_zero_iff.mp (Nat.lt_one_iff.mp hlen)]
    | JUMPI | RETURN | REVERT =>
      rw [hi] at hneeds
      have hlen : s.stack.length < 2 := hneeds.resolve_left Bool.false_ne_true
      rcases hs : s.stack with _ | ⟨d, _ | ⟨c, st⟩⟩
      · rfl
      · rfl
      · rw [hs, List.length_cons, List.length_cons] at hlen
        omega
    | DUP n =>
      rw [hi] at hneeds
      have hlen : s.stack.length < n := hneeds.resolve_left Bool.false_ne_true
      have hget : s.stack[n - 1]? = none := List.getElem?_eq_none (by omega)
      simp only [hget]
    | SWAP n =>
      rw [hi] at hneeds
      have hlen : s.stack.length < n + 1 := hneeds.resolve_left Bool.false_ne_true
      have hget : s.stack[n]? = none := List.getElem?_eq_none (by omega)
      simp only [hget]
      split
      · rename_i hnone
        cases hnone
      · rfl
    | _ => rw [hi] at ho; exact absurd rfl ho

/-- The entry of `InstrMap`. -/
def Instruction.effect (op : Instruction) : Effect := ⟨op.stkOut, op.stkIn⟩

/-- **`InstrMap` is the EVM's table**, for the opcodes that are defined. -/
theorem height_eq_effect {op : Instruction} (h : op.isUndefined = false) (n : Nat) :
    op.height n =
      if op.effect.takes ≤ n then some (n - op.effect.takes + op.effect.leaves) else none := by
  unfold Instruction.height
  rw [h, if_neg Bool.false_ne_true]
  cases op with
  | UNDEFINED x => cases h
  | DUP k =>
    show (if k ≤ n then some (n + 1) else none) = if k ≤ n then some (n - k + (k + 1)) else none
    split
    · congr 1
      omega
    · rfl
  | SWAP k =>
    show (if k + 1 ≤ n then some n else none) =
        if k + 1 ≤ n then some (n - (k + 1) + (k + 1)) else none
    split
    · congr 1
      omega
    · rfl
  | _ => rfl

theorem runHeights_eq : ∀ {is : List Nat}, (∀ i ∈ is, (instAt code i).isUndefined = false) → ∀ h,
    runHeights code is h = runHeight (is.map fun i => (instAt code i).effect) h := by
  intro is
  induction is with
  | nil => exact fun _ _ => rfl
  | cons i is ih =>
    intro hdef h
    obtain ⟨hi, his⟩ := List.forall_mem_cons.mp hdef
    unfold runHeights
    rw [height_eq_effect hi, List.map_cons, runHeight]
    split
    · exact ih his _
    · rfl

/-- `ctxDep` counts along the walk. -/
theorem ctxDepLoop_eq_tally {stop : Nat} :
    ∀ fuel it prev curr, ctxDepLoop code stop fuel it prev curr =
    tally ((positions (fun i => skipPushDataAndGetNext code i stop) stop fuel it).map
      fun i => (instAt code i).effect) (prev, curr) := by
  intro fuel
  induction fuel with
  | zero => exact fun _ _ _ => rfl
  | succ fuel ih =>
    intro it prev curr
    unfold ctxDepLoop positions
    split
    · rfl
    · rw [List.map_cons, tally]
      dsimp only
      split
      · rename_i hle
        exact (ih _ _ _).trans (if_pos hle).symm
      · rename_i hlt
        exact (ih _ _ _).trans (if_neg hlt).symm

/-- The two numbers of a block are the count over its instructions. -/
theorem GoodBlock.stk_eq_tally (hg : GoodBlock code bb) :
    (bb.stkIn, bb.stkOut) =
      tally ((blockInstrs code bb).map fun i => (instAt code i).effect) (0, 0) := by
  rw [hg.stk, ctxDep, ctxDepLoop_eq_tally, ← hg.positions_eq,
    positions_congr (nextInst code bb.endIdx)]
  · exact fun i hi => skipPushDataAndGetNext_eq hi
  · exact fun i _ => Nat.min_le_right _ _
  · exact hg.first_lt.le

/-- **The stack inputs are exact.** -/
theorem GoodBlock.runHeights_iff (hg : GoodBlock code bb)
    (hdef : ∀ i ∈ blockInstrs code bb, (instAt code i).isUndefined = false) :
    (∀ h, (runHeights code (blockInstrs code bb) h).isSome = true ↔ bb.stkIn ≤ h) ∧
      runHeights code (blockInstrs code bb) bb.stkIn = some bb.stkOut := by
  have htally := hg.stk_eq_tally
  refine ⟨fun h => ?_, ?_⟩
  · rw [runHeights_eq hdef, runHeight_isSome_iff, ← htally]
  · rw [runHeights_eq hdef, runHeight_eq, ← htally, if_pos le_rfl, Nat.sub_self, Nat.zero_add]

/-! ## §2 — the `switch`, over any stack. -/

/-- An implementation of the stack in a monad that also runs the builder. -/
structure StackOps (m : Type → Type) where
  pop : m Value
  push : Value → m Unit
  dup : Nat → m Unit
  swap : Nat → m Unit
  lift : ∀ {α : Type}, Build α → m α

/-- The translator's. -/
def globalStack : StackOps Build :=
  ⟨GlobalStack.pop, GlobalStack.push, GlobalStack.dup, GlobalStack.swap, id⟩

/-- The translator's, where it does not make up a word: with registers on, `pop` wants one register,
`dup` one at its index, and `swap` one at its index from the second. -/
def checked : StackOps (StateT Builder Option) where
  pop := fun b => if b.enableRegs ∧ b.locals = [] then none else some (GlobalStack.pop b)
  push v := fun b => some (GlobalStack.push v b)
  dup index := fun b => if b.enableRegs ∧
  b.locals.length ≤ index then none else some (GlobalStack.dup index b)
  swap index := fun b =>
    if b.enableRegs ∧ b.locals.length ≤ index + 1 then none else some (GlobalStack.swap index b)
  lift e := fun b => some (e b)

section Switch

variable {m : Type → Type} [Monad m]

/-- `n` calls of `stack.pop()`. -/
def popCallsNOver (S : StackOps m) : Nat → m (List Value)
  | 0 => return []
  | n + 1 => do
    let v ← S.pop
    let vs ← popCallsNOver S n
    return v :: vs

/-- The branch of an opcode that is neither a stack nor a control operation. -/
def compileOpcodeOver (S : StackOps m) (env : CompileEnv) (op : Instruction) : m Unit := do
  let args ← popCallsNOver S op.popCalls
  if op.pushCall then
    match env.fold op args with
    | some v => S.push v
    | none =>
      let r ← S.lift (emitReg (resultWidth op args) (.opcode · op args))
      S.push r
  else
    let _ ← S.lift (emitReg .i256 (.opcode · op args))
    return ()

/-- The `switch`, for an instruction without push data. -/
def compileInstOver (S : StackOps m) (env : CompileEnv) (bb : BasicBlock) (i : Nat) (next : Label)
    (it : Nat) (inst : Instruction) : m Unit :=
  match inst with
  | .POP => do
    let _ ← S.pop
    return ()
  | .DUP n => S.dup (n - 1)
  | .SWAP n => S.swap (n - 1)
  | .JUMP => do
    let idx ← S.pop
    S.lift do
      createStore idx .target
      setTerm (.br .jumpTable (some idx))
  | .JUMPI => do
    let idx ← S.pop
    let rawCond ← S.pop
    S.lift do
      let cond ← emitReg .i1 (.icmpNE · rawCond)
      createStore idx .target
      setTerm (.condBr cond .jumpTable next (some idx))
  | .JUMPDEST => S.lift (addCase bb.firstInstrIdx (.code i))
  | .PC => S.push (constWord it)
  | .CODESIZE => S.push (.const .i32 (BitVec.ofNat 256 (env.bytecode.length % 2 ^ 32)))
  | .RETURN => do
    let index ← S.pop
    let size ← S.pop
    S.lift do
      if env.retPC ≠ 0 ∧ env.rtWasmCode ≠ [] ∧ it = env.retPC then emit (.finishData env.rtWasmCode)
      else emit (.finish index size)
      setTerm (.br .exit none)
  | .REVERT => do
    let index ← S.pop
    let size ← S.pop
    S.lift do
      emit (.revert index size)
      setTerm (.br .exit none)
  | .SUICIDE => do
    let dest ← S.pop
    S.lift do
      emit (.selfDestruct dest)
      setTerm (.br .exit none)
  | .STOP => S.lift (setTerm (.br .exit none))
  | op => compileOpcodeOver S env op

/-- The loop of `compileBasicBlock` over `[it, end)`. -/
def compileBasicBlockLoopOver (S : StackOps m) (env : CompileEnv) (code : List Byte)
    (bb : BasicBlock) (i : Nat) (next : Label) : Nat → Nat → m Unit
  | 0, _ => return ()
  | fuel + 1, it =>
    if it = bb.endIdx then return ()
    else
      match instAt code it with
      | .PUSH _ => do
        let r := readPushData code it bb.endIdx
        S.push (.const .i256 r.1)
        compileBasicBlockLoopOver S env code bb i next fuel (r.2 + 1)
      | .UNDEFINED _ => S.lift (setTerm .unreachable)
      | inst => do
        compileInstOver S env bb i next it inst
        compileBasicBlockLoopOver S env code bb i next fuel (it + 1)

/-- `compileBasicBlock` over a stack. -/
def compileBasicBlockOver (S : StackOps m) (env : CompileEnv) (code : List Byte)
    (bb : BasicBlock) (i : Nat) (next : Label) : m Unit :=
  compileBasicBlockLoopOver S env code bb i next (bb.endIdx - bb.firstInstrIdx) bb.firstInstrIdx

end Switch

theorem popCallsNOver_globalStack : ∀ n, popCallsNOver globalStack n = popCallsN n := by
  intro n
  induction n with
  | zero => rfl
  | succ n ih =>
    unfold popCallsNOver popCallsN
    rw [ih]
    rfl

variable {env : CompileEnv} {i : Nat} {next : Label}

theorem compileInstOver_globalStack (it : Nat) (inst : Instruction) :
    compileInstOver globalStack env bb i next it inst = compileInst env bb i next it inst := by
  have hop : ∀ op, compileOpcodeOver globalStack env op = compileOpcode env op := by
    intro op
    unfold compileOpcodeOver compileOpcode
    rw [popCallsNOver_globalStack]
    rfl
  cases inst <;> first | rfl | exact hop _

/-- **Over `GlobalStack` it is `compileBasicBlock`.** -/
theorem compileBasicBlockOver_globalStack :
    compileBasicBlockOver globalStack env code bb i next =
      compileBasicBlock env code bb i next := by
  have hloop : ∀ fuel it, compileBasicBlockLoopOver globalStack env code bb i next fuel it =
      compileBasicBlockLoop env code bb i next fuel it := by
    intro fuel
    induction fuel with
    | zero => exact fun _ => rfl
    | succ fuel ih =>
      intro it
      unfold compileBasicBlockLoopOver compileBasicBlockLoop
      simp only [ih, compileInstOver_globalStack]
      rfl
  exact hloop _ _

/-! ## §3 — no word is made up. -/

/-- The checked emitter gets through, and does what the other one does. -/
def Through {α : Type} (m : StateT Builder Option α) (e : Build α) (b : Builder) : Prop :=
  m b = some (e b)

theorem Through.bind {α β : Type} {m : StateT Builder Option α} {e : Build α}
    {f : α → StateT Builder Option β} {g : α → Build β} {b : Builder} (h : Through m e b)
    (hf : Through (f (e b).1) (g (e b).1) (e b).2) : Through (m >>= f) (e >>= g) b := by
  show (m b).bind (fun p => f p.1 p.2) = _
  rw [h]
  exact hf

theorem Through.pure {α : Type} (a : α) (b : Builder) : Through (Pure.pure a) (Pure.pure a) b := rfl

theorem Through.lift {α : Type} (e : Build α) (b : Builder) : Through (checked.lift e) e b := rfl

theorem Through.push (v : Value) (b : Builder) :
    Through (checked.push v) (GlobalStack.push v) b := rfl

variable {b : Builder}

theorem Through.pop (h : 1 ≤ b.locals.length) : Through checked.pop GlobalStack.pop b := by
  refine if_neg ?_
  rintro ⟨-, hnil⟩
  rw [hnil] at h
  exact absurd h (Nat.not_succ_le_zero 0)

theorem Through.dup {n : Nat} (h : n < b.locals.length) :
    Through (checked.dup n) (GlobalStack.dup n) b :=
  if_neg fun hle => absurd hle.2 (Nat.not_le.mpr h)

theorem Through.swap {n : Nat} (h : n + 1 < b.locals.length) :
    Through (checked.swap n) (GlobalStack.swap n) b :=
  if_neg fun hle => absurd hle.2 (Nat.not_le.mpr h)

/-- A pop, and what comes behind it with a register less. -/
theorem Through.pop_bind {β : Type} {f : Value → StateT Builder Option β}
    {g : Value → Build β} {n : Nat} (hr : b.enableRegs = true) (h : n + 1 ≤ b.locals.length)
    (hf : ∀ v b', b'.enableRegs = true → n ≤ b'.locals.length → Through (f v) (g v) b') :
    Through (checked.pop >>= f) (GlobalStack.pop >>= g) b := by
  refine (Through.pop (by omega)).bind ?_
  rw [pop_regs hr]
  refine hf _ _ hr ?_
  rw [List.length_tail]
  omega

theorem Through.popCallsN : ∀ {n : Nat} {b : Builder}, b.enableRegs = true → n ≤ b.locals.length →
    Through (popCallsNOver checked n) (EvmTrans.popCallsN n) b := by
  intro n
  induction n with
  | zero => exact fun _ _ => rfl
  | succ n ih =>
    intro b hr h
    exact Through.pop_bind hr h fun v b' hr' h' => (ih hr' h').bind (.pure _ _)

theorem Through.opcode {op : Instruction} (hr : b.enableRegs = true)
    (h : op.popCalls ≤ b.locals.length) :
    Through (compileOpcodeOver checked env op) (compileOpcode env op) b := by
  refine (Through.popCallsN hr h).bind ?_
  generalize EvmTrans.popCallsN op.popCalls b = p
  split
  · cases env.fold op p.1 with
    | some v => exact .push _ _
    | none => exact (Through.lift _ _).bind (.push _ _)
  · exact (Through.lift _ _).bind (.pure _ _)

/-- **The switch finds its operands** where `InstrMap` says that they are. -/
theorem Through.inst {it : Nat} (hr : b.enableRegs = true)
    (hlen : (instAt code it).stkOut ≤ b.locals.length) :
    Through (compileInstOver checked env bb i next it (instAt code it))
      (compileInst env bb i next it (instAt code it)) b := by
  cases hi : instAt code it with
  | POP =>
    rw [hi] at hlen
    exact Through.pop_bind hr hlen fun v b' _ _ => .pure _ _
  | DUP n =>
    rw [hi] at hlen
    have hpos := instAt_dup_pos hi
    have hle : n ≤ b.locals.length := hlen
    exact .dup (by omega)
  | SWAP n =>
    rw [hi] at hlen
    have hpos := instAt_swap_pos hi
    have hle : n + 1 ≤ b.locals.length := hlen
    exact .swap (by omega)
  | JUMP | SUICIDE =>
    rw [hi] at hlen
    exact Through.pop_bind hr hlen fun v b' _ _ => .lift _ _
  | JUMPI | RETURN | REVERT =>
    rw [hi] at hlen
    exact Through.pop_bind hr hlen fun v b' hr' h' => Through.pop_bind hr' h'
      fun v b' _ _ => .lift _ _
  | JUMPDEST | PC | CODESIZE | STOP => rfl
  | _ =>
    rw [hi] at hlen
    refine Through.opcode hr ?_
    rw [(popCalls_eq_removed _).1]
    exact hlen

/-- The registers behind an opcode that the builder compiles. -/
theorem compileOpcode_length (hr : b.enableRegs = true) {op : Instruction} (ho : op.ordinary = true)
    (hlen : op.stkOut ≤ b.locals.length) :
    (compileOpcode env op b).2.locals.length + op.stkOut = b.locals.length + op.stkIn := by
  obtain ⟨hremoved, hin⟩ := removed_eq_stkOut ho
  obtain ⟨hpops, hpushes⟩ := popCalls_eq_removed op
  rw [compileOpcode_regs hr, opcodeBuilder, hin, ← hpushes]
  rw [hremoved, ← hpops] at hlen ⊢
  dsimp only
  split
  · split
    · rw [List.length_cons, List.length_drop]
      omega
    · rw [List.length_cons, List.length_drop]
      omega
  · rw [List.length_drop]
    omega

theorem length_tail_add_one {l : List Value} (h : 1 ≤ l.length) : l.tail.length + 1 = l.length := by
  rw [List.length_tail]
  omega

theorem length_tail_tail_add_two {l : List Value} (h : 2 ≤ l.length) :
    l.tail.tail.length + 2 = l.length := by
  rw [List.length_tail, List.length_tail]
  omega

/-- The registers behind an instruction, by `InstrMap`. -/
theorem compileInst_length {it : Nat} (hr : b.enableRegs = true)
    (hlen : (instAt code it).stkOut ≤ b.locals.length) (hpush : ∀ n, instAt code it ≠ .PUSH n)
    (hund : ∀ x, instAt code it ≠ .UNDEFINED x) :
    (compileInst env bb i next it (instAt code it) b).2.locals.length + (instAt code it).stkOut =
      b.locals.length + (instAt code it).stkIn := by
  by_cases ho : (instAt code it).ordinary = true
  · by_cases hc : instAt code it = .CODESIZE
    · rw [hc]
      show (GlobalStack.push _ b).2.locals.length + 0 = b.locals.length + 1
      rw [push_regs hr]
      rfl
    · rw [compileInst_ordinary ho hc]
      exact compileOpcode_length hr ho hlen
  · cases hi : instAt code it with
    | PUSH n => exact absurd hi (hpush n)
    | UNDEFINED x => exact absurd hi (hund x)
    | POP =>
      rw [hi] at hlen
      show (GlobalStack.pop b).2.locals.length + 1 = b.locals.length
      rw [pop_regs hr]
      exact length_tail_add_one hlen
    | DUP n =>
      show (GlobalStack.dup (n - 1) b).2.locals.length + n = b.locals.length + (n + 1)
      rw [dup_regs hr]
      dsimp only
      rw [List.length_cons]
      omega
    | SWAP n =>
      rw [hi] at hlen
      have hpos := instAt_swap_pos hi
      have hle : n + 1 ≤ b.locals.length := hlen
      show (GlobalStack.swap (n - 1) b).2.locals.length + (n + 1) = b.locals.length + (n + 1)
      rw [swap_regs hr, swapLocals]
      dsimp only
      rw [if_neg (by omega), List.length_set, List.length_set]
    | PC =>
      show (GlobalStack.push _ b).2.locals.length + 0 = b.locals.length + 1
      rw [push_regs hr]
      rfl
    | JUMPDEST | STOP => rfl
    | JUMP =>
      rw [hi] at hlen
      rw [compileInst_jump hr]
      exact length_tail_add_one hlen
    | SUICIDE =>
      rw [hi] at hlen
      rw [compileInst_suicide hr]
      exact length_tail_add_one hlen
    | JUMPI =>
      rw [hi] at hlen
      rw [compileInst_jumpi hr]
      exact length_tail_tail_add_two hlen
    | RETURN =>
      rw [hi] at hlen
      rw [compileInst_return hr]
      exact length_tail_tail_add_two hlen
    | REVERT =>
      rw [hi] at hlen
      rw [compileInst_revert hr]
      exact length_tail_tail_add_two hlen
    | _ =>
      rw [hi] at ho
      exact absurd rfl ho

theorem compileBasicBlockLoopOver_inst {m : Type → Type} [Monad m] (S : StackOps m) {fuel it : Nat}
    (hlt : it ≠ bb.endIdx) (hpush : ∀ n, instAt code it ≠ .PUSH n)
    (hund : ∀ x, instAt code it ≠ .UNDEFINED x) :
    compileBasicBlockLoopOver S env code bb i next (fuel + 1) it =
      compileInstOver S env bb i next it (instAt code it) >>= fun _ =>
        compileBasicBlockLoopOver S env code bb i next fuel (it + 1) := by
  conv_lhs => unfold compileBasicBlockLoopOver
  rw [if_neg hlt]
  split
  · rename_i n hn
    exact absurd hn (hpush n)
  · rename_i x hx
    exact absurd hx (hund x)
  · rfl

/-- Through the rest of a block, by induction on the bytes left: `Supply` is the invariant that ties
the registers to what `ctxDep` has counted. -/
theorem Through.loop : ∀ {fuel it : Nat} {b : Builder}, b.enableRegs = true → it ≤ bb.endIdx →
    (it < bb.endIdx → Supply code bb it b.locals.length) →
    Through (compileBasicBlockLoopOver checked env code bb i next fuel it)
      (compileBasicBlockLoop env code bb i next fuel it) b := by
  intro fuel
  induction fuel with
  | zero => exact fun _ _ _ => rfl
  | succ fuel ih =>
    intro it b hr hle hsup
    by_cases hend : it = bb.endIdx
    · unfold compileBasicBlockLoopOver compileBasicBlockLoop
      rw [if_pos hend, if_pos hend]
      exact .pure _ _
    · have hlt : it < bb.endIdx := by omega
      have hsup := hsup hlt
      have hops := hsup.operands hlt
      by_cases hpush : ∃ n, instAt code it = .PUSH n
      · obtain ⟨n, hn⟩ := hpush
        have hnext : (readPushData code it bb.endIdx).2 + 1 = min (instrEnd code it) bb.endIdx :=
          readPushData_snd hlt hn
        unfold compileBasicBlockLoopOver compileBasicBlockLoop
        rw [if_neg hend, if_neg hend, hn]
        refine (Through.push _ _).bind ?_
        rw [push_regs hr, hnext]
        refine ih hr (Nat.min_le_right _ _) fun _ => hsup.step hlt ?_
        rw [hn]
        rfl
      · have hpush : ∀ n, instAt code it ≠ .PUSH n := fun n hn => hpush ⟨n, hn⟩
        have hnext : it + 1 = min (instrEnd code it) bb.endIdx := by
          rw [instrEnd_of_ne_push hpush, Nat.min_eq_left hlt]
        by_cases hund : ∃ x, instAt code it = .UNDEFINED x
        · -- the loop ends here, whatever `ctxDep` counted behind
          obtain ⟨x, hx⟩ := hund
          unfold compileBasicBlockLoopOver compileBasicBlockLoop
          rw [if_neg hend, if_neg hend, hx]
          exact .lift _ _
        · have hund : ∀ x, instAt code it ≠ .UNDEFINED x := fun x hx => hund ⟨x, hx⟩
          show compileBasicBlockLoopOver checked env code bb i next (fuel + 1) it b = some _
          rw [compileBasicBlockLoop_inst hend hpush hund,
            compileBasicBlockLoopOver_inst checked hend hpush hund]
          have hrest : Through (compileBasicBlockLoopOver checked env code bb i next fuel (it + 1))
              (compileBasicBlockLoop env code bb i next fuel (it + 1))
              (compileInst env bb i next it (instAt code it) b).2 := by
            refine ih (compileInst_effect env bb i next hr it _).regs hlt fun _ => ?_
            rw [hnext]
            exact hsup.step hlt (compileInst_length hr hops hpush hund)
          exact Through.bind
            (f := fun _ => compileBasicBlockLoopOver checked env code bb i next fuel (it + 1))
            (g := fun _ => compileBasicBlockLoop env code bb i next fuel (it + 1))
            (Through.inst hr hops) hrest

/-- **Stack inputs.** In a block whose opcodes are all defined, `m_stk_in` is the least height from
which the EVM's instructions run without underflow, and `m_stk_out` the height they leave from it.
In every block, `compileBasicBlock` on `m_stk_in` registers never takes a branch that makes up a
word: the checked compilation gets through, with the same result. -/
theorem stackInputs_exact (code : List Byte) :
    (∀ bb ∈ createBasicBlocks code,
      (∀ i ∈ blockInstrs code bb, (instAt code i).isUndefined = false) →
      (∀ h, (runHeights code (blockInstrs code bb) h).isSome = true ↔ bb.stkIn ≤ h) ∧
        runHeights code (blockInstrs code bb) bb.stkIn = some bb.stkOut) ∧
    ∀ bb ∈ createBasicBlocks code, ∀ env i next (b : Builder), b.enableRegs = true →
      b.locals.length = bb.stkIn →
      compileBasicBlockOver checked env code bb i next b =
        some (compileBasicBlock env code bb i next b) := by
  have hgood : ∀ bb ∈ createBasicBlocks code, GoodBlock code bb := by
    intro bb hbb
    have hne : code ≠ [] := by
      rintro rfl
      exact absurd hbb List.not_mem_nil
    exact ((createBasicBlocks_loopSpec hne).good bb hbb).1
  refine ⟨fun bb hbb hdef => (hgood bb hbb).runHeights_iff hdef,
    fun bb hbb env i next b hr hlen => ?_⟩
  have hg := hgood bb hbb
  exact Through.loop hr hg.first_lt.le fun _ => hlen ▸ hg.supply

end EvmTrans
