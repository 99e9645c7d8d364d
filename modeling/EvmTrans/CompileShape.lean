/-
# `EvmTrans.CompileShape` — what a compiled block looks like.

Static facts about the emitters, true of every bytecode and every state of the machine. §1 puts the
register mode of `GlobalStack` in closed form. §2 says once what any instruction does to the
insertion point (`compileInst_effect`): every invariant of the loop is read off that. §3 walks the
loop: as long as the instructions are plain, the block stays open and its registers are defined. §4
is the end of a block, and what the closing instructions leave on the register stack (`Closed`).
-/
import EvmTrans.BlockPartition
import EvmTrans.CompileMain

namespace EvmTrans

/-! ## §1 — the register mode in closed form. -/

section Registers

variable {b : Builder}

theorem push_regs (h : b.enableRegs = true) (v : Value) :
    GlobalStack.push v b = ((), { b with locals := v :: b.locals }) := by
  show (if b.enableRegs = true then _ else _ : Build Unit) b = _
  rw [if_pos h]
  rfl

theorem pop_regs (h : b.enableRegs = true) :
    GlobalStack.pop b = (b.locals.headD (constWord 0), { b with locals := b.locals.tail }) := by
  show (if b.enableRegs = true then _ else _ : Build Value) b = _
  rw [if_pos h]
  rcases hl : b.locals with _ | ⟨v, vs⟩
  · show (constWord 0, b) = _
    rw [List.headD_nil, List.tail_nil, ← hl]
  · rfl

/-- The operands that `n` pops deliver, with the zeros of an empty stack. -/
def popped (n : Nat) (l : List Value) : List Value :=
  l.take n ++ List.replicate (n - l.length) (constWord 0)

theorem popCallsN_regs : ∀ (n : Nat) {b : Builder}, b.enableRegs = true →
    popCallsN n b = (popped n b.locals, { b with locals := b.locals.drop n }) := by
  intro n
  induction n with
  | zero =>
    intro b h
    simp [popCallsN, popped]
    rfl
  | succ n ih =>
    intro b h
    show (let p := GlobalStack.pop b; let q := popCallsN n p.2; (p.1 :: q.1, q.2)) = _
    rw [pop_regs h]
    dsimp only
    rw [ih (b := { b with locals := b.locals.tail }) h]
    rcases hl : b.locals with _ | ⟨v, vs⟩
    · simp [popped, List.replicate_succ]
    · simp [popped]

theorem dup_regs (h : b.enableRegs = true) (n : Nat) : GlobalStack.dup n b =
    ((), { b with locals := b.locals.getD n (constWord 0) :: b.locals }) := by
  show (if b.enableRegs = true then _ else _ : Build Unit) b = _
  rw [if_pos h]
  rfl

/-- `swap` on registers: the exchange, or zeros on top when the stack is too short. -/
def swapLocals (n : Nat) (l : List Value) : List Value :=
  if l.length ≤ n + 1 then List.replicate (n + 2 - l.length) (constWord 0) ++ l
  else (l.set (n + 1) (l.getD 0 (constWord 0))).set 0 (l.getD (n + 1) (constWord 0))

theorem swap_regs (h : b.enableRegs = true) (n : Nat) :
    GlobalStack.swap n b = ((), { b with locals := swapLocals n b.locals }) := by
  show (if b.enableRegs = true then _ else _ : Build Unit) b = _
  rw [if_pos h]
  unfold swapLocals
  split <;> rfl

/-- The branch of an opcode on registers: the operands are gone; the result is a folded value, or a
new register, or nothing. -/
def opcodeBuilder (env : CompileEnv) (op : Instruction) (b : Builder) : Builder :=
  let args := popped op.popCalls b.locals
  let rest := b.locals.drop op.popCalls
  if op.pushCall then
    match env.fold op args with
    | some v => { b with locals := v :: rest }
    | none =>
      { b with
        next := b.next + 1
        code := b.code ++ [.opcode b.next op args]
        locals := .reg (resultWidth op args) b.next :: rest }
  else { b with next := b.next + 1, code := b.code ++ [.opcode b.next op args], locals := rest }

theorem compileOpcode_regs (h : b.enableRegs = true) (env : CompileEnv) (op : Instruction) :
    compileOpcode env op b = ((), opcodeBuilder env op b) := by
  show (let p := popCallsN op.popCalls b
    (if op.pushCall = true then
      match env.fold op p.1 with
      | some v => GlobalStack.push v
      | none => emitReg (resultWidth op p.1) (.opcode · op p.1) >>= GlobalStack.push
    else emitReg .i256 (.opcode · op p.1) >>= fun _ => pure ()) p.2) = _
  rw [popCallsN_regs _ h]
  unfold opcodeBuilder
  split
  · cases hf : env.fold op (popped op.popCalls b.locals) with
    | some v =>
      simp only [hf]
      exact push_regs (b := { b with locals := b.locals.drop op.popCalls }) h v
    | none =>
      simp only [hf]
      exact push_regs (b := { b with
        next := b.next + 1
        code := b.code ++ [.opcode b.next op (popped op.popCalls b.locals)]
        locals := b.locals.drop op.popCalls }) h _
  · rfl

end Registers

/-! ## §2 — one instruction. -/

/-- The instruction reads `target`. -/
def Instr.loadsTarget : Instr → Bool
  | .load _ .target => true
  | _ => false

/-- The case that `JUMPDEST` adds for block `i`. -/
def caseFor (bb : BasicBlock) (i : Nat) : Word × Label :=
  (BitVec.ofNat 256 bb.firstInstrIdx, .code i)

section Values

variable {P : Value → Prop} {l : List Value}

/-- What holds of a stack and of the zero holds of the operands, of `dup` and of `swap`. -/
theorem forall_popped (h0 : P (constWord 0)) (h : ∀ v ∈ l, P v) (n : Nat) :
    ∀ v ∈ popped n l, P v := by
  intro v hv
  rcases List.mem_append.mp hv with hv | hz
  · exact h v (List.mem_of_mem_take hv)
  · rw [List.eq_of_mem_replicate hz]
    exact h0

theorem forall_getD (h0 : P (constWord 0)) (h : ∀ v ∈ l, P v) (n : Nat) :
    P (l.getD n (constWord 0)) := by
  rw [List.getD_eq_getElem?_getD]
  cases hl : l[n]? with
  | none => exact h0
  | some v => exact h v (List.mem_of_getElem? hl)

theorem forall_swapLocals (h0 : P (constWord 0)) (h : ∀ v ∈ l, P v) (n : Nat) :
    ∀ v ∈ swapLocals n l, P v := by
  intro v hv
  unfold swapLocals at hv
  split at hv
  · rcases List.mem_append.mp hv with hz | hl
    · rw [List.eq_of_mem_replicate hz]
      exact h0
    · exact h v hl
  · rcases List.mem_or_eq_of_mem_set hv with hv | rfl
    · rcases List.mem_or_eq_of_mem_set hv with hv | rfl
      · exact h v hv
      · exact forall_getD h0 h 0
    · exact forall_getD h0 h (n + 1)

end Values

/-- Where a value on the register stack of `b'` comes from, when `b` is one instruction earlier. -/
inductive Stacked (env : CompileEnv) (b b' : Builder) : Value → Prop
  | kept {v} (h : v ∈ b.locals) : Stacked env b b' v
  | const {w x} (h : w ≠ .i1) : Stacked env b b' (.const w x)
  | folded {op v} (h : env.fold op (popped op.popCalls b.locals) = some v) : Stacked env b b' v
  | result {op} (h : b.next < b'.next) :
    Stacked env b b' (.reg (resultWidth op (popped op.popCalls b.locals)) b.next)

/-- **What one instruction does** on registers: `cs` are the cases it adds to the jump table, and
only one that `closes` the block sets a terminator. -/
structure InstEffect (env : CompileEnv) (b b' : Builder) (cs : List (Word × Label))
    (closes : Bool) : Prop where
  regs : b'.enableRegs = true
  next_le : b.next ≤ b'.next
  stacked : ∀ v ∈ b'.locals, Stacked env b b' v
  cases : b'.cases = b.cases ++ cs
  term : closes = false → b'.term = b.term
  code : ∃ is, b'.code = b.code ++ is ∧ ∀ x ∈ is, x.loadsTarget = false

section Effect

variable {b b' : Builder} {env : CompileEnv} {bb : BasicBlock} {i : Nat} {next : Label}

theorem compileInst_jump (h : b.enableRegs = true) (it : Nat) :
    (compileInst env bb i next it .JUMP b).2 =
      { b with
        locals := b.locals.tail
        code := b.code ++ [.store (b.locals.headD (constWord 0)) .target]
        term := some (.br .jumpTable (some (b.locals.headD (constWord 0)))) } := by
  show (let p := GlobalStack.pop b
    (createStore p.1 .target >>= fun _ => setTerm (.br .jumpTable (some p.1))) p.2).2 = _
  rw [pop_regs h]
  rfl

/-- The condition is the second operand, compared with zero into a new register. -/
theorem compileInst_jumpi (h : b.enableRegs = true) (it : Nat) :
    (compileInst env bb i next it .JUMPI b).2 =
      { b with
        next := b.next + 1
        locals := b.locals.tail.tail
        code := b.code ++ [.icmpNE b.next (b.locals.tail.headD (constWord 0)),
          .store (b.locals.headD (constWord 0)) .target]
        term := some (.condBr (.reg .i1 b.next) .jumpTable next
          (some (b.locals.headD (constWord 0)))) } := by
  show (let p := GlobalStack.pop b
    let q := GlobalStack.pop p.2
    ((do
      let cond ← emitReg .i1 (.icmpNE · q.1)
      createStore p.1 .target
      setTerm (.condBr cond .jumpTable next (some p.1)) : Build Unit) q.2).2) = _
  rw [pop_regs h]
  dsimp only
  rw [pop_regs (b := { b with locals := b.locals.tail }) h]
  show Builder.mk _ ((b.code ++ [_]) ++ [_]) _ _ _ _ = _
  rw [List.append_assoc]
  rfl

/-- `RETURN`: two operands off the register stack, and one call of the host. -/
theorem compileInst_return (h : b.enableRegs = true) (it : Nat) :
    (compileInst env bb i next it .RETURN b).2 =
      { b with
        locals := b.locals.tail.tail
        code := b.code ++ [if env.retPC ≠ 0 ∧ env.rtWasmCode ≠ [] ∧ it = env.retPC then
          .finishData env.rtWasmCode
          else .finish (b.locals.headD (constWord 0)) (b.locals.tail.headD (constWord 0))]
        term := some (.br .exit none) } := by
  show (let p := GlobalStack.pop b
    let q := GlobalStack.pop p.2
    ((do
      if env.retPC ≠ 0 ∧ env.rtWasmCode ≠ [] ∧ it = env.retPC then emit (.finishData env.rtWasmCode)
      else emit (.finish p.1 q.1)
      setTerm (.br .exit none) : Build Unit) q.2).2) = _
  rw [pop_regs h]
  dsimp only
  rw [pop_regs (b := { b with locals := b.locals.tail }) h]
  split <;> rfl

theorem compileInst_revert (h : b.enableRegs = true) (it : Nat) :
    (compileInst env bb i next it .REVERT b).2 =
      { b with
        locals := b.locals.tail.tail
        code := b.code ++
          [.revert (b.locals.headD (constWord 0)) (b.locals.tail.headD (constWord 0))]
        term := some (.br .exit none) } := by
  show (let p := GlobalStack.pop b
    let q := GlobalStack.pop p.2
    ((do
      emit (.revert p.1 q.1)
      setTerm (.br .exit none) : Build Unit) q.2).2) = _
  rw [pop_regs h]
  dsimp only
  rw [pop_regs (b := { b with locals := b.locals.tail }) h]
  rfl

theorem compileInst_suicide (h : b.enableRegs = true) (it : Nat) :
    (compileInst env bb i next it .SUICIDE b).2 =
      { b with
        locals := b.locals.tail
        code := b.code ++ [.selfDestruct (b.locals.headD (constWord 0))]
        term := some (.br .exit none) } := by
  show (let p := GlobalStack.pop b
    ((do
      emit (.selfDestruct p.1)
      setTerm (.br .exit none) : Build Unit) p.2).2) = _
  rw [pop_regs h]
  rfl

/-- Instructions that only touch the register stack. -/
theorem InstEffect.rearranged (h : b.enableRegs = true) {l : List Value}
    (hl : ∀ v ∈ l, Stacked env b { b with locals := l } v) :
    InstEffect env b { b with locals := l } [] false :=
  ⟨h, Nat.le_refl _, hl, (List.append_nil _).symm, fun _ => rfl, [],
    (List.append_nil _).symm, by simp⟩

/-- Instructions that take operands off and append one instruction. -/
theorem InstEffect.appended (h : b.enableRegs = true) {n : Nat} {l : List Value} {x : Instr}
    (hn : b.next ≤ n)
    (hl : ∀ v ∈ l, Stacked env b { b with next := n, code := b.code ++ [x], locals := l } v)
    (hx : x.loadsTarget = false) :
    InstEffect env b { b with next := n, code := b.code ++ [x], locals := l } [] false :=
  ⟨h, hn, hl, (List.append_nil _).symm, fun _ => rfl, [x], rfl, by simpa using hx⟩

theorem opcodeBuilder_effect (h : b.enableRegs = true) (op : Instruction) :
    InstEffect env b (opcodeBuilder env op b) [] false := by
  have hrest : ∀ {b' : Builder}, ∀ v ∈ b.locals.drop op.popCalls, Stacked env b b' v :=
    fun v hv => .kept (List.mem_of_mem_drop hv)
  unfold opcodeBuilder
  dsimp only
  split
  · cases hf : env.fold op (popped op.popCalls b.locals) with
    | some v => exact .rearranged h (List.forall_mem_cons.mpr ⟨.folded hf, hrest⟩)
    | none =>
      exact .appended h (Nat.le_succ _)
        (List.forall_mem_cons.mpr ⟨.result (Nat.lt_succ_self _), hrest⟩) rfl
  · exact .appended h (Nat.le_succ _) hrest rfl

variable (env bb i next) in
/-- **The switch**, on any instruction. -/
theorem compileInst_effect (h : b.enableRegs = true) (it : Nat) (inst : Instruction) :
    InstEffect env b (compileInst env bb i next it inst b).2
      (if inst = .JUMPDEST then [caseFor bb i] else []) inst.endsBlock := by
  have hop : ∀ op, InstEffect env b (compileOpcode env op b).2 [] false := by
    intro op
    rw [compileOpcode_regs h]
    exact opcodeBuilder_effect h op
  have hzero : ∀ {b' : Builder}, Stacked env b b' (constWord 0) := .const Width.noConfusion
  have hkept : ∀ {b' : Builder}, ∀ v ∈ b.locals, Stacked env b b' v := fun v hv => .kept hv
  have htail : ∀ {b' : Builder}, ∀ v ∈ b.locals.tail, Stacked env b b' v :=
    fun v hv => .kept (List.mem_of_mem_tail hv)
  have htail₂ : ∀ {b' : Builder}, ∀ v ∈ b.locals.tail.tail, Stacked env b b' v :=
    fun v hv => .kept (List.mem_of_mem_tail (List.mem_of_mem_tail hv))
  have hnil : b.cases = b.cases ++ [] := (List.append_nil _).symm
  cases inst with
  | POP =>
    show InstEffect env b (GlobalStack.pop b).2 [] false
    rw [pop_regs h]
    exact .rearranged h htail
  | DUP n =>
    show InstEffect env b (GlobalStack.dup (n - 1) b).2 [] false
    rw [dup_regs h]
    exact .rearranged h (List.forall_mem_cons.mpr ⟨forall_getD hzero hkept _, hkept⟩)
  | SWAP n =>
    show InstEffect env b (GlobalStack.swap (n - 1) b).2 [] false
    rw [swap_regs h]
    exact .rearranged h (forall_swapLocals hzero hkept _)
  | PC | CODESIZE =>
    show InstEffect env b (GlobalStack.push _ b).2 [] false
    rw [push_regs h]
    exact .rearranged h (List.forall_mem_cons.mpr ⟨.const Width.noConfusion, hkept⟩)
  | JUMPDEST =>
    exact ⟨h, Nat.le_refl _, hkept, rfl, fun _ => rfl, [], (List.append_nil _).symm, by simp⟩
  | STOP => exact ⟨h, Nat.le_refl _, hkept, hnil, nofun, [], (List.append_nil _).symm, by simp⟩
  | JUMP =>
    rw [compileInst_jump h]
    exact ⟨h, Nat.le_refl _, htail, hnil, nofun, _, rfl, by simp [Instr.loadsTarget]⟩
  | JUMPI =>
    rw [compileInst_jumpi h]
    exact ⟨h, Nat.le_succ _, htail₂, hnil, nofun, _, rfl, by simp [Instr.loadsTarget]⟩
  | RETURN =>
    rw [compileInst_return h]
    refine ⟨h, Nat.le_refl _, htail₂, hnil, nofun, _, rfl, fun x hx => ?_⟩
    rw [List.mem_singleton.mp hx]
    split <;> rfl
  | REVERT =>
    rw [compileInst_revert h]
    exact ⟨h, Nat.le_refl _, htail₂, hnil, nofun, _, rfl, by simp [Instr.loadsTarget]⟩
  | SUICIDE =>
    rw [compileInst_suicide h]
    exact ⟨h, Nat.le_refl _, htail, hnil, nofun, _, rfl, by simp [Instr.loadsTarget]⟩
  | _ => exact hop _

theorem below_fold {op : Instruction} {args : List Value} {v : Value} {n : Nat}
    (hf : env.fold op args = some v) (ha : ∀ v ∈ args, v.below n) : v.below n := by
  rcases env.fold_mem hf with hm | ⟨w, x, rfl⟩
  · exact ha v hm
  · trivial

/-- Defined registers stay defined, and what is new is defined. -/
theorem InstEffect.below {cs : List (Word × Label)} {closes : Bool}
    (h : InstEffect env b b' cs closes) (hb : ∀ v ∈ b.locals, v.below b.next) :
    ∀ v ∈ b'.locals, v.below b'.next := by
  intro v hv
  cases h.stacked v hv with
  | kept hm => exact Value.below_mono (hb v hm) h.next_le
  | const => trivial
  | folded hf => exact Value.below_mono (below_fold hf (forall_popped trivial hb _)) h.next_le
  | result hlt => exact hlt

end Effect

/-! ## §3 — along the plain instructions of a block. -/

/-- An instruction after which the loop of `compileBasicBlock` goes on with an open block. -/
def Instruction.plain : Instruction → Bool
  | .UNDEFINED _ => false
  | i => !i.endsBlock

/-- The insertion point in the middle of a block: registers on, no terminator yet, and everything on
the register stack is defined. -/
structure Builder.Open (b : Builder) : Prop where
  regs : b.enableRegs = true
  term : b.term = none
  below : ∀ v ∈ b.locals, v.below b.next

section Walk

variable {b : Builder} {env : CompileEnv} {code : List Byte} {bb : BasicBlock} {i : Nat}
  {next : Label}

theorem below_constWord (n k : Nat) : (constWord k).below n := trivial

theorem Builder.Open.below_headD (h : b.Open) : (b.locals.headD (constWord 0)).below b.next := by
  rcases hl : b.locals with _ | ⟨v, vs⟩
  · trivial
  · exact h.below v (by rw [hl]; exact List.mem_cons_self)

theorem Builder.Open.below_second (h : b.Open) :
    (b.locals.tail.headD (constWord 0)).below b.next := by
  rcases hl : b.locals with _ | ⟨v, _ | ⟨u, us⟩⟩
  · trivial
  · trivial
  · exact h.below u (by rw [hl]; simp)

theorem Builder.Open.below_getD (h : b.Open) (n : Nat) :
    (b.locals.getD n (constWord 0)).below b.next :=
  forall_getD trivial h.below n

/-- One plain instruction keeps the block open; only `JUMPDEST` adds a case to the jump table. -/
structure Advance (b b' : Builder) (cs : List (Word × Label)) : Prop where
  isOpen : b'.Open
  next_le : b.next ≤ b'.next
  cases : b'.cases = b.cases ++ cs

theorem Builder.Open.below_drop (h : b.Open) (n : Nat) : ∀ v ∈ b.locals.drop n, v.below b.next :=
  fun v hv => h.below v (List.mem_of_mem_drop hv)

/-- New registers on an open block. -/
theorem Builder.Open.advance (h : b.Open) {l : List Value} (hl : ∀ v ∈ l, v.below b.next) :
    Advance b { b with locals := l } [] :=
  ⟨⟨h.regs, h.term, hl⟩, Nat.le_refl _, by simp⟩

/-- An instruction that does not close the block leaves it open. -/
theorem InstEffect.advance {b' : Builder} {cs : List (Word × Label)}
    (he : InstEffect env b b' cs false) (h : b.Open) : Advance b b' cs :=
  ⟨⟨he.regs, (he.term rfl).trans h.term, he.below h.below⟩, he.next_le, he.cases⟩

theorem opcodeBuilder_advance (h : b.Open) (op : Instruction) :
    Advance b (opcodeBuilder env op b) [] :=
  (opcodeBuilder_effect h.regs op).advance h

theorem endsBlock_of_plain {inst : Instruction} (hp : inst.plain = true) :
    inst.endsBlock = false := by
  cases inst <;> first | rfl | cases hp

theorem compileInst_advance (h : b.Open) {inst : Instruction} (hp : inst.plain = true) (it : Nat) :
    Advance b (compileInst env bb i next it inst b).2
      (if inst = .JUMPDEST then [caseFor bb i] else []) := by
  have he := compileInst_effect env bb i next h.regs it inst
  rw [endsBlock_of_plain hp] at he
  exact he.advance h

theorem Advance.trans {b' b'' : Builder} {cs cs' : List (Word × Label)} (h₁ : Advance b b' cs)
    (h₂ : Advance b' b'' cs') : Advance b b'' (cs ++ cs') :=
  ⟨h₂.isOpen, Nat.le_trans h₁.next_le h₂.next_le, by rw [h₂.cases, h₁.cases, List.append_assoc]⟩

/-- `it` is where the loop can stand: on an instruction of the block, or at its end. -/
def StandsAt (code : List Byte) (bb : BasicBlock) (it : Nat) : Prop :=
  (Boundary code it ∧ bb.firstInstrIdx ≤ it ∧ it < bb.endIdx) ∨ it = bb.endIdx

/-- Where the loop stands after the instruction at `it`. -/
theorem GoodBlock.standsAt_next (hg : GoodBlock code bb) {it : Nat} (hit : Boundary code it)
    (hf : bb.firstInstrIdx ≤ it) :
    StandsAt code bb (min (instrEnd code it) bb.endIdx) := by
  have hgt := lt_instrEnd code it
  by_cases h : instrEnd code it < bb.endIdx
  · rw [Nat.min_eq_left h.le]
    exact Or.inl ⟨hit.next (by have := hg.end_le; omega), by omega, h⟩
  · rw [Nat.min_eq_right (by omega)]
    exact Or.inr rfl

theorem pushBytes_of_ne_push {inst : Instruction} (h : ∀ n, inst ≠ .PUSH n) :
    inst.pushBytes = 0 := by
  cases inst <;> first | rfl | exact absurd rfl (h _)

/-- An instruction other than a push is one byte long. -/
theorem instrEnd_of_ne_push {it : Nat} (h : ∀ n, instAt code it ≠ .PUSH n) :
    instrEnd code it = it + 1 := by
  rw [instrEnd, pushBytes_of_ne_push h]

/-- The `switch` on an instruction that is neither a push nor undefined. -/
theorem compileBasicBlockLoop_inst {fuel it : Nat} (hlt : it ≠ bb.endIdx)
    (hpush : ∀ n, instAt code it ≠ .PUSH n) (hund : ∀ x, instAt code it ≠ .UNDEFINED x) :
    compileBasicBlockLoop env code bb i next (fuel + 1) it b =
      compileBasicBlockLoop env code bb i next fuel (it + 1)
        (compileInst env bb i next it (instAt code it) b).2 := by
  have hloop : compileBasicBlockLoop env code bb i next (fuel + 1) it =
      (compileInst env bb i next it (instAt code it) >>= fun _ =>
        compileBasicBlockLoop env code bb i next fuel (it + 1)) := by
    conv_lhs => unfold compileBasicBlockLoop
    rw [if_neg hlt]
    split
    · rename_i n hn
      exact absurd hn (hpush n)
    · rename_i x hx
      exact absurd hx (hund x)
    · rfl
  rw [hloop]
  rfl

/-- The `switch` on a push. -/
theorem compileBasicBlockLoop_push {fuel it n : Nat} (hlt : it < bb.endIdx)
    (hpush : instAt code it = .PUSH n) (hr : b.enableRegs = true) :
    compileBasicBlockLoop env code bb i next (fuel + 1) it b =
      compileBasicBlockLoop env code bb i next fuel (min (instrEnd code it) bb.endIdx)
        { b with locals := .const .i256 (readPushData code it bb.endIdx).1 :: b.locals } := by
  conv_lhs => unfold compileBasicBlockLoop
  rw [if_neg (Nat.ne_of_lt hlt), hpush, ← readPushData_snd hlt hpush]
  show (let p := GlobalStack.push _ b; compileBasicBlockLoop env code bb i next fuel _ p.2) = _
  rw [push_regs hr]

variable (env i next) in
/-- **One plain instruction of the loop.** -/
theorem compileBasicBlockLoop_step (h : b.Open) {it : Nat} (hlt : it < bb.endIdx)
    (hp : (instAt code it).plain = true) (fuel : Nat) :
    ∃ b', compileBasicBlockLoop env code bb i next (fuel + 1) it b =
        compileBasicBlockLoop env code bb i next fuel (min (instrEnd code it) bb.endIdx) b' ∧
      Advance b b' (if instAt code it = .JUMPDEST then [caseFor bb i] else []) := by
  by_cases hpush : ∃ n, instAt code it = .PUSH n
  · obtain ⟨n, hn⟩ := hpush
    refine ⟨_, compileBasicBlockLoop_push hlt hn h.regs, ?_⟩
    rw [hn, if_neg (by simp)]
    refine h.advance fun v hv => ?_
    rcases List.mem_cons.mp hv with rfl | hv
    · trivial
    · exact h.below v hv
  · have hpush : ∀ n, instAt code it ≠ .PUSH n := fun n hn => hpush ⟨n, hn⟩
    have hund : ∀ x, instAt code it ≠ .UNDEFINED x := by
      intro x hx
      rw [hx] at hp
      cases hp
    refine ⟨(compileInst env bb i next it (instAt code it) b).2, ?_, compileInst_advance h hp it⟩
    rw [instrEnd_of_ne_push hpush, Nat.min_eq_left hlt]
    exact compileBasicBlockLoop_inst (Nat.ne_of_lt hlt) hpush hund

variable (env i next) in
/-- **Along plain instructions** the loop arrives at `t` with an open block; the only case it can
have added is that of a `JUMPDEST` in front. -/
theorem compileBasicBlockLoop_reaches (hg : GoodBlock code bb) {t : Nat} (ht : StandsAt code bb t) :
    ∀ (fuel it : Nat) (b : Builder), b.Open → StandsAt code bb it → it ≤ t →
      bb.endIdx ≤ it + fuel →
      (∀ u, Boundary code u → it ≤ u → u < t → (instAt code u).plain = true) →
      ∃ fuel' b', compileBasicBlockLoop env code bb i next fuel it b =
          compileBasicBlockLoop env code bb i next fuel' t b' ∧ bb.endIdx ≤ t + fuel' ∧
        Advance b b' (if it < t ∧ it = bb.firstInstrIdx ∧ instAt code it = .JUMPDEST then
          [caseFor bb i] else []) := by
  intro fuel
  induction fuel with
  | zero =>
    -- no fuel left: the loop stands at the end of the block already
    intro it b hb hit hle hfuel hplain
    have hend : t ≤ bb.endIdx := by rcases ht with ⟨-, -, h⟩ | h <;> omega
    obtain rfl : it = t := by omega
    exact ⟨0, b, rfl, hfuel, by rw [if_neg (by omega)]; exact hb.advance hb.below⟩
  | succ fuel ih =>
    intro it b hb hit hle hfuel hplain
    by_cases heq : it = t
    · subst heq
      exact ⟨fuel + 1, b, rfl, hfuel, by rw [if_neg (by omega)]; exact hb.advance hb.below⟩
    · have hend : t ≤ bb.endIdx := by rcases ht with ⟨-, -, h⟩ | h <;> omega
      obtain ⟨hbd, hfirst, hlt⟩ : Boundary code it ∧ bb.firstInstrIdx ≤ it ∧ it < bb.endIdx := by
        rcases hit with h | h
        · exact h
        · omega
      have hgt := lt_instrEnd code it
      -- the next position does not jump over `t`
      have hnext : min (instrEnd code it) bb.endIdx ≤ t := by
        rcases ht with ⟨htb, -, -⟩ | rfl
        · have := hbd.instrEnd_le htb (by omega)
          omega
        · omega
      obtain ⟨b₁, hstep, hadv⟩ := compileBasicBlockLoop_step env i next hb hlt
        (hplain it hbd (Nat.le_refl _) (by omega)) fuel
      obtain ⟨fuel', b', hrec, hf', hadv'⟩ := ih _ b₁ hadv.isOpen (hg.standsAt_next hbd hfirst)
        hnext (by omega) fun u hu h1 h2 => hplain u hu (by omega) h2
      refine ⟨fuel', b', hstep.trans hrec, hf', ?_⟩
      rw [if_neg (by omega)] at hadv'
      have hcond : (it < t ∧ it = bb.firstInstrIdx ∧ instAt code it = .JUMPDEST) ↔
          instAt code it = .JUMPDEST :=
        ⟨fun h => h.2.2, fun h => ⟨by omega, hg.jumpDest_first it hbd hfirst hlt h, h⟩⟩
      have := hadv.trans hadv'
      rw [List.append_nil] at this
      simpa only [hcond] using this

/-! ## §4 — the end of a block. -/

theorem compileBasicBlockLoop_end (fuel : Nat) :
    compileBasicBlockLoop env code bb i next fuel bb.endIdx b = ((), b) := by
  cases fuel with
  | zero => rfl
  | succ fuel =>
    unfold compileBasicBlockLoop
    rw [if_pos rfl]
    rfl

/-- What the compilation of a body leaves behind, whatever instruction ended it. -/
structure Closed (b b' : Builder) (cs : List (Word × Label)) : Prop where
  below : ∀ v ∈ b'.locals, v.below b'.next
  next_le : b.next ≤ b'.next
  cases : b'.cases = b.cases ++ cs

theorem Advance.closed {b' : Builder} {cs : List (Word × Label)} (h : Advance b b' cs) :
    Closed b b' cs :=
  ⟨h.isOpen.below, h.next_le, h.cases⟩

theorem Advance.trans_closed {b' b'' : Builder} {cs : List (Word × Label)} (h₁ : Advance b b' cs)
    (h₂ : Closed b' b'' []) : Closed b b'' cs :=
  ⟨h₂.below, Nat.le_trans h₁.next_le h₂.next_le, by rw [h₂.cases, h₁.cases, List.append_nil]⟩

/-- A closing instruction takes its operands off and adds no case to the jump table. -/
theorem compileInst_closed (h : b.Open) {inst : Instruction} (hc : inst.endsBlock = true)
    (it : Nat) : Closed b (compileInst env bb i next it inst b).2 [] := by
  have he := compileInst_effect env bb i next h.regs it inst
  have hdest : inst ≠ .JUMPDEST := by
    rintro rfl
    cases hc
  rw [if_neg hdest] at he
  exact ⟨he.below h.below, he.next_le, he.cases⟩

end Walk

end EvmTrans
