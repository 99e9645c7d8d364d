/-
# `EvmTrans.StackBound` — which slots of `mstk` the emitted code touches.

`mstk` has 512 words and no bounds check; the EVM allows a stack of 1024. `accesses` lists the slots
a block reads or writes when it pops its inputs and spills its registers. The theorem of this module
says for which EVM runs they are all slots of the array, over the WHOLE run of the emitted code:

* a block finds the `m_stk_in` words that it takes off `mstk` when it is entered. A run that gets
  through a block has them; one that ends inside may not, because `ctxDep` also counts the code
  behind its end;
* where a block spills, at most 511 words are on the stack: slot 0 is never used;
* a run that executes past the last instruction finds no jump destination in the code. The emitted
  code does not stop there, and it would go on with a stack the EVM never has.

`Passes` is what one emitted block does in a run that keeps the first two; it leaves open what
happens behind the code.
-/
import EvmTrans.BlockHalts
import EvmTrans.Lib.Transition

namespace EvmTrans

open Lib (runFor Ends runFor_add_of_inl runFor_succ_of_inl runFor_succ_of_inr)

/-! ## §1 — the slots that a block touches. -/

section Accesses

variable {W : Type}

/-- The index into `mstk` of a load or a store. -/
def Instr.slot (s : St W) : Instr → Option Nat
  | .load _ (.mstk idx) | .store _ (.mstk idx) => some (idx.denote s.env).toNat
  | _ => none

/-- The indices at which a straight line of instructions reads or writes `mstk`, in the order of the
run. -/
def accesses (ops : Ops W) : List Instr → St W → List Nat
  | [], _ => []
  | i :: is, s =>
    (i.slot s).toList ++
      match execInstr ops i s with
      | .ok s' => accesses ops is s'
      | .error _ => []

/-- The indices of one execution of code block `i`. The helper blocks do not touch `mstk`. -/
def blockAccesses (ops : Ops W) (f : List IRBlock) (i : Nat) (s : St W) : List Nat :=
  match f.find? fun b => b.label == .code i with
  | some b => accesses ops b.code s
  | none => []

/-- **Every index of the run that starts in world `w` is one of `0 .. 511`.** -/
def StaysInMstk (ops : Ops W) (f : List IRBlock) (w : W) : Prop :=
  ∀ k i s, entryAt ops f w k = .ok (i, s) → ∀ n ∈ blockAccesses ops f i s, n < 512

variable {ops : Ops W}

variable (ops) in
/-- An instruction is undefined exactly when it leaves the array. -/
theorem execInstr_undefined_iff (x : Instr) (s : St W) :
    execInstr ops x s = .error .undefined ↔ ∃ n ∈ x.slot s, 512 ≤ n := by
  have hslot : ∀ idx : Value, (∃ n ∈ some (idx.denote s.env).toNat, 512 ≤ n) ↔
      ¬ (idx.denote s.env).toNat < 512 := by
    intro idx
    simp
  have hnone : ¬ ∃ n ∈ (none : Option Nat), 512 ≤ n := by simp
  cases x with
  | load d p =>
    cases p with
    | mstk idx =>
      simp only [Instr.slot, hslot, execInstr, St.read]
      by_cases hlt : (idx.denote s.env).toNat < 512
      · simp [hlt]
      · simp [hlt]
    | _ => exact iff_of_false (fun h => by cases h) hnone
  | store v p =>
    cases p with
    | mstk idx =>
      simp only [Instr.slot, hslot, execInstr, St.write]
      by_cases hlt : (idx.denote s.env).toNat < 512
      · simp [hlt]
      · simp [hlt]
    | _ => exact iff_of_false (fun h => by cases h) hnone
  | opcode d op args =>
    simp only [execInstr]
    split
    · exact iff_of_false (fun h => by cases h) hnone
    · exact iff_of_false (fun h => by cases h) hnone
  | _ => exact iff_of_false (fun h => by cases h) hnone

/-- **A line of code is undefined exactly when one of its accesses leaves the array.** -/
theorem execAll_undefined_iff : ∀ {is : List Instr} {s : St W},
    execAll ops is s = .error .undefined ↔ ∃ n ∈ accesses ops is s, 512 ≤ n := by
  intro is
  induction is with
  | nil => intro s; exact ⟨nofun, fun ⟨n, hn, _⟩ => absurd hn List.not_mem_nil⟩
  | cons x is ih =>
    intro s
    have hx := execInstr_undefined_iff ops x s
    unfold execAll accesses
    simp only [List.mem_append, Option.mem_toList, Option.mem_def, or_and_right, exists_or] at hx ⊢
    cases hstep : execInstr ops x s with
    | error e =>
      rw [hstep] at hx
      simpa using hx
    | ok s' =>
      rw [hstep] at hx
      have hno : ¬ ∃ n, x.slot s = some n ∧ 512 ≤ n := fun h => nomatch hx.mpr h
      simp only [hno, false_or]
      exact ih

/-- A block whose step is defined stays inside the array. -/
theorem blockAccesses_lt {f : List IRBlock} {i : Nat} {s : St W}
    (h : step ops f i s ≠ .error .undefined) : ∀ n ∈ blockAccesses ops f i s, n < 512 := by
  intro n hn
  unfold blockAccesses at hn
  split at hn
  · rename_i b hb
    by_contra hge
    have hrun : execAll ops b.code s = .error .undefined :=
      execAll_undefined_iff.mpr ⟨n, hn, Nat.le_of_not_lt hge⟩
    apply h
    simp only [step, runBlock, hb, hrun]
  · exact absurd hn List.not_mem_nil

end Accesses

/-! ## §2 — EVM runs. -/

section EvmRuns

variable {W : Type}

/-- The states of the EVM run that starts in world `w` with an empty stack. -/
def EvmReaches (ops : Ops W) (code : List Byte) (w : W) (e : EvmSt W) : Prop :=
  Relation.ReflTransGen (fun e e' => evmStep ops code e = .next e') ⟨0, [], w⟩ e

/-- **The EVM's limits**: no instruction lacks an operand, and the stack never holds more than 1024
words. -/
structure WithinLimits (ops : Ops W) (code : List Byte) (w : W) : Prop where
  operands : ∀ e, EvmReaches ops code w e → (instAt code e.pc).stkOut ≤ e.stack.length
  height : ∀ e, EvmReaches ops code w e → e.stack.length ≤ 1024

/-- The height of the stack that a block spills behind the instruction at `e`: when control goes on
to another block, or tries to, and behind `STOP` and undefined opcodes. -/
inductive SpillsAt (ops : Ops W) (code : List Byte) (e : EvmSt W) : Nat → Prop
  | leave {e'} (hstep : evmStep ops code e = .next e')
      (hto : BlockStart code e'.pc ∨ code.length ≤ e'.pc) : SpillsAt ops code e e'.stack.length
  | jump {d st} (hi : instAt code e.pc = .JUMP) (hs : e.stack = d :: st) :
      SpillsAt ops code e st.length
  | jumpi {d x st} (hi : instAt code e.pc = .JUMPI) (hs : e.stack = d :: x :: st) :
      SpillsAt ops code e st.length
  | stop (hi : instAt code e.pc = .STOP) : SpillsAt ops code e e.stack.length
  | undefined {y} (hi : instAt code e.pc = .UNDEFINED y) : SpillsAt ops code e e.stack.length

/-- **A run whose stack fits `mstk`**: each block finds its inputs, and spills at most 511 words. A
run that goes past the last instruction must find no jump destination in the code, or the emitted
code would go on (so a code such as `5b`, which the EVM stops behind, does not fit). -/
structure FitsMstk (ops : Ops W) (code : List Byte) (w : W) : Prop where
  inputs : ∀ e, EvmReaches ops code w e → ∀ bb ∈ createBasicBlocks code,
    bb.firstInstrIdx = e.pc → bb.stkIn ≤ e.stack.length
  spill : ∀ e, EvmReaches ops code w e → ∀ h, SpillsAt ops code e h → h ≤ 511
  runOff : ∀ e, EvmReaches ops code w e → code.length ≤ e.pc → ∀ d, isJumpDest code d = false

/-- **What the emitted blocks need** of the states `R` of a run: the operands of the next
instruction, the inputs of a block where one starts, and room for its spill. -/
structure KeepsLimits (ops : Ops W) (code : List Byte) (R : EvmSt W → Prop) : Prop where
  operands : ∀ e, R e → (instAt code e.pc).stkOut ≤ e.stack.length
  inputs : ∀ e, R e → ∀ bb ∈ createBasicBlocks code,
    bb.firstInstrIdx = e.pc → bb.stkIn ≤ e.stack.length
  spill : ∀ e, R e → ∀ h, SpillsAt ops code e h → h ≤ 511

variable {ops : Ops W} {code : List Byte} {w : W} {bb : BasicBlock} {i : Nat} {e e' e₁ : EvmSt W}
  {R : EvmSt W → Prop}

theorem EvmReaches.next (h : EvmReaches ops code w e) (hstep : evmStep ops code e = .next e') :
    EvmReaches ops code w e' :=
  Relation.ReflTransGen.tail h hstep

/-- `R` goes along with the plain instructions of a block. -/
def PlainClosed (ops : Ops W) (code : List Byte) (R : EvmSt W → Prop) : Prop :=
  ∀ e e', R e → (instAt code e.pc).plain = true → evmStep ops code e = .next e' → R e'

theorem evmReaches_plainClosed : PlainClosed ops code (EvmReaches ops code w) :=
  fun _ _ h _ hstep => h.next hstep

theorem keepsLimits_of_fits (hlim : WithinLimits ops code w) (hfit : FitsMstk ops code w) :
    KeepsLimits ops code (EvmReaches ops code w) where
  operands := hlim.operands
  inputs := hfit.inputs
  spill := hfit.spill

theorem stkIn_le_stkOut (op : Instruction) : op.stkIn ≤ op.stkOut + 1 := by
  cases op <;> simp [Instruction.stkIn, Instruction.stkOut]

/-- A stack of 510 words leaves room for one more instruction. -/
theorem spill_of_height (hheight : ∀ e, R e → e.stack.length ≤ 510) :
    ∀ e, R e → ∀ h, SpillsAt ops code e h → h ≤ 511 := by
  intro e hr h hspill
  have hle := hheight e hr
  cases hspill with
  | leave hstep =>
    have := (evmStep_cases hstep).height.2
    have := stkIn_le_stkOut (instAt code e.pc)
    omega
  | jump _ hs =>
    rw [hs, List.length_cons] at hle
    omega
  | jumpi _ hs =>
    rw [hs, List.length_cons, List.length_cons] at hle
    omega
  | stop => omega
  | undefined => omega

/-- One instruction of a run, or the state in which the run is over. -/
def evmMove (ops : Ops W) (code : List Byte) (e : EvmSt W) : EvmSt W ⊕ EvmSt W :=
  match evmStep ops code e with
  | .next e' => .inl e'
  | _ => .inr e

theorem evmMove_of_next (h : evmStep ops code e = .next e') : evmMove ops code e = .inl e' := by
  unfold evmMove
  rw [h]

theorem evmMove_of_over (h : ∀ e', evmStep ops code e ≠ .next e') :
    evmMove ops code e = .inr e := by
  unfold evmMove
  cases hstep : evmStep ops code e with
  | next e' => exact absurd hstep (h e')
  | _ => rfl

theorem EvmReaches.of_runFor {n : Nat} : ∀ {e : EvmSt W}, EvmReaches ops code w e →
    runFor (evmMove ops code) n e = .inl e' → EvmReaches ops code w e' := by
  induction n with
  | zero =>
    intro e hr h
    cases h
    exact hr
  | succ n ih =>
    intro e hr h
    cases hstep : evmStep ops code e with
    | next e₁ =>
      rw [runFor_succ_of_inl (evmMove_of_next hstep)] at h
      exact ih (hr.next hstep) h
    | _ =>
      have hover : ∀ e', evmStep ops code e ≠ .next e' := fun e' heq => by
        rw [hstep] at heq
        cases heq
      rw [runFor_succ_of_inr (evmMove_of_over hover)] at h
      cases h

theorem BlockTrace.exists_runFor (h : BlockTrace ops code bb e e₁) :
    ∃ n, runFor (evmMove ops code) n e = .inl e₁ := by
  induction h with
  | refl => exact ⟨0, rfl⟩
  | step hs _ _ _ ih =>
    obtain ⟨n, hn⟩ := ih
    exact ⟨n + 1, (runFor_succ_of_inl (evmMove_of_next hs.evmStep) n).trans hn⟩

/-- A trace and one more instruction. -/
theorem BlockTrace.exists_runFor_next (h : BlockTrace ops code bb e e₁)
    (hstep : StepCase ops code e₁ e') : ∃ n, runFor (evmMove ops code) (n + 1) e = .inl e' := by
  obtain ⟨n, hn⟩ := h.exists_runFor
  refine ⟨n, (runFor_add_of_inl hn 1).trans ?_⟩
  exact runFor_succ_of_inl (evmMove_of_next hstep.evmStep) 0

/-- A trace to where the run is over. -/
theorem BlockTrace.ends (h : BlockTrace ops code bb e e₁)
    (hover : ∀ e', evmStep ops code e₁ ≠ .next e') : Ends (evmMove ops code) e e₁ := by
  obtain ⟨n, hn⟩ := h.exists_runFor
  exact (Lib.ends_iff_of_runFor hn e₁).mpr (.of_step (evmMove_of_over hover))

/-- **How far a run gets inside a block**: to an instruction that it does not pass, or that is the
last. -/
theorem last_in_block (hnext : PlainClosed ops code R) (hr : R e) (hin : InBlock code bb e.pc) :
    ∃ e₁, R e₁ ∧ BlockTrace ops code bb e e₁ ∧ InBlock code bb e₁.pc ∧
      ((instAt code e₁.pc).plain = true → ∀ e', evmStep ops code e₁ = .next e' →
        ¬ InBlock code bb e'.pc) := by
  -- plain steps go forward, and the block is finite
  induction hn : bb.endIdx - e.pc using Nat.strongRecOn generalizing e with
  | _ n ih =>
    by_cases hgo : ∃ e', (instAt code e.pc).plain = true ∧ evmStep ops code e = .next e' ∧
        InBlock code bb e'.pc
    · obtain ⟨e', hp, hstep, hin'⟩ := hgo
      have hcase := evmStep_cases hstep
      have hpc := hcase.pc_of_plain hp
      have hgt := lt_instrEnd code e.pc
      have hlt := hin'.lt_end
      obtain ⟨e₁, hr₁, htrace, hin₁, hlast⟩ := ih _ (by omega) (hnext e e' hr hp hstep) hin' rfl
      exact ⟨e₁, hr₁, .step hcase hp hin' htrace, hin₁, hlast⟩
    · exact ⟨e, hr, .refl, hin, fun hp e' hstep hin' => hgo ⟨e', hp, hstep, hin'⟩⟩

/-- A plain instruction that has its operands and does not succeed is an opcode that fails. -/
theorem fails_of_plain (hp : (instAt code e.pc).plain = true)
    (hlen : (instAt code e.pc).stkOut ≤ e.stack.length)
    (hno : ∀ e', evmStep ops code e ≠ .next e') : (instAt code e.pc).ordinary = true ∧
      ops.exec (instAt code e.pc) (e.stack.take (instAt code e.pc).removed) e.world = none := by
  have hno : ∀ e', ¬ StepCase ops code e e' := fun e' h => hno e' h.evmStep
  by_cases ho : (instAt code e.pc).ordinary = true
  · refine ⟨ho, ?_⟩
    rw [(removed_eq_stkOut ho).1] at hlen
    cases hx : ops.exec (instAt code e.pc) (e.stack.take (instAt code e.pc).removed) e.world with
    | none => rfl
    | some r => exact absurd (.ordinary ho hlen hx) (hno _)
  · -- the stack instructions succeed on their operands
    exfalso
    cases hi : instAt code e.pc with
    | PUSH n => exact hno _ (.push hi)
    | JUMPDEST => exact hno _ (.jumpdest hi)
    | PC => exact hno _ (.pc hi)
    | POP =>
      rw [hi] at hlen
      obtain ⟨v, st, hs⟩ := List.exists_cons_of_length_pos hlen
      exact hno _ (.pop hi hs)
    | DUP n =>
      have hpos := instAt_dup_pos hi
      rw [hi] at hlen
      have hlen : n ≤ e.stack.length := hlen
      exact hno _ (.dup hi (List.getElem?_eq_getElem (show n - 1 < e.stack.length by omega)))
    | SWAP n =>
      rw [hi] at hlen
      have hlen : n + 1 ≤ e.stack.length := hlen
      exact hno _ (.swap hi (List.getElem?_eq_getElem (show 0 < e.stack.length by omega))
        (List.getElem?_eq_getElem (show n < e.stack.length by omega)))
    | _ =>
      rw [hi] at hp ho
      first
        | exact absurd rfl ho
        | exact absurd hp Bool.false_ne_true

end EvmRuns

/-! ## §3 — the run of the emitted code. -/

section Run

variable {W : Type} {ops : Ops W} {env : CompileEnv} {code : Bytecode} {calls : List Call} {w : W}
  {i : Nat} {s : St W} {e e₁ e' : EvmSt W}

/-- **What the emitted code reports** of a run that is over at `e`. Behind the code and at an
invalid destination it is in `Abort`; every other failure is a trap. -/
def reported (ops : Ops W) (env : CompileEnv) (code : List Byte) (e : EvmSt W) : Stop W :=
  match evmStep ops code e with
  | .halt o _ =>
    if code.length ≤ e.pc then .outcome (.revert []) e.world
    else .outcome (env.sent code e.pc o) e.world
  | _ =>
    if instAt code e.pc = .JUMP ∨ instAt code e.pc = .JUMPI then .outcome (.revert []) e.world
    else .trap

theorem reported_defined (ops : Ops W) (env : CompileEnv) (code : List Byte) (e : EvmSt W) :
    reported ops env code e ≠ .undefined := by
  unfold reported
  split <;> split <;> simp

theorem reported_halt {o : Outcome} {w' : W} (h : evmStep ops code.bytes e = .halt o w')
    (hlt : e.pc < code.bytes.length) :
    reported ops env code.bytes e = .outcome (env.sent code.bytes e.pc o) e.world := by
  unfold reported
  rw [h]
  exact if_neg (Nat.not_le.mpr hlt)

theorem reported_jump (h : evmStep ops code.bytes e = .fail)
    (hi : instAt code.bytes e.pc = .JUMP ∨ instAt code.bytes e.pc = .JUMPI) :
    reported ops env code.bytes e = .outcome (.revert []) e.world := by
  unfold reported
  rw [h]
  exact if_pos hi

theorem reported_fail (h : evmStep ops code.bytes e = .fail)
    (hi : ¬ (instAt code.bytes e.pc = .JUMP ∨ instAt code.bytes e.pc = .JUMPI)) :
    reported ops env code.bytes e = .trap := by
  unfold reported
  rw [h]
  exact if_neg hi

/-- **What the emitted block `i` does**, when the EVM is at `e`: it enters the block that the EVM
enters; it comes to `Test`, where the EVM runs off the end; it goes to `Abort`, because the EVM
jumps to a narrow constant; or both are at an end. -/
inductive Passes (ops : Ops W) (env : CompileEnv) (code : List Byte) (calls : List Call) (i : Nat)
    (s : St W) (e : EvmSt W) : Prop
  | enters {bb : BasicBlock} {e₁ e' : EvmSt W} {j : Nat} {s' : St W}
      (htrace : BlockTrace ops code bb e e₁) (hnext : StepCase ops code e₁ e')
      (hleave : leave ops (compileMain env code) i s = .ok (.code j, s'))
      (hat : AtEntry code calls j s' e') (ht : s'.target = targetAfter env code e₁ s.target)
      (hn : takesNarrow env code e₁ = false)
  | runsOff {bb : BasicBlock} {e₁ e' : EvmSt W} {r : St W}
      (htrace : BlockTrace ops code bb e e₁) (hnext : StepCase ops code e₁ e')
      (hoff : code.length ≤ e'.pc) (hleave : leave ops (compileMain env code) i s = .ok (.test, r))
      (hworld : r.world = e'.world) (hrep : RepStack r e'.stack)
      (ht : r.target = targetAfter env code e₁ s.target) (hn : takesNarrow env code e₁ = false)
  | narrow {bb : BasicBlock} {e₁ e' : EvmSt W}
      (htrace : BlockTrace ops code bb e e₁) (hnext : StepCase ops code e₁ e')
      (hstep : step ops (compileMain env code) i s = .error (.outcome (.revert []) e₁.world))
      (hn : takesNarrow env code e₁ = true)
  | ends {bb : BasicBlock} {e₁ : EvmSt W} (htrace : BlockTrace ops code bb e e₁)
      (hlt : e₁.pc < code.length) (hover : ∀ e', evmStep ops code e₁ ≠ .next e')
      (hstep : step ops (compileMain env code) i s = .error (reported ops env code e₁))

/-- The EVM halts behind a trace of the block. -/
theorem Passes.halts {bb : BasicBlock} (htrace : BlockTrace ops code.bytes bb e e₁)
    {o : Outcome} {w' : W} (hhalt : evmStep ops code.bytes e₁ = .halt o w')
    (hlt : e₁.pc < code.bytes.length) (hstep : step ops (compileMain env code.bytes) i s =
      .error (.outcome (env.sent code.bytes e₁.pc o) e₁.world)) :
    Passes ops env code.bytes calls i s e := by
  have hover : ∀ e', evmStep ops code.bytes e₁ ≠ .next e' := fun e' h => by
    rw [hhalt] at h
    cases h
  exact .ends htrace hlt hover ((reported_halt hhalt hlt).symm ▸ hstep)

/-- The EVM fails behind a trace of the block. -/
theorem Passes.fails {bb : BasicBlock} (htrace : BlockTrace ops code.bytes bb e e₁)
    (hlt : e₁.pc < code.bytes.length) (hfail : evmStep ops code.bytes e₁ = .fail) {x : Stop W}
    (hx : reported ops env code.bytes e₁ = x)
    (hstep : step ops (compileMain env code.bytes) i s = .error x) :
    Passes ops env code.bytes calls i s e := by
  have hover : ∀ e', evmStep ops code.bytes e₁ ≠ .next e' := fun e' h => by
    rw [hfail] at h
    cases h
  exact .ends htrace hlt hover (hx.symm ▸ hstep)

/-- **Over the last instruction of a block.** -/
theorem Call.Entered.passes (hops : SameOps ops env) (hf : FunctionSpec env code.bytes calls)
    {c : Call} (hc : c ∈ calls) (hent : c.Entered code.bytes (blockTable code.bytes) s e)
    (htrace : BlockTrace ops code.bytes c.bb e e₁) (hin₁ : InBlock code.bytes c.bb e₁.pc)
    (hend : c.bb.endIdx ≤ instrEnd code.bytes e₁.pc) (hstep : StepCase ops code.bytes e₁ e')
    (hheight : e'.stack.length ≤ 511)
    (hto : BlockStart code.bytes e'.pc ∨ code.bytes.length ≤ e'.pc) :
    Passes ops env code.bytes calls c.i s e := by
  rcases hto with hs | hoff
  · rcases hent.stepsTo hops hf hc htrace hin₁ hend hstep hheight hs with
      ⟨j, s', hj, hat, ht, hn⟩ | ⟨hrev, hn⟩
    · exact .enters htrace hstep hj hat ht hn
    · exact .narrow htrace hstep hrev hn
  · obtain ⟨r, hleave, hworld, hrep, ht, hn⟩ :=
      hent.leave_test hops hf hc htrace hin₁ hend hstep hheight hoff
    exact .runsOff htrace hstep hoff hleave hworld hrep ht hn

/-- **One block of the emitted run**, whatever its last instruction is. -/
theorem AtEntry.passes {R : EvmSt W → Prop} (hops : SameOps ops env)
    (hf : FunctionSpec env code.bytes calls) (hnext : PlainClosed ops code.bytes R)
    (hkeep : KeepsLimits ops code.bytes R) (hat : AtEntry code.bytes calls i s e) (hr : R e) :
    Passes ops env code.bytes calls i s e := by
  obtain ⟨c, hc, rfl, hcb, hpc, hin, hent⟩ := hat.entered hf
  have hg := blockTable_good code.ne hcb
  -- the inputs of the block are on the stack
  obtain ⟨b₀, hb₀, hshape⟩ := (blockTable_edgeInv code.ne).getElem? hcb
  have hinputs := hkeep.inputs e hr b₀ (List.mem_of_getElem? hb₀)
    ((BasicBlock.first_eq hshape).symm.trans hpc.symm)
  have hent := hent ((BasicBlock.stkIn_eq hshape).le.trans hinputs)
  obtain ⟨e₁, hr₁, htrace, hin₁, hlast⟩ := last_in_block hnext hr hin
  have hops₁ := hkeep.operands e₁ hr₁
  have hspill := hkeep.spill e₁ hr₁
  have hlt₁ := hin₁.boundary.1
  -- a last instruction that falls through arrives at a block start, or behind the code
  have hfall : (instAt code.bytes e₁.pc).kills = false →
      ¬ InBlock code.bytes c.bb (instrEnd code.bytes e₁.pc) →
      c.bb.endIdx ≤ instrEnd code.bytes e₁.pc ∧ (BlockStart code.bytes (instrEnd code.bytes e₁.pc) ∨
        code.bytes.length ≤ instrEnd code.bytes e₁.pc) := by
    intro hk hout
    rcases stay_or_leave code.ne hcb hin₁ hk with hstay | hoff | ⟨heq, hs⟩
    · exact absurd hstay hout
    · exact ⟨Nat.le_trans hg.end_le hoff, Or.inr hoff⟩
    · exact ⟨heq.ge, Or.inl (heq ▸ hs)⟩
  have hleaves : (instAt code.bytes e₁.pc).endsBlock = true →
      instrEnd code.bytes e₁.pc = c.bb.endIdx :=
    hg.ends_last _ hin₁.boundary hin₁.first_le hin₁.lt_end
  by_cases hp : (instAt code.bytes e₁.pc).plain = true
  · by_cases hstep : ∃ e', evmStep ops code.bytes e₁ = .next e'
    · obtain ⟨e', hstep⟩ := hstep
      have hcase := evmStep_cases hstep
      have hpc' := hcase.pc_of_plain hp
      obtain ⟨hend, hto⟩ := hfall (kills_of_plain hp) (hpc' ▸ hlast hp e' hstep)
      have hto : BlockStart code.bytes e'.pc ∨ code.bytes.length ≤ e'.pc := hpc' ▸ hto
      exact hent.passes hops hf hc htrace hin₁ hend hcase (hspill _ (.leave hstep hto)) hto
    · obtain ⟨ho, hx⟩ := fails_of_plain hp hops₁ fun e' h => hstep ⟨e', h⟩
      have hfail : evmStep ops code.bytes e₁ = .fail := by
        rw [evmStep_ordinary ops code.bytes e₁ ho, hx, ite_self]
      refine .fails htrace hlt₁ hfail (reported_fail hfail fun hj => ?_)
        (hent.ends_fail hops hf hc htrace hin₁ ho hx)
      rcases hj with hj | hj <;> rw [hj] at ho <;> cases ho
  · cases hi : instAt code.bytes e₁.pc with
    | JUMP =>
      rw [hi] at hops₁ hleaves
      obtain ⟨d, st, hs⟩ := List.exists_cons_of_length_pos hops₁
      by_cases hd : isJumpDest code.bytes d.toNat = true
      · exact hent.passes hops hf hc htrace hin₁ (hleaves rfl).ge (.jump hi hs hd)
          (hspill _ (.jump hi hs)) (Or.inl (blockStart_of_isJumpDest code.ne hd))
      · have hfail : evmStep ops code.bytes e₁ = .fail := by
          simp only [evmStep, hi, hs, if_neg hd]
        exact .fails htrace hlt₁ hfail (reported_jump hfail (Or.inl hi))
          (hent.ends_jump hops hf hc htrace hin₁ (Bool.eq_false_iff.mpr hd)
            (hspill _ (.jump hi hs)) hi hs)
    | JUMPI =>
      rw [hi] at hops₁ hleaves
      obtain ⟨d, x, st, hs⟩ := exists_two_of_length hops₁
      by_cases hx : x = 0
      · subst hx
        have hone : instrEnd code.bytes e₁.pc = e₁.pc + 1 := instrEnd_of_ne_push (by simp [hi])
        obtain ⟨hend, hto⟩ := hfall (by rw [hi]; rfl) fun hin₂ => by
          have := hin₂.lt_end
          have := hleaves rfl
          omega
        exact hent.passes hops hf hc htrace hin₁ hend (.jumpiFall hi hs) (hspill _ (.jumpi hi hs))
          (hone ▸ hto)
      · by_cases hd : isJumpDest code.bytes d.toNat = true
        · exact hent.passes hops hf hc htrace hin₁ (hleaves rfl).ge
            (.jumpiTaken hi hs hx hd) (hspill _ (.jumpi hi hs))
            (Or.inl (blockStart_of_isJumpDest code.ne hd))
        · have hfail : evmStep ops code.bytes e₁ = .fail := by
            simp only [evmStep, hi, hs, if_neg hx, if_neg hd]
          exact .fails htrace hlt₁ hfail (reported_jump hfail (Or.inr hi))
            (hent.ends_jumpi hops hf hc htrace hin₁ (Bool.eq_false_iff.mpr hd)
              (hspill _ (.jumpi hi hs)) hi hs hx)
    | STOP =>
      have hhalt : evmStep ops code.bytes e₁ = .halt (.finish []) e₁.world := by
        rw [evmStep, hi]
      have hsent : env.sent code.bytes e₁.pc (.finish []) = .finish [] :=
        if_neg fun h => by rw [hi] at h; cases h.1
      refine .halts htrace hhalt hlt₁ ?_
      rw [hsent]
      exact hent.ends_stop hops hf hc htrace hin₁ hi (hspill _ (.stop hi))
    | UNDEFINED y =>
      have hfail : evmStep ops code.bytes e₁ = .fail := by
        rw [evmStep, hi]
      refine .fails htrace hlt₁ hfail (reported_fail hfail fun hj => ?_)
        (hent.ends_undefined hops hf hc htrace hin₁ hi (hspill _ (.undefined hi)))
      rcases hj with hj | hj <;> rw [hi] at hj <;> cases hj
    | RETURN =>
      rw [hi] at hops₁
      obtain ⟨off, size, st, hs⟩ := exists_two_of_length hops₁
      have hhalt :
          evmStep ops code.bytes e₁ = .halt (.finish (ops.output e₁.world off size)) e₁.world := by
        simp only [evmStep, hi, hs]
      exact .halts htrace hhalt hlt₁ (hent.ends_halt hops hf hc htrace hin₁ (Or.inl hi) hhalt)
    | REVERT =>
      rw [hi] at hops₁
      obtain ⟨off, size, st, hs⟩ := exists_two_of_length hops₁
      have hhalt :
          evmStep ops code.bytes e₁ = .halt (.revert (ops.output e₁.world off size)) e₁.world := by
        simp only [evmStep, hi, hs]
      exact .halts htrace hhalt hlt₁
        (hent.ends_halt hops hf hc htrace hin₁ (Or.inr (Or.inl hi)) hhalt)
    | SUICIDE =>
      rw [hi] at hops₁
      obtain ⟨dest, st, hs⟩ := List.exists_cons_of_length_pos hops₁
      have hhalt : evmStep ops code.bytes e₁ = .halt (.selfDestruct dest) e₁.world := by
        simp only [evmStep, hi, hs]
      exact .halts htrace hhalt hlt₁
        (hent.ends_halt hops hf hc htrace hin₁ (Or.inr (Or.inr hi)) hhalt)
    | _ =>
      rw [hi] at hp
      exact absurd rfl hp

/-- Where the emitted code goes from the entry of block `i`, when the EVM is at `e`: to the entry of
a block that the EVM comes to, or to the end that the EVM comes to. Or it takes a valid destination
for an invalid one, because it is a constant of less than 256 bits. -/
inductive Follows (ops : Ops W) (env : CompileEnv) (code : List Byte) (calls : List Call) (i : Nat)
    (s : St W) (e : EvmSt W) : Prop
  | enters {j : Nat} {s' : St W} {e' : EvmSt W} {n : Nat}
      (hstep : step ops (compileMain env code) i s = .ok (j, s'))
      (hrun : runFor (evmMove ops code) (n + 1) e = .inl e') (hat : AtEntry code calls j s' e')
  | ends {e₁ : EvmSt W} (hends : Ends (evmMove ops code) e e₁)
      (hstep : step ops (compileMain env code) i s = .error (reported ops env code e₁))
  | narrow {w : W} (hstep : step ops (compileMain env code) i s = .error (.outcome (.revert []) w))
      (hnarrow : ∃ b ∈ compileMain env code, ¬ b.WideDest)

/-- **One block of a run that fits**: behind the code the jump table has no case, and both are at an
end. -/
theorem AtEntry.follows (hops : SameOps ops env) (hf : FunctionSpec env code.bytes calls)
    (hlim : WithinLimits ops code.bytes w) (hfit : FitsMstk ops code.bytes w)
    (hat : AtEntry code.bytes calls i s e) (hr : EvmReaches ops code.bytes w e) :
    Follows ops env code.bytes calls i s e := by
  cases hat.passes hops hf evmReaches_plainClosed (keepsLimits_of_fits hlim hfit) hr with
  | enters htrace hnext hleave hat' _ _ =>
    obtain ⟨n, hrun⟩ := htrace.exists_runFor_next hnext
    exact .enters (step_of_leave hleave) hrun hat'
  | narrow _ _ hstep hn => exact .narrow hstep (not_wideDest_of_takesNarrow hn)
  | ends htrace _ hover hstep => exact .ends (htrace.ends hover) hstep
  | @runsOff bb e₁ e' r htrace hnext hoff hleave hworld _ _ _ =>
    obtain ⟨n, hrun⟩ := htrace.exists_runFor_next hnext
    have hstop : evmStep ops code.bytes e' = .halt (.finish []) e'.world := by
      rw [evmStep, instAt_of_length_le hoff]
    have hover : ∀ e'', evmStep ops code.bytes e' ≠ .next e'' := fun e'' h => by
      rw [hstop] at h
      cases h
    refine .ends ((Lib.ends_iff_of_runFor hrun e').mpr (.of_step (evmMove_of_over hover))) ?_
    rw [step_of_leave_test_abort hf hleave (hfit.runOff e' (hr.of_runFor hrun) hoff _),
      hworld, reported, hstop]
    exact congrArg Except.error (if_pos hoff).symm

/-- Where the emitted code goes from the entry of block `i`: to the entry of a block in a state that
the EVM reaches too, or to the end of the run. -/
def Proceeds (ops : Ops W) (env : CompileEnv) (code : List Byte) (calls : List Call)
    (w : W) (i : Nat) (s : St W) : Prop :=
  (∃ j s' e', step ops (compileMain env code) i s = .ok (j, s') ∧ EvmReaches ops code w e' ∧
    AtEntry code calls j s' e') ∨
  EndsRun ops env code i s

theorem AtEntry.proceeds (hops : SameOps ops env) (hf : FunctionSpec env code.bytes calls)
    (hlim : WithinLimits ops code.bytes w) (hfit : FitsMstk ops code.bytes w)
    (hat : AtEntry code.bytes calls i s e) (hr : EvmReaches ops code.bytes w e) :
    Proceeds ops env code.bytes calls w i s := by
  cases hat.follows hops hf hlim hfit hr with
  | enters hstep hrun hat' => exact Or.inl ⟨_, _, _, hstep, hr.of_runFor hrun, hat'⟩
  | ends _ hstep => exact Or.inr ⟨_, hstep, reported_defined ops env code.bytes _⟩
  | narrow hstep _ => exact Or.inr ⟨_, hstep, by simp⟩

/-- Every entry of the emitted run is one that the EVM makes. -/
theorem atEntry_of_fits (hops : SameOps ops env) (hf : FunctionSpec env code.bytes calls)
    (hlim : WithinLimits ops code.bytes w) (hfit : FitsMstk ops code.bytes w) :
    ∀ (k i : Nat) (s : St W), entryAt ops (compileMain env code.bytes) w k = .ok (i, s) →
      ∃ e, EvmReaches ops code.bytes w e ∧ AtEntry code.bytes calls i s e := by
  intro k
  induction k with
  | zero =>
    intro i s hk
    rw [entryAt_zero hf] at hk
    cases hk
    exact ⟨⟨0, [], w⟩, Relation.ReflTransGen.refl, atEntry_init hf⟩
  | succ k ih =>
    intro i s hk
    unfold entryAt at hk
    cases hprev : entryAt ops (compileMain env code.bytes) w k with
    | error x =>
      rw [hprev] at hk
      cases hk
    | ok r =>
      obtain ⟨i₀, s₀⟩ := r
      obtain ⟨e, hr, hat⟩ := ih i₀ s₀ hprev
      rw [hprev] at hk
      have hk : step ops (compileMain env code.bytes) i₀ s₀ = .ok (i, s) := hk
      rcases hat.proceeds hops hf hlim hfit hr with ⟨j, s', e', hj, hr', hat'⟩ | ⟨x, hx, -⟩
      · rw [hj] at hk
        cases hk
        exact ⟨e', hr', hat'⟩
      · rw [hx] at hk
        cases hk

end Run

/-- **The emitted code stays inside `mstk`** in every run that keeps the EVM's limits and fits: each
time it enters a block, every index at which the block reads or writes the array is one of
`0 .. 511`. -/
theorem stays_in_mstk_of_fits {W : Type} (ops : Ops W) (env : CompileEnv) (hops : SameOps ops env)
    (code : Bytecode) (w : W) (hlim : WithinLimits ops code.bytes w)
    (hfit : FitsMstk ops code.bytes w) : StaysInMstk ops (compileMain env code.bytes) w := by
  obtain ⟨calls, hf⟩ := compileMain_spec env code.ne
  intro k i s hk
  obtain ⟨e, hr, hat⟩ := atEntry_of_fits hops hf hlim hfit k i s hk
  apply blockAccesses_lt
  rcases hat.proceeds hops hf hlim hfit hr with ⟨j, s', e', hj, -⟩ | ⟨x, hx, hdef⟩
  · rw [hj]
    exact nofun
  · rw [hx]
    exact fun h => hdef (Except.error.inj h)

/-! `PUSH1 7; PUSH1 5; JUMP; JUMPDEST; STOP`, with a word on the stack when it jumps. -/

def jumpStop : Bytecode where
  bytes := [0x60, 0x07, 0x60, 0x05, 0x56, 0x5b, 0x00]
  ne := by simp
  lt := by decide

theorem jumpStop_reaches {e : EvmSt Unit}
    (h : EvmReaches (trivialOps jumpStop.bytes) jumpStop.bytes () e) :
    e = ⟨0, [], ()⟩ ∨ e = ⟨2, [7], ()⟩ ∨ e = ⟨4, [5, 7], ()⟩ ∨ e = ⟨5, [7], ()⟩ ∨
    e = ⟨6, [7], ()⟩ := by
  induction h with
  | refl => exact Or.inl rfl
  | tail _ hstep ih =>
    rcases ih with rfl | rfl | rfl | rfl | rfl
    · exact Or.inr (Or.inl (EvmRes.next.inj hstep).symm)
    · exact Or.inr (Or.inr (Or.inl (EvmRes.next.inj hstep).symm))
    · exact Or.inr (Or.inr (Or.inr (Or.inl (EvmRes.next.inj hstep).symm)))
    · exact Or.inr (Or.inr (Or.inr (Or.inr (EvmRes.next.inj hstep).symm)))
    · exact nomatch hstep

theorem jumpStop_height {e : EvmSt Unit}
    (h : EvmReaches (trivialOps jumpStop.bytes) jumpStop.bytes () e) : e.stack.length ≤ 2 := by
  rcases jumpStop_reaches h with rfl | rfl | rfl | rfl | rfl <;> decide

theorem jumpStop_withinLimits : WithinLimits (trivialOps jumpStop.bytes) jumpStop.bytes () where
  operands := by
    intro e h
    rcases jumpStop_reaches h with rfl | rfl | rfl | rfl | rfl <;> decide
  height := by
    intro e h
    have := jumpStop_height h
    omega

theorem jumpStop_fitsMstk : FitsMstk (trivialOps jumpStop.bytes) jumpStop.bytes () where
  inputs := by
    intro e h
    rcases jumpStop_reaches h with rfl | rfl | rfl | rfl | rfl <;> decide +kernel
  spill := spill_of_height fun e h => by
    have := jumpStop_height h
    omega
  runOff := by
    intro e h hoff
    rcases jumpStop_reaches h with rfl | rfl | rfl | rfl | rfl <;> exact absurd hoff (by decide)

theorem stays_in_mstk_of_fits_jumpStop :
    WithinLimits (trivialOps jumpStop.bytes) jumpStop.bytes () ∧
    FitsMstk (trivialOps jumpStop.bytes) jumpStop.bytes () ∧
    StaysInMstk (trivialOps jumpStop.bytes) (compileMain (plainEnv jumpStop.bytes) jumpStop.bytes)
      () :=
  ⟨jumpStop_withinLimits, jumpStop_fitsMstk, stays_in_mstk_of_fits (trivialOps jumpStop.bytes)
    (plainEnv jumpStop.bytes) (sameOps_trivial _) jumpStop () jumpStop_withinLimits
    jumpStop_fitsMstk⟩

/-! ## §4 — a stack that does not fit. -/

section Overflow

variable {W : Type} {ops : Ops W} {b : Builder} {s s' : St W} {rest : List Word}

variable (ops) in
/-- A push on top of slot 511. -/
theorem push_overflow (hr : b.enableRegs = false) (v : Value) (h : 512 ≤ (s.sp + 1).toNat) :
    ∃ is, (GlobalStack.push v b).2.code = b.code ++ is ∧ execAll ops is s = .error .undefined := by
  have hcode : (GlobalStack.push v b).2.code = b.code ++
      ([.load b.next .spPtr, .add (b.next + 1) (.reg .i256 b.next) (constWord 1),
        .store (.reg .i256 (b.next + 1)) .spPtr] ++
      if v.width ≠ .i256 then [.zext (b.next + 2) v, .load (b.next + 3) .spPtr,
        .store (.reg .i256 (b.next + 2)) (.mstk (.reg .i256 (b.next + 3)))]
      else [.load (b.next + 2) .spPtr, .store v (.mstk (.reg .i256 (b.next + 2)))]) := by
    show ((if b.enableRegs = true then _ else _ : Build Unit) b).2.code = _
    rw [if_neg (by rw [hr]; exact Bool.false_ne_true)]
    show ((if v.width ≠ .i256 then _ else _ : Build Unit) _).2.code = _
    split
    · show (((((b.code ++ [_]) ++ [_]) ++ [_]) ++ [_]) ++ [_]) ++ [_] = _
      simp only [List.append_assoc, List.cons_append, List.nil_append]
    · show ((((b.code ++ [_]) ++ [_]) ++ [_]) ++ [_]) ++ [_] = _
      simp only [List.append_assoc, List.cons_append, List.nil_append]
  refine ⟨_, hcode, ?_⟩
  have hout : ¬ (s.sp + BitVec.ofNat 256 1).toNat < 512 := Nat.not_lt.mpr h
  split
  · simp only [List.cons_append, List.nil_append, execAll, execInstr, St.read, St.write, constWord,
      Value.denote_reg, Value.denote_const, define_env_self, define_sp, if_neg hout]
  · simp only [List.cons_append, List.nil_append, execAll, execInstr, St.read, St.write, constWord,
      Value.denote_reg, Value.denote_const, define_env_self, define_sp, if_neg hout]

/-- The spill of more words than there are slots above the rest. -/
theorem pushAll_overflow : ∀ (vs : List Value) {b : Builder} {s : St W} {st : List Word},
    b.enableRegs = false → (∀ v ∈ vs, v.below b.next) → RepStack s st →
    512 ≤ st.length + vs.length →
    ∃ is, (pushAll vs b).2.code = b.code ++ is ∧ execAll ops is s = .error .undefined := by
  intro vs
  induction vs with
  | nil =>
    intro b s st _ _ hrep hlen
    have := hrep.height
    rw [List.length_nil] at hlen
    omega
  | cons v vs ih =>
    intro b s st hr hb hrep hlen
    rw [List.length_cons] at hlen
    by_cases hlt : st.length < 511
    · obtain ⟨s₁, he, hu, hrep₁, -⟩ := @push_rep _ ops _ _ _ _ hr (hb v List.mem_cons_self) hrep hlt
      have hbelow : ∀ u ∈ vs, u.below (GlobalStack.push v b).2.next :=
        he.below fun u hu => hb u (List.mem_cons_of_mem _ hu)
      obtain ⟨is₁, hc₁, hr₁⟩ := he.run
      obtain ⟨is₂, hc₂, hr₂⟩ := ih (hu.enableRegs.trans hr) hbelow hrep₁ (by
        rw [List.length_cons]; omega)
      refine ⟨is₁ ++ is₂, ?_, ?_⟩
      · show (pushAll vs (GlobalStack.push v b).2).2.code = _
        rw [hc₂, hc₁, List.append_assoc]
      · rw [execAll_append, hr₁]
        exact hr₂
    · -- slot 511 is taken
      have hheight := hrep.height
      have hsp : 512 ≤ (s.sp + 1).toNat := by
        rw [hrep.sp_add_one, toNat_ofNat_height (by omega)]
        omega
      obtain ⟨is₁, hc₁, hr₁⟩ := push_overflow ops hr v hsp
      obtain ⟨is₂, hc₂, -⟩ := (quiets_pushAll vs (GlobalStack.push v b).2).code
      refine ⟨is₁ ++ is₂, ?_, execAll_append_error hr₁⟩
      show (pushAll vs (GlobalStack.push v b).2).2.code = _
      rw [hc₂, hc₁, List.append_assoc]

/-- **A block that spills 512 words leaves the array**, whatever its terminator is. -/
theorem Call.spill_overflow {env : CompileEnv} {code : List Byte} {calls : List Call}
    (hf : FunctionSpec env code calls) {c : Call} (hc : c ∈ calls)
    (hrun : execAll ops (c.bodyEnd env code (blockTable code)).code s = .ok s')
    (hbelow : ∀ v ∈ c.view env code (blockTable code),
      v.below (c.bodyEnd env code (blockTable code)).next)
    (hrep : RepStack s' rest)
    (hlen : 512 ≤ rest.length + (c.view env code (blockTable code)).length) :
    ∃ n ∈ blockAccesses ops (compileMain env code) c.i s, 512 ≤ n := by
  obtain ⟨is, hcode, hover⟩ := pushAll_overflow (c.view env code (blockTable code)).reverse
    (b := { c.bodyEnd env code (blockTable code) with enableRegs := false }) rfl
    (fun v hv => hbelow v (List.mem_reverse.mp hv)) hrep (by rw [List.length_reverse]; exact hlen)
  have hfinal : execAll ops (c.final env code (blockTable code)).code s = .error .undefined := by
    have hcode : (c.final env code (blockTable code)).code =
        (c.bodyEnd env code (blockTable code)).code ++ is := hcode
    rw [hcode, execAll_append, hrun]
    exact hover
  unfold blockAccesses
  rw [hf.block c hc]
  exact execAll_undefined_iff.mp (resolved_error hfinal)

theorem Call.Entered.stop_overflow {env : CompileEnv} {code : List Byte} {calls : List Call}
    {c : Call} {e e₁ : EvmSt W} (hent : c.Entered code (blockTable code) s e)
    (hops : SameOps ops env) (hf : FunctionSpec env code calls) (hc : c ∈ calls)
    (htrace : BlockTrace ops code c.bb e e₁) (hin₁ : InBlock code c.bb e₁.pc)
    (hi : instAt code e₁.pc = .STOP) (hlen : 512 ≤ e₁.stack.length) :
    ∃ n ∈ blockAccesses ops (compileMain env code) c.i s, 512 ≤ n := by
  obtain ⟨b', s', rest, hbody, hr⟩ := hent.body_stop hops htrace hin₁ hi
  have hview : c.view env code (blockTable code) = b'.locals := by
    rw [Call.view, hbody]
  have hrun : execAll ops (c.bodyEnd env code (blockTable code)).code s = .ok s' := by
    rw [hbody]
    exact hr.run
  have hbelow : ∀ v ∈ c.view env code (blockTable code),
      v.below (c.bodyEnd env code (blockTable code)).next := by
    rw [hview, hbody]
    exact hr.rel.isOpen.below
  have hheight := hr.rel.length
  exact Call.spill_overflow hf hc hrun hbelow hr.rep (by rw [hview]; omega)

end Overflow

/-- `PUSH1 1`, 511 times `DUP1`, `STOP`: the EVM stops on 512 words. -/
def overfull : Bytecode where
  bytes := 0x60 :: 0x01 :: (List.replicate 511 0x80 ++ [0x00])
  ne := List.cons_ne_nil _ _
  lt := by
    rw [List.length_cons, List.length_cons, List.length_append, List.length_replicate]
    decide

theorem overfull_length : overfull.bytes.length = 514 := by
  show (0x60 :: 0x01 :: (List.replicate 511 (0x80 : Byte) ++ [0x00])).length = 514
  rw [List.length_cons, List.length_cons, List.length_append, List.length_replicate]
  rfl

/-- What stands at each offset; offset 1 is push data. -/
theorem overfull_instAt (j : Nat) : instAt overfull.bytes j =
    if j = 0 then .PUSH 1 else if j = 1 then .ADD else if j < 513 then .DUP 1 else .STOP := by
  rcases j with _ | _ | j
  · rfl
  · rfl
  · have hcode :
        codeAt overfull.bytes (j + 2) = (List.replicate 511 (0x80 : Byte) ++ [0x00]).getD j 0 :=
      rfl
    rw [instAt, hcode, if_neg (by omega), if_neg (by omega), List.getD_eq_getElem?_getD]
    by_cases hlt : j < 511
    · rw [if_pos (by omega), List.getElem?_append_left (by rwa [List.length_replicate]),
        List.getElem?_replicate, if_pos hlt]
      rfl
    · rw [if_neg (by omega), List.getElem?_append_right (by rw [List.length_replicate]; omega),
        List.length_replicate]
      rcases hk : j - 511 with _ | k
      · rfl
      · rfl

/-- Code without a jump destination, whose closing instructions are at its end, is one block. -/
theorem createBasicBlocksLoop_single {code : List Byte} (hj : ∀ j, instAt code j ≠ .JUMPDEST)
    (hends : ∀ j, (instAt code j).endsBlock = true → code.length ≤ j + 1) :
    ∀ (fuel curr begin : Nat), curr ≤ code.length →
      ∀ b ∈ createBasicBlocksLoop code fuel curr begin false, b.firstInstrIdx = begin := by
  intro fuel
  induction fuel with
  | zero => intro curr begin _ b hb; exact absurd hb List.not_mem_nil
  | succ fuel ih =>
    intro curr begin hle b hb
    unfold createBasicBlocksLoop at hb
    split at hb
    · exact absurd hb List.not_mem_nil
    · rename_i hne
      have hgt := lt_instrEnd code curr
      rw [skipPushDataAndGetNext_eq (by omega)] at hb
      simp only [Bool.false_and, Bool.false_eq_true, if_false] at hb
      split at hb
      · rename_i hend
        rcases List.mem_cons.mp hb with rfl | hb
        · rfl
        · -- the block ends with the code, and nothing is left
          have hnext : min (instrEnd code curr) code.length = code.length := by
            simp only [Bool.or_eq_true, beq_iff_eq, hj, or_false] at hend
            rcases hend with hend | hend
            · have := hends curr hend
              omega
            · exact hend
          rw [hnext] at hb
          cases fuel with
          | zero => exact absurd hb List.not_mem_nil
          | succ fuel =>
            unfold createBasicBlocksLoop at hb
            rw [if_pos rfl] at hb
            exact absurd hb List.not_mem_nil
      · exact ih _ _ (Nat.min_le_right _ _) b hb

theorem overfull_blockStart {pc : Nat} (h : BlockStart overfull.bytes pc) : pc = 0 := by
  obtain ⟨b, hb, rfl⟩ := h
  refine createBasicBlocksLoop_single (fun j => ?_) (fun j hend => ?_) _ 0 0 (Nat.zero_le _) b hb
  · rw [overfull_instAt]
    split_ifs <;> exact Instruction.noConfusion
  · rw [overfull_instAt] at hend
    rw [overfull_length]
    by_contra hlt
    rw [if_pos (show j < 513 by omega)] at hend
    split_ifs at hend <;> cases hend

/-- The run: nothing but pushes, one word at a time. -/
theorem overfull_reaches {e : EvmSt Unit}
    (h : EvmReaches (trivialOps overfull.bytes) overfull.bytes () e) :
    (e.pc = 0 ∧ e.stack.length = 0) ∨
      (1 ≤ e.stack.length ∧ e.stack.length ≤ 512 ∧ e.pc = e.stack.length + 1) := by
  induction h with
  | refl => exact Or.inl ⟨rfl, rfl⟩
  | @tail e e' _ hstep ih =>
    have hinst := overfull_instAt e.pc
    rcases ih with ⟨hpc, hlen⟩ | ⟨hpos, hle, hpc⟩
    · rw [hpc, if_pos rfl] at hinst
      rw [(evmStep_cases hstep).of_push (hpc ▸ hinst)]
      refine Or.inr ⟨Nat.le_add_left _ _, ?_, ?_⟩
      · rw [List.length_cons, hlen]
        decide
      · rw [List.length_cons, hlen, hpc]
        rfl
    · rw [if_neg (by omega), if_neg (by omega)] at hinst
      by_cases hlt : e.pc < 513
      · rw [if_pos hlt] at hinst
        obtain ⟨-, hheight⟩ := (evmStep_cases hstep).height
        have hpc' := (evmStep_cases hstep).pc_of_plain (by rw [hinst]; rfl)
        rw [instrEnd_of_ne_push (by simp [hinst])] at hpc'
        rw [hinst] at hheight
        simp only [Instruction.stkOut, Instruction.stkIn] at hheight
        refine Or.inr ⟨by omega, by omega, by omega⟩
      · rw [if_neg hlt] at hinst
        rw [evmStep, hinst] at hstep
        cases hstep

theorem overfull_withinLimits : WithinLimits (trivialOps overfull.bytes) overfull.bytes () where
  operands := by
    intro e he
    rw [overfull_instAt]
    rcases overfull_reaches he with ⟨hpc, hlen⟩ | ⟨hpos, hle, hpc⟩
    · rw [if_pos hpc]
      exact Nat.zero_le _
    · rw [if_neg (by omega), if_neg (by omega)]
      split_ifs
      · exact hpos
      · exact Nat.zero_le _
  height := by
    intro e he
    rcases overfull_reaches he with ⟨-, hlen⟩ | ⟨-, hle, -⟩ <;> omega

theorem overfull_start :
    EvmReaches (trivialOps overfull.bytes) overfull.bytes () ⟨0, [], ()⟩ :=
  Relation.ReflTransGen.refl

/-- **512 words do not fit**: the EVM run stays within its limits, and the emitted code writes
behind the array. -/
theorem overfull_leaves_mstk :
    WithinLimits (trivialOps overfull.bytes) overfull.bytes () ∧
    ¬ StaysInMstk (trivialOps overfull.bytes) (compileMain (plainEnv overfull.bytes) overfull.bytes)
      () := by
  refine ⟨overfull_withinLimits, fun hstays => ?_⟩
  obtain ⟨calls, hf⟩ := compileMain_spec (plainEnv overfull.bytes) overfull.ne
  have hat : AtEntry overfull.bytes calls 0 (St.init ()) ⟨0, [], ()⟩ := atEntry_init hf
  obtain ⟨c, hc, hi, hcb, hpc, hin, hent⟩ := hat.entered hf
  obtain ⟨e₁, hr₁, htrace, hin₁, hlast⟩ := last_in_block evmReaches_plainClosed overfull_start hin
  -- the run gets to `STOP` without leaving the block
  have hgo : ∀ e', (instAt overfull.bytes e₁.pc).plain = true →
      instrEnd overfull.bytes e₁.pc ≤ 513 →
      ¬ StepCase (trivialOps overfull.bytes) overfull.bytes e₁ e' := by
    intro e' hp hle hcase
    have hout := hlast hp e' hcase.evmStep
    rw [hcase.pc_of_plain hp] at hout
    have hgt := lt_instrEnd overfull.bytes e₁.pc
    have hlen := overfull_length
    rcases stay_or_leave overfull.ne hcb hin₁ (kills_of_plain hp) with hstay | hoff | ⟨heq, hs⟩
    · exact hout hstay
    · omega
    · have := overfull_blockStart hs
      omega
  have hinst := overfull_instAt e₁.pc
  obtain ⟨hstop, hlen⟩ : instAt overfull.bytes e₁.pc = .STOP ∧ e₁.stack.length = 512 := by
    rcases overfull_reaches hr₁ with ⟨hpc, -⟩ | ⟨hpos, hle, hpc⟩
    · rw [if_pos hpc] at hinst
      refine absurd (.push hinst) (hgo _ (by rw [hinst]; rfl) ?_)
      rw [instrEnd, hinst, hpc]
      decide
    · rw [if_neg (by omega), if_neg (by omega)] at hinst
      by_cases hlt : e₁.pc < 513
      · rw [if_pos hlt] at hinst
        refine absurd (.dup hinst (List.getElem?_eq_getElem hpos)) (hgo _ (by rw [hinst]; rfl) ?_)
        rw [instrEnd_of_ne_push (by simp [hinst])]
        exact hlt
      · rw [if_neg hlt] at hinst
        exact ⟨hinst, by omega⟩
  have hg := blockTable_good overfull.ne hcb
  have hend := hg.ends_last _ hin₁.boundary hin₁.first_le hin₁.lt_end (by rw [hstop]; rfl)
  have hinputs := htrace.inputs_le hg hpc hend.ge (by rw [hstop]; exact Nat.zero_le _)
  obtain ⟨n, hn, hge⟩ := (hent hinputs).stop_overflow (sameOps_trivial _) hf hc htrace hin₁ hstop
    hlen.ge
  exact absurd (hstays 0 0 (St.init ()) (entryAt_zero hf) n (hi ▸ hn)) (Nat.not_lt.mpr hge)

end EvmTrans
