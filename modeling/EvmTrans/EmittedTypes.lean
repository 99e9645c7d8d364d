/-
# `EvmTrans.EmittedTypes` — the requests of a whole compilation, and when they are well typed.

`compileMain` hands a block the registers that its predecessor left, so whether a branch is asked
for with operands that fit can depend on blocks compiled long before. Three steps lead from the
branches to the module. `blockSteps` is the loop of `compileBasicBlock` as the list of the branches
it takes, each with the operands it pops; `compileCalls` is the list of the blocks in the order they
are compiled, by either loop; and one invariant runs through both: no truth value (`i1`) is ever on
the register stack. `emitted_typed_iff` puts them together.
-/
import EvmTrans.BlockSim
import EvmTrans.EmittedFunction
import EvmTrans.OpcodeTypes

namespace EvmTrans

open Lib (whileLoop)

/-! ## §1 — the steps of a block. -/

/-- One iteration of the loop: where, which branch, and the operands in the order of the pops. -/
structure BlockStep where
  it : Nat
  inst : Instruction
  operands : List Value
  deriving DecidableEq, Repr

/-- **The branches that `compileBasicBlockLoop` takes.** A `PUSH` asks for nothing; an undefined
byte ends the loop with `unreachable`, which has no operands. -/
def blockSteps (env : CompileEnv) (code : List Byte) (bb : BasicBlock) (i : Nat) (next : Label) :
    Nat → Nat → Builder → List BlockStep
  | 0, _, _ => []
  | fuel + 1, it, b =>
    if it = bb.endIdx then []
    else
      match instAt code it with
      | .PUSH _ =>
        let r := readPushData code it bb.endIdx
        blockSteps env code bb i next fuel (r.2 + 1) (GlobalStack.push (.const .i256 r.1) b).2
      | .UNDEFINED _ => []
      | inst =>
        ⟨it, inst, (popCallsN inst.branchPops b).1⟩ ::
          blockSteps env code bb i next fuel (it + 1) (compileInst env bb i next it inst b).2

/-- Whether the `RETURN` at `it` hands out the runtime code. -/
def CompileEnv.isRuntime (env : CompileEnv) (it : Nat) : Bool :=
  env.retPC ≠ 0 ∧ env.rtWasmCode ≠ [] ∧ it = env.retPC

/-- What the builder is asked for in one step. -/
def BlockStep.requests (env : CompileEnv) (s : BlockStep) : List BuilderRequest :=
  (Emission.branch (env.isRuntime s.it) s.inst (s.operands.map Value.operand)).requests

/-! ## §2 — no truth value on the register stack. -/

/-- `IRBuilder`'s folder answers with a value of the type that the instruction would have had. -/
def CompileEnv.FoldsInType (env : CompileEnv) : Prop :=
  ∀ {op args v}, env.fold op args = some v → v.width = resultWidth op args

/-- None of the values is an `i1`. -/
def NoBit (l : List Value) : Prop := ∀ v ∈ l, v.width ≠ .i1

theorem NoBit.popped {l : List Value} (h : NoBit l) (n : Nat) : NoBit (popped n l) :=
  forall_popped Width.noConfusion h n

theorem length_popped (n : Nat) (l : List Value) : (popped n l).length = n := by
  rw [popped, List.length_append, List.length_take, List.length_replicate]
  omega

/-- A result is as wide as an operand, or 32, 128 or 256 bits. -/
theorem resultWidth_ne_i1 (op : Instruction) {args : List Value} (h : NoBit args) :
    resultWidth op args ≠ .i1 := by
  unfold resultWidth
  split
  -- the branches that widen unequal operands have a split of their own
  all_goals first
    | exact Width.noConfusion
    | exact h _ (by simp)
    | split
      · exact h _ (by simp)
      · exact Width.noConfusion

/-- The insertion point inside a block: registers on, and integers on the register stack. -/
structure Builder.Integers (b : Builder) : Prop where
  regs : b.enableRegs = true
  noBit : NoBit b.locals

section Run

variable {env : CompileEnv} {code : List Byte} {bb : BasicBlock} {i : Nat} {next : Label}
  {b : Builder}

/-- **One instruction** leaves integers behind. -/
theorem compileInst_integers (hfold : env.FoldsInType) (h : b.Integers) (it : Nat)
    (inst : Instruction) : (compileInst env bb i next it inst b).2.Integers := by
  have he := compileInst_effect env bb i next h.regs it inst
  have hresult : ∀ op, resultWidth op (popped op.popCalls b.locals) ≠ .i1 :=
    fun op => resultWidth_ne_i1 op (h.noBit.popped op.popCalls)
  refine ⟨he.regs, fun v hv => ?_⟩
  cases he.stacked v hv with
  | kept hm => exact h.noBit v hm
  | const hw => exact hw
  | @folded op _ hf =>
    rw [hfold hf]
    exact hresult op
  | @result op => exact hresult op

theorem branchPops_of_ordinary {inst : Instruction} (hi : inst.ordinary = true) :
    inst.branchPops = inst.popCalls := by
  cases inst <;> first | rfl | cases hi

/-- **What the branch returns is what the register stack gets**: for an opcode of the table whose
operands fit, the value that `compileInst` leaves on top has the type of what the branch pushes. -/
theorem compileInst_pushed_ty (hfold : env.FoldsInType) (h : b.Integers) (it : Nat)
    {inst : Instruction} (hi : inst.ordinary = true) (hc : inst ≠ .CODESIZE)
    (hpush : inst.pushCall = true) (hfit : Fits inst (popped inst.branchPops b.locals))
    {o : Operand} (ho : (Emission.branch (env.isRuntime it) inst
      ((popped inst.branchPops b.locals).map Value.operand)).value = some o) :
    ∃ v, (compileInst env bb i next it inst b).2.locals = v :: b.locals.drop inst.branchPops ∧
      v.operand.ty = o.ty := by
  rw [branch_ty _ inst (length_popped _ _) hfit hc ho, compileInst_ordinary hi hc,
    compileOpcode_regs h.regs, branchPops_of_ordinary hi]
  unfold opcodeBuilder
  dsimp only
  rw [if_pos hpush]
  cases hf : env.fold inst (popped inst.popCalls b.locals) with
  | some v => exact ⟨v, rfl, by rw [← hfold hf]; rfl⟩
  | none => exact ⟨_, rfl, rfl⟩

/-- A step that the loop can take: as many operands as the branch pops, and no truth value among
them. -/
structure BlockStep.Proper (s : BlockStep) : Prop where
  length : s.operands.length = s.inst.branchPops
  noBit : NoBit s.operands

/-- **One step**: the branch is asked for what the rules allow exactly when its operands fit. -/
theorem BlockStep.Proper.typed_iff {s : BlockStep} (h : s.Proper) :
    (∀ r ∈ s.requests env, r.wellTyped = true) ↔ Fits s.inst s.operands :=
  branch_typed_iff (env.isRuntime s.it) s.inst h.length h.noBit

/-- **The loop**, position by position: what a push, an instruction and the `unreachable` of an
undefined byte keep is kept to the end, and what an instruction promises of its step holds of every
step. The two run side by side, so the induction is on the fuel they share. -/
theorem blockSteps_along {P : Nat → Builder → Prop} {Q : BlockStep → Prop}
    (hpush : ∀ {it n b}, it ≠ bb.endIdx → instAt code it = .PUSH n → P it b →
      P ((readPushData code it bb.endIdx).2 + 1)
        (GlobalStack.push (.const .i256 (readPushData code it bb.endIdx).1) b).2)
    (hundef : ∀ {it b}, P it b → P it (setTerm .unreachable b).2)
    (hinst : ∀ {it b}, it ≠ bb.endIdx → (∀ n, instAt code it ≠ .PUSH n) → P it b →
      Q ⟨it, instAt code it, (popCallsN (instAt code it).branchPops b).1⟩ ∧
        P (it + 1) (compileInst env bb i next it (instAt code it) b).2) :
    ∀ (fuel it : Nat) (b : Builder), P it b → (∀ s ∈ blockSteps env code bb i next fuel it b, Q s) ∧
      ∃ last, P last (compileBasicBlockLoop env code bb i next fuel it b).2 := by
  intro fuel
  induction fuel with
  | zero => exact fun it b h => ⟨fun s hs => absurd hs List.not_mem_nil, it, h⟩
  | succ fuel ih =>
    intro it b h
    unfold blockSteps
    split
    · rename_i hend
      unfold compileBasicBlockLoop
      rw [if_pos hend]
      exact ⟨fun s hs => absurd hs List.not_mem_nil, it, h⟩
    · rename_i hne
      split
      · rename_i n hn
        unfold compileBasicBlockLoop
        rw [if_neg hne, hn]
        exact ih _ _ (hpush hne hn h)
      · rename_i x hx
        unfold compileBasicBlockLoop
        rw [if_neg hne, hx]
        exact ⟨fun s hs => absurd hs List.not_mem_nil, it, hundef h⟩
      · rename_i hnopush hnoundef
        rw [compileBasicBlockLoop_inst hne hnopush hnoundef]
        obtain ⟨hstep, hnext⟩ := hinst hne hnopush h
        obtain ⟨hsteps, hlast⟩ := ih (it + 1) _ hnext
        exact ⟨List.forall_mem_cons.mpr ⟨hstep, hsteps⟩, hlast⟩

/-- The same, for what does not depend on the position. -/
theorem blockSteps_forall {P : Builder → Prop} {Q : BlockStep → Prop}
    (hpush : ∀ {b} w, P b → P (GlobalStack.push (.const .i256 w) b).2)
    (hundef : ∀ {b}, P b → P (setTerm .unreachable b).2)
    (hinst : ∀ {b} it inst, P b → Q ⟨it, inst, (popCallsN inst.branchPops b).1⟩ ∧
      P (compileInst env bb i next it inst b).2) (fuel it : Nat) (b : Builder) (h : P b) :
    (∀ s ∈ blockSteps env code bb i next fuel it b, Q s) ∧
      P (compileBasicBlockLoop env code bb i next fuel it b).2 := by
  obtain ⟨hsteps, -, hend⟩ :=
    blockSteps_along (P := fun _ => P) (Q := Q) (fun _ _ h => hpush _ h) hundef
      (fun _ _ h => hinst _ _ h) fuel it b h
  exact ⟨hsteps, hend⟩

/-- With registers on, a step has as many operands as its branch pops. -/
theorem blockSteps_length (fuel it : Nat) (b : Builder) (h : b.enableRegs = true) :
    ∀ s ∈ blockSteps env code bb i next fuel it b, s.operands.length = s.inst.branchPops := by
  refine (blockSteps_forall (P := fun b => b.enableRegs = true) ?_ id ?_ fuel it b h).1
  · intro b w h
    rw [push_regs h]
    exact h
  · intro b it inst h
    rw [popCallsN_regs _ h]
    exact ⟨length_popped _ _, (compileInst_effect env bb i next h it inst).regs⟩

/-- Every step is proper, and integers are left on the register stack. -/
theorem blockSteps_proper (hfold : env.FoldsInType) (fuel it : Nat) (b : Builder) (h : b.Integers) :
    (∀ s ∈ blockSteps env code bb i next fuel it b, s.Proper) ∧
      (compileBasicBlockLoop env code bb i next fuel it b).2.Integers := by
  refine blockSteps_forall ?_ (fun h => ⟨h.regs, h.noBit⟩) ?_ fuel it b h
  · -- a push: its datum is a word
    intro b w h
    rw [push_regs h.regs]
    exact ⟨h.regs, List.forall_mem_cons.mpr ⟨Width.noConfusion, h.noBit⟩⟩
  · intro b it inst h
    rw [popCallsN_regs _ h.regs]
    exact ⟨⟨length_popped _ _, h.noBit.popped _⟩, compileInst_integers hfold h it inst⟩

end Run

/-! ## §3 — the calls of a compilation. -/

section Calls

variable (env : CompileEnv) (code : List Byte) (bs : List BasicBlock)

/-- What a call puts into `out`. -/
def Call.entry (c : Call) : Nat × IRBlock := (c.i, (c.final env code bs).block c.i)

variable {env code bs}

/-- One iteration of the queue loop: the entry of the call, if there is one. -/
theorem queueBody_out {m m' : Main} (hb : queueBody env code bs m = some m') :
    m'.out = ((m.queueCall bs).toList.map (Call.entry env code bs)) ++ m.out := by
  unfold queueBody at hb
  unfold Main.queueCall
  split at hb
  · cases hb
  · rename_i p ps rest hqueue
    rw [hqueue]
    split at hb
    · rename_i hseen
      cases hb
      cases p with
      | none => rfl
      | some i => simp [hseen]
    · rename_i hnew
      split at hb
      · cases hb
        rfl
      · rename_i i
        split at hb
        · rename_i hnone
          cases hb
          simp [hnew, hnone]
        · rename_i bb hbb
          rw [compileQueued_eq] at hb
          cases hb
          simp only [if_neg hnew, hbb]
          rfl

theorem leftoverBody_out (m : Main) (i : Nat) : (leftoverBody env code bs m i).out =
    ((m.leftoverCall bs i).toList.map (Call.entry env code bs)) ++ m.out := by
  unfold leftoverBody Main.leftoverCall
  split
  · rfl
  · split
    · rename_i hnone
      rw [hnone]
      rfl
    · rename_i bb hbb
      rw [hbb, compileLeftover_eq]
      rfl

theorem queueCalls_out : ∀ (fuel : Nat) (m : Main), (whileLoop (queueBody env code bs) fuel m).out =
    ((queueCalls env code bs fuel m).map (Call.entry env code bs)).reverse ++ m.out := by
  intro fuel
  induction fuel with
  | zero => exact fun m => rfl
  | succ fuel ih =>
    intro m
    unfold whileLoop queueCalls
    cases hb : queueBody env code bs m with
    | none => rfl
    | some m' =>
      dsimp only
      rw [ih m', queueBody_out hb]
      cases m.queueCall bs <;> simp

theorem leftoverCalls_out :
    ∀ (is : List Nat) (m : Main), (is.foldl (leftoverBody env code bs) m).out =
    ((leftoverCalls env code bs is m).map (Call.entry env code bs)).reverse ++ m.out := by
  intro is
  induction is with
  | nil => exact fun m => rfl
  | cons i is ih =>
    intro m
    rw [List.foldl_cons, ih, leftoverBody_out, leftoverCalls]
    cases m.leftoverCall bs i <;> simp

variable (env code bs) in
/-- **The list is complete**: what `compileBlocks` puts out are the blocks of these calls, the
latest first. -/
theorem compileBlocks_out : (compileBlocks env code bs).out =
    ((compileCalls env code bs).map (Call.entry env code bs)).reverse := by
  rw [compileBlocks, leftoverCalls_out, compileCalls, List.map_append, List.reverse_append]
  congr 1
  exact (queueCalls_out _ _).trans (List.append_nil _)

end Calls

/-! ## §4 — integers from block to block. -/

/-- A word popped from memory is a load. -/
theorem popCallsN_mem_word : ∀ (n : Nat) {b : Builder}, b.enableRegs = false →
    ∀ v ∈ (popCallsN n b).1, v.width = .i256 := by
  intro n
  induction n with
  | zero => exact fun _ v hv => absurd hv List.not_mem_nil
  | succ n ih =>
    intro b h v hv
    rcases List.mem_cons.mp hv with rfl | hv
    · show ((if b.enableRegs = true then _ else _ : Build Value) b).1.width = _
      rw [if_neg (by rw [h]; exact Bool.false_ne_true)]
      rfl
    · exact ih ((pop_mem_static h).2.2.enableRegs.trans h) v hv

/-- The inputs of a block are words, or registers it was handed. -/
theorem queuedInputs_handed {P : Value → Prop} (hword : ∀ v : Value, v.width = .i256 → P v)
    (inherit : Bool) (stkIn : Nat) {pstack : List Value} (hp : ∀ v ∈ pstack, P v) (b : Builder) :
    ∀ v ∈ (queuedInputs inherit stkIn pstack b).1, P v := by
  have hpopped : ∀ (n : Nat) {b : Builder}, b.enableRegs = false → ∀ v ∈ (popCallsN n b).1, P v :=
    fun n _ h v hv => hword v (popCallsN_mem_word n h v hv)
  unfold queuedInputs
  split
  · exact List.forall_mem_append.mpr ⟨fun v hv => hp v (List.mem_of_mem_take hv), hpopped _ rfl⟩
  · exact hpopped stkIn rfl

theorem noBit_queuedInputs (inherit : Bool) (stkIn : Nat) {pstack : List Value} (hp : NoBit pstack)
    (b : Builder) : NoBit (queuedInputs inherit stkIn pstack b).1 :=
  queuedInputs_handed (fun v hv => by rw [hv]; exact Width.noConfusion) inherit stkIn hp b

/-- The inputs are not on the register stack yet, and end no block. -/
theorem queuedInputs_kept (inherit : Bool) (stkIn : Nat) (pstack : List Value) (b : Builder) :
    (queuedInputs inherit stkIn pstack b).2.locals = b.locals ∧
      (queuedInputs inherit stkIn pstack b).2.term = b.term := by
  unfold queuedInputs
  split
  · have hu := (popCallsN_mem_static (stkIn - (pstack.take stkIn).length)
      (b := { (lowerSp (pstack.take stkIn).length b).2 with enableRegs := false }) rfl).2.2.1
    exact ⟨hu.locals, hu.term⟩
  · exact ⟨(leftoverInputs_static stkIn b).locals, (leftoverInputs_static stkIn b).term⟩

section Blocks

variable (env : CompileEnv) (code : List Byte) (bs : List BasicBlock)

/-- The steps of one call. -/
def Call.steps (c : Call) : List BlockStep :=
  blockSteps env code c.bb c.i (nextNode bs.length c.i) (c.bb.endIdx - c.bb.firstInstrIdx)
    c.bb.firstInstrIdx (bodyStart (c.inputs code bs).1 (c.inputs code bs).2)

variable {env code bs}

/-- **One call**: integers in, integers out, and proper steps between them. -/
theorem Call.steps_proper (hfold : env.FoldsInType) {c : Call} (hp : NoBit c.pstack) :
    (∀ s ∈ c.steps env code bs, s.Proper) ∧ NoBit (c.view env code bs) := by
  have hlocals : (c.inputs code bs).2.locals = [] := (queuedInputs_kept _ _ _ _).1
  have hstart : (bodyStart (c.inputs code bs).1 (c.inputs code bs).2).Integers := by
    refine ⟨rfl, ?_⟩
    show NoBit (_ ++ (c.inputs code bs).2.locals)
    rw [hlocals, List.append_nil]
    exact noBit_queuedInputs _ _ hp _
  obtain ⟨hsteps, hend⟩ := blockSteps_proper hfold _ _ _ hstart
  exact ⟨hsteps, hend.noBit⟩

section Handed

variable {P : Value → Prop}

theorem queueCall_handed {m : Main} (h : ∀ p ∈ m.queue, ∀ v ∈ p.2, P v) {c : Call}
    (hc : m.queueCall bs = some c) : bs[c.i]? = some c.bb ∧ ∀ v ∈ c.pstack, P v := by
  unfold Main.queueCall at hc
  split at hc
  · rename_i i pstack rest hqueue
    split at hc
    · cases hc
    · obtain ⟨bb, hbb, rfl⟩ := Option.map_eq_some_iff.mp hc
      exact ⟨hbb, h (some i, pstack) (by rw [hqueue]; exact List.mem_cons_self)⟩
  · cases hc

theorem leftoverCall_handed {m : Main} {i : Nat} {c : Call} (hc : m.leftoverCall bs i = some c) :
    bs[c.i]? = some c.bb ∧ ∀ v ∈ c.pstack, P v := by
  unfold Main.leftoverCall at hc
  split at hc
  · cases hc
  · obtain ⟨bb, hbb, rfl⟩ := Option.map_eq_some_iff.mp hc
    exact ⟨hbb, fun v hv => absurd hv List.not_mem_nil⟩

/-- **One iteration** of the queue loop: what it appends are the views of its call. -/
theorem queueBody_handed
    (hcall : ∀ c : Call, bs[c.i]? = some c.bb → (∀ v ∈ c.pstack, P v) →
      ∀ v ∈ c.view env code bs, P v)
    {m m' : Main} (h : ∀ p ∈ m.queue, ∀ v ∈ p.2, P v) (hb : queueBody env code bs m = some m') :
    ∀ p ∈ m'.queue, ∀ v ∈ p.2, P v := by
  unfold queueBody at hb
  split at hb
  · cases hb
  · rename_i p ps rest hqueue
    have hrest : ∀ q ∈ rest, ∀ v ∈ q.2, P v :=
      fun q hq => h q (by rw [hqueue]; exact List.mem_cons_of_mem _ hq)
    have hps : ∀ v ∈ ps, P v := h (p, ps) (by rw [hqueue]; exact List.mem_cons_self)
    split at hb
    · cases hb
      exact hrest
    · split at hb
      · cases hb
        exact hrest
      · split at hb
        · cases hb
          exact hrest
        · rename_i bb hbb
          rw [compileQueued_eq] at hb
          cases hb
          refine List.forall_mem_append.mpr ⟨hrest, fun q hq => ?_⟩
          obtain ⟨t, -, rfl⟩ := List.mem_map.mp hq
          exact hcall ⟨_, bb, ps, m.next, m.cases⟩ hbb hps

theorem queueCalls_handed
    (hcall : ∀ c : Call, bs[c.i]? = some c.bb → (∀ v ∈ c.pstack, P v) →
      ∀ v ∈ c.view env code bs, P v) :
    ∀ (fuel : Nat) (m : Main), (∀ p ∈ m.queue, ∀ v ∈ p.2, P v) →
      ∀ c ∈ queueCalls env code bs fuel m, bs[c.i]? = some c.bb ∧ ∀ v ∈ c.pstack, P v := by
  intro fuel
  induction fuel with
  | zero => exact fun m _ c hc => absurd hc List.not_mem_nil
  | succ fuel ih =>
    intro m h c hc
    unfold queueCalls at hc
    cases hb : queueBody env code bs m with
    | none =>
      rw [hb] at hc
      exact absurd hc List.not_mem_nil
    | some m' =>
      rw [hb] at hc
      rcases List.mem_append.mp hc with hc | hc
      · exact queueCall_handed h (Option.mem_toList.mp hc)
      · exact ih m' (queueBody_handed hcall h hb) c hc

theorem leftoverCalls_handed : ∀ (is : List Nat) (m : Main),
    ∀ c ∈ leftoverCalls env code bs is m, bs[c.i]? = some c.bb ∧ ∀ v ∈ c.pstack, P v := by
  intro is
  induction is with
  | nil => exact fun m c hc => absurd hc List.not_mem_nil
  | cons i is ih =>
    intro m c hc
    rcases List.mem_append.mp hc with hc | hc
    · exact leftoverCall_handed (Option.mem_toList.mp hc)
    · exact ih _ c hc

/-- **What a call hands on it has been handed**: a property of registers that every block keeps from
its inputs to its view holds of the inputs of every call. -/
theorem compileCalls_handed
    (hcall : ∀ c : Call, bs[c.i]? = some c.bb → (∀ v ∈ c.pstack, P v) →
      ∀ v ∈ c.view env code bs, P v) :
    ∀ c ∈ compileCalls env code bs, bs[c.i]? = some c.bb ∧ ∀ v ∈ c.pstack, P v := by
  intro c hc
  rcases List.mem_append.mp hc with hc | hc
  · refine queueCalls_handed hcall _ _ (fun p hp => ?_) c hc
    rw [List.mem_singleton.mp hp]
    exact fun v hv => absurd hv List.not_mem_nil
  · exact leftoverCalls_handed _ _ c hc

end Handed

/-- **Every call** of a compilation hands integers over. -/
theorem compileCalls_integers (hfold : env.FoldsInType) :
    ∀ c ∈ compileCalls env code bs, NoBit c.pstack := fun c hc =>
  (compileCalls_handed (P := fun v => v.width ≠ .i1)
    (fun _ _ hp => (Call.steps_proper hfold hp).2) c hc).2

end Blocks

/-! ## §5 — the module. -/

/-- Every step of `compileBasicBlock` in the compilation of `code`. -/
def emittedSteps (env : CompileEnv) (code : List Byte) : List BlockStep :=
  (compileCalls env code (blockTable code)).flatMap (Call.steps env code (blockTable code))

/-- A block is compiled with registers on, so every step has its operands. -/
theorem emittedSteps_length {env : CompileEnv} {code : List Byte} :
    ∀ s ∈ emittedSteps env code, s.operands.length = s.inst.branchPops := by
  intro s hs
  obtain ⟨c, -, hs⟩ := List.mem_flatMap.mp hs
  exact blockSteps_length _ _ _ rfl s hs

/-- **What `compileBasicBlock` asks the builder for** in the compilation of `code`. -/
def emittedRequests (env : CompileEnv) (code : List Byte) : List BuilderRequest :=
  (emittedSteps env code).flatMap (BlockStep.requests env)

theorem emittedSteps_proper {env : CompileEnv} (hfold : env.FoldsInType) {code : List Byte} :
    ∀ s ∈ emittedSteps env code, s.Proper := by
  intro s hs
  obtain ⟨c, hc, hs⟩ := List.mem_flatMap.mp hs
  exact (Call.steps_proper hfold (compileCalls_integers hfold c hc)).1 s hs

/-- **The emitted IR is well typed exactly when the operands of every step fit.** -/
theorem emitted_typed_iff (env : CompileEnv) (hfold : env.FoldsInType) (code : List Byte) :
    (∀ r ∈ emittedRequests env code, r.wellTyped = true) ↔
      ∀ s ∈ emittedSteps env code, Fits s.inst s.operands := by
  unfold emittedRequests
  rw [List.forall_mem_flatMap]
  exact forall₂_congr fun s hs => (emittedSteps_proper hfold s hs).typed_iff

theorem plainEnv_foldsInType (code : List Byte) : (plainEnv code).FoldsInType := fun h => nomatch h

/-- `RETURNDATASIZE CALLVALUE ADD STOP`: an `i32` and an `i128`, which `ADD` extends. -/
def sizePlusValue : List Byte := [0x3d, 0x34, 0x01, 0x00]

theorem emitted_typed_iff_widened :
    (emittedRequests (plainEnv sizePlusValue) sizePlusValue).all BuilderRequest.wellTyped =
      true := by
  have hsteps : emittedSteps (plainEnv sizePlusValue) sizePlusValue =
      [⟨0, .RETURNDATASIZE, []⟩, ⟨1, .CALLVALUE, []⟩, ⟨2, .ADD, [.reg .i128 2, .reg .i32 1]⟩,
        ⟨3, .STOP, []⟩] := by
    decide +kernel
  rw [List.all_eq_true]
  apply (emitted_typed_iff (plainEnv sizePlusValue) (plainEnv_foldsInType _) sizePlusValue).mpr
  rw [hsteps]
  simp [Fits]

/-- `RETURNDATASIZE SLOAD STOP`: the cheap zero as the index of a slot. -/
def sizeAsSlot : List Byte := [0x3d, 0x54, 0x00]

/-- **An `i32` is stored through an `i256*`.** -/
theorem sload_of_size_ill_typed :
    BuilderRequest.store (.int 32) (.ptr Ty.word) ∈
      emittedRequests (plainEnv sizeAsSlot) sizeAsSlot ∧
    ¬ ∀ r ∈ emittedRequests (plainEnv sizeAsSlot) sizeAsSlot, r.wellTyped = true := by
  have hmem : BuilderRequest.store (.int 32) (.ptr Ty.word) ∈
      emittedRequests (plainEnv sizeAsSlot) sizeAsSlot := by
    decide +kernel
  exact ⟨hmem, fun h => absurd (h _ hmem) (by decide)⟩

end EvmTrans
