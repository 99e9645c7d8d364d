/-
# `EvmTrans.WordRegisters` — bytecode that keeps its registers 256 bits wide.

Eight opcodes push a register of 32 or 128 bits, and all that goes wrong with widths goes wrong
behind one of them. Bytecode without them is compiled to code in which every operand of every branch
is a word: one invariant of the register stack, kept by each instruction, over each block, and from
block to block along the queue. Such code is well typed, its jumps carry no narrow destination, and
the arithmetic of `EvmTrans.WordArithmetic` is all there is to its arithmetic.
-/
import EvmTrans.EmittedTypes
import EvmTrans.StackRefinement

namespace EvmTrans

open Lib (whileLoop whileLoop_congr)

/-! ## §1 — one instruction. -/

/-- The opcodes whose code pushes a register of 32 or 128 bits. -/
def Instruction.narrow : Instruction → Bool
  | .CODESIZE | .CALLDATASIZE | .RETURNDATASIZE | .EXTCODESIZE | .EXTCODEHASH | .CALLVALUE
  | .BALANCE | .SELFBALANCE => true
  | _ => false

/-- No instruction of the bytecode is one of them. -/
def NoNarrow (code : List Byte) : Prop := ∀ pc, Boundary code pc → (instAt code pc).narrow = false

/-- All values are words. -/
def Words (l : List Value) : Prop := ∀ v ∈ l, v.width = .i256

theorem Words.popped {l : List Value} (h : Words l) (n : Nat) : Words (popped n l) :=
  forall_popped (P := fun v => v.width = .i256) rfl h n

/-- A branch that is not narrow makes words of words. -/
theorem resultWidth_words {op : Instruction} (hop : op.narrow = false) {args : List Value}
    (h : Words args) : resultWidth op args = .i256 := by
  unfold resultWidth
  split
  all_goals first
    | rfl
    | exact Bool.noConfusion hop
    | exact h _ (by simp)
    | split
      · exact h _ (by simp)
      · rfl

section Instruction

variable {env : CompileEnv} {bb : BasicBlock} {i : Nat} {next : Label} {b : Builder}

/-- The insertion point in such code: registers on, words on the register stack, and a word where a
jump goes. -/
structure Builder.Words (b : Builder) : Prop where
  regs : b.enableRegs = true
  locals : EvmTrans.Words b.locals
  dest : ∀ v ∈ b.term.bind Term.destIdx, v.width = .i256

theorem Builder.Words.headD (h : b.Words) : (b.locals.headD (constWord 0)).width = .i256 := by
  cases hl : b.locals with
  | nil => rfl
  | cons v l => exact h.locals v (by rw [hl]; exact List.mem_cons_self)

theorem Builder.Words.tail (h : b.Words) : EvmTrans.Words b.locals.tail := fun v hv =>
  h.locals v (List.mem_of_mem_tail hv)

/-- Code that leaves words on the register stack, and does not jump. -/
theorem Builder.Words.with_locals (h : b.Words) {l : List Value} (hl : EvmTrans.Words l) {n : Nat}
    {is : List Instr} {t : Option Term}
    (ht : t.bind Term.destIdx = b.term.bind Term.destIdx ∨ t = some (.br .exit none))
    {cs : List (Word × Label)} :
    Builder.Words { b with next := n, code := is, locals := l, term := t, cases := cs } := by
  refine ⟨h.regs, hl, ?_⟩
  rcases ht with ht | rfl
  · show ∀ v ∈ t.bind Term.destIdx, _
    rw [ht]
    exact h.dest
  · intro v hv
    cases hv

theorem opcodeBuilder_words (hfold : env.FoldsInType) (h : b.Words) {op : Instruction}
    (hop : op.narrow = false) : (opcodeBuilder env op b).Words := by
  have hresult : resultWidth op (popped op.popCalls b.locals) = .i256 :=
    resultWidth_words hop (h.locals.popped op.popCalls)
  have hrest : EvmTrans.Words (b.locals.drop op.popCalls) :=
    fun v hv => h.locals v (List.mem_of_mem_drop hv)
  unfold opcodeBuilder
  dsimp only
  split
  · cases hf : env.fold op (popped op.popCalls b.locals) with
    | some v =>
      exact h.with_locals (List.forall_mem_cons.mpr ⟨(hfold hf).trans hresult, hrest⟩) (.inl rfl)
    | none =>
      have hnew : EvmTrans.Words (.reg (resultWidth op (popped op.popCalls b.locals)) b.next ::
          b.locals.drop op.popCalls) := List.forall_mem_cons.mpr ⟨hresult, hrest⟩
      exact h.with_locals hnew (.inl rfl)
  · exact h.with_locals hrest (.inl rfl)

/-- **One instruction** that is not narrow leaves words behind, and jumps to a word. -/
theorem compileInst_words (hfold : env.FoldsInType) (h : b.Words) (it : Nat) {inst : Instruction}
    (hinst : inst.narrow = false) : (compileInst env bb i next it inst b).2.Words := by
  have hop : ∀ op : Instruction, op.narrow = false → (compileOpcode env op b).2.Words := by
    intro op hop
    rw [compileOpcode_regs h.regs]
    exact opcodeBuilder_words hfold h hop
  have htail₂ : EvmTrans.Words b.locals.tail.tail := fun v hv => h.tail v (List.mem_of_mem_tail hv)
  cases inst with
  | POP =>
    show (GlobalStack.pop b).2.Words
    rw [pop_regs h.regs]
    exact h.with_locals h.tail (.inl rfl)
  | DUP n =>
    show (GlobalStack.dup (n - 1) b).2.Words
    rw [dup_regs h.regs]
    exact h.with_locals (List.forall_mem_cons.mpr
      ⟨forall_getD (P := fun v => v.width = .i256) rfl h.locals _, h.locals⟩) (.inl rfl)
  | SWAP n =>
    show (GlobalStack.swap (n - 1) b).2.Words
    rw [swap_regs h.regs]
    exact h.with_locals (forall_swapLocals (P := fun v => v.width = .i256) rfl h.locals _)
      (.inl rfl)
  | PC =>
    show (GlobalStack.push _ b).2.Words
    rw [push_regs h.regs]
    exact h.with_locals (List.forall_mem_cons.mpr ⟨rfl, h.locals⟩) (.inl rfl)
  | JUMPDEST => exact h.with_locals h.locals (.inl rfl)
  | STOP => exact h.with_locals h.locals (.inr rfl)
  | JUMP =>
    rw [compileInst_jump h.regs]
    refine ⟨h.regs, h.tail, fun v hv => ?_⟩
    rw [← Option.some.inj hv]
    exact h.headD
  | JUMPI =>
    rw [compileInst_jumpi h.regs]
    refine ⟨h.regs, htail₂, fun v hv => ?_⟩
    rw [← Option.some.inj hv]
    exact h.headD
  | RETURN =>
    rw [compileInst_return h.regs]
    exact h.with_locals htail₂ (.inr rfl)
  | REVERT =>
    rw [compileInst_revert h.regs]
    exact h.with_locals htail₂ (.inr rfl)
  | SUICIDE =>
    rw [compileInst_suicide h.regs]
    exact h.with_locals h.tail (.inr rfl)
  | CODESIZE => cases hinst
  | _ => exact hop _ hinst

end Instruction

/-! ## §2 — a block, and the blocks of a compilation. -/

section Blocks

variable {env : CompileEnv} {code : List Byte} {bs : List BasicBlock}

/-- The loop at `it`, in such code: at the end of the block or at an instruction of it, with
words. -/
structure WordsAt (code : List Byte) (bb : BasicBlock) (it : Nat) (b : Builder) : Prop where
  stands : StandsAt code bb it
  words : b.Words

section Loop

variable {bb : BasicBlock} {i it : Nat} {next : Label} {b : Builder}

theorem WordsAt.start (hg : GoodBlock code bb) (hb : b.Words) :
    WordsAt code bb bb.firstInstrIdx b :=
  ⟨.inl ⟨hg.first_boundary, Nat.le_refl _, hg.first_lt⟩, hb⟩

/-- A push leaves one word more. -/
theorem WordsAt.push (hg : GoodBlock code bb) (h : WordsAt code bb it b)
    (hne : it ≠ bb.endIdx) {n : Nat} (hn : instAt code it = .PUSH n) :
    WordsAt code bb ((readPushData code it bb.endIdx).2 + 1)
      (GlobalStack.push (.const .i256 (readPushData code it bb.endIdx).1) b).2 := by
  obtain ⟨hboundary, hfirst, hlt⟩ := h.stands.resolve_right hne
  rw [readPushData_snd hlt hn, push_regs h.words.regs]
  exact ⟨hg.standsAt_next hboundary hfirst,
    h.words.with_locals (List.forall_mem_cons.mpr ⟨rfl, h.words.locals⟩) (.inl rfl)⟩

theorem WordsAt.undefined (h : WordsAt code bb it b) :
    WordsAt code bb it (setTerm .unreachable b).2 :=
  ⟨h.stands, h.words.regs, h.words.locals, fun v hv => by cases hv⟩

theorem WordsAt.not_narrow (hcode : NoNarrow code) (h : WordsAt code bb it b)
    (hne : it ≠ bb.endIdx) : (instAt code it).narrow = false :=
  hcode it (h.stands.resolve_right hne).1

/-- So does every other instruction. -/
theorem WordsAt.inst (hfold : env.FoldsInType) (hcode : NoNarrow code) (hg : GoodBlock code bb)
    (h : WordsAt code bb it b) (hne : it ≠ bb.endIdx) (hnopush : ∀ n, instAt code it ≠ .PUSH n) :
    WordsAt code bb (it + 1) (compileInst env bb i next it (instAt code it) b).2 := by
  obtain ⟨hboundary, hfirst, hlt⟩ := h.stands.resolve_right hne
  have hnext := hg.standsAt_next hboundary hfirst
  rw [instrEnd_of_ne_push hnopush, Nat.min_eq_left hlt] at hnext
  exact ⟨hnext, compileInst_words hfold h.words it (h.not_narrow hcode hne)⟩

/-- **The loop over a block**: every branch gets words. -/
theorem blockSteps_words (hfold : env.FoldsInType) (hcode : NoNarrow code) (hg : GoodBlock code bb)
    (hb : b.Words) (fuel : Nat) :
    (∀ s ∈ blockSteps env code bb i next fuel bb.firstInstrIdx b, Words s.operands) ∧
      (compileBasicBlockLoop env code bb i next fuel bb.firstInstrIdx b).2.Words := by
  have hinst : ∀ {it b}, it ≠ bb.endIdx → (∀ n, instAt code it ≠ .PUSH n) → WordsAt code bb it b →
      Words (popCallsN (instAt code it).branchPops b).1 ∧
        WordsAt code bb (it + 1) (compileInst env bb i next it (instAt code it) b).2 := by
    intro it b hne hnopush h
    rw [popCallsN_regs _ h.words.regs]
    exact ⟨h.words.locals.popped _, h.inst hfold hcode hg hne hnopush⟩
  obtain ⟨hsteps, last, hend⟩ :=
    blockSteps_along (P := WordsAt code bb) (Q := fun s => Words s.operands)
      (fun hne hn h => h.push hg hne hn)
      (fun h => h.undefined) hinst fuel bb.firstInstrIdx b (.start hg hb)
  exact ⟨hsteps, hend.words⟩

end Loop

/-- The body of a call starts with words. -/
theorem Call.start_words {c : Call} (hp : Words c.pstack) :
    (bodyStart (c.inputs code bs).1 (c.inputs code bs).2).Words := by
  obtain ⟨hlocals, hterm⟩ : (c.inputs code bs).2.locals = [] ∧ (c.inputs code bs).2.term = none :=
    queuedInputs_kept _ _ _ _
  refine ⟨rfl, ?_, ?_⟩
  · show Words (_ ++ (c.inputs code bs).2.locals)
    rw [hlocals, List.append_nil]
    exact queuedInputs_handed (P := fun v => v.width = .i256) (fun _ hv => hv) _ _ hp _
  · show ∀ v ∈ (c.inputs code bs).2.term.bind Term.destIdx, _
    rw [hterm]
    intro v hv
    cases hv

/-- **One call**: words in, words out, and a jump to a word. -/
theorem Call.words (hfold : env.FoldsInType) (hcode : NoNarrow code)
    (hgood : ∀ bb ∈ bs, GoodBlock code bb) {c : Call} (hc : bs[c.i]? = some c.bb)
    (hp : Words c.pstack) :
    (∀ s ∈ c.steps env code bs, Words s.operands) ∧ (c.bodyEnd env code bs).Words :=
  blockSteps_words hfold hcode (hgood c.bb (List.mem_of_getElem? hc)) (Call.start_words hp) _

end Blocks

/-! ## §3 — the module. -/

section Module

variable {env : CompileEnv} {code : List Byte}

/-- **Every call** of a compilation is handed words. -/
theorem compileCalls_words (hfold : env.FoldsInType) (hcode : NoNarrow code) (hne : code ≠ []) :
    ∀ c ∈ compileCalls env code (blockTable code), (blockTable code)[c.i]? = some c.bb ∧
      Words c.pstack :=
  compileCalls_handed (P := fun v => v.width = .i256) fun _ hc hp =>
    (Call.words hfold hcode (blockTable_all_good hne) hc hp).2.locals

/-- `resolveJumps` keeps the operand of a jump. -/
theorem resolveBlock_destIdx (cases : List (Word × Label)) (next : Label) (b : IRBlock) :
    (resolveBlock cases next b).term.bind Term.destIdx = b.term.bind Term.destIdx := by
  unfold resolveBlock
  split
  all_goals rename_i h
  all_goals first
    | rfl
    | (rw [h]; rfl)

/-- A word is no narrow constant. -/
theorem wide_of_word {v : Value} (h : v.width = .i256) : v.Wide := by
  cases v with
  | const w x => exact h
  | reg w n => trivial

theorem wideDest_of_words {b : IRBlock} (h : ∀ v ∈ b.term.bind Term.destIdx, v.width = .i256) :
    b.WideDest :=
  fun v hv => wide_of_word (h v hv)

/-- A block of the module, before its jumps are resolved: one that was compiled, or one without a
jump. -/
theorem mem_functionBlocks {b : IRBlock}
    (hb : b ∈ functionBlocks (compileBlocks env code (blockTable code)) (blockTable code).length) :
    (∃ c ∈ compileCalls env code (blockTable code),
      b = (c.final env code (blockTable code)).block c.i) ∨
      b.term.bind Term.destIdx = none := by
  unfold functionBlocks at hb
  simp only [List.mem_cons, List.mem_append, List.mem_map, List.not_mem_nil, or_false] at hb
  rcases hb with rfl | ⟨i, -, rfl⟩ | rfl | rfl | rfl | rfl
  · exact .inr rfl
  · unfold Main.blockAt
    cases hl : (compileBlocks env code (blockTable code)).out.lookup i with
    | none => exact .inr rfl
    | some b =>
      obtain ⟨l₁, l₂, hout, -⟩ := List.lookup_eq_some_iff.mp hl
      have hmem : (i, b) ∈ (compileBlocks env code (blockTable code)).out := by
        rw [hout]
        exact List.mem_append_right _ List.mem_cons_self
      rw [compileBlocks_out, List.mem_reverse, List.mem_map] at hmem
      obtain ⟨c, hc, heq⟩ := hmem
      cases heq
      exact .inl ⟨c, hc, rfl⟩
  all_goals exact .inr rfl

/-- **No jump of the module has a narrow destination.** -/
theorem compileMain_wideDest (hfold : env.FoldsInType) (hcode : NoNarrow code) (hne : code ≠ []) :
    ∀ b ∈ compileMain env code, b.WideDest := by
  have hblocks :
      ∀ b ∈ functionBlocks (compileBlocks env code (blockTable code)) (blockTable code).length,
      ∀ v ∈ b.term.bind Term.destIdx, v.width = .i256 := by
    intro b hb
    rcases mem_functionBlocks hb with ⟨c, hc, rfl⟩ | hnone
    · obtain ⟨hbb, hp⟩ := compileCalls_words hfold hcode hne c hc
      have hend := (Call.words hfold hcode (blockTable_all_good hne) hbb hp).2
      show ∀ v ∈ (spill (c.bodyEnd env code (blockTable code))).term.bind Term.destIdx, _
      rw [(spill_quiet _).term]
      exact hend.dest
    · rw [hnone]
      intro v hv
      cases hv
  intro b hb
  obtain ⟨k, hk, rfl⟩ := List.mem_mapIdx.mp hb
  have hmem := List.getElem_mem hk
  split
  · split
    · refine wideDest_of_words ?_
      rw [resolveBlock_destIdx]
      exact hblocks _ hmem
    · exact wideDest_of_words (hblocks _ hmem)
  · exact wideDest_of_words (hblocks _ hmem)

/-- Operands that are words fit every branch. -/
theorem fits_of_words {inst : Instruction} {operands : List Value} (h : Words operands) :
    Fits inst operands := by
  unfold Fits
  split
  all_goals simp_all [Words]

/-- **All the code is well typed.** -/
theorem words_wellTyped (hfold : env.FoldsInType) (hcode : NoNarrow code) (hne : code ≠ []) :
    ∀ r ∈ emittedRequests env code, r.wellTyped = true := by
  unfold emittedRequests
  rw [List.forall_mem_flatMap]
  intro s hs
  obtain ⟨c, hc, hsc⟩ := List.mem_flatMap.mp hs
  obtain ⟨hbb, hp⟩ := compileCalls_words hfold hcode hne c hc
  have hwords := (Call.words hfold hcode (blockTable_all_good hne) hbb hp).1 s hsc
  exact (emittedSteps_proper hfold s hs).typed_iff.mpr (fits_of_words hwords)

end Module

/-! ## §4 — the folder. -/

/-- Two compilations that fold the same words to the same values. -/
structure FoldsAlike (env env' : CompileEnv) : Prop where
  bytecode : env.bytecode = env'.bytecode
  retPC : env.retPC = env'.retPC
  rtWasmCode : env.rtWasmCode = env'.rtWasmCode
  fold : ∀ {op args}, Words args → env.fold op args = env'.fold op args

section Folding

variable {env env' : CompileEnv} {code : List Byte} {bs : List BasicBlock} {bb : BasicBlock}
  {i : Nat} {next : Label} {b : Builder}

/-- **One instruction** with words on the register stack. -/
theorem compileInst_congr (hs : FoldsAlike env env') (h : b.Words) (it : Nat) (inst : Instruction) :
    (compileInst env bb i next it inst b).2 = (compileInst env' bb i next it inst b).2 := by
  have hop : ∀ op, compileOpcode env op b = compileOpcode env' op b := by
    intro op
    rw [compileOpcode_regs h.regs, compileOpcode_regs h.regs]
    unfold opcodeBuilder
    dsimp only
    rw [hs.fold (h.locals.popped _)]
  cases inst with
  | CODESIZE =>
    show (GlobalStack.push _ b).2 = (GlobalStack.push _ b).2
    rw [hs.bytecode]
  | RETURN =>
    rw [compileInst_return h.regs, compileInst_return h.regs, hs.retPC, hs.rtWasmCode]
  | STOP | POP | DUP | SWAP | JUMP | JUMPI | JUMPDEST | PC | REVERT | SUICIDE => rfl
  | _ => exact congrArg Prod.snd (hop _)

/-- **The loop over a block.** -/
theorem compileBasicBlockLoop_congr (hfold : env.FoldsInType) (hcode : NoNarrow code)
    (hs : FoldsAlike env env') (hg : GoodBlock code bb) :
    ∀ (fuel it : Nat) {b : Builder}, WordsAt code bb it b →
      compileBasicBlockLoop env code bb i next fuel it b =
        compileBasicBlockLoop env' code bb i next fuel it b := by
  intro fuel
  induction fuel with
  | zero => exact fun _ _ _ => rfl
  | succ fuel ih =>
    intro it b h
    by_cases hne : it = bb.endIdx
    · unfold compileBasicBlockLoop
      rw [if_pos hne, if_pos hne]
    by_cases hpush : ∃ n, instAt code it = .PUSH n
    · obtain ⟨n, hn⟩ := hpush
      unfold compileBasicBlockLoop
      rw [if_neg hne, if_neg hne, hn]
      exact ih _ (h.push hg hne hn)
    by_cases hundef : ∃ x, instAt code it = .UNDEFINED x
    · obtain ⟨x, hx⟩ := hundef
      unfold compileBasicBlockLoop
      rw [if_neg hne, if_neg hne, hx]
    have hnopush : ∀ n, instAt code it ≠ .PUSH n := fun n hn => hpush ⟨n, hn⟩
    have hnoundef : ∀ x, instAt code it ≠ .UNDEFINED x := fun x hx => hundef ⟨x, hx⟩
    rw [compileBasicBlockLoop_inst hne hnopush hnoundef,
      compileBasicBlockLoop_inst hne hnopush hnoundef, ← compileInst_congr hs h.words]
    exact ih _ (h.inst hfold hcode hg hne hnopush)

variable (hfold : env.FoldsInType) (hcode : NoNarrow code) (hs : FoldsAlike env env')
  (hgood : ∀ bb ∈ bs, GoodBlock code bb)

include hfold hcode hs hgood

/-- **One call.** -/
theorem Call.bodyEnd_congr {c : Call} (hc : bs[c.i]? = some c.bb) (hp : Words c.pstack) :
    c.bodyEnd env code bs = c.bodyEnd env' code bs := by
  have hg := hgood c.bb (List.mem_of_getElem? hc)
  show (compileBasicBlock env code c.bb c.i _ _).2 = (compileBasicBlock env' code c.bb c.i _ _).2
  unfold compileBasicBlock
  rw [compileBasicBlockLoop_congr hfold hcode hs hg _ _ (.start hg (Call.start_words hp))]

theorem queueBody_congr {m : Main} (h : ∀ p ∈ m.queue, Words p.2) :
    queueBody env code bs m = queueBody env' code bs m := by
  unfold queueBody
  split
  · rfl
  · rename_i p ps rest hqueue
    have hps : Words ps := h (p, ps) (by rw [hqueue]; exact List.mem_cons_self)
    split
    · rfl
    · split
      · rfl
      · split
        · rfl
        · rename_i i _ _ bb hbb
          have hcall :=
            Call.bodyEnd_congr hfold hcode hs hgood (c := ⟨i, bb, ps, m.next, m.cases⟩) hbb hps
          rw [compileQueued_eq, compileQueued_eq]
          unfold Call.view Call.final
          rw [hcall]

theorem leftoverBody_congr (m : Main) (i : Nat) :
    leftoverBody env code bs m i = leftoverBody env' code bs m i := by
  unfold leftoverBody
  split
  · rfl
  · split
    · rfl
    · rename_i bb hbb
      have hcall := Call.bodyEnd_congr hfold hcode hs hgood (c := ⟨i, bb, [], m.next, m.cases⟩) hbb
        fun v hv => absurd hv List.not_mem_nil
      rw [compileLeftover_eq, compileLeftover_eq]
      unfold Call.final
      rw [hcall]

theorem compileBlocks_congr : compileBlocks env code bs = compileBlocks env' code bs := by
  have hkept : ∀ m m', (∀ p ∈ m.queue, Words p.2) → queueBody env code bs m = some m' →
      ∀ p ∈ m'.queue, Words p.2 :=
    fun m m' h hb => queueBody_handed
      (fun c hc hp => (Call.words hfold hcode hgood hc hp).2.locals) h hb
  have hqueue : whileLoop (queueBody env code bs) (queueFuel bs) .start =
      whileLoop (queueBody env' code bs) (queueFuel bs) .start := by
    refine whileLoop_congr (P := fun m : Main => ∀ p ∈ m.queue, Words p.2)
      (fun m h => queueBody_congr hfold hcode hs hgood h) hkept _ _ fun p hp => ?_
    rw [List.mem_singleton.mp hp]
    exact fun v hv => absurd hv List.not_mem_nil
  have hleftover : leftoverBody env code bs = leftoverBody env' code bs :=
    funext fun m => funext fun i => leftoverBody_congr hfold hcode hs hgood m i
  show (List.range bs.length).foldl (leftoverBody env code bs) (whileLoop _ _ .start) =
    (List.range bs.length).foldl (leftoverBody env' code bs) (whileLoop _ _ .start)
  rw [hqueue, hleftover]

omit hgood in
/-- **Only words are folded**: what the folder makes of narrow constants does not matter to such
code. -/
theorem compileMain_congr (hne : code ≠ []) : compileMain env code = compileMain env' code := by
  have hblocks :
      compileBlocks env code (blockTable code) = compileBlocks env' code (blockTable code) :=
    compileBlocks_congr hfold hcode hs (blockTable_all_good hne)
  unfold compileMain
  dsimp only
  rw [show dryRun code (createBasicBlocks code) = blockTable code from rfl, hblocks]

end Folding

end EvmTrans
