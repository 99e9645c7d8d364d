/-
# `EvmTrans.SsaForm` — the emitted function is in SSA form.

LLVM wants every register defined once, and every use behind its definition on every path. Inside a
block that is how `IRBuilder` works. Between blocks it hangs on the queue of `compileMain`, which
hands a block the registers that its first predecessor left: they are good there only because that
predecessor is the block in front, and control comes from nowhere else. `emitted_ssa` says it of the
whole function.
-/
import EvmTrans.EmittedTypes
import EvmTrans.StackRefinement
import EvmTrans.Lib.Dominance

namespace EvmTrans

open Lib (Scoping FlowGraph whileLoop)

/-! ## §1 — what an instruction defines and reads. -/

/-- The register an instruction defines, with its type. -/
def Instr.defines : Instr → Option (Nat × Width)
  | .load d _ | .add d _ _ | .sub d _ _ | .zext d _ => some (d, .i256)
  | .icmpNE d _ => some (d, .i1)
  | .opcode d op args => some (d, if op.pushCall then resultWidth op args else .i256)
  | _ => none

/-- The operand in an address. -/
def Ptr.operands : Ptr → List Value
  | .mstk idx => [idx]
  | _ => []

/-- The operands of an instruction. -/
def Instr.operands : Instr → List Value
  | .load _ p => p.operands
  | .store v p => v :: p.operands
  | .add _ a b | .sub _ a b | .finish a b | .revert a b => [a, b]
  | .zext _ v | .icmpNE _ v | .selfDestruct v => [v]
  | .opcode _ _ args => args
  | .finishData _ => []

/-- The register that a value is, with the type at which it is used. -/
def Value.register : Value → Option (Nat × Width)
  | .const _ _ => none
  | .reg w id => some (id, w)

/-- The registers of the emitted function: a use has a type, and so has a definition. -/
def registers : Scoping Instr (Nat × Width) where
  defines := Instr.defines
  reads := fun x => x.operands.filterMap Value.register

/-- A constant, or one of the given registers. -/
def Value.Known (A : Nat × Width → Prop) (v : Value) : Prop := ∀ r ∈ v.register, A r

section Known

variable {A B : Nat × Width → Prop} {v : Value}

@[simp] theorem known_const (w : Width) (x : Word) :
    (Value.const w x).Known A := fun _ h => (by cases h)

@[simp] theorem known_constWord (n : Nat) : (constWord n).Known A := known_const _ _

@[simp] theorem known_reg (w : Width) (id : Nat) : (Value.reg w id).Known A ↔ A (id, w) := by
  simp [Value.Known, Value.register]

theorem Value.Known.mono (h : v.Known A) (hAB : ∀ r, A r → B r) :
    v.Known B := fun r hr => hAB r (h r hr)

/-- The instruction reads known values only. -/
theorem reads_known {x : Instr} : (∀ r ∈ registers.reads x, A r) ↔ ∀ v ∈ x.operands, v.Known A := by
  simp only [registers, List.mem_filterMap, Value.Known, Option.mem_def]
  exact ⟨fun h v hv r hr => h r ⟨v, hv, hr⟩, fun h r ⟨v, hv, hr⟩ => h v hv r hr⟩

@[simp] theorem scoped_cons {x : Instr} {is : List Instr} : registers.Scoped A (x :: is) ↔
    (∀ v ∈ x.operands, v.Known A) ∧ registers.Scoped (fun r => A r ∨ x.defines = some r) is := by
  rw [← reads_known]
  rfl

@[simp] theorem scoped_nil : registers.Scoped A [] := trivial

theorem scoped_singleton {x : Instr} : registers.Scoped A [x] ↔ ∀ v ∈ x.operands, v.Known A := by
  rw [scoped_cons]
  exact and_iff_left trivial

end Known

/-! ## §2 — the builder. -/

/-- The registers that can be used at the insertion point, in a block that counts on those of
`A`. -/
def Builder.Available (A : Nat × Width → Prop) (b : Builder) (r : Nat × Width) : Prop :=
  A r ∨ r ∈ registers.definitions b.code

/-- **The code of a block so far**: scoped, and its registers numbered from `start` on. -/
structure Builder.Ssa (A : Nat × Width → Prop) (start : Nat) (b : Builder) : Prop where
  inScope : registers.Scoped A b.code
  start_le : start ≤ b.next
  numbered : (registers.definitions b.code).map Prod.fst = List.range' start (b.next - start)

/-- From `b` to `b'`, the code was only added to, and is still in order. -/
structure SsaGrows (A : Nat × Width → Prop) (start : Nat) (b b' : Builder) : Prop where
  ssa : b'.Ssa A start
  code : ∃ is, b'.code = b.code ++ is

section Builder

variable {A : Nat × Width → Prop} {start : Nat} {b b' b'' : Builder} {v : Value}

theorem SsaGrows.refl (h : b.Ssa A start) : SsaGrows A start b b :=
  ⟨h, [], (List.append_nil _).symm⟩

theorem SsaGrows.trans (h₁ : SsaGrows A start b b') (h₂ : SsaGrows A start b' b'') :
    SsaGrows A start b b'' := by
  obtain ⟨is₁, hc₁⟩ := h₁.code
  obtain ⟨is₂, hc₂⟩ := h₂.code
  exact ⟨h₂.ssa, is₁ ++ is₂, by rw [hc₂, hc₁, List.append_assoc]⟩

/-- Other fields of the builder do not matter. -/
theorem Builder.Ssa.congr (h : b.Ssa A start) (hn : b'.next = b.next) (hc : b'.code = b.code) :
    b'.Ssa A start :=
  ⟨hc ▸ h.inScope, hn ▸ h.start_le, by rw [hc, hn]; exact h.numbered⟩

theorem Builder.Ssa.rearranged (h : b.Ssa A start) (hn : b'.next = b.next) (hc : b'.code = b.code) :
    SsaGrows A start b b' :=
  ⟨h.congr hn hc, [], by rw [hc, List.append_nil]⟩

/-- What is known stays known. -/
theorem SsaGrows.known (h : SsaGrows A start b b') (hv : v.Known (b.Available A)) :
    v.Known (b'.Available A) := by
  obtain ⟨is, hc⟩ := h.code
  refine hv.mono fun r hr => hr.imp_right fun hmem => ?_
  rw [hc, Scoping.definitions_append]
  exact List.mem_append_left _ hmem

/-- **Code that is appended**: it reads what is available, and numbers its registers from `next`
on. -/
theorem Builder.Ssa.append (h : b.Ssa A start) {l : List Instr} {n : Nat}
    (hs : registers.Scoped (b.Available A) l)
    (hn : (registers.definitions l).map Prod.fst = List.range' b.next n)
    (hnext : b'.next = b.next + n) (hcode : b'.code = b.code ++ l) : SsaGrows A start b b' := by
  have hle := h.start_le
  refine ⟨⟨?_, by omega, ?_⟩, l, hcode⟩
  · rw [hcode]
    exact h.inScope.append hs
  · rw [hcode, Scoping.definitions_append, List.map_append, h.numbered, hn, hnext,
      show b.next + n - start = (b.next - start) + n by omega, ← List.range'_append_1,
      show start + (b.next - start) = b.next by omega]

/-- One instruction that defines the next register. -/
theorem Builder.Ssa.define (h : b.Ssa A start) {x : Instr} {w : Width}
    (hx : x.defines = some (b.next, w)) (hv : ∀ v ∈ x.operands, v.Known (b.Available A))
    (hnext : b'.next = b.next + 1) (hcode : b'.code = b.code ++ [x]) : SsaGrows A start b b' := by
  refine h.append (n := 1) (scoped_singleton.mpr hv) ?_ hnext hcode
  simp [Scoping.definitions, registers, hx]

/-- One instruction that defines none. -/
theorem Builder.Ssa.emit (h : b.Ssa A start) {x : Instr} (hx : x.defines = none)
    (hv : ∀ v ∈ x.operands, v.Known (b.Available A)) (hnext : b'.next = b.next)
    (hcode : b'.code = b.code ++ [x]) : SsaGrows A start b b' := by
  refine h.append (n := 0) (scoped_singleton.mpr hv) ?_ hnext hcode
  simp [Scoping.definitions, registers, hx]

/-- The register just defined. -/
theorem SsaGrows.known_last {x : Instr} {w : Width} {id : Nat} (hx : x.defines = some (id, w))
    (hcode : b'.code = b.code ++ [x]) : (Value.reg w id).Known (b'.Available A) := by
  rw [known_reg]
  refine Or.inr ?_
  rw [hcode, Scoping.definitions_append]
  exact List.mem_append_right _ (by simp [Scoping.definitions, registers, hx])

/-! ### The memory mode of `push` and `pop`. -/

/-- A push from a register to `mstk`: a narrow one is extended on the way. -/
theorem push_mem_ssa (hr : b.enableRegs = false) (h : b.Ssa A start)
    (hv : v.Known (b.Available A)) :
    SsaGrows A start b (GlobalStack.push v b).2 ∧ (GlobalStack.push v b).2.enableRegs = false := by
  have hmem : GlobalStack.push v b = ((if v.width ≠ .i256 then (do
      let tsp ← createLoad .spPtr
      let tsp1 ← createAdd tsp (constWord 1)
      createStore tsp1 .spPtr
      let v256 ← createZExt v
      let p ← GlobalStack.getPtr 0
      createStore v256 p)
    else (do
      let tsp ← createLoad .spPtr
      let tsp1 ← createAdd tsp (constWord 1)
      createStore tsp1 .spPtr
      let p ← GlobalStack.getPtr 0
      createStore v p) : Build Unit) b) := by
    show (if b.enableRegs = true then _ else _ : Build Unit) b = _
    rw [if_neg (by rw [hr]; exact Bool.false_ne_true)]
    split <;> rfl
  rw [hmem]
  split
  · refine ⟨?_, hr⟩
    refine h.append (n := 4)
      (l := [.load b.next .spPtr, .add (b.next + 1) (.reg .i256 b.next) (constWord 1),
      .store (.reg .i256 (b.next + 1)) .spPtr, .zext (b.next + 2) v, .load (b.next + 3) .spPtr,
      .store (.reg .i256 (b.next + 2)) (.mstk (.reg .i256 (b.next + 3)))]) ?_ rfl rfl ?_
    · simp [Instr.operands, Ptr.operands, Instr.defines]
      exact hv.mono fun r hr => .inl (.inl hr)
    · show (((((b.code ++ [_]) ++ [_]) ++ [_]) ++ [_]) ++ [_]) ++ [_] = _
      simp only [List.append_assoc, List.cons_append, List.nil_append]
  · refine ⟨?_, hr⟩
    refine h.append (n := 3)
      (l := [.load b.next .spPtr, .add (b.next + 1) (.reg .i256 b.next) (constWord 1),
      .store (.reg .i256 (b.next + 1)) .spPtr, .load (b.next + 2) .spPtr,
      .store v (.mstk (.reg .i256 (b.next + 2)))]) ?_ rfl rfl ?_
    · simp [Instr.operands, Ptr.operands, Instr.defines]
      exact hv.mono fun r hr => .inl (.inl (.inl hr))
    · show ((((b.code ++ [_]) ++ [_]) ++ [_]) ++ [_]) ++ [_] = _
      simp only [List.append_assoc, List.cons_append, List.nil_append]

/-- A pop from `mstk` defines the register it delivers. -/
theorem pop_mem_ssa (hr : b.enableRegs = false) (h : b.Ssa A start) :
    SsaGrows A start b (GlobalStack.pop b).2 ∧
      (GlobalStack.pop b).1.Known ((GlobalStack.pop b).2.Available A) := by
  have hmem : GlobalStack.pop b = (do
      let p ← GlobalStack.getPtr 0
      let item ← createLoad p
      let tsp ← createLoad .spPtr
      let tsp1 ← createSub tsp (constWord 1)
      createStore tsp1 .spPtr
      return item : Build Value) b := by
    show (if b.enableRegs = true then _ else _ : Build Value) b = _
    rw [if_neg (by rw [hr]; exact Bool.false_ne_true)]
  have hcode : (GlobalStack.pop b).2.code = b.code ++ [.load b.next .spPtr,
      .load (b.next + 1) (.mstk (.reg .i256 b.next)), .load (b.next + 2) .spPtr,
      .sub (b.next + 3) (.reg .i256 (b.next + 2)) (constWord 1),
      .store (.reg .i256 (b.next + 3)) .spPtr] := by
    rw [hmem]
    show ((((b.code ++ [_]) ++ [_]) ++ [_]) ++ [_]) ++ [_] = _
    simp only [List.append_assoc, List.cons_append, List.nil_append]
  refine ⟨h.append (n := 4) ?_ rfl (by rw [hmem]; rfl) hcode, ?_⟩
  · simp [Instr.operands, Ptr.operands, Instr.defines]
  · have hitem : (GlobalStack.pop b).1 = .reg .i256 (b.next + 1) := by rw [hmem]; rfl
    rw [hitem, known_reg]
    refine .inr ?_
    rw [hcode, Scoping.definitions_append]
    exact List.mem_append_right _ (by simp [Scoping.definitions, registers, Instr.defines])

/-- The spill. -/
theorem pushAll_mem_ssa : ∀ (vs : List Value) {b : Builder}, b.enableRegs = false → b.Ssa A start →
    (∀ v ∈ vs, v.Known (b.Available A)) → SsaGrows A start b (pushAll vs b).2 := by
  intro vs
  induction vs with
  | nil => exact fun _ h _ => .refl h
  | cons v vs ih =>
    intro b hr h hvs
    obtain ⟨hv, hvs⟩ := List.forall_mem_cons.mp hvs
    obtain ⟨hgrows, hr'⟩ := push_mem_ssa hr h hv
    exact hgrows.trans (ih hr' hgrows.ssa fun u hu => hgrows.known (hvs u hu))

theorem popCallsN_mem_ssa : ∀ (n : Nat) {b : Builder}, b.enableRegs = false → b.Ssa A start →
    SsaGrows A start b (popCallsN n b).2 ∧
      ∀ v ∈ (popCallsN n b).1, v.Known ((popCallsN n b).2.Available A) := by
  intro n
  induction n with
  | zero => exact fun _ h => ⟨.refl h, fun v hv => absurd hv List.not_mem_nil⟩
  | succ n ih =>
    intro b hr h
    obtain ⟨hgrows, hv⟩ := pop_mem_ssa hr h
    obtain ⟨hgrows', hvs⟩ := ih ((pop_mem_static hr).2.2.enableRegs.trans hr) hgrows.ssa
    exact ⟨hgrows.trans hgrows', List.forall_mem_cons.mpr ⟨hgrows'.known hv, hvs⟩⟩

/-- **The inputs of a block** are popped, or known beforehand. -/
theorem queuedInputs_ssa (inherit : Bool) (stkIn : Nat) {pstack : List Value} (h : b.Ssa A start)
    (hp : inherit = true → ∀ v ∈ pstack, v.Known (b.Available A)) :
    SsaGrows A start b (queuedInputs inherit stkIn pstack b).2 ∧
      ∀ v ∈ (queuedInputs inherit stkIn pstack b).1,
        v.Known ((queuedInputs inherit stkIn pstack b).2.Available A) := by
  unfold queuedInputs
  split
  · rename_i hcond
    have hp := hp (Bool.and_elim_left hcond)
    -- `spPtr` is lowered in front of the pops
    have hlower : SsaGrows A start b
        { (lowerSp (pstack.take stkIn).length b).2 with enableRegs := false } := by
      refine h.append (n := 2) (l := [.load b.next .spPtr, .sub (b.next + 1) (.reg .i256 b.next)
        (constWord (pstack.take stkIn).length),
        .store (.reg .i256 (b.next + 1)) .spPtr]) ?_ rfl rfl ?_
      · simp [Instr.operands, Ptr.operands, Instr.defines]
      · show ((b.code ++ [_]) ++ [_]) ++ [_] = _
        simp only [List.append_assoc, List.cons_append, List.nil_append]
    obtain ⟨hpops, hvs⟩ := popCallsN_mem_ssa (stkIn - (pstack.take stkIn).length) rfl hlower.ssa
    refine ⟨hlower.trans hpops, List.forall_mem_append.mpr ⟨fun v hv => ?_, hvs⟩⟩
    exact hpops.known (hlower.known (hp v (List.mem_of_mem_take hv)))
  · obtain ⟨hpops, hvs⟩ :=
      popCallsN_mem_ssa stkIn (b := { b with enableRegs := false }) rfl (h.congr rfl rfl)
    have hregs : SsaGrows A start b { b with enableRegs := false } := h.rearranged rfl rfl
    exact ⟨hregs.trans hpops, hvs⟩

end Builder

/-! ## §3 — the body of a block. -/

/-- The register that a terminator reads. -/
def Term.operands : Term → List Value
  | .condBr c _ _ _ => [c]
  | .switch v _ _ => [v]
  | _ => []

/-- A terminator of `compileBasicBlock`: it reads a register that can be used, and goes to the jump
table, to `Exit` or to the block behind. -/
structure Term.Closes (A : Nat × Width → Prop) (next : Label) (t : Term) : Prop where
  known : ∀ v ∈ t.operands, v.Known A
  goes : ∀ l ∈ t.successors, l = .jumpTable ∨ l = .exit ∨ l = next

/-- The insertion point inside a block: what stands on the register stack can be used. -/
structure Builder.SsaBody (A : Nat × Width → Prop) (start : Nat) (next : Label) (b : Builder) :
    Prop where
  regs : b.enableRegs = true
  ssa : b.Ssa A start
  locals : ∀ v ∈ b.locals, v.Known (b.Available A)
  term : ∀ t ∈ b.term, t.Closes (b.Available A) next

section Body

variable {A : Nat × Width → Prop} {start : Nat} {env : CompileEnv} {bb : BasicBlock} {i : Nat}
  {next : Label} {b b' : Builder}

/-- The builder after code that leaves `l` on the register stack. -/
theorem Builder.SsaBody.grow (h : b.SsaBody A start next) (hgrows : SsaGrows A start b b')
    (hr : b'.enableRegs = true) (hl : ∀ v ∈ b'.locals, v.Known (b'.Available A))
    (ht : b'.term = b.term ∨ ∀ t ∈ b'.term, t.Closes (b'.Available A) next) :
    b'.SsaBody A start next := by
  refine ⟨hr, hgrows.ssa, hl, ht.elim (fun heq => ?_) id⟩
  rw [heq]
  exact fun t ht => ⟨fun v hv => hgrows.known ((h.term t ht).known v hv), (h.term t ht).goes⟩

/-- The way to `Exit`, and the end of a block with an undefined opcode. -/
theorem closes_exit : (Term.br .exit none).Closes A next :=
  ⟨fun _ hv => absurd hv List.not_mem_nil, fun _ hl => .inr (.inl (List.mem_singleton.mp hl))⟩

theorem closes_unreachable : Term.unreachable.Closes A next :=
  ⟨fun _ hv => absurd hv List.not_mem_nil, fun _ hl => absurd hl List.not_mem_nil⟩

theorem closes_jump (idx : Option Value) : (Term.br .jumpTable idx).Closes A next :=
  ⟨fun _ hv => absurd hv List.not_mem_nil, fun _ hl => .inl (List.mem_singleton.mp hl)⟩

theorem closes_jumpi {c : Value} (hc : c.Known A) (idx : Option Value) :
    (Term.condBr c .jumpTable next idx).Closes A next := by
  refine ⟨List.forall_mem_singleton.mpr hc, fun l hl => ?_⟩
  rcases List.mem_cons.mp hl with hl | hl
  · exact .inl hl
  · exact .inr (.inr (List.mem_singleton.mp hl))

theorem opcodeBuilder_ssa (h : b.SsaBody A start next) (op : Instruction) :
    (opcodeBuilder env op b).SsaBody A start next := by
  have hargs : ∀ v ∈ popped op.popCalls b.locals, v.Known (b.Available A) :=
    forall_popped (known_constWord 0) h.locals _
  have hrest : ∀ v ∈ b.locals.drop op.popCalls, v.Known (b.Available A) := fun v hv =>
    h.locals v (List.mem_of_mem_drop hv)
  have hdefine : ∀ {b' : Builder}, b'.next = b.next + 1 →
      b'.code = b.code ++ [.opcode b.next op (popped op.popCalls b.locals)] →
      SsaGrows A start b b' :=
    fun hn hc => h.ssa.define (x := .opcode b.next op (popped op.popCalls b.locals)) rfl hargs hn hc
  unfold opcodeBuilder
  dsimp only
  split
  · rename_i hpush
    cases hf : env.fold op (popped op.popCalls b.locals) with
    | some v =>
      refine h.grow (h.ssa.rearranged rfl rfl) h.regs (List.forall_mem_cons.mpr ⟨?_, hrest⟩)
        (.inl rfl)
      rcases env.fold_mem hf with hmem | ⟨w, x, rfl⟩
      · exact hargs v hmem
      · exact known_const w x
    | none =>
      have hgrows : SsaGrows A start b ⟨b.next + 1,
          b.code ++ [.opcode b.next op (popped op.popCalls b.locals)],
          .reg (resultWidth op (popped op.popCalls b.locals)) b.next :: b.locals.drop op.popCalls,
          b.enableRegs, b.term, b.cases⟩ := hdefine rfl rfl
      refine h.grow hgrows h.regs
        (List.forall_mem_cons.mpr ⟨?_, fun v hv => hgrows.known (hrest v hv)⟩) (.inl rfl)
      refine SsaGrows.known_last (x := .opcode b.next op (popped op.popCalls b.locals)) ?_ rfl
      show some (b.next, if op.pushCall = true then _ else _) = _
      rw [if_pos hpush]
  · have hgrows : SsaGrows A start b
        ⟨b.next + 1, b.code ++ [.opcode b.next op (popped op.popCalls b.locals)],
        b.locals.drop op.popCalls, b.enableRegs, b.term, b.cases⟩ := hdefine rfl rfl
    exact h.grow hgrows h.regs (fun v hv => hgrows.known (hrest v hv)) (.inl rfl)

/-- **One instruction** reads the register stack, and leaves registers that it found or defined. -/
theorem compileInst_ssa (h : b.SsaBody A start next) (it : Nat) (inst : Instruction) :
    (compileInst env bb i next it inst b).2.SsaBody A start next := by
  have hzero : (constWord 0).Known (b.Available A) := known_constWord 0
  have hhead : (b.locals.headD (constWord 0)).Known (b.Available A) := by
    rw [List.headD_eq_head?_getD]
    cases hl : b.locals.head? with
    | none => exact hzero
    | some v => exact h.locals v (List.mem_of_mem_head? hl)
  have htail : ∀ v ∈ b.locals.tail, v.Known (b.Available A) :=
    fun v hv => h.locals v (List.mem_of_mem_tail hv)
  have htail₂ : ∀ v ∈ b.locals.tail.tail, v.Known (b.Available A) :=
    fun v hv => htail v (List.mem_of_mem_tail hv)
  have hsecond : (b.locals.tail.headD (constWord 0)).Known (b.Available A) := by
    rw [List.headD_eq_head?_getD]
    cases hl : b.locals.tail.head? with
    | none => exact hzero
    | some v => exact htail v (List.mem_of_mem_head? hl)
  have htwo : ∀ v ∈ [b.locals.headD (constWord 0), b.locals.tail.headD (constWord 0)],
      v.Known (b.Available A) :=
    List.forall_mem_cons.mpr ⟨hhead, List.forall_mem_singleton.mpr hsecond⟩
  -- what is only rearranged, what one instruction is appended to, and a terminator that reads
  -- nothing
  have hrearranged : ∀ {l : List Value} {cs : List (Word × Label)},
      (∀ v ∈ l, v.Known (b.Available A)) →
      Builder.SsaBody A start next { b with locals := l, cases := cs } := fun hl =>
    h.grow (h.ssa.rearranged rfl rfl) h.regs hl (.inl rfl)
  have hends : ∀ {l : List Value} {x : Instr}, (∀ v ∈ l, v.Known (b.Available A)) →
      x.defines = none → (∀ v ∈ x.operands, v.Known (b.Available A)) →
      ∀ {t : Term}, (∀ {B}, t.Closes B next) → Builder.SsaBody A start next
        { b with locals := l, code := b.code ++ [x], term := some t } := by
    intro l x hl hx hops t ht
    have hgrows :
        SsaGrows A start b { b with locals := l, code := b.code ++ [x], term := some t } :=
      h.ssa.emit hx hops rfl rfl
    refine h.grow hgrows h.regs (fun v hv => hgrows.known (hl v hv)) (.inr fun u hu => ?_)
    rw [← Option.some.inj hu]
    exact ht
  have hop : ∀ op, (compileOpcode env op b).2.SsaBody A start next := by
    intro op
    rw [compileOpcode_regs h.regs]
    exact opcodeBuilder_ssa h op
  cases inst with
  | POP =>
    show (GlobalStack.pop b).2.SsaBody A start next
    rw [pop_regs h.regs]
    exact hrearranged htail
  | DUP n =>
    show (GlobalStack.dup (n - 1) b).2.SsaBody A start next
    rw [dup_regs h.regs]
    exact hrearranged (List.forall_mem_cons.mpr ⟨forall_getD hzero h.locals _, h.locals⟩)
  | SWAP n =>
    show (GlobalStack.swap (n - 1) b).2.SsaBody A start next
    rw [swap_regs h.regs]
    exact hrearranged (forall_swapLocals hzero h.locals _)
  | PC | CODESIZE =>
    show (GlobalStack.push _ b).2.SsaBody A start next
    rw [push_regs h.regs]
    exact hrearranged (List.forall_mem_cons.mpr ⟨known_const _ _, h.locals⟩)
  | JUMPDEST => exact hrearranged h.locals
  | STOP =>
    refine h.grow (h.ssa.rearranged rfl rfl) h.regs h.locals (.inr fun u hu => ?_)
    rw [← Option.some.inj hu]
    exact closes_exit
  | JUMP =>
    rw [compileInst_jump h.regs]
    exact hends htail rfl (by simpa [Instr.operands, Ptr.operands] using hhead) (closes_jump _)
  | JUMPI =>
    rw [compileInst_jumpi h.regs]
    have hgrows : SsaGrows A start b ⟨b.next + 1,
        b.code ++ [.icmpNE b.next (b.locals.tail.headD (constWord 0)),
        .store (b.locals.headD (constWord 0)) .target], b.locals.tail.tail, b.enableRegs,
        some (.condBr (.reg .i1 b.next) .jumpTable next (some (b.locals.headD (constWord 0)))),
        b.cases⟩ := by
      refine h.ssa.append (n := 1) ?_ rfl rfl rfl
      simp only [scoped_cons, Instr.operands, Ptr.operands, List.forall_mem_singleton]
      exact ⟨hsecond, hhead.mono fun r hr => .inl hr, trivial⟩
    refine h.grow hgrows h.regs (fun v hv => hgrows.known (htail₂ v hv)) (.inr fun u hu => ?_)
    rw [← Option.some.inj hu]
    refine closes_jumpi ((known_reg _ _).mpr (.inr ?_)) _
    rw [Scoping.definitions_append]
    exact List.mem_append_right _ (by simp [Scoping.definitions, registers, Instr.defines])
  | RETURN =>
    rw [compileInst_return h.regs]
    split
    · exact hends htail₂ rfl (by simp [Instr.operands]) closes_exit
    · exact hends (x := .finish _ _) htail₂ rfl htwo closes_exit
  | REVERT =>
    rw [compileInst_revert h.regs]
    exact hends (x := .revert _ _) htail₂ rfl htwo closes_exit
  | SUICIDE =>
    rw [compileInst_suicide h.regs]
    exact hends htail rfl (by simpa [Instr.operands] using hhead) closes_exit
  | _ => exact hop _

/-- **The loop over a block.** -/
theorem compileBasicBlockLoop_ssa {code : List Byte} (h : b.SsaBody A start next) (fuel it : Nat) :
    (compileBasicBlockLoop env code bb i next fuel it b).2.SsaBody A start next := by
  refine (blockSteps_forall (P := fun b => b.SsaBody A start next)
    (Q := fun _ => True) ?_ ?_ ?_ fuel it b h).2
  · intro b w h
    rw [push_regs h.regs]
    exact h.grow (h.ssa.rearranged rfl rfl) h.regs
      (List.forall_mem_cons.mpr ⟨known_const _ _, h.locals⟩) (.inl rfl)
  · intro b h
    refine h.grow (h.ssa.rearranged rfl rfl) h.regs h.locals (.inr fun u hu => ?_)
    rw [← Option.some.inj hu]
    exact closes_unreachable
  · exact fun it inst h => ⟨trivial, compileInst_ssa h it inst⟩

end Body

/-! ## §4 — the calls. -/

section Calls

variable {A : Nat × Width → Prop} {env : CompileEnv} {code : List Byte} {bs : List BasicBlock}
  {c : Call}

/-- **One call.** If the registers that the block inherits can be counted on, then so can all that
it reads, and all that it hands on; and it numbers its registers from `next` on. -/
theorem Call.final_ssa (hp : mayInherit code bs c.bb = true → ∀ v ∈ c.pstack, v.Known A) :
    (c.final env code bs).Ssa A c.next ∧
      (∀ v ∈ c.view env code bs, v.Known ((c.final env code bs).Available A)) ∧
      ∀ t ∈ (c.final env code bs).term,
        t.Closes ((c.final env code bs).Available A) (nextNode bs.length c.i) := by
  have hempty : (Builder.empty c.next c.cases).Ssa A c.next :=
    ⟨scoped_nil, Nat.le_refl _, by simp [Builder.empty]⟩
  obtain ⟨hinputs, hvs⟩ := queuedInputs_ssa (mayInherit code bs c.bb) c.bb.stkIn hempty
    fun hm (v : Value) (hv : v ∈ c.pstack) => (hp hm v hv).mono fun r hr => .inl hr
  obtain ⟨hlocals, hterm⟩ : (c.inputs code bs).2.locals = [] ∧ (c.inputs code bs).2.term = none :=
    queuedInputs_kept _ _ _ _
  have hstart : (bodyStart (c.inputs code bs).1 (c.inputs code bs).2).SsaBody A c.next
      (nextNode bs.length c.i) := by
    refine ⟨rfl, hinputs.ssa.congr rfl rfl, ?_, ?_⟩
    · show ∀ v ∈ _ ++ (c.inputs code bs).2.locals, _
      rw [hlocals, List.append_nil]
      exact hvs
    · show ∀ t ∈ (c.inputs code bs).2.term, _
      rw [hterm]
      exact fun t ht => (by cases ht)
  have hbody : (c.bodyEnd env code bs).SsaBody A c.next (nextNode bs.length c.i) :=
    compileBasicBlockLoop_ssa hstart _ _
  have hspill : SsaGrows A c.next (c.bodyEnd env code bs) (c.final env code bs) := by
    have hpush := pushAll_mem_ssa (c.bodyEnd env code bs).locals.reverse
      (b := { c.bodyEnd env code bs with enableRegs := false }) rfl (hbody.ssa.congr rfl rfl)
      fun v hv => hbody.locals v (List.mem_reverse.mp hv)
    exact ⟨hpush.ssa.congr rfl rfl, hpush.code⟩
  refine ⟨hspill.ssa, fun v hv => hspill.known (hbody.locals v hv), ?_⟩
  show ∀ t ∈ (spill (c.bodyEnd env code bs)).term, _
  rw [(spill_quiet _).term]
  exact fun t ht => ⟨fun v hv => hspill.known ((hbody.term t ht).known v hv),
    (hbody.term t ht).goes⟩

end Calls

/-! ## §5 — one definition of every register. -/

section Numbering

variable {env : CompileEnv} {code : List Byte} {bs : List BasicBlock}

/-- The registers that a call defines are those from its `next` to the `next` it leaves. -/
theorem Call.numbered (env : CompileEnv) (code : List Byte) (bs : List BasicBlock) (c : Call) :
    c.next ≤ (c.final env code bs).next ∧
      (registers.definitions (c.final env code bs).code).map Prod.fst =
        List.range' c.next ((c.final env code bs).next - c.next) := by
  obtain ⟨hssa, -⟩ := Call.final_ssa (A := fun _ => True) (c := c)
    fun _ _ _ _ _ => trivial
  exact ⟨hssa.start_le, hssa.numbered⟩

/-- One iteration of the queue loop numbers on, by its call if there is one. -/
theorem queueBody_next {m m' : Main} (hb : queueBody env code bs m = some m') :
    (m.queueCall bs = none ∧ m'.next = m.next) ∨
      ∃ c, m.queueCall bs = some c ∧ c.next = m.next ∧ m'.next = (c.final env code bs).next := by
  unfold queueBody at hb
  unfold Main.queueCall
  split at hb
  · cases hb
  · rename_i p ps rest hqueue
    rw [hqueue]
    split at hb
    · rename_i hseen
      cases hb
      cases p with
      | none => exact .inl ⟨rfl, rfl⟩
      | some i => exact .inl ⟨if_pos hseen, rfl⟩
    · rename_i hnew
      split at hb
      · cases hb
        exact .inl ⟨rfl, rfl⟩
      · simp only [if_neg hnew]
        split at hb
        · rename_i hnone
          cases hb
          exact .inl ⟨by rw [hnone]; rfl, rfl⟩
        · rename_i bb hbb
          rw [compileQueued_eq] at hb
          cases hb
          exact .inr ⟨_, by rw [hbb]; rfl, rfl, rfl⟩

theorem leftoverBody_next (m : Main) (i : Nat) :
    (m.leftoverCall bs i = none ∧ (leftoverBody env code bs m i).next = m.next) ∨
      ∃ c, m.leftoverCall bs i = some c ∧ c.next = m.next ∧
        (leftoverBody env code bs m i).next = (c.final env code bs).next := by
  unfold leftoverBody Main.leftoverCall
  split
  · exact .inl ⟨rfl, rfl⟩
  · split
    · rename_i hnone
      exact .inl ⟨by rw [hnone]; rfl, rfl⟩
    · rename_i bb hbb
      rw [compileLeftover_eq]
      exact .inr ⟨_, by rw [hbb]; rfl, rfl, rfl⟩

/-- The calls so far number one behind the other, and the next one behind them all. The latest call
is the head. -/
structure Numbered (env : CompileEnv) (code : List Byte) (bs : List BasicBlock) (calls : List Call)
    (m : Main) : Prop where
  apart : calls.Pairwise fun c d => (d.final env code bs).next ≤ c.next
  from_one : ∀ c ∈ calls, 1 ≤ c.next
  behind : ∀ c ∈ calls, (c.final env code bs).next ≤ m.next
  next : 1 ≤ m.next

/-- **One iteration** of either loop. -/
theorem Numbered.add {calls : List Call} {m m' : Main} {o : Option Call}
    (h : Numbered env code bs calls m) (ho : (o = none ∧ m'.next = m.next) ∨
      ∃ c, o = some c ∧ c.next = m.next ∧ m'.next = (c.final env code bs).next) :
    Numbered env code bs (o.toList ++ calls) m' := by
  rcases ho with ⟨rfl, hnext⟩ | ⟨c, rfl, hc, hnext⟩
  · exact ⟨h.apart, h.from_one, hnext ▸ h.behind, hnext ▸ h.next⟩
  · have hle : m.next ≤ m'.next := by
      rw [hnext, ← hc]
      exact (c.numbered env code bs).1
    refine ⟨List.pairwise_cons.mpr ⟨fun d hd => hc ▸ h.behind d hd, h.apart⟩, ?_, ?_,
      Nat.le_trans h.next hle⟩
    · exact List.forall_mem_cons.mpr ⟨hc ▸ h.next, h.from_one⟩
    · exact List.forall_mem_cons.mpr ⟨Nat.le_of_eq hnext.symm,
        fun d hd => Nat.le_trans (h.behind d hd) hle⟩

theorem compileCalls_numbered (env : CompileEnv) (code : List Byte) (bs : List BasicBlock) :
    Numbered env code bs (compileCalls env code bs).reverse (compileBlocks env code bs) := by
  apply compileCalls_inv
  · exact ⟨.nil, fun c hc => absurd hc List.not_mem_nil, fun c hc => absurd hc List.not_mem_nil,
      Nat.le_refl _⟩
  · exact fun h hb => h.add (queueBody_next hb)
  · exact fun i h => h.add (leftoverBody_next _ i)

/-- Two calls define different registers. -/
theorem Numbered.disjoint {calls : List Call} {m : Main} (h : Numbered env code bs calls m)
    {c d : Call} (hc : c ∈ calls) (hd : d ∈ calls) (hne : c ≠ d) :
    List.Disjoint ((registers.definitions (c.final env code bs).code).map Prod.fst)
      ((registers.definitions (d.final env code bs).code).map Prod.fst) := by
  have happart : calls.Pairwise fun c d =>
      (c.final env code bs).next ≤ d.next ∨ (d.final env code bs).next ≤ c.next :=
    h.apart.imp Or.inr
  have hsymm : Std.Symm fun c d : Call =>
      (c.final env code bs).next ≤ d.next ∨ (d.final env code bs).next ≤ c.next :=
    ⟨fun _ _ => Or.symm⟩
  have hcd := happart.forall hc hd hne
  rw [(c.numbered env code bs).2, (d.numbered env code bs).2]
  intro x hx hx'
  rw [List.mem_range'_1] at hx hx'
  omega

end Numbering

section Resolved

variable {cases : List (Word × Label)} {next : Label} {b : IRBlock} {A : Nat × Width → Prop}

/-- The store that `resolveJumps` erases defines nothing. -/
theorem definitions_resolveBlock :
    registers.definitions (resolveBlock cases next b).code = registers.definitions b.code := by
  rcases resolveBlock_code cases next b with hcode | hcode
  · rw [hcode]
  · rw [hcode]
    rcases eraseTargetStore_split b.code with hself | ⟨pre, post, idx, hb, herase⟩
    · rw [hself]
    · rw [herase, hb]
      exact (Scoping.definitions_erase (S := registers) (x := .store idx .target) rfl).symm

theorem scoped_resolveBlock (h : registers.Scoped A b.code) :
    registers.Scoped A (resolveBlock cases next b).code := by
  rcases resolveBlock_code cases next b with hcode | hcode
  · rw [hcode]
    exact h
  · rw [hcode]
    rcases eraseTargetStore_split b.code with hself | ⟨pre, post, idx, hb, herase⟩
    · rw [hself]
      exact h
    · rw [herase]
      rw [hb] at h
      exact h.erase rfl

end Resolved

section Once

variable {env : CompileEnv} {code : List Byte}

/-- **The registers of a function**: all its definitions, in the order of its text. -/
def functionDefinitions (f : List IRBlock) : List (Nat × Width) :=
  f.flatMap fun b => registers.definitions b.code

theorem functionDefinitions_resolveJumps (cases : List (Word × Label)) (f : List IRBlock) :
    functionDefinitions (resolveJumps cases f) = functionDefinitions f := by
  unfold functionDefinitions
  rw [List.flatMap, List.flatMap, resolveJumps_map cases fun _ _ => definitions_resolveBlock]

/-- The definitions of the code blocks, and the `load` of `JumpTable`. -/
theorem functionDefinitions_functionBlocks (m : Main) (n : Nat) :
    functionDefinitions (functionBlocks m n) =
    (List.range n).flatMap (fun i => registers.definitions (m.blockAt i).code) ++ [(0, .i256)] := by
  simp only [functionDefinitions, functionBlocks, List.flatMap_cons, List.flatMap_append,
    List.flatMap_map]
  rfl

/-- **Every register of the emitted function has one definition.** -/
theorem functionDefinitions_nodup (env : CompileEnv) (hne : code ≠ []) :
    ((functionDefinitions (compileMain env code)).map Prod.fst).Nodup := by
  have hf := functionSpec_logged env hne
  have hnum : Numbered env code (blockTable code) (loggedCalls env code) _ :=
    compileCalls_numbered env code _
  -- a code block is the block of its call
  have hblock : ∀ i, i < (blockTable code).length → ∃ c ∈ loggedCalls env code, c.i = i ∧
      (compileBlocks env code (blockTable code)).blockAt i =
        (c.final env code (blockTable code)).block i := by
    intro i hi
    obtain ⟨c, hc, rfl⟩ := hf.all i hi
    exact ⟨c, hc, rfl, hf.inv.blockAt hc⟩
  show ((functionDefinitions (resolveJumps (compileBlocks env code (blockTable code)).cases
    (functionBlocks (compileBlocks env code (blockTable code)) (blockTable code).length))).map
    Prod.fst).Nodup
  rw [functionDefinitions_resolveJumps, functionDefinitions_functionBlocks, List.map_append,
    List.map_flatMap, List.nodup_append, List.nodup_flatMap]
  refine ⟨⟨fun i hi => ?_, ?_⟩, List.nodup_singleton _, ?_⟩
  · obtain ⟨c, -, rfl, hat⟩ := hblock i (List.mem_range.mp hi)
    rw [hat]
    show ((registers.definitions (c.final env code (blockTable code)).code).map Prod.fst).Nodup
    rw [(c.numbered env code _).2]
    exact List.nodup_range'
  · refine List.nodup_range.imp_of_mem fun {i j} hi hj hij => ?_
    obtain ⟨c, hc, rfl, hci⟩ := hblock i (List.mem_range.mp hi)
    obtain ⟨d, hd, rfl, hdi⟩ := hblock j (List.mem_range.mp hj)
    simp only [Function.onFun, hci, hdi]
    exact hnum.disjoint hc hd fun heq => hij (congrArg Call.i heq)
  · intro x hx y hy
    obtain ⟨i, hi, hx⟩ := List.mem_flatMap.mp hx
    obtain ⟨c, hc, rfl, hat⟩ := hblock i (List.mem_range.mp hi)
    rw [hat] at hx
    have hx : x ∈ (registers.definitions (c.final env code (blockTable code)).code).map Prod.fst :=
      hx
    rw [(c.numbered env code _).2, List.mem_range'_1] at hx
    have hone := hnum.from_one c hc
    rw [List.mem_singleton.mp hy]
    show x ≠ 0
    omega

end Once

/-! ## §6 — every use behind its definition. -/

/-- **The flow graph of a function.** -/
def flowGraph (f : List IRBlock) : FlowGraph Label Instr where
  entry := .entry
  code l := ((f.find? fun b => b.label == l).map IRBlock.code).getD []
  goes l l' := ∃ b, f.find? (fun b => b.label == l) = some b ∧ ∃ t ∈ b.term, l' ∈ t.successors

/-- **SSA form.** Every register is defined once; and on every path from the entry to a block, what
the block reads at one type has been defined with that type, in the block above or in a block on the
way. -/
structure SsaForm (f : List IRBlock) : Prop where
  once : ((functionDefinitions f).map Prod.fst).Nodup
  behind : ∀ {l done}, (flowGraph f).Path l done →
    registers.Scoped (fun r => r ∈ registers.definitions done) ((flowGraph f).code l)
  terminated : ∀ {l done}, (flowGraph f).Path l done →
  ∀ b, f.find? (fun b => b.label == l) = some b →
    ∀ t ∈ b.term, ∀ v ∈ t.operands, v.Known fun r => r ∈ registers.definitions (done ++ b.code)

theorem flowGraph_code {f : List IRBlock} {l : Label} {b : IRBlock}
    (hb : f.find? (fun b => b.label == l) = some b) : (flowGraph f).code l = b.code := by
  show ((f.find? fun b => b.label == l).map IRBlock.code).getD [] = _
  rw [hb]
  rfl

section Graph

variable {env : CompileEnv} {code : List Byte} {l l' : Label} {r : Nat × Width}

/-- **The registers that a block counts on**: those that its call takes over. -/
def Inherited (env : CompileEnv) (code : List Byte) (l : Label) (r : Nat × Width) : Prop :=
  ∃ c ∈ loggedCalls env code, l = .code c.i ∧ mayInherit code (blockTable code) c.bb = true ∧
    ∃ v ∈ c.pstack, v.register = some r

/-- A block of the function: the block of a call, resolved, or one of the helper blocks. -/
theorem find?_cases (hf : FunctionSpec env code (loggedCalls env code)) {b : IRBlock}
    (hb : (compileMain env code).find? (fun b => b.label == l) = some b) :
    (∃ c ∈ loggedCalls env code, l = .code c.i ∧ b = resolveBlock (jumpCases env code)
      (nextNode (blockTable code).length c.i) ((c.final env code (blockTable code)).block c.i)) ∨
    (l = .entry ∧ b = ⟨.entry, [], some (.br (.code 0) none)⟩) ∨
    (l = .test ∧ b = ⟨.test, [], some (.br .jumpTable none)⟩) ∨
    (l = .jumpTable ∧ b = ⟨.jumpTable, [.load 0 .target],
      some (.switch (.reg .i256 0) (jumpCases env code) .abort)⟩) ∨
    (l = .abort ∧ b = ⟨.abort, [.revert (constWord 0) (constWord 0)], some (.br .exit none)⟩) ∨
    (l = .exit ∧ b = ⟨.exit, [.finish (constWord 0) (constWord 0)], some .unreachable⟩) := by
  have hsame : ∀ {b'}, (compileMain env code).find? (fun b => b.label == l) = some b' →
      b = b' := fun h =>
    Option.some.inj (hb.symm.trans h)
  cases l with
  | code i =>
    left
    have hlt : i < (blockTable code).length := by
      have hmem : Label.code i ∈ (compileMain env code).map IRBlock.label :=
        List.mem_map.mpr ⟨b, List.mem_of_find?_eq_some hb, by simpa using List.find?_some hb⟩
      rw [hf.labels] at hmem
      simpa using hmem
    obtain ⟨c, hc, rfl⟩ := hf.all i hlt
    exact ⟨c, hc, rfl, hsame (hf.block c hc)⟩
  | entry => exact .inr (.inl ⟨rfl, hsame hf.entry⟩)
  | test => exact .inr (.inr (.inl ⟨rfl, hsame hf.test⟩))
  | jumpTable => exact .inr (.inr (.inr (.inl ⟨rfl, hsame hf.jumpTable⟩)))
  | abort => exact .inr (.inr (.inr (.inr (.inl ⟨rfl, hsame hf.abort⟩))))
  | exit => exact .inr (.inr (.inr (.inr (.inr ⟨rfl, hsame hf.exit⟩))))

/-- Where a jump with a known destination goes. -/
theorem caseSuccessor_mem (cases : List (Word × Label)) (w : Width) (v : Word) :
    caseSuccessor cases w v = .abort ∨ caseSuccessor cases w v ∈ cases.map Prod.snd := by
  unfold caseSuccessor
  split
  · cases hfind : cases.find? fun c => c.1 == v with
    | none => exact .inl rfl
    | some c => exact .inr (List.mem_map_of_mem (List.mem_of_find?_eq_some hfind))
  · exact .inl rfl

/-- **Where a block goes**, after `resolveJumps`: to a helper block, to the block behind, or to a
case of the table. -/
theorem resolveBlock_goes {A : Nat × Width → Prop} {cases : List (Word × Label)} {next : Label}
    {b : IRBlock} (h : ∀ t ∈ b.term, t.Closes A next) : ∀ t ∈ (resolveBlock cases next b).term,
      (∀ v ∈ t.operands, v.Known A) ∧ ∀ l ∈ t.successors,
        l = .jumpTable ∨ l = .exit ∨ l = .abort ∨ l = next ∨ l ∈ cases.map Prod.snd := by
  have hcase : ∀ {l : Label} {w : Width} {v : Word}, l = caseSuccessor cases w v →
      l = .jumpTable ∨ l = .exit ∨ l = .abort ∨ l = next ∨ l ∈ cases.map Prod.snd := by
    rintro l w v rfl
    rcases caseSuccessor_mem cases w v with heq | hmem
    · exact .inr (.inr (.inl heq))
    · exact .inr (.inr (.inr (.inr hmem)))
  have hnext : ∀ {l : Label}, l = next →
      l = .jumpTable ∨ l = .exit ∨ l = .abort ∨ l = next ∨ l ∈ cases.map Prod.snd := fun heq =>
    .inr (.inr (.inr (.inl heq)))
  unfold resolveBlock
  split
  · -- no terminator: the block falls into the next one
    intro t ht
    rw [← Option.some.inj ht]
    exact ⟨fun v hv => absurd hv List.not_mem_nil, fun l hl => hnext (List.mem_singleton.mp hl)⟩
  · intro t ht
    rw [← Option.some.inj ht]
    exact ⟨fun v hv => absurd hv List.not_mem_nil, fun l hl => hcase (List.mem_singleton.mp hl)⟩
  · rename_i hterm
    intro t ht
    rw [← Option.some.inj ht]
    refine ⟨(h _ hterm).known, fun l hl => ?_⟩
    rcases List.mem_cons.mp hl with hl | hl
    · exact hcase hl
    · exact hnext (List.mem_singleton.mp hl)
  · rename_i hterm
    intro t ht
    rw [← Option.some.inj ht]
    refine ⟨(h _ hterm).known, fun l hl => ?_⟩
    rcases List.mem_cons.mp hl with hl | hl
    · exact .inl hl
    · exact hnext (List.mem_singleton.mp hl)
  · intro t ht
    refine ⟨(h t ht).known, fun l hl => ?_⟩
    rcases (h t ht).goes l hl with heq | heq | heq
    · exact .inl heq
    · exact .inr (.inl heq)
    · exact hnext heq

/-- **One call of the compilation**, over the registers it takes over. -/
theorem logged_ssa {c : Call} (hc : c ∈ loggedCalls env code) :
    (c.final env code (blockTable code)).Ssa (Inherited env code (.code c.i)) c.next ∧
      (∀ v ∈ c.view env code (blockTable code),
        v.Known ((c.final env code (blockTable code)).Available (Inherited env code (.code c.i)))) ∧
      ∀ t ∈ (c.final env code (blockTable code)).term,
        t.Closes ((c.final env code (blockTable code)).Available (Inherited env code (.code c.i)))
          (nextNode (blockTable code).length c.i) :=
  Call.final_ssa fun hm v hv _ hr => ⟨c, hc, rfl, hm, v, hv, hr⟩

/-- **What a block counts on comes from the block in front of it**, and control comes from nowhere
else. -/
theorem inherited_edge (hne : code ≠ []) (hgo : (flowGraph (compileMain env code)).goes l l')
    (hr : Inherited env code l' r) :
    Inherited env code l r ∨
    r ∈ registers.definitions ((flowGraph (compileMain env code)).code l) := by
  have hf := functionSpec_logged env hne
  obtain ⟨c, hc, rfl, hm, v, hv, hvr⟩ := hr
  have hp : c.pstack ≠ [] := fun hnil => by rw [hnil] at hv; exact absurd hv List.not_mem_nil
  obtain ⟨hnodest, d, hd, hview, hci⟩ := inherit_source hne hf hc hm hp
  -- no case of the jump table leads to the block
  have hnocase : Label.code c.i ∉ (jumpCases env code).map Prod.snd := by
    intro hmem
    obtain ⟨⟨w, _⟩, hmem, rfl⟩ := List.mem_map.mp hmem
    obtain ⟨j, bb, hbb, hdest, -, hl⟩ := (mem_jumpCases hne).mp hmem
    obtain rfl : c.i = j := Label.code.inj hl
    obtain rfl : c.bb = bb := Option.some.inj ((hf.inv.block c hc).symm.trans hbb)
    exact hnodest hdest
  obtain ⟨b, hb, t, ht, hsucc⟩ := hgo
  rcases find?_cases hf hb with ⟨e, he, rfl, rfl⟩ | ⟨-, rfl⟩ | ⟨-, rfl⟩ | ⟨-, rfl⟩ |
    ⟨-, rfl⟩ | ⟨-, rfl⟩
  · -- a code block: the one in front
    obtain ⟨-, hview_known, hcloses⟩ := logged_ssa he
    have hnext : Label.code c.i = nextNode (blockTable code).length e.i := by
      rcases (resolveBlock_goes hcloses t ht).2 _ hsucc with hl | hl | hl | hl | hl
      · cases hl
      · cases hl
      · cases hl
      · exact hl
      · exact absurd hl hnocase
    have hei : e.i = d.i := by
      unfold nextNode at hnext
      split at hnext
      · have := Label.code.inj hnext
        omega
      · cases hnext
    obtain rfl : e = d := List.inj_on_of_nodup_map hf.inv.nodup he hd hei
    rw [← hview] at hv
    refine (hview_known v hv r hvr).imp_right fun hmem => ?_
    rw [flowGraph_code hb, definitions_resolveBlock]
    exact hmem
  · -- the entry goes to the first block, in front of which there is none
    rw [← Option.some.inj ht] at hsucc
    have hzero := Label.code.inj (List.mem_singleton.mp hsucc)
    omega
  · rw [← Option.some.inj ht] at hsucc
    cases List.mem_singleton.mp hsucc
  · rw [← Option.some.inj ht] at hsucc
    rcases List.mem_cons.mp hsucc with hl | hmem
    · cases hl
    · exact absurd hmem hnocase
  · rw [← Option.some.inj ht] at hsucc
    cases List.mem_singleton.mp hsucc
  · rw [← Option.some.inj ht] at hsucc
    exact absurd hsucc List.not_mem_nil

/-- **A block** reads what it counts on, or what it has defined itself. -/
theorem scoped_block (hne : code ≠ []) {b : IRBlock}
    (hb : (compileMain env code).find? (fun b => b.label == l) = some b) :
    registers.Scoped (Inherited env code l) b.code ∧ ∀ t ∈ b.term, ∀ v ∈ t.operands,
      v.Known fun r => Inherited env code l r ∨ r ∈ registers.definitions b.code := by
  have hf := functionSpec_logged env hne
  have hquiet : ∀ {A : Nat × Width → Prop} {u : Term}, u.operands = [] →
      ∀ t ∈ some u, ∀ v ∈ t.operands, v.Known A := by
    intro A u hu t ht v hv
    rw [← Option.some.inj ht, hu] at hv
    exact absurd hv List.not_mem_nil
  rcases find?_cases hf hb with ⟨c, hc, rfl, rfl⟩ | ⟨-, rfl⟩ | ⟨-, rfl⟩ | ⟨-, rfl⟩ |
    ⟨-, rfl⟩ | ⟨-, rfl⟩
  · obtain ⟨hssa, -, hcloses⟩ := logged_ssa hc
    refine ⟨scoped_resolveBlock hssa.inScope, fun t ht v hv => ?_⟩
    rw [definitions_resolveBlock]
    exact (resolveBlock_goes hcloses t ht).1 v hv
  · exact ⟨scoped_nil, hquiet rfl⟩
  · exact ⟨scoped_nil, hquiet rfl⟩
  · -- the table switches on the register it has just loaded
    refine ⟨scoped_singleton.mpr fun v hv => absurd hv List.not_mem_nil, fun t ht v hv => ?_⟩
    rw [← Option.some.inj ht] at hv
    rw [List.mem_singleton.mp hv, known_reg]
    exact .inr List.mem_cons_self
  · exact ⟨scoped_singleton.mpr (by simp [Instr.operands]), hquiet rfl⟩
  · exact ⟨scoped_singleton.mpr (by simp [Instr.operands]), hquiet rfl⟩

end Graph

/-- **The emitted function is in SSA form**, for every bytecode. -/
theorem emitted_ssa (env : CompileEnv) (code : Bytecode) :
    SsaForm (compileMain env code.bytes) := by
  have hentry :
      ∀ r, ¬ Inherited env code.bytes (flowGraph (compileMain env code.bytes)).entry r := by
    rintro r ⟨c, -, hl, -⟩
    cases hl
  have hedges : ∀ l l' r, (flowGraph (compileMain env code.bytes)).goes l l' →
      Inherited env code.bytes l' r → Inherited env code.bytes l r ∨
        r ∈ registers.definitions ((flowGraph (compileMain env code.bytes)).code l) :=
    fun _ _ _ hgo hr => inherited_edge code.ne hgo hr
  refine ⟨functionDefinitions_nodup env code.ne, fun hpath => ?_,
    fun {l done} hpath b hb t ht v hv => ?_⟩
  · apply FlowGraph.scoped_on_paths hentry hedges _ hpath
    intro l
    cases hb : (compileMain env code.bytes).find? fun b => b.label == l with
    | some b =>
      rw [flowGraph_code hb]
      exact (scoped_block code.ne hb).1
    | none =>
      show registers.Scoped _
          (((compileMain env code.bytes).find? fun b => b.label == l).map IRBlock.code |>.getD [])
      rw [hb]
      exact scoped_nil
  · refine ((scoped_block code.ne hb).2 t ht v hv).mono fun r hr => ?_
    rw [Scoping.definitions_append, List.mem_append]
    exact hr.imp_left (hpath.available hentry hedges r)

end EvmTrans
