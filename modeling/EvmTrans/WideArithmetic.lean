/-
# `EvmTrans.WideArithmetic` — the wide arithmetic that `LowerEVMPass` leaves in a compiled contract.

`compileBasicBlock` multiplies and divides at the width of its operands, and at 512 bits for
`ADDMOD` and `MULMOD`. `lowered_iff` says of every bytecode when the pass has a helper for all of
it: it has none for the product of `MULMOD`, and none for a division of two registers of 128 bits.
-/
import EvmTrans.EmittedTypes
import EvmTrans.LowerEVM

namespace EvmTrans.Llvm

open LowerEVMPass

/-! ## §1 — the module of `compileMain`. -/

/-- `CreateMul` and its relatives: two constants are folded. -/
def createArith (opcode : ArithOpcode) (lhs rhs : Operand) : List ArithInst :=
  if lhs.isConst && rhs.isConst then [] else [.arith opcode lhs.ty.scalarBits]

/-- `DIV`, `SDIV`, `MOD` and `SMOD`. -/
def divArith (opcode : ArithOpcode) (d n : Operand) : List ArithInst :=
  createArith opcode (Emission.sameType d n).value.1 (Emission.sameType d n).value.2

/-- `MUL`, whose second cast reads `lhs`. -/
def mulArith (lhs rhs : Operand) : List ArithInst :=
  if lhs.ty ≠ rhs.ty then
    let lhs := (Emission.createZExt lhs Ty.word).value
    let rhs := (Emission.createZExt lhs Ty.word).value
    createArith .Mul lhs rhs
  else createArith .Mul lhs rhs

/-- `ADDMOD`: the sum is an `i512`. -/
def addmodArith (a b m : Operand) : List ArithInst :=
  let a := (Emission.createZExt a (.int 512)).value
  let b := (Emission.createZExt b (.int 512)).value
  let m := (Emission.createZExt m (.int 512)).value
  createArith .URem (Emission.createBinOp a b).value m

/-- `MULMOD`. -/
def mulmodArith (a b m : Operand) : List ArithInst :=
  let a := (Emission.createZExt a (.int 512)).value
  let b := (Emission.createZExt b (.int 512)).value
  let m := (Emission.createZExt m (.int 512)).value
  createArith .Mul a b ++ createArith .URem (Emission.createBinOp a b).value m

/-- `SIGNEXTEND`: `kx8`. -/
def signextendArith (idx : Operand) : List ArithInst :=
  let k32 := (Emission.createTrunc idx (.int 5)).value
  let k32 := (Emission.createZExt k32 (.int 64)).value
  createArith .Mul k32 (constant (.int 64))

/-- The multiplications, divisions and remainders that a branch of `compileBasicBlock` creates. -/
def branchArith : Instruction → List Operand → List ArithInst
  | .MUL, [lhs, rhs] => mulArith lhs rhs
  | .DIV, [d, n] => divArith .UDiv d n
  | .SDIV, [d, n] => divArith .SDiv d n
  | .MOD, [d, n] => divArith .URem d n
  | .SMOD, [d, n] => divArith .SRem d n
  | .ADDMOD, [a, b, m] => addmodArith a b m
  | .MULMOD, [a, b, m] => mulmodArith a b m
  | .SIGNEXTEND, [idx, _] => signextendArith idx
  | _, _ => []

/-- Those of `main`: its blocks stand in the order of the bytecode. -/
def mainArith (env : CompileEnv) (code : List Byte) : List ArithInst :=
  ((emittedSteps env code).mergeSort fun s t => s.it ≤ t.it).flatMap fun s =>
    branchArith s.inst (s.operands.map Value.operand)

/-- `evm.exp`: `r *= b` and `b *= b`. -/
def expFunc : ArithFunc := ⟨"evm.exp", [.arith .Mul 256, .arith .Mul 256]⟩

/-- **The module that `compileMain` leaves**: what `EEIModule::init` and `Arith256` define, and
`main`. -/
def compileModule (env : CompileEnv) (code : List Byte) : ArithModule :=
  [⟨"solidity.keccak256", []⟩, ⟨"solidity.bswapi256", []⟩, ⟨"solidity.memcpy", []⟩, expFunc,
    ⟨"main", mainArith env code⟩]

/-- An `i128` that is not both times a constant. -/
def NarrowPair : List Value → Prop
  | [d, n] => d.width = .i128 ∧ n.width = .i128 ∧ ¬ (d.isConst && n.isConst)
  | _ => False

/-- **The steps whose instructions the pass leaves as they are**: a product at 512 bits, and a
division at 128. -/
def Unlowered (s : BlockStep) : Prop :=
  match s.inst, s.operands with
  | .MULMOD, [a, b, _] => ¬ (a.isConst && b.isConst)
  | .DIV, operands => NarrowPair operands
  | .SDIV, operands => NarrowPair operands
  | .MOD, operands => NarrowPair operands
  | .SMOD, operands => NarrowPair operands
  | _, _ => False

/-! ## §2 — what the pass has a helper for. -/

theorem lowerable_createArith_iff {opcode : ArithOpcode} {lhs rhs : Operand} :
    (∀ inst ∈ createArith opcode lhs rhs, Lowerable inst) ↔
      (lhs.isConst && rhs.isConst) = true ∨ Lowerable (.arith opcode lhs.ty.scalarBits) := by
  unfold createArith
  split
  · rename_i hc
    exact ⟨fun _ => .inl hc, fun _ => nofun⟩
  · rename_i hc
    rw [List.forall_mem_singleton]
    exact ⟨.inr, fun h => h.resolve_left hc⟩

/-- At 256 bits there is a helper for every operator. -/
theorem lowerable_word (opcode : ArithOpcode) : Lowerable (.arith opcode 256) := by
  rintro _ _ h
  cases h
  cases opcode <;> exact .inr rfl

theorem lowerable_of_le {opcode : ArithOpcode} {width : Nat} (h : width ≤ 64) :
    Lowerable (.arith opcode width) := by
  rintro _ _ heq
  cases heq
  exact .inl h

theorem not_lowerable_of_none {opcode : ArithOpcode} {width : Nat} (hwidth : 64 < width)
    (h : lowering (.arith opcode width) = none) : ¬ Lowerable (.arith opcode width) := by
  intro hl
  rcases hl opcode width rfl with hle | hsome
  · omega
  · rw [h] at hsome
    cases hsome

/-- The common type of the operands: the width that both have, or 256. -/
theorem sameType_value (v w : Value) : (Emission.sameType v.operand w.operand).value =
    (⟨.int (if v.width = w.width then v.width.bits else 256), v.isConst⟩,
      ⟨.int (if v.width = w.width then w.width.bits else 256), w.isConst⟩) := by
  have hty : v.operand.ty ≠ w.operand.ty ↔ v.width ≠ w.width := by
    show (Ty.int v.width.bits ≠ Ty.int w.width.bits) ↔ _
    cases v.width <;> cases w.width <;> decide
  unfold Emission.sameType
  by_cases hw : v.width = w.width
  · rw [if_neg (fun h => hty.mp h hw), if_pos hw, if_pos hw]
    rfl
  · rw [if_pos (hty.mpr hw), if_neg hw, if_neg hw]
    simp [Value.operand]

/-- **A division** is lowered unless it is one of 128 bits. -/
theorem lowerable_divArith_iff {opcode : ArithOpcode} (hop : opcode ≠ .Mul) (v w : Value) :
    (∀ inst ∈ divArith opcode v.operand w.operand, Lowerable inst) ↔ ¬ NarrowPair [v, w] := by
  have h128 : ¬ Lowerable (.arith opcode 128) := by
    apply not_lowerable_of_none (by decide)
    cases opcode with
    | Mul => exact absurd rfl hop
    | _ => rfl
  show _ ↔ ¬ (v.width = .i128 ∧ w.width = .i128 ∧ ¬ (v.isConst && w.isConst) = true)
  unfold divArith
  rw [sameType_value, lowerable_createArith_iff]
  by_cases hw : v.width = w.width
  · rw [if_pos hw, if_pos hw, ← hw]
    show (v.isConst && w.isConst) = true ∨ Lowerable (.arith opcode v.width.bits) ↔ _
    cases v.width with
    | i1 => simp [lowerable_of_le (by decide : Width.i1.bits ≤ 64)]
    | i32 => simp [lowerable_of_le (by decide : Width.i32.bits ≤ 64)]
    | i128 =>
      show _ ∨ Lowerable (.arith opcode 128) ↔ _
      simp [h128]
    | i256 =>
      show _ ∨ Lowerable (.arith opcode 256) ↔ _
      simp [lowerable_word]
  · -- extended to 256 bits
    rw [if_neg hw, if_neg hw]
    refine iff_of_true (.inr (lowerable_word opcode)) ?_
    rintro ⟨hv, hw', -⟩
    exact hw (hv.trans hw'.symm)

/-- A multiplication always is: the pass has helpers for both widths above 64. -/
theorem lowerable_mulArith (v w : Value) :
    ∀ inst ∈ mulArith v.operand w.operand, Lowerable inst := by
  unfold mulArith
  split
  · apply lowerable_createArith_iff.mpr
    rw [Emission.value_createZExt]
    exact .inr (lowerable_word .Mul)
  · apply lowerable_createArith_iff.mpr
    refine .inr ?_
    show Lowerable (.arith .Mul v.width.bits)
    cases v.width with
    | i1 => exact lowerable_of_le (by decide)
    | i32 => exact lowerable_of_le (by decide)
    | i128 =>
      -- the one operator with a helper at 128 bits
      rintro _ _ h
      cases h
      exact .inr rfl
    | i256 => exact lowerable_word .Mul

theorem lowerable_urem512 : Lowerable (.arith .URem 512) := by
  rintro _ _ h
  cases h
  exact .inr rfl

/-- `DIV`, `SDIV`, `MOD` and `SMOD`. -/
theorem lowerable_division_iff {inst : Instruction} (opcode : ArithOpcode) (hop : opcode ≠ .Mul)
    (hbranch : ∀ l, branchArith inst l = match l with | [d, n] => divArith opcode d n | _ => [])
    (operands : List Value) :
    (∀ i ∈ branchArith inst (operands.map Value.operand), Lowerable i) ↔ ¬ NarrowPair operands := by
  rw [hbranch]
  rcases operands with _ | ⟨d, _ | ⟨n, _ | ⟨x, l⟩⟩⟩
  · exact iff_of_true nofun id
  · exact iff_of_true nofun id
  · exact lowerable_divArith_iff hop d n
  · exact iff_of_true nofun id

/-- `ADDMOD`: the remainder has a helper, and nothing else is asked for. -/
theorem lowerable_addmodArith (a b m : Operand) : ∀ inst ∈ addmodArith a b m, Lowerable inst := by
  unfold addmodArith
  apply lowerable_createArith_iff.mpr
  refine .inr ?_
  simp only [Emission.value_createZExt, Emission.createBinOp, Emission.value_ask, Ty.scalarBits]
  exact lowerable_urem512

/-- `MULMOD`: the product has none. -/
theorem lowerable_mulmodArith_iff (a b m : Operand) :
    (∀ inst ∈ mulmodArith a b m, Lowerable inst) ↔ (a.isConst && b.isConst) = true := by
  have hmul : ¬ Lowerable (.arith .Mul 512) := not_lowerable_of_none (by decide) rfl
  have hrem : ∀ rhs : Operand, ∀ inst ∈ createArith .URem ⟨.int 512, a.isConst && b.isConst⟩ rhs,
      Lowerable inst :=
    fun rhs => lowerable_createArith_iff.mpr (.inr lowerable_urem512)
  unfold mulmodArith
  simp only [Emission.value_createZExt, Emission.createBinOp, Emission.value_ask]
  rw [List.forall_mem_append, lowerable_createArith_iff]
  constructor
  · rintro ⟨hprod, -⟩
    exact hprod.resolve_right hmul
  · intro hconst
    exact ⟨.inl hconst, hrem _⟩

theorem lowerable_signextendArith (idx : Operand) :
    ∀ inst ∈ signextendArith idx, Lowerable inst := by
  unfold signextendArith
  apply lowerable_createArith_iff.mpr
  refine .inr ?_
  simp only [Emission.value_createZExt, Ty.scalarBits]
  exact lowerable_of_le (Nat.le_refl _)

/-- **One step**: all of its arithmetic has a helper, unless it is one of those above. -/
theorem lowerable_branchArith_iff (s : BlockStep) :
    (∀ inst ∈ branchArith s.inst (s.operands.map Value.operand), Lowerable inst) ↔
    ¬ Unlowered s := by
  obtain ⟨it, inst, operands⟩ := s
  cases inst with
  | DIV =>
    exact lowerable_division_iff .UDiv (by decide)
      (by rintro (_ | ⟨_, _ | ⟨_, _ | ⟨_, _⟩⟩⟩) <;> rfl) operands
  | SDIV =>
    exact lowerable_division_iff .SDiv (by decide)
      (by rintro (_ | ⟨_, _ | ⟨_, _ | ⟨_, _⟩⟩⟩) <;> rfl) operands
  | MOD =>
    exact lowerable_division_iff .URem (by decide)
      (by rintro (_ | ⟨_, _ | ⟨_, _ | ⟨_, _⟩⟩⟩) <;> rfl) operands
  | SMOD =>
    exact lowerable_division_iff .SRem (by decide)
      (by rintro (_ | ⟨_, _ | ⟨_, _ | ⟨_, _⟩⟩⟩) <;> rfl) operands
  | MULMOD =>
    rcases operands with _ | ⟨a, _ | ⟨b, _ | ⟨m, _ | ⟨x, l⟩⟩⟩⟩
    · exact iff_of_true nofun id
    · exact iff_of_true nofun id
    · exact iff_of_true nofun id
    · refine (lowerable_mulmodArith_iff a.operand b.operand m.operand).trans ?_
      show _ ↔ ¬ ¬ (a.isConst && b.isConst) = true
      rw [not_not]
      rfl
    · exact iff_of_true nofun id
  | MUL =>
    refine iff_of_true ?_ id
    rcases operands with _ | ⟨lhs, _ | ⟨rhs, _ | ⟨x, l⟩⟩⟩
    · exact nofun
    · exact nofun
    · exact lowerable_mulArith lhs rhs
    · exact nofun
  | ADDMOD =>
    refine iff_of_true ?_ id
    rcases operands with _ | ⟨a, _ | ⟨b, _ | ⟨m, _ | ⟨x, l⟩⟩⟩⟩
    · exact nofun
    · exact nofun
    · exact nofun
    · exact lowerable_addmodArith a.operand b.operand m.operand
    · exact nofun
  | SIGNEXTEND =>
    refine iff_of_true ?_ id
    rcases operands with _ | ⟨idx, _ | ⟨word, _ | ⟨x, l⟩⟩⟩
    · exact nofun
    · exact nofun
    · exact lowerable_signextendArith idx.operand
    · exact nofun
  | _ => exact iff_of_true nofun id

/-! ## §3 — the compiled contract. -/

theorem mem_mainArith {env : CompileEnv} {code : List Byte} {inst : ArithInst} :
    inst ∈ mainArith env code ↔
      ∃ s ∈ emittedSteps env code, inst ∈ branchArith s.inst (s.operands.map Value.operand) := by
  unfold mainArith
  rw [List.mem_flatMap]
  simp only [List.mem_mergeSort]

/-- The pass has a helper for all of the module exactly when it has one for all of `main`. -/
theorem lowerable_compileModule_iff (env : CompileEnv) (code : List Byte) :
    (∀ f ∈ compileModule env code, ∀ inst ∈ f.body, Lowerable inst) ↔
      ∀ inst ∈ mainArith env code, Lowerable inst := by
  have hexp : ∀ inst ∈ expFunc.body, Lowerable inst := by
    intro inst hinst
    obtain rfl : inst = .arith .Mul 256 := by simpa [expFunc] using hinst
    exact lowerable_word .Mul
  constructor
  · intro h
    exact h ⟨"main", mainArith env code⟩ (by simp [compileModule])
  · intro h f hf
    simp only [compileModule, List.mem_cons, List.not_mem_nil, or_false] at hf
    rcases hf with rfl | rfl | rfl | rfl | rfl
    · exact nofun
    · exact nofun
    · exact nofun
    · exact hexp
    · exact h

/-- **Wide arithmetic is fully lowered** exactly when the contract has no step with a product at 512
bits, and none with a division at 128. -/
theorem lowered_iff (env : CompileEnv) (code : List Byte) :
    (∃ m, Leaves (compileModule env code) m) ∧
      ∀ m, Leaves (compileModule env code) m →
        (FullyLowered m ↔ ∀ s ∈ emittedSteps env code, ¬ Unlowered s) := by
  obtain ⟨new, -, hleaves⟩ := passManager_result (compileModule env code)
  refine ⟨⟨_, hleaves⟩, fun m hm => ?_⟩
  rw [fullyLowered_iff hm, lowerable_compileModule_iff]
  constructor
  · intro h s hs
    exact (lowerable_branchArith_iff s).mp fun inst hinst =>
      h inst (mem_mainArith.mpr ⟨s, hs, hinst⟩)
  · intro h inst hinst
    obtain ⟨s, hs, hinst⟩ := mem_mainArith.mp hinst
    exact (lowerable_branchArith_iff s).mpr (h s hs) inst hinst

/-- `PUSH1 0, CALLDATALOAD, DUP1, DUP1, MULMOD, STOP`. -/
def mulmodOfValue : List Byte := [0x60, 0x00, 0x35, 0x80, 0x80, 0x09, 0x00]

/-- **Its product stays**, at 512 bits. -/
theorem mulmodOfValue_not_lowered :
    ¬ ∀ m, Leaves (compileModule (plainEnv mulmodOfValue) mulmodOfValue) m → FullyLowered m := by
  intro hall
  obtain ⟨new, -, hleaves⟩ :=
    passManager_result (compileModule (plainEnv mulmodOfValue) mulmodOfValue)
  have hlower :=
    (lowerable_compileModule_iff _ _).mp ((fullyLowered_iff hleaves).mp (hall _ hleaves))
  have hstep : ⟨5, .MULMOD, [.reg .i256 1, .reg .i256 1, .reg .i256 1]⟩ ∈
      emittedSteps (plainEnv mulmodOfValue) mulmodOfValue := by decide +kernel
  have hmul := hlower (.arith .Mul 512) (mem_mainArith.mpr ⟨_, hstep, by decide⟩)
  exact not_lowerable_of_none (by decide) rfl hmul

end EvmTrans.Llvm
