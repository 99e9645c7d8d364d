/-
# `EvmTrans.ResultTags` — the casts in front of the pc metadata.

Most branches of `compileBasicBlock` end with `llvm::cast<llvm::Instruction>` of what they have
built, to hang the pc on it. The builder of a block is `llvm::IRBuilder<>`, with the DEFAULT folder,
and not the `IRBuilder` of `CompilerHelper.h`, which has none: what is asked for with constants
comes back as a constant, and the cast of it is undefined in a release build.

`DefaultFolder` is what LLVM documents of that folder. Under it, `resultTags_iff` says for every
bytecode when no cast fails: there is no `PC`, and none of the opcodes that can be folded pops
constants only.
-/
import EvmTrans.Arith
import EvmTrans.EmittedTypes
import EvmTrans.WordOpcodes

namespace EvmTrans

/-! ## §1 — what is cast. -/

/-- What a branch casts: what it pushes, a call it has created, or nothing. -/
inductive Tag where
  | result
  | call
  | none
  deriving DecidableEq, Repr

/-- The argument of `llvm::cast<llvm::Instruction>` in the branch of an opcode. -/
def Instruction.tag : Instruction → Tag
  | .ADD | .SUB | .MUL | .DIV | .SDIV | .MOD | .SMOD | .ADDMOD | .MULMOD | .NOT | .LT | .GT | .SLT
  | .SGT | .EQ | .ISZERO | .AND | .OR | .XOR | .BYTE | .SIGNEXTEND | .SHL | .SHR | .SAR | .SHA3
  | .SLOAD | .PC | .GAS | .ADDRESS | .CALLER | .COINBASE | .GASPRICE | .DIFFICULTY | .GASLIMIT
  | .CHAINID | .BASEFEE | .NUMBER | .TIMESTAMP | .CALLVALUE | .BLOCKHASH | .BALANCE => .result
  | .SSTORE | .ORIGIN | .CALLDATACOPY | .CALL | .CALLCODE | .DELEGATECALL | .STATICCALL
  | .SUICIDE => .call
  | _ => .none

/-- What the branch pushes in place of a new instruction, if so: the number of `PC`, or what the
folder answers. -/
def BlockStep.folded (env : CompileEnv) (s : BlockStep) : Option Value :=
  match s.inst with
  | .PC => some (constWord s.it)
  | op => env.fold op s.operands

/-- **The value that the branch casts is an instruction.** A call that was just created is one. -/
def BlockStep.CastsInstruction (env : CompileEnv) (s : BlockStep) : Prop :=
  s.inst.tag = .result → ∀ v, s.folded env = some v → v.isConst = false

/-- What a branch that casts its result leaves on top of the register stack is that value, or the
register of a new instruction. -/
theorem compileInst_result (env : CompileEnv) (bb : BasicBlock) (i : Nat) (next : Label)
    {b : Builder} (h : b.enableRegs = true) (it : Nat) {inst : Instruction}
    (htag : inst.tag = .result) :
    ∃ v rest, (compileInst env bb i next it inst b).2.locals = v :: rest ∧
      ((⟨it, inst, popped inst.branchPops b.locals⟩ : BlockStep).folded env = some v ∨
        v.isConst = false) := by
  by_cases hpc : inst = .PC
  · subst hpc
    refine ⟨constWord it, b.locals, ?_, .inl rfl⟩
    show (GlobalStack.push (constWord it) b).2.locals = _
    rw [push_regs h]
  · -- a tagged result is pushed by a branch of the common form, which asks the folder first
    have hi : inst.ordinary = true ∧ inst ≠ .CODESIZE ∧ inst.pushCall = true := by
      cases inst <;> first | exact ⟨rfl,
        Instruction.noConfusion, rfl⟩ | exact absurd rfl hpc | cases htag
    obtain ⟨hord, hsize, hpush⟩ := hi
    have hfolded : (⟨it, inst, popped inst.branchPops b.locals⟩ : BlockStep).folded env =
        env.fold inst (popped inst.popCalls b.locals) := by
      rw [← branchPops_of_ordinary hord]
      unfold BlockStep.folded
      split
      · rename_i hinst
        exact absurd hinst hpc
      · rfl
    rw [compileInst_ordinary hord hsize, compileOpcode_regs h, hfolded]
    unfold opcodeBuilder
    dsimp only
    rw [if_pos hpush]
    cases hf : env.fold inst (popped inst.popCalls b.locals) with
    | some v => exact ⟨v, _, rfl, .inl rfl⟩
    | none => exact ⟨_, _, rfl, .inr rfl⟩

/-! ## §2 — the folder. -/

/-- All that the branch builds its result from is constant: every request on the way returns a
constant. -/
def Foldable (op : Instruction) (args : List Value) : Prop :=
  ∃ o, (Emission.branch false op (args.map Value.operand)).value = some o ∧ o.isConst = true

/-- `CreateAnd` with all ones on the right, and `CreateOr` with zero, return the left operand. -/
def LeftIdentity (op : Instruction) (args : List Value) (v : Value) : Prop :=
  (op = .AND ∧ ∃ ones, args = [v, .const v.width ones] ∧ ones.toNat = 2 ^ v.width.bits - 1) ∨
    (op = .OR ∧ args = [v, .const v.width 0])

/-- **The default folder** of `IRBuilder`, as LLVM documents it. -/
structure CompileEnv.DefaultFolder (env : CompileEnv) : Prop where
  constant : ∀ {op args}, Foldable op args → ∃ w x, env.fold op args = some (.const w x)
  other : ∀ {op args v}, ¬ Foldable op args → env.fold op args = some v → LeftIdentity op args v

/-! ## §3 — constants in, constant out. -/

/-- The opcodes that the folder can answer for, `MUL` apart. -/
def Instruction.folds : Instruction → Bool
  | .ADD | .SUB | .DIV | .SDIV | .MOD | .SMOD | .ADDMOD | .MULMOD | .NOT | .LT | .GT | .SLT | .SGT
  | .EQ | .ISZERO | .AND | .OR | .XOR | .BYTE | .SIGNEXTEND | .SHL | .SHR | .SAR => true
  | _ => false

/-- **The steps whose cast fails.** Where `MUL` has to extend its operands it multiplies the first
by itself. -/
def BlockStep.CastsConstant (s : BlockStep) : Prop :=
  match s.inst, s.operands with
  | .PC, _ => True
  | .MUL, [lhs, rhs] => lhs.isConst = true ∧ (lhs.width = rhs.width → rhs.isConst = true)
  | op, operands => op.folds = true ∧ ∀ v ∈ operands, v.isConst = true

namespace Emission

@[simp] theorem isConst_emitEndianConvert (v : Operand) :
    (emitEndianConvert v).value.isConst = v.isConst := by
  unfold emitEndianConvert
  split
  · rfl
  · rename_i hv
    simp [Bool.eq_false_iff.mpr hv]

@[simp] theorem isConst_arith (lhs rhs : Operand) :
    (arith lhs rhs).value.isConst = (lhs.isConst && rhs.isConst) := by
  unfold arith sameType
  split <;> simp

@[simp] theorem isConst_compare (lhs rhs : Operand) :
    (compare lhs rhs).value.isConst = (lhs.isConst && rhs.isConst) := by
  unfold compare sameType
  split <;> simp

theorem isConst_mul (lhs rhs : Value) : (mul lhs.operand rhs.operand).value.isConst = true ↔
    lhs.isConst = true ∧ (lhs.width = rhs.width → rhs.isConst = true) := by
  unfold mul
  by_cases hw : lhs.width = rhs.width
  · simp [Value.operand, hw]
  · simp [Value.operand, hw, mt bits_inj.mp hw]

end Emission

/-- A branch that pushes can be folded when its last request returns a constant. -/
theorem foldable_iff_of_pushes {op : Instruction} {args : List Value} {m : Emission Operand}
    (h : Emission.branch false op (args.map Value.operand) = Emission.pushes m) :
    Foldable op args ↔ m.value.isConst = true := by
  unfold Foldable
  rw [h]
  constructor
  · rintro ⟨o, ho, hc⟩
    rwa [← Option.some.inj ho] at hc
  · exact fun hc => ⟨m.value, rfl, hc⟩

/-- **One branch**: its result is built from constants exactly when the cast of it fails. -/
theorem foldable_iff {s : BlockStep} (hlen : s.operands.length = s.inst.branchPops)
    (htag : s.inst.tag = .result) (hpc : s.inst ≠ .PC) : Foldable s.inst s.operands ↔
    s.CastsConstant := by
  obtain ⟨it, inst, operands⟩ := s
  dsimp only at hlen htag hpc ⊢
  unfold BlockStep.CastsConstant
  cases inst with
  | PC => exact absurd rfl hpc
  | GAS | GASLIMIT | CHAINID | BASEFEE | NUMBER | TIMESTAMP =>
    obtain rfl := List.length_eq_zero_iff.mp hlen
    refine (foldable_iff_of_pushes rfl).trans ?_
    simp [Emission.pushCall, Instruction.folds]
  | ADDRESS | CALLER | COINBASE =>
    obtain rfl := List.length_eq_zero_iff.mp hlen
    refine (foldable_iff_of_pushes rfl).trans ?_
    simp [Emission.pushAddress, Instruction.folds]
  | DIFFICULTY | GASPRICE | CALLVALUE =>
    obtain rfl := List.length_eq_zero_iff.mp hlen
    refine (foldable_iff_of_pushes rfl).trans ?_
    simp [Emission.pushStored, Emission.callvalue, Instruction.folds]
  | SLOAD | BALANCE | BLOCKHASH =>
    obtain ⟨a, rfl⟩ := List.length_eq_one_iff.mp hlen
    refine (foldable_iff_of_pushes rfl).trans ?_
    simp [Emission.sload, Emission.balance, Emission.blockhash, Instruction.folds]
  | NOT | ISZERO =>
    obtain ⟨a, rfl⟩ := List.length_eq_one_iff.mp hlen
    refine (foldable_iff_of_pushes rfl).trans ?_
    simp [Emission.bnot, Emission.iszero, Instruction.folds, Value.operand]
  | ADD | SUB | DIV | SDIV | MOD | SMOD | AND | OR | XOR =>
    obtain ⟨a, b, rfl⟩ := List.length_eq_two.mp hlen
    refine (foldable_iff_of_pushes rfl).trans ?_
    simp [Instruction.folds, Value.operand]
  | LT | GT | SLT | SGT | EQ =>
    obtain ⟨a, b, rfl⟩ := List.length_eq_two.mp hlen
    refine (foldable_iff_of_pushes rfl).trans ?_
    simp [Instruction.folds, Value.operand]
  | MUL =>
    -- the one whose second operand is read only if the types agree
    obtain ⟨a, b, rfl⟩ := List.length_eq_two.mp hlen
    exact (foldable_iff_of_pushes rfl).trans (Emission.isConst_mul a b)
  | SHL | SHR | SAR =>
    obtain ⟨a, b, rfl⟩ := List.length_eq_two.mp hlen
    refine (foldable_iff_of_pushes rfl).trans ?_
    simp [Instruction.folds, Value.operand, and_comm]
  | BYTE =>
    obtain ⟨a, b, rfl⟩ := List.length_eq_two.mp hlen
    refine (foldable_iff_of_pushes rfl).trans ?_
    simp [Emission.byte, Instruction.folds, Value.operand]
    grind
  | SIGNEXTEND =>
    obtain ⟨a, b, rfl⟩ := List.length_eq_two.mp hlen
    refine (foldable_iff_of_pushes rfl).trans ?_
    simp [Emission.signextend, Instruction.folds, Value.operand]
    grind
  | SHA3 =>
    obtain ⟨a, b, rfl⟩ := List.length_eq_two.mp hlen
    refine (foldable_iff_of_pushes rfl).trans ?_
    simp [Emission.sha3, Instruction.folds]
  | ADDMOD | MULMOD =>
    obtain ⟨a, b, m, rfl⟩ := List.length_eq_three.mp hlen
    refine (foldable_iff_of_pushes rfl).trans ?_
    simp [Emission.modArith, Instruction.folds, Value.operand]
    grind
  | _ => cases htag

/-- A left operand that is returned and is a constant had a constant beside it. -/
theorem foldable_of_leftIdentity {op : Instruction} {args : List Value} {v : Value}
    (h : LeftIdentity op args v) (hv : v.isConst = true) : Foldable op args := by
  rcases h with ⟨rfl, ones, rfl, -⟩ | ⟨rfl, rfl⟩
  all_goals
    refine (foldable_iff_of_pushes rfl).mpr ?_
    rw [Emission.isConst_arith]
    exact Bool.and_eq_true_iff.mpr ⟨hv, rfl⟩

/-- Only a branch that casts its result can fold it. -/
theorem BlockStep.CastsConstant.tag {s : BlockStep} (h : s.CastsConstant) :
    s.inst.tag = .result := by
  unfold BlockStep.CastsConstant at h
  split at h
  · rename_i hinst
    rw [hinst]
    rfl
  · rename_i hinst _
    rw [hinst]
    rfl
  · have hfolds : s.inst.folds = true := h.1
    revert hfolds
    cases s.inst <;> first | exact fun _ => rfl | exact fun hf => Bool.noConfusion hf

/-! ## §4 — the casts of a compilation. -/

/-- **One step**: its cast succeeds unless it builds its result from constants. -/
theorem BlockStep.casts_iff {env : CompileEnv} (hfold : env.DefaultFolder) {s : BlockStep}
    (hlen : s.operands.length = s.inst.branchPops) : s.CastsInstruction env ↔
    ¬ s.CastsConstant := by
  by_cases htag : s.inst.tag = .result
  · by_cases hpc : s.inst = .PC
    · -- the number of `PC` is a constant that no folder has a say in
      have hfolded : s.folded env = some (constWord s.it) := by
        unfold BlockStep.folded
        rw [hpc]
      have hcasts : s.CastsConstant := by
        unfold BlockStep.CastsConstant
        rw [hpc]
        trivial
      exact iff_of_false (fun h => Bool.noConfusion (h htag _ hfolded)) (not_not_intro hcasts)
    · have hfolded : s.folded env = env.fold s.inst s.operands := by
        unfold BlockStep.folded
        split
        · rename_i hinst
          exact absurd hinst hpc
        · rfl
      rw [← foldable_iff hlen htag hpc]
      unfold BlockStep.CastsInstruction
      rw [hfolded]
      constructor
      · intro h hc
        obtain ⟨w, x, hx⟩ := hfold.constant hc
        exact Bool.noConfusion (h htag _ hx)
      · -- an operand that is handed back has a constant on its right, and is none itself
        intro hnot _ v hv
        apply Bool.eq_false_iff.mpr
        intro hc
        exact hnot (foldable_of_leftIdentity (hfold.other hnot hv) hc)
  · exact iff_of_true (fun h => absurd h htag) (fun h => htag h.tag)

/-- **When no cast fails.** The values that `compileBasicBlock` casts in the compilation of a
bytecode are all instructions exactly when no step of it is a `PC` or folds its result from
constants. -/
theorem resultTags_iff (env : CompileEnv) (hfold : env.DefaultFolder) (code : List Byte) :
    (∀ s ∈ emittedSteps env code, s.CastsInstruction env) ↔
    ∀ s ∈ emittedSteps env code, ¬ s.CastsConstant :=
  forall₂_congr fun s hs => s.casts_iff hfold (emittedSteps_length s hs)

/-! ### A folder. -/

instance (op : Instruction) (args : List Value) : Decidable (Foldable op args) :=
  decidable_of_iff
    (((Emission.branch false op (args.map Value.operand)).value.any Operand.isConst) = true)
    (Option.any_eq_true _ _)

/-- The bits of a `ConstantInt`. -/
def Value.constant : Value → Reg
  | .const w x => ⟨w, x.setWidth w.bits⟩
  | .reg w _ => ⟨w, 0⟩

/-- What a branch makes of constants; the undefined results are taken to be 0. -/
def foldedWord (op : Instruction) (args : List Value) : Word :=
  match op, args.map (Reg.denote ∘ Value.constant) with
  | .ADDMOD, [a, b, m] => (emitAddmod a b m).getD 0
  | .MULMOD, [a, b, m] => (emitMulmod a b m).getD 0
  | .BYTE, [idx, value] => (emitByte true idx value).getD 0
  | .SIGNEXTEND, [idx, word] => (emitSignextend idx word).getD 0
  | .SHL, [shift, value] => (emitShift .SHL shift value).getD 0
  | .SHR, [shift, value] => (emitShift .SHR shift value).getD 0
  | .SAR, [shift, value] => (emitShift .SAR shift value).getD 0
  | op, _ => ((emitOpcode op (args.map Value.constant)).map Reg.denote).getD 0

/-- The two identities, as `CreateAnd` and `CreateOr` try them. -/
def leftIdentity : Instruction → List Value → Option Value
  | .AND, [lhs, .const w ones] =>
    if w = lhs.width ∧ ones.toNat = 2 ^ w.bits - 1 then some lhs else none
  | .OR, [lhs, .const w zero] => if w = lhs.width ∧ zero = 0 then some lhs else none
  | _, _ => none

def defaultFold (op : Instruction) (args : List Value) : Option Value :=
  if Foldable op args then some (.const (resultWidth op args) (foldedWord op args))
      else leftIdentity op args

theorem leftIdentity_eq_some {op : Instruction} {args : List Value} {v : Value}
    (h : leftIdentity op args = some v) : LeftIdentity op args v := by
  unfold leftIdentity at h
  split at h
  · split at h
    · rename_i hw
      cases h
      exact .inl ⟨rfl, _, by rw [hw.1], by rw [← hw.1]; exact hw.2⟩
    · cases h
  · split at h
    · rename_i hw
      cases h
      exact .inr ⟨rfl, by rw [hw.1, hw.2]⟩
    · cases h
  · cases h

/-- A compilation with the default folder. -/
def defaultEnv : CompileEnv where
  bytecode := []
  retPC := 0
  rtWasmCode := []
  fold := defaultFold
  fold_mem := by
    intro op args v h
    unfold defaultFold at h
    split at h
    · exact .inr ⟨_, _, (Option.some.inj h).symm⟩
    · apply Or.inl
      rcases leftIdentity_eq_some h with ⟨-, ones, rfl, -⟩ | ⟨-, rfl⟩
      · exact List.mem_cons_self
      · exact List.mem_cons_self

theorem defaultEnv_defaultFolder : defaultEnv.DefaultFolder where
  constant := fun h => ⟨_, _, if_pos h⟩
  other := by
    intro op args v hnot hv
    have hfold : leftIdentity op args = some v := (if_neg hnot).symm.trans hv
    exact leftIdentity_eq_some hfold

/-- `PUSH1 0 GAS OR STOP`: the gas is returned as it is. -/
def gasOrZero : List Byte := [0x60, 0x00, 0x5a, 0x17, 0x00]

theorem resultTags_iff_gasOrZero : emittedSteps defaultEnv gasOrZero =
      [⟨2, .GAS, []⟩, ⟨3, .OR, [.reg .i256 1, .const .i256 0]⟩, ⟨4, .STOP, []⟩] ∧
    ∀ s ∈ emittedSteps defaultEnv gasOrZero, s.CastsInstruction defaultEnv := by
  have hsteps : emittedSteps defaultEnv gasOrZero =
      [⟨2, .GAS, []⟩, ⟨3, .OR, [.reg .i256 1, .const .i256 0]⟩, ⟨4, .STOP, []⟩] := by
    decide +kernel
  refine ⟨hsteps, (resultTags_iff defaultEnv defaultEnv_defaultFolder gasOrZero).mpr ?_⟩
  rw [hsteps]
  simp [BlockStep.CastsConstant, Instruction.folds, Value.isConst]

/-- `PUSH1 1 PUSH1 2 ADD STOP`. -/
def onePlusTwo : List Byte := [0x60, 0x01, 0x60, 0x02, 0x01, 0x00]

/-- **The sum of two pushed words is the constant 3**, and it is cast to an instruction. -/
theorem onePlusTwo_casts_constant :
    defaultEnv.fold .ADD [.const .i256 2, .const .i256 1] = some (.const .i256 3) ∧
    ¬ ∀ s ∈ emittedSteps defaultEnv onePlusTwo, s.CastsInstruction defaultEnv := by
  have hfold : defaultEnv.fold .ADD [.const .i256 2, .const .i256 1] = some (.const .i256 3) := by
    decide +kernel
  have hstep :
      ⟨4, .ADD, [.const .i256 2, .const .i256 1]⟩ ∈ emittedSteps defaultEnv onePlusTwo := by
    decide +kernel
  exact ⟨hfold, fun h => Bool.noConfusion (h _ hstep rfl _ hfold)⟩

end EvmTrans
