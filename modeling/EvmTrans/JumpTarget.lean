/-
# `EvmTrans.JumpTarget` — what a jump leaves in `target`.

Both jumps store their destination in `target` before they branch, taken or not. `resolveJumps`
erases the store where the destination is a constant, so only a COMPUTED destination gets there, and
it stays until the next one. `targetAfter` says that of an EVM state: the emitted code needs its own
block only to know which of the two the operand is.
-/
import EvmTrans.CallSim

namespace EvmTrans

variable {W : Type} {env : CompileEnv}

/-! ## §1 — the operand that a block carries. -/

/-- The destination a jump carries for `resolveJumps`. -/
def Term.destIdx : Term → Option Value
  | .br _ d => d
  | .condBr _ _ _ d => d
  | _ => none

/-- The emitted block `i` ends in a jump with the operand `idx`. -/
def CarriesDest (env : CompileEnv) (code : List Byte) (i : Nat) (idx : Value) : Prop :=
  ∃ blk, (compileMain env code).find? (fun b => b.label == .code i) = some blk ∧
    blk.term.bind Term.destIdx = some idx

instance (v : Value) : Decidable v.Wide :=
  match v with
  | .const w _ => inferInstanceAs (Decidable (w = .i256))
  | .reg _ _ => inferInstanceAs (Decidable True)

/-- The number of the block that holds offset `pc`. -/
def blockOf (code : List Byte) (pc : Nat) : Nat :=
  (createBasicBlocks code).findIdx fun b => decide (pc < b.endIdx)

/-- The operand of the jump behind `pc`, as the emitted block around `pc` carries it. -/
def jumpOperand (env : CompileEnv) (code : List Byte) (pc : Nat) : Option Value :=
  ((compileMain env code).find? fun b => b.label == .code (blockOf code pc)).bind fun b =>
    b.term.bind Term.destIdx

/-- What `target` holds behind the instruction at `e`, when it held `t` before: a jump whose
destination is computed puts the top of the stack there. -/
def targetAfter (env : CompileEnv) (code : List Byte) (e : EvmSt W) (t : Word) : Word :=
  match instAt code e.pc, jumpOperand env code e.pc with
  | .JUMP, some (.reg _ _) | .JUMPI, some (.reg _ _) => e.stack.headD 0
  | _, _ => t

/-- A jump that is taken. -/
def takesJump (code : List Byte) (e : EvmSt W) : Bool :=
  match instAt code e.pc, e.stack with
  | .JUMP, _ => true
  | .JUMPI, _ :: x :: _ => x != 0
  | _, _ => false

/-- A jump that is taken to a constant of less than 256 bits: the emitted code goes to `Abort`. -/
def takesNarrow (env : CompileEnv) (code : List Byte) (e : EvmSt W) : Bool :=
  takesJump code e && (jumpOperand env code e.pc).any fun idx => !decide idx.Wide

section Block

variable {code : Bytecode} {i : Nat} {bb : BasicBlock} {idx : Value}

theorem blockOf_eq (hbb : (blockTable code.bytes)[i]? = some bb) {pc : Nat}
    (hin : InBlock code.bytes bb pc) : blockOf code.bytes pc = i := by
  have hinv := blockTable_edgeInv code.ne
  obtain ⟨b₀, hb₀, hs⟩ := hinv.getElem? hbb
  obtain ⟨hi, rfl⟩ := List.getElem?_eq_some_iff.mp hb₀
  refine (List.findIdx_eq hi).mpr ⟨?_, fun j hj => ?_⟩
  · rw [decide_eq_true_eq, ← BasicBlock.end_eq hs]
    exact hin.lt_end
  · -- a block in front ends before this one starts
    have hlt : j < (createBasicBlocks code.bytes).length := hj.trans hi
    obtain ⟨bj, hbj, hsj⟩ := hinv.getElem?_of_created (List.getElem?_eq_getElem hlt)
    have hle := blockTable_end_le_first code.ne hbj hbb hj
    have hfirst := hin.first_le
    rw [decide_eq_false_iff_not, ← BasicBlock.end_eq hsj]
    omega

theorem jumpOperand_eq (hbb : (blockTable code.bytes)[i]? = some bb) {pc : Nat}
    (hin : InBlock code.bytes bb pc) (hc : CarriesDest env code.bytes i idx) :
    jumpOperand env code.bytes pc = some idx := by
  obtain ⟨blk, hfind, hterm⟩ := hc
  rw [jumpOperand, blockOf_eq hbb hin, hfind]
  exact hterm

end Block

/-! ## §2 — one instruction. -/

section After

variable {code : List Byte} {e : EvmSt W} {idx : Value} {d x t : Word} {st : List Word}
  {regs : Nat → Word}

theorem targetAfter_of_plain (hp : (instAt code e.pc).plain = true) :
    targetAfter env code e t = t := by
  unfold targetAfter
  split
  · rename_i hi _
    rw [hi] at hp
    cases hp
  · rename_i hi _
    rw [hi] at hp
    cases hp
  · rfl

/-- A jump stores the destination that its operand denotes. -/
theorem targetAfter_of_jump (hi : instAt code e.pc = .JUMP ∨ instAt code e.pc = .JUMPI)
    (hop : jumpOperand env code e.pc = some idx) (hs : e.stack = d :: st)
    (hden : idx.denote regs = d) : targetAfter env code e t = idx.stored regs t := by
  subst hden
  unfold targetAfter
  rcases hi with hi | hi
  · rw [hi, hop, hs]
    cases idx <;> rfl
  · rw [hi, hop, hs]
    cases idx <;> rfl

theorem takesNarrow_of_plain (hp : (instAt code e.pc).plain = true) :
    takesNarrow env code e = false := by
  have hno : takesJump code e = false := by
    unfold takesJump
    split
    · rename_i hi
      rw [hi] at hp
      cases hp
    · rename_i hi _
      rw [hi] at hp
      cases hp
    · rfl
  rw [takesNarrow, hno, Bool.false_and]

/-- A jump that is not taken. -/
theorem takesNarrow_of_fall (hi : instAt code e.pc = .JUMPI) (hs : e.stack = d :: 0 :: st) :
    takesNarrow env code e = false := by
  rw [takesNarrow, takesJump, hi, hs]
  rfl

/-- A jump that is taken is narrow when its operand is. -/
theorem takesNarrow_of_jump (hj : takesJump code e = true)
    (hop : jumpOperand env code e.pc = some idx) : takesNarrow env code e = !decide idx.Wide := by
  rw [takesNarrow, hj, hop, Bool.true_and]
  rfl

theorem takesJump_jump (hi : instAt code e.pc = .JUMP) : takesJump code e = true := by
  rw [takesJump, hi]

theorem takesJump_jumpi (hi : instAt code e.pc = .JUMPI) (hs : e.stack = d :: x :: st)
    (hx : x ≠ 0) : takesJump code e = true := by
  rw [takesJump, hi, hs]
  exact bne_iff_ne.mpr hx

end After

end EvmTrans
