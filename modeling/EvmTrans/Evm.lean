/-
# `EvmTrans.Evm` — the EVM that the translation is measured against.

A small-step machine over a program counter, the operand stack and the world. Stack and control
instructions are spelled out; every other opcode takes its `δ` operands off the stack and is the
SAME function `Ops.exec` as on the translator's side. The arities are the EVM's own table,
independent of the translator's `InstrMap`, and `removed_eq_stkOut` / `StepCase.height` say that the
two tables agree.

A run is observed where it enters basic blocks: `Entry k e` says that `e` is the state of the `k`-th
such entry, reached without failing and without ever holding more than 511 words.
-/
import EvmTrans.BlockPartition
import EvmTrans.IR

namespace EvmTrans

/-! ## §1 — the machine. -/

/-- Program counter, operand stack (top first), world. -/
structure EvmSt (W : Type) where
  pc : Nat
  stack : List Word
  world : W
  deriving DecidableEq

inductive EvmRes (W : Type) where
  | next (s : EvmSt W)
  | halt (o : Outcome) (w : W)
  | fail

/-- Words that an ordinary opcode removes from the stack. -/
def Instruction.removed : Instruction → Nat
  | .ADD | .MUL | .SUB | .DIV | .SDIV | .MOD | .SMOD | .EXP | .SIGNEXTEND => 2
  | .ADDMOD | .MULMOD => 3
  | .LT | .GT | .SLT | .SGT | .EQ | .AND | .OR | .XOR | .BYTE | .SHL | .SHR | .SAR => 2
  | .ISZERO | .NOT => 1
  | .SHA3 => 2
  | .BALANCE | .CALLDATALOAD | .EXTCODESIZE | .EXTCODEHASH | .BLOCKHASH | .MLOAD | .SLOAD => 1
  | .CALLDATACOPY | .CODECOPY | .RETURNDATACOPY => 3
  | .EXTCODECOPY => 4
  | .MSTORE | .MSTORE8 | .SSTORE => 2
  | .LOG n => n + 2
  | .CREATE => 3
  | .CREATE2 => 4
  | .CALL | .CALLCODE => 7
  | .DELEGATECALL | .STATICCALL => 6
  | _ => 0

/-- Whether an ordinary opcode puts a word on the stack. -/
def Instruction.adds : Instruction → Bool
  | .CALLDATACOPY | .CODECOPY | .RETURNDATACOPY | .EXTCODECOPY | .MSTORE | .MSTORE8 | .SSTORE
  | .LOG _ => false
  | _ => true

variable {W : Type}

/-- One EVM instruction. Past the end of the code the EVM reads `STOP`. -/
def evmStep (ops : Ops W) (code : List Byte) (s : EvmSt W) : EvmRes W :=
  match instAt code s.pc with
  | .STOP => .halt (.finish []) s.world
  | .PUSH n => .next ⟨instrEnd code s.pc, pushValue code s.pc n :: s.stack, s.world⟩
  | .POP =>
    match s.stack with
    | _ :: st => .next ⟨s.pc + 1, st, s.world⟩
    | [] => .fail
  | .DUP n =>
    match s.stack[n - 1]? with
    | some v => .next ⟨s.pc + 1, v :: s.stack, s.world⟩
    | none => .fail
  | .SWAP n =>
    match s.stack[0]?, s.stack[n]? with
    | some a, some b => .next ⟨s.pc + 1, (s.stack.set n a).set 0 b, s.world⟩
    | _, _ => .fail
  | .JUMPDEST => .next ⟨s.pc + 1, s.stack, s.world⟩
  | .JUMP =>
    match s.stack with
    | d :: st => if isJumpDest code d.toNat then .next ⟨d.toNat, st, s.world⟩ else .fail
    | _ => .fail
  | .JUMPI =>
    match s.stack with
    | d :: c :: st =>
      if c = 0 then .next ⟨s.pc + 1, st, s.world⟩
      else if isJumpDest code d.toNat then .next ⟨d.toNat, st, s.world⟩ else .fail
    | _ => .fail
  | .PC => .next ⟨s.pc + 1, BitVec.ofNat 256 s.pc :: s.stack, s.world⟩
  | .RETURN =>
    match s.stack with
    | off :: size :: _ => .halt (.finish (ops.output s.world off size)) s.world
    | _ => .fail
  | .REVERT =>
    match s.stack with
    | off :: size :: _ => .halt (.revert (ops.output s.world off size)) s.world
    | _ => .fail
  | .SUICIDE =>
    match s.stack with
    | dest :: _ => .halt (.selfDestruct dest) s.world
    | _ => .fail
  | .UNDEFINED _ => .fail
  | op =>
    if s.stack.length < op.removed then .fail
    else
      match ops.exec op (s.stack.take op.removed) s.world with
      | some (v, w) =>
        .next ⟨s.pc + 1, (if op.adds then [v] else []) ++ s.stack.drop op.removed, w⟩
      | none => .fail

/-- A step that stays within 511 words. -/
def EvmStep (ops : Ops W) (code : List Byte) (s s' : EvmSt W) : Prop :=
  evmStep ops code s = .next s' ∧ s'.stack.length ≤ 511

/-- A basic block starts at `pc`. -/
def BlockStart (code : List Byte) (pc : Nat) : Prop :=
  ∃ b ∈ createBasicBlocks code, b.firstInstrIdx = pc

/-- Steps that pass no block start on the way. -/
inductive BlockRun (ops : Ops W) (code : List Byte) : EvmSt W → EvmSt W → Prop
  | last {s s'} : EvmStep ops code s s' → BlockRun ops code s s'
  | cons {s s' s''} : EvmStep ops code s s' → ¬ BlockStart code s'.pc →
      BlockRun ops code s' s'' → BlockRun ops code s s''

/-- **The `k`-th entry to a basic block** of the run that starts in world `w` with an empty
stack. -/
inductive Entry (ops : Ops W) (code : List Byte) (w : W) : Nat → EvmSt W → Prop
  | start : Entry ops code w 0 ⟨0, [], w⟩
  | next {k s s'} : Entry ops code w k s → BlockRun ops code s s' → BlockStart code s'.pc →
      Entry ops code w (k + 1) s'

/-! ## §2 — the stack table. -/

/-- The ordinary opcodes: neither stack nor control. -/
def Instruction.ordinary : Instruction → Bool
  | .STOP | .PUSH _ | .POP | .DUP _ | .SWAP _ | .JUMPDEST | .JUMP | .JUMPI | .PC | .RETURN | .REVERT
  | .SUICIDE | .UNDEFINED _ => false
  | _ => true

/-- `InstrMap` has the EVM's arities. -/
theorem removed_eq_stkOut {op : Instruction} (h : op.ordinary = true) :
    op.stkOut = op.removed ∧ op.stkIn = if op.adds then 1 else 0 := by
  cases op <;> first | exact ⟨rfl, rfl⟩ | cases h

theorem evmStep_ordinary (ops : Ops W) (code : List Byte) (s : EvmSt W)
    (h : (instAt code s.pc).ordinary = true) : evmStep ops code s =
      if s.stack.length < (instAt code s.pc).removed then .fail
      else
        match ops.exec (instAt code s.pc) (s.stack.take (instAt code s.pc).removed) s.world with
        | some (v, w) => .next ⟨s.pc + 1, (if (instAt code s.pc).adds then [v] else []) ++
            s.stack.drop (instAt code s.pc).removed, w⟩
        | none => .fail := by
  unfold evmStep
  cases hi : instAt code s.pc <;> first | rfl | (rw [hi] at h; cases h)

/-- **Everything a step can do.** -/
inductive StepCase (ops : Ops W) (code : List Byte) (s : EvmSt W) : EvmSt W → Prop
  | push {n} (hi : instAt code s.pc = .PUSH n) :
      StepCase ops code s ⟨instrEnd code s.pc, pushValue code s.pc n :: s.stack, s.world⟩
  | pop {v st} (hi : instAt code s.pc = .POP) (hs : s.stack = v :: st) :
      StepCase ops code s ⟨s.pc + 1, st, s.world⟩
  | dup {n v} (hi : instAt code s.pc = .DUP n) (hv : s.stack[n - 1]? = some v) :
      StepCase ops code s ⟨s.pc + 1, v :: s.stack, s.world⟩
  | swap {n a b} (hi : instAt code s.pc = .SWAP n) (ha : s.stack[0]? = some a)
      (hb : s.stack[n]? = some b) :
      StepCase ops code s ⟨s.pc + 1, (s.stack.set n a).set 0 b, s.world⟩
  | jumpdest (hi : instAt code s.pc = .JUMPDEST) :
      StepCase ops code s ⟨s.pc + 1, s.stack, s.world⟩
  | pc (hi : instAt code s.pc = .PC) :
      StepCase ops code s ⟨s.pc + 1, BitVec.ofNat 256 s.pc :: s.stack, s.world⟩
  | jump {d st} (hi : instAt code s.pc = .JUMP) (hs : s.stack = d :: st)
      (hd : isJumpDest code d.toNat = true) : StepCase ops code s ⟨d.toNat, st, s.world⟩
  | jumpiTaken {d c st} (hi : instAt code s.pc = .JUMPI) (hs : s.stack = d :: c :: st) (hc : c ≠ 0)
      (hd : isJumpDest code d.toNat = true) : StepCase ops code s ⟨d.toNat, st, s.world⟩
  | jumpiFall {d st} (hi : instAt code s.pc = .JUMPI) (hs : s.stack = d :: 0 :: st) :
      StepCase ops code s ⟨s.pc + 1, st, s.world⟩
  | ordinary {v w} (hi : (instAt code s.pc).ordinary = true)
      (hlen : (instAt code s.pc).removed ≤ s.stack.length)
      (hx : ops.exec (instAt code s.pc) (s.stack.take (instAt code s.pc).removed) s.world
        = some (v, w)) :
      StepCase ops code s ⟨s.pc + 1, (if (instAt code s.pc).adds then [v] else []) ++
        s.stack.drop (instAt code s.pc).removed, w⟩

theorem evmStep_cases {ops : Ops W} {code : List Byte} {s s' : EvmSt W}
    (h : evmStep ops code s = .next s') : StepCase ops code s s' := by
  by_cases ho : (instAt code s.pc).ordinary = true
  · rw [evmStep_ordinary ops code s ho] at h
    split at h
    · cases h
    · rename_i hlen
      cases hx : ops.exec (instAt code s.pc) (s.stack.take (instAt code s.pc).removed) s.world with
      | none => rw [hx] at h; cases h
      | some r =>
        rw [hx] at h
        cases h
        exact .ordinary ho (Nat.le_of_not_lt hlen) hx
  · unfold evmStep at h
    cases hi : instAt code s.pc with
    | PUSH n => rw [hi] at h; cases h; exact .push hi
    | JUMPDEST => rw [hi] at h; cases h; exact .jumpdest hi
    | PC => rw [hi] at h; cases h; exact .pc hi
    | STOP => rw [hi] at h; cases h
    | UNDEFINED x => rw [hi] at h; cases h
    | POP =>
      rw [hi] at h
      rcases hs : s.stack with _ | ⟨v, st⟩
      · rw [hs] at h; cases h
      · rw [hs] at h; cases h; exact .pop hi hs
    | DUP n =>
      rw [hi] at h
      cases hv : s.stack[n - 1]? with
      | none => simp only [hv] at h; cases h
      | some v => simp only [hv] at h; cases h; exact .dup hi hv
    | SWAP n =>
      rw [hi] at h
      cases ha : s.stack[0]? with
      | none => simp only [ha] at h; cases h
      | some a =>
        cases hb : s.stack[n]? with
        | none => simp only [ha, hb] at h; cases h
        | some b => simp only [ha, hb] at h; cases h; exact .swap hi ha hb
    | JUMP =>
      rw [hi] at h
      rcases hs : s.stack with _ | ⟨d, st⟩
      · simp only [hs] at h; cases h
      · simp only [hs] at h
        split at h
        · rename_i hd
          cases h
          exact .jump hi hs hd
        · cases h
    | JUMPI =>
      rw [hi] at h
      rcases hs : s.stack with _ | ⟨d, _ | ⟨c, st⟩⟩
      · simp only [hs] at h; cases h
      · simp only [hs] at h; cases h
      · simp only [hs] at h
        split at h
        · rename_i hc
          cases h
          subst hc
          exact .jumpiFall hi hs
        · rename_i hc
          split at h
          · rename_i hd
            cases h
            exact .jumpiTaken hi hs hc hd
          · cases h
    | RETURN =>
      rw [hi] at h
      rcases hs : s.stack with _ | ⟨d, _ | ⟨c, st⟩⟩ <;> simp only [hs] at h <;> cases h
    | REVERT =>
      rw [hi] at h
      rcases hs : s.stack with _ | ⟨d, _ | ⟨c, st⟩⟩ <;> simp only [hs] at h <;> cases h
    | SUICIDE =>
      rw [hi] at h
      rcases hs : s.stack with _ | ⟨d, st⟩ <;> simp only [hs] at h <;> cases h
    | _ => rw [hi] at ho; exact absurd rfl ho

/-- And a step does each of them. -/
theorem StepCase.evmStep {ops : Ops W} {code : List Byte} {s s' : EvmSt W}
    (h : StepCase ops code s s') : EvmTrans.evmStep ops code s = .next s' := by
  cases h with
  | push hi => simp [EvmTrans.evmStep, hi]
  | pop hi hs => simp [EvmTrans.evmStep, hi, hs]
  | dup hi hv => simp [EvmTrans.evmStep, hi, hv]
  | swap hi ha hb => simp only [EvmTrans.evmStep, hi, ha, hb]
  | jumpdest hi => simp [EvmTrans.evmStep, hi]
  | pc hi => simp [EvmTrans.evmStep, hi]
  | jump hi hs hd => simp [EvmTrans.evmStep, hi, hs, hd]
  | jumpiTaken hi hs hc hd => simp only [EvmTrans.evmStep, hi, hs, if_neg hc, if_pos hd]
  | jumpiFall hi hs => simp [EvmTrans.evmStep, hi, hs]
  | ordinary hi hlen hx =>
    rw [evmStep_ordinary ops code s hi, if_neg (Nat.not_lt.mpr hlen), hx]

/-- There is no `DUP0` and no `SWAP0`. -/
theorem ofByte_ne_zero : ∀ b : Byte,
    Instruction.ofByte b ≠ .DUP 0 ∧ Instruction.ofByte b ≠ .SWAP 0 := by
  decide +kernel

theorem instAt_dup_pos {code : List Byte} {i n : Nat} (h : instAt code i = .DUP n) : 1 ≤ n := by
  rcases Nat.eq_zero_or_pos n with rfl | hn
  · exact absurd h (ofByte_ne_zero _).1
  · exact hn

theorem instAt_swap_pos {code : List Byte} {i n : Nat} (h : instAt code i = .SWAP n) : 1 ≤ n := by
  rcases Nat.eq_zero_or_pos n with rfl | hn
  · exact absurd h (ofByte_ne_zero _).2
  · exact hn

/-- **`InstrMap` describes the EVM**: a step that succeeds had its operands, and changes the height
by the two entries of the table. -/
theorem StepCase.height {ops : Ops W} {code : List Byte} {s s' : EvmSt W}
    (h : StepCase ops code s s') : (instAt code s.pc).stkOut ≤ s.stack.length ∧
      s'.stack.length + (instAt code s.pc).stkOut = s.stack.length + (instAt code s.pc).stkIn := by
  cases h with
  | push hi => rw [hi]; exact ⟨Nat.zero_le _, rfl⟩
  | pop hi hs => rw [hi, hs]; exact ⟨Nat.le_add_left _ _, rfl⟩
  | dup hi hv =>
    have hlt := (List.getElem?_eq_some_iff.mp hv).1
    have hpos := instAt_dup_pos hi
    rw [hi]
    simp only [Instruction.stkOut, Instruction.stkIn, List.length_cons]
    omega
  | swap hi ha hb =>
    have hlt := (List.getElem?_eq_some_iff.mp hb).1
    rw [hi]
    refine ⟨hlt, ?_⟩
    show ((s.stack.set _ _).set 0 _).length + _ = _
    rw [List.length_set, List.length_set]
    rfl
  | jumpdest hi => rw [hi]; exact ⟨Nat.zero_le _, rfl⟩
  | pc hi => rw [hi]; exact ⟨Nat.zero_le _, rfl⟩
  | jump hi hs hd => rw [hi, hs]; exact ⟨Nat.le_add_left _ _, rfl⟩
  | jumpiTaken hi hs hc hd => rw [hi, hs]; exact ⟨Nat.le_add_left _ _, rfl⟩
  | jumpiFall hi hs => rw [hi, hs]; exact ⟨Nat.le_add_left _ _, rfl⟩
  | ordinary hi hlen hx =>
    obtain ⟨ho, hin⟩ := removed_eq_stkOut hi
    rw [ho, hin]
    simp only [List.length_append, List.length_drop]
    split
    · simp only [List.length_singleton]
      omega
    · simp only [List.length_nil]
      omega

end EvmTrans
