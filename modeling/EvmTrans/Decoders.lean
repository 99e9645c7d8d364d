/-
# `EvmTrans.Decoders` — the ways to the next instruction, and the passes that take them.

`Instruction.cpp` has three ways to step over the data of a push, with three conventions: the offset
clamped to what is left (`skipPushDataAndGetNext`, of which `createBasicBlocks` has a copy), the end
iterator decremented first (`skipPushData`), and the data read and the iterator stepped back to the
last real byte (`readPushData`). §1 brings all of them to `instrEnd`, the EVM's own step, stopped at
the end. Five passes walk the code with them; §2 gives each loop of the model as a `Lib.pass`, and
§3 says which instructions it visits.
-/
import EvmTrans.CompileShape
import EvmTrans.DryRun
import EvmTrans.SplitCode
import EvmTrans.Lib.Pass

namespace EvmTrans

open Lib (pass pass_eq visits positions positions_stop upTo visits_eq visits_all visits_returns)

/-! ## §1 — the decoders. -/

/-- The loop of `skipPushData`: `for (i = 0; i < numBytes && _curr < _end; ++i, ++_curr) {}`. -/
def skipPushDataLoop (stop : Nat) : Nat → Nat → Nat
  | 0, curr => curr
  | n + 1, curr => if curr < stop then skipPushDataLoop stop n (curr + 1) else curr

/-- `skipPushData(_curr, _end)`: where it leaves `_curr`. `none` is the assertion, which admits a
push only. -/
def skipPushData (code : List Byte) (curr stop : Nat) : Option Nat :=
  if 0x60 ≤ (codeAt code curr).toNat ∧ (codeAt code curr).toNat ≤ 0x7f then
    some (skipPushDataLoop (stop - 1) ((codeAt code curr).toNat - 0x60 + 1) curr)
  else none

/-- The lambda `skipPushDataAndGetNext` of `createBasicBlocks`. -/
def createBasicBlocks.skipPushDataAndGetNext (code : List Byte) (curr stop : Nat) : Nat :=
  let offset := 1
  let offset := if 0x60 ≤ (codeAt code curr).toNat ∧ (codeAt code curr).toNat ≤ 0x7f then
    offset + min ((codeAt code curr).toNat - 0x60 + 1) (stop - curr - 1) else offset
  curr + offset

/-- The step that all decoders take: the EVM's, stopped at the end of the range. -/
def nextInst (code : List Byte) (stop i : Nat) : Nat := min (instrEnd code i) stop

variable {code : List Byte} {stop : Nat}

theorem createBasicBlocks.skipPushDataAndGetNext_eq (code : List Byte) (curr stop : Nat) :
    createBasicBlocks.skipPushDataAndGetNext code curr stop =
      EvmTrans.skipPushDataAndGetNext code curr stop := by
  unfold createBasicBlocks.skipPushDataAndGetNext EvmTrans.skipPushDataAndGetNext
  split
  · rfl
  · rfl

theorem skipPushDataLoop_eq {stop : Nat} : ∀ {n curr : Nat}, curr ≤ stop →
    skipPushDataLoop stop n curr = min (curr + n) stop := by
  intro n
  induction n with
  | zero =>
    intro curr h
    exact (Nat.min_eq_left h).symm
  | succ n ih =>
    intro curr h
    unfold skipPushDataLoop
    split
    · rw [ih (by omega)]
      omega
    · omega

/-- `skipPushData` runs at a push, and only there. -/
theorem skipPushData_isSome {curr : Nat} :
    (skipPushData code curr stop).isSome = true ↔ ∃ n, instAt code curr = .PUSH n := by
  have hbytes : (instAt code curr).pushBytes = _ := pushBytes_ofByte (codeAt code curr)
  unfold skipPushData
  by_cases hr : 0x60 ≤ (codeAt code curr).toNat ∧ (codeAt code curr).toNat ≤ 0x7f
  · rw [if_pos hr]
    rw [if_pos hr] at hbytes
    refine iff_of_true rfl ?_
    -- an instruction with data bytes is a push
    cases hi : instAt code curr with
    | PUSH n => exact ⟨n, rfl⟩
    | _ =>
      rw [hi] at hbytes
      exact absurd hbytes (Nat.succ_ne_zero _).symm
  · rw [if_neg hr]
    rw [if_neg hr] at hbytes
    refine iff_of_false Bool.false_ne_true ?_
    rintro ⟨n, hn⟩
    rw [hn] at hbytes
    obtain rfl : n = 0 := hbytes
    exact ofByte_ne_push_zero _ hn

/-- `skipPushData` followed by `++it` arrives at the next instruction. -/
theorem skipPushData_add_one {curr c : Nat} (h : curr < stop)
    (hs : skipPushData code curr stop = some c) : c + 1 = nextInst code stop curr := by
  have hbytes : (instAt code curr).pushBytes = _ := pushBytes_ofByte (codeAt code curr)
  unfold skipPushData at hs
  split at hs
  · rename_i hr
    rw [if_pos hr] at hbytes
    obtain rfl := Option.some.inj hs
    rw [skipPushDataLoop_eq (by omega), nextInst, instrEnd, hbytes]
    omega
  · cases hs

theorem readPushDataLoop_take {n : Nat} : ∀ {v : Word} {curr : Nat}, curr ≤ stop →
    readPushDataLoop (code.take stop) stop n v curr = readPushDataLoop code stop n v curr := by
  induction n with
  | zero => exact fun _ => rfl
  | succ n ih =>
    intro v curr h
    unfold readPushDataLoop
    split
    · rw [codeAt_take (by omega), ih (by omega)]
    · exact ih h

/-- **`readPushData` reads the range as a string of its own**: what it makes up behind the end are
the zeros of the EVM's reading of that string. -/
theorem readPushData_value {curr n : Nat} (hstop : stop ≤ code.length) (h : curr < stop)
    (hp : instAt code curr = .PUSH n) :
    (readPushData code curr stop).1 = pushValue (code.take stop) curr n := by
  have htake : readPushData code curr stop = readPushData (code.take stop) curr stop := by
    unfold readPushData
    rw [codeAt_take h, readPushDataLoop_take h]
  have hp' : instAt (code.take stop) curr = .PUSH n := by rw [instAt, codeAt_take h]; exact hp
  rw [htake]
  refine readPushData_fst h hp' fun j hj _ => ?_
  rw [codeAt, List.getD_eq_getElem?_getD, List.getElem?_eq_none]
  · rfl
  · rw [List.length_take_of_le hstop]
    exact hj

/-! ## §2 — the five passes. -/

/-- The body of the loop of `ctxDep`. -/
def ctxDepAct (code : List Byte) (stop it : Nat) (s : Nat × Nat) :
    (Nat × Nat) ⊕ (Nat × (Nat × Nat)) :=
  let out := (instAt code it).stkOut
  let inn := (instAt code it).stkIn
  let next := skipPushDataAndGetNext code it stop
  if out ≤ s.2 then .inr (next, (s.1, s.2 - out + inn)) else .inr (next, (s.1 + (out - s.2), inn))

/-- The body of the loop of `dry_run_bb`. -/
def dryRunBbAct (code : List Byte) (stop it : Nat) (stk : List Nat) : List Nat ⊕ (Nat × List Nat) :=
  let inst := instAt code it
  match inst with
  | .PUSH _ =>
    let r := readPushData code it stop
    .inr (r.2 + 1, (if r.1.toNat < 2 ^ 64 then r.1.toNat else 0) :: stk)
  | .STOP | .JUMP | .JUMPI => .inl stk
  | .DUP n => .inr (it + 1, stk.getD (n - 1) 0 :: stk)
  | .SWAP n =>
    if stk.length > n + 1 then
      .inr (it + 1, (stk.set (n + 1) (stk.getD 0 0)).set 0 (stk.getD (n + 1) 0))
    else .inr (it + 1, stk)
  | .RETURN | .REVERT | .SUICIDE => .inl (balancedStk stk inst.stkOut inst.stkIn)
  | _ => .inr (it + 1, balancedStk stk inst.stkOut inst.stkIn)

/-- The body of the loop of `compileBasicBlock`. -/
def compileAct (env : CompileEnv) (code : List Byte) (bb : BasicBlock) (i : Nat) (next : Label)
    (it : Nat) (b : Builder) : (Unit × Builder) ⊕ (Nat × Builder) :=
  match instAt code it with
  | .PUSH _ =>
    let r := readPushData code it bb.endIdx
    .inr (r.2 + 1, (GlobalStack.push (.const .i256 r.1) b).2)
  | .UNDEFINED _ => .inl (setTerm .unreachable b)
  | inst => .inr (it + 1, (compileInst env bb i next it inst b).2)

/-- The variables of the loop of `createBasicBlocks` besides the iterator. -/
structure CreateState where
  begin : Nat
  isDead : Bool
  blocks : List BasicBlock

/-- The body of the loop of `createBasicBlocks`. -/
def createAct (code : List Byte) (curr : Nat) (s : CreateState) :
    List BasicBlock ⊕ (Nat × CreateState) :=
  let next := createBasicBlocks.skipPushDataAndGetNext code curr code.length
  let inst := instAt code curr
  if s.isDead && inst != .JUMPDEST then .inr (next, ⟨s.begin, true, s.blocks⟩)
  else
    let begin := if s.isDead then curr else s.begin
    let isEnd := inst.endsBlock || next == code.length || instAt code next == .JUMPDEST
    if isEnd then .inr (next, ⟨next, inst.kills, s.blocks ++ [mkBasicBlock code begin next]⟩)
    else .inr (next, ⟨begin, false, s.blocks⟩)

/-- The variables of the loop of `splitCode` besides the iterator. -/
structure SplitState where
  existCodeCopy : Bool
  existReturn : Bool
  returnPC : Nat

/-- The body of the loop of `splitCode`. -/
def splitCodeAct (code : List Byte) (curr : Nat) (s : SplitState) :
    Option (Nat × Nat) ⊕ (Nat × SplitState) :=
  let next := skipPushDataAndGetNext code curr code.length
  match instAt code curr with
  | .CODECOPY => .inr (next, { s with existCodeCopy := true })
  | .RETURN =>
    if s.existCodeCopy then .inr (next, ⟨s.existCodeCopy, true, curr⟩) else .inr (next, s)
  | .PUSH 1 => if s.existReturn then .inl (some (curr, s.returnPC)) else .inr (next, s)
  | _ => .inr (next, s)

/-- `ctxDep` is the pass of its body. -/
theorem ctxDepLoop_eq_pass : ∀ fuel it (s : Nat × Nat),
    ctxDepLoop code stop fuel it s.1 s.2 = pass (ctxDepAct code stop) id stop fuel it s := by
  apply pass_eq
  · exact fun it s => rfl
  · exact fun fuel s => if_pos rfl
  · intro fuel it s hit
    rw [ctxDepLoop, if_neg hit, ctxDepAct]
    dsimp only
    split
    · rfl
    · rfl

theorem dryRunBbLoop_eq_pass : ∀ fuel it stk,
    dryRunBbLoop code stop fuel it stk = pass (dryRunBbAct code stop) id stop fuel it stk := by
  apply pass_eq
  · exact fun it stk => rfl
  · exact fun fuel stk => if_pos rfl
  · intro fuel it stk hit
    rw [dryRunBbLoop, if_neg hit, dryRunBbAct]
    generalize instAt code it = inst
    cases inst with
    | SWAP n =>
      dsimp only
      split
      · rfl
      · rfl
    | _ => rfl

theorem compileBasicBlockLoop_eq_pass (env : CompileEnv) (bb : BasicBlock) (i : Nat)
    (next : Label) :
    ∀ fuel it b, compileBasicBlockLoop env code bb i next fuel it b =
      pass (compileAct env code bb i next) (fun b => ((), b)) bb.endIdx fuel it b := by
  apply pass_eq
  · exact fun it b => rfl
  · intro fuel b
    unfold compileBasicBlockLoop
    rw [if_pos rfl]
    rfl
  · intro fuel it b hit
    unfold compileAct
    split
    · rename_i hi
      rw [compileBasicBlockLoop, if_neg hit, hi]
      rfl
    · rename_i hi
      rw [compileBasicBlockLoop, if_neg hit, hi]
      rfl
    · rename_i hpush hund
      exact compileBasicBlockLoop_inst hit hpush hund

theorem createBasicBlocksLoop_eq_pass : ∀ fuel curr (s : CreateState),
    s.blocks ++ createBasicBlocksLoop code fuel curr s.begin s.isDead =
      pass (createAct code) CreateState.blocks code.length fuel curr s := by
  apply pass_eq
  · exact fun curr s => List.append_nil s.blocks
  · intro fuel s
    unfold createBasicBlocksLoop
    rw [if_pos rfl]
    exact List.append_nil s.blocks
  · intro fuel curr s hcurr
    rw [createBasicBlocksLoop, if_neg hcurr, createAct, createBasicBlocks.skipPushDataAndGetNext_eq]
    dsimp only
    split
    · rfl
    · split
      · exact List.append_cons _ _ _
      · rfl

theorem splitCodeLoop_eq_pass (code : List Byte) : ∀ fuel curr (s : SplitState),
    splitCodeLoop code fuel curr s.existCodeCopy s.existReturn s.returnPC =
      pass (splitCodeAct code) (fun _ => none) code.length fuel curr s := by
  apply pass_eq
  · exact fun curr s => rfl
  · exact fun fuel s => if_pos rfl
  · intro fuel curr s hcurr
    rw [splitCodeLoop, if_neg hcurr]
    dsimp only
    split
    · rename_i hi
      rw [splitCodeAct, hi]
      rfl
    · rename_i hi
      rw [splitCodeAct, hi]
      dsimp only
      split
      · rfl
      · rfl
    · rename_i hi
      rw [splitCodeAct, hi]
      split
      · rfl
      · rfl
    · rename_i hcopy hret hpush
      have hact :
          splitCodeAct code curr s = .inr (skipPushDataAndGetNext code curr code.length, s) := by
        unfold splitCodeAct
        split
        · rename_i hi
          exact absurd hi hcopy
        · rename_i hi
          exact absurd hi hret
        · rename_i hi
          exact absurd hi hpush
        · rfl
      rw [hact]
      rfl

/-! ## §3 — the instructions they visit. -/

/-- The instructions of a block: the part of the sweep that lies in its range. -/
def blockInstrs (code : List Byte) (b : BasicBlock) : List Nat :=
  (sweep code).filter fun i => decide (b.firstInstrIdx ≤ i) && decide (i < b.endIdx)

theorem le_of_mem_sweepFrom {fuel i j : Nat} (hj : j ∈ sweepFrom code fuel i) : i ≤ j := by
  induction fuel generalizing i with
  | zero => exact absurd hj List.not_mem_nil
  | succ fuel ih =>
    unfold sweepFrom at hj
    split at hj
    · rcases List.mem_cons.mp hj with rfl | hj
      · exact le_rfl
      · exact (lt_instrEnd code i).le.trans (ih hj)
    · exact absurd hj List.not_mem_nil

theorem sweepFrom_filter_of_le {fuel i : Nat} (h : stop ≤ i) :
    (sweepFrom code fuel i).filter (fun j => decide (j < stop)) = [] := by
  apply List.filter_eq_nil_iff.mpr
  intro j hj
  have := le_of_mem_sweepFrom hj
  rw [decide_eq_true_iff]
  omega

/-- **The walk that stops at the end of the range** is the sweep, cut off there. -/
theorem positions_eq_sweepFrom (hstop : stop ≤ code.length) :
    ∀ (fuel fuel' i : Nat), stop ≤ i + fuel →
    code.length ≤ i + fuel' → positions (nextInst code stop) stop fuel (min i stop) =
      (sweepFrom code fuel' i).filter fun j => decide (j < stop) := by
  intro fuel
  induction fuel with
  | zero =>
    intro fuel' i hf _
    rw [sweepFrom_filter_of_le (by omega)]
    rfl
  | succ fuel ih =>
    intro fuel' i hf hf'
    have hgt := lt_instrEnd code i
    rcases Nat.lt_or_ge i stop with hlt | hge
    · cases fuel' with
      | zero => omega
      | succ fuel' =>
        unfold positions sweepFrom
        rw [Nat.min_eq_left hlt.le, if_neg (Nat.ne_of_lt hlt), if_pos (by omega),
          List.filter_cons_of_pos (by exact decide_eq_true hlt), nextInst,
          ih fuel' (instrEnd code i) (by omega) (by omega)]
    · rw [Nat.min_eq_right hge, positions_stop, sweepFrom_filter_of_le hge]

/-- The walk through a block. -/
theorem GoodBlock.positions_eq {b : BasicBlock} (hg : GoodBlock code b) :
    positions (nextInst code b.endIdx) b.endIdx (b.endIdx - b.firstInstrIdx) b.firstInstrIdx =
      blockInstrs code b := by
  have hlt := hg.first_lt
  have hend := hg.end_le
  have hwalk :=
    positions_eq_sweepFrom hend (b.endIdx - b.firstInstrIdx) code.length b.firstInstrIdx (by omega)
      (by omega)
  rw [Nat.min_eq_left hlt.le] at hwalk
  have hrest := sweepFrom_drop code b.firstInstrIdx code.length 0
  have hfuel : sweepFrom (code.drop b.firstInstrIdx) code.length 0 =
      sweep (code.drop b.firstInstrIdx) :=
    sweepFrom_fuel (by rw [List.length_drop]; omega) (by omega)
  rw [Nat.add_zero, hfuel] at hrest
  -- what the sweep meets in front of the block is filtered out, and the rest is not in front of it
  rw [hwalk, blockInstrs, hg.first_boundary.sweep_split, List.filter_append, ← hrest]
  have hfront : (sweep (code.take b.firstInstrIdx)).filter
      (fun i => decide (b.firstInstrIdx ≤ i) && decide (i < b.endIdx)) = [] := by
    apply List.filter_eq_nil_iff.mpr
    intro j hj
    have hb := (mem_sweep.mp hj).1
    rw [List.length_take_of_le (by omega)] at hb
    rw [Bool.and_eq_true, decide_eq_true_iff]
    omega
  rw [hfront, List.nil_append]
  apply List.filter_congr
  intro j hj
  rw [decide_eq_true (le_of_mem_sweepFrom hj), Bool.true_and]

/-- The walk through the whole code. -/
theorem positions_code (code : List Byte) :
    positions (nextInst code code.length) code.length code.length 0 = sweep code := by
  have hwalk :=
    positions_eq_sweepFrom (le_refl code.length) code.length code.length 0 (by omega) (by omega)
  rw [Nat.min_eq_left (Nat.zero_le _)] at hwalk
  rw [hwalk, sweep]
  apply List.filter_eq_self.mpr
  exact fun j hj => decide_eq_true (mem_sweep.mp hj).1

/-- On an instruction of the block. -/
def StandsOn (code : List Byte) (b : BasicBlock) (i : Nat) : Prop :=
  Boundary code i ∧ b.firstInstrIdx ≤ i ∧ i < b.endIdx

theorem GoodBlock.standsOn_next {b : BasicBlock} (hg : GoodBlock code b) {i : Nat}
    (h : StandsOn code b i) (hne : nextInst code b.endIdx i ≠ b.endIdx) :
    StandsOn code b (nextInst code b.endIdx i) :=
  (hg.standsAt_next h.1 h.2.1).resolve_right hne

theorem GoodBlock.standsOn_first {b : BasicBlock} (hg : GoodBlock code b) :
    StandsOn code b b.firstInstrIdx :=
  ⟨hg.first_boundary, le_rfl, hg.first_lt⟩

theorem GoodBlock.ctxDep_visits {b : BasicBlock} (hg : GoodBlock code b) (s : Nat × Nat) :
    visits (ctxDepAct code b.endIdx) b.endIdx (b.endIdx - b.firstInstrIdx) b.firstInstrIdx s =
      blockInstrs code b := by
  rw [← hg.positions_eq]
  apply visits_all (P := StandsOn code b)
  · exact fun i h _ hne => hg.standsOn_next h hne
  · intro i s h _
    refine .inr ?_
    unfold ctxDepAct
    rw [skipPushDataAndGetNext_eq h.2.2]
    dsimp only
    split
    · exact ⟨_, rfl⟩
    · exact ⟨_, rfl⟩
  · exact fun _ => hg.standsOn_first

/-- The step of an instruction without data, and of a push through `readPushData`. -/
theorem StandsOn.next_of_ne_push {b : BasicBlock} {i : Nat} (h : StandsOn code b i)
    (hpush : ∀ n, instAt code i ≠ .PUSH n) : i + 1 = nextInst code b.endIdx i := by
  rw [nextInst, instrEnd_of_ne_push hpush, Nat.min_eq_left h.2.2]

theorem GoodBlock.dryRunBb_visits {b : BasicBlock} (hg : GoodBlock code b) (stk : List Nat) :
    visits (dryRunBbAct code b.endIdx) b.endIdx (b.endIdx - b.firstInstrIdx) b.firstInstrIdx stk =
      blockInstrs code b := by
  rw [← hg.positions_eq]
  apply visits_all (P := StandsOn code b)
  · exact fun i h _ hne => hg.standsOn_next h hne
  · intro i stk h _
    by_cases hends : (instAt code i).endsBlock = true
    · -- the instructions at which `dry_run_bb` returns are the last of their block
      refine .inl ⟨?_, ?_⟩
      · rw [nextInst, hg.ends_last i h.1 h.2.1 h.2.2 hends, Nat.min_self]
      · unfold dryRunBbAct
        generalize instAt code i = inst at hends
        cases inst with
        | STOP | JUMP | JUMPI | RETURN | REVERT | SUICIDE => exact ⟨_, rfl⟩
        | _ => cases hends
    · refine .inr ?_
      unfold dryRunBbAct
      by_cases hpush : ∃ n, instAt code i = .PUSH n
      · obtain ⟨n, hn⟩ := hpush
        rw [nextInst, ← readPushData_snd h.2.2 hn, hn]
        exact ⟨_, rfl⟩
      · have hpush : ∀ n, instAt code i ≠ .PUSH n := fun n hn => hpush ⟨n, hn⟩
        rw [← h.next_of_ne_push hpush]
        generalize instAt code i = inst at hends hpush
        cases inst with
        | STOP | JUMP | JUMPI | RETURN | REVERT | SUICIDE => exact absurd rfl hends
        | PUSH n => exact absurd rfl (hpush n)
        | SWAP n =>
          dsimp only
          split
          · exact ⟨_, rfl⟩
          · exact ⟨_, rfl⟩
        | _ => exact ⟨_, rfl⟩
  · exact fun _ => hg.standsOn_first

/-- `default:` of the `switch`. -/
def Instruction.isUndefined : Instruction → Bool
  | .UNDEFINED _ => true
  | _ => false

theorem isUndefined_eq_false {inst : Instruction} (h : ∀ x, inst ≠ .UNDEFINED x) :
    inst.isUndefined = false := by
  cases inst with
  | UNDEFINED x => exact absurd rfl (h x)
  | _ => rfl

theorem GoodBlock.compile_visits {b : BasicBlock} (hg : GoodBlock code b)
    (env : CompileEnv) (i : Nat) (next : Label) (s : Builder) :
    visits (compileAct env code b i next) b.endIdx (b.endIdx - b.firstInstrIdx) b.firstInstrIdx s =
      upTo (fun it => (instAt code it).isUndefined) (blockInstrs code b) := by
  rw [← hg.positions_eq]
  apply visits_eq (P := StandsOn code b)
  · exact fun it h _ hne => hg.standsOn_next h hne
  · intro it s h _
    unfold compileAct
    split
    · rename_i n hn
      rw [nextInst, ← readPushData_snd h.2.2 hn, hn]
      exact .inr ⟨rfl, _, rfl⟩
    · rename_i x hx
      rw [hx]
      exact .inl ⟨.inl rfl, _, rfl⟩
    · rename_i hpush hund
      rw [← h.next_of_ne_push hpush]
      exact .inr ⟨isUndefined_eq_false hund, _, rfl⟩
  · exact fun _ => hg.standsOn_first

theorem createBasicBlocks_visits (code : List Byte) (s : CreateState) :
    visits (createAct code) code.length code.length 0 s = sweep code := by
  rw [← positions_code]
  apply visits_all (P := fun i => i < code.length)
  · intro i _ _ hne
    exact Nat.lt_of_le_of_ne (Nat.min_le_right _ _) hne
  · intro i s h _
    refine .inr ?_
    unfold createAct
    rw [createBasicBlocks.skipPushDataAndGetNext_eq, skipPushDataAndGetNext_eq h]
    dsimp only
    split
    · exact ⟨_, rfl⟩
    · split
      · exact ⟨_, rfl⟩
      · exact ⟨_, rfl⟩
  · exact fun hne => Nat.pos_of_ne_zero (Ne.symm hne)

theorem lt_skipPushDataAndGetNext (code : List Byte) (i stop : Nat) :
    i < skipPushDataAndGetNext code i stop := by
  unfold skipPushDataAndGetNext
  split <;> omega

/-- `splitCode` goes on in all other cases. -/
theorem splitCodeAct_cases (code : List Byte) (curr : Nat) (s : SplitState) :
    splitCodeAct code curr s = .inl (some (curr, s.returnPC)) ∨
      ∃ s', splitCodeAct code curr s = .inr (skipPushDataAndGetNext code curr code.length, s') := by
  unfold splitCodeAct
  dsimp only
  split
  · exact .inr ⟨_, rfl⟩
  · split
    · exact .inr ⟨_, rfl⟩
    · exact .inr ⟨_, rfl⟩
  · split
    · exact .inl rfl
    · exact .inr ⟨_, rfl⟩
  · exact .inr ⟨_, rfl⟩

theorem positions_congr {next : Nat → Nat} (next' : Nat → Nat)
    (h : ∀ i, i < stop → next i = next' i) (hle : ∀ i, i < stop → next' i ≤ stop) :
    ∀ fuel i, i ≤ stop →
      positions next stop fuel i = positions next' stop fuel i := by
  intro fuel
  induction fuel with
  | zero => exact fun i _ => rfl
  | succ fuel ih =>
    intro i hi
    unfold positions
    split
    · rfl
    · rename_i hne
      have hlt : i < stop := by omega
      rw [h i hlt, ih _ (hle i hlt)]

/-- `splitCode` walks the sweep up to the split that it answers with. -/
theorem splitCode_visits (code : List Byte) :
    visits (splitCodeAct code) code.length code.length 0 ⟨false, false, 0⟩ =
      upTo (fun i => some i == (splitCode code).map Prod.fst) (sweep code) := by
  have hskip :
      positions (fun i => skipPushDataAndGetNext code i code.length) code.length code.length 0 =
      sweep code := by
    rw [← positions_code]
    apply positions_congr
    · exact fun i hi => skipPushDataAndGetNext_eq hi
    · exact fun i _ => Nat.min_le_right _ _
    · exact Nat.zero_le _
  have hpass := splitCodeLoop_eq_pass code code.length 0 ⟨false, false, 0⟩
  rw [← hskip, splitCode, hpass]
  apply visits_returns (Option.map Prod.fst)
  · exact fun _ => rfl
  · intro i s r hr
    rcases splitCodeAct_cases code i s with h | ⟨s', h⟩
    · rw [h] at hr
      cases hr
      rfl
    · rw [h] at hr
      cases hr
  · intro i s j s' hs
    rcases splitCodeAct_cases code i s with h | ⟨s'', h⟩
    · rw [h] at hs
      cases hs
    · rw [h] at hs
      cases hs
      exact ⟨lt_skipPushDataAndGetNext code i code.length, rfl⟩

/-- **All instruction decoders agree.** In every range of the code and at every position in it, they
arrive at the same next position, which is not behind the end; the two that take a push only agree
with the others on pushes, and `readPushData` returns the big-endian immediate, zeros standing for
the bytes that the range does not have. So the passes walk the same instructions: `ctxDep` and
`dry_run_bb` those of the block, `compileBasicBlock` too, up to an undefined opcode;
`createBasicBlocks` and `splitCode` those of the code, the latter up to the split. -/
theorem decoders_agree (code : List Byte) :
    (∀ stop ≤ code.length, ∀ i < stop,
      nextInst code stop i ≤ stop ∧
      skipPushDataAndGetNext code i stop = nextInst code stop i ∧
      createBasicBlocks.skipPushDataAndGetNext code i stop = nextInst code stop i ∧
      ((skipPushData code i stop).isSome = true ↔ ∃ n, instAt code i = .PUSH n) ∧
      (∀ c, skipPushData code i stop = some c → c + 1 = nextInst code stop i) ∧
      ∀ n, instAt code i = .PUSH n → (readPushData code i stop).2 + 1 = nextInst code stop i ∧
        (readPushData code i stop).1 = pushValue (code.take stop) i n) ∧
    (∀ b ∈ createBasicBlocks code,
      (∀ s, visits (ctxDepAct code b.endIdx) b.endIdx
        (b.endIdx - b.firstInstrIdx) b.firstInstrIdx s = blockInstrs code b) ∧
      (∀ stk, visits (dryRunBbAct code b.endIdx) b.endIdx
        (b.endIdx - b.firstInstrIdx) b.firstInstrIdx stk = blockInstrs code b) ∧
      ∀ env i next s, visits (compileAct env code b i next) b.endIdx (b.endIdx - b.firstInstrIdx)
        b.firstInstrIdx s = upTo (fun it => (instAt code it).isUndefined) (blockInstrs code b)) ∧
    (∀ s, visits (createAct code) code.length code.length 0 s = sweep code) ∧
    visits (splitCodeAct code) code.length code.length 0 ⟨false, false, 0⟩ =
      upTo (fun i => some i == (splitCode code).map Prod.fst) (sweep code) := by
  refine ⟨fun stop hstop i hi => ?_, fun b hb => ?_, createBasicBlocks_visits code,
    splitCode_visits code⟩
  · have hskip : skipPushDataAndGetNext code i stop = nextInst code stop i :=
      skipPushDataAndGetNext_eq hi
    refine ⟨Nat.min_le_right _ _, hskip, ?_, skipPushData_isSome,
      fun c hc => skipPushData_add_one hi hc,
      fun n hn => ⟨readPushData_snd hi hn, readPushData_value hstop hi hn⟩⟩
    exact (createBasicBlocks.skipPushDataAndGetNext_eq code i stop).trans hskip
  · have hne : code ≠ [] := by
      rintro rfl
      exact absurd hb List.not_mem_nil
    have hg := ((createBasicBlocks_loopSpec hne).good b hb).1
    exact ⟨hg.ctxDep_visits, hg.dryRunBb_visits, hg.compile_visits⟩

/-- `INVALID; STOP` is one block. `ctxDep` goes over both instructions, `compileBasicBlock` leaves
the `STOP`. -/
theorem compile_stops_at_undefined : ∃ b ∈ createBasicBlocks [0xfe, 0x00],
    visits (ctxDepAct [0xfe, 0x00] b.endIdx) b.endIdx
      (b.endIdx - b.firstInstrIdx) b.firstInstrIdx (0, 0) = [0, 1] ∧
    visits (compileAct (plainEnv [0xfe, 0x00]) [0xfe, 0x00] b 0 .exit) b.endIdx
      (b.endIdx - b.firstInstrIdx) b.firstInstrIdx (Builder.empty 0 []) = [0] :=
  ⟨mkBasicBlock [0xfe, 0x00] 0 2, by decide, by decide, by decide⟩

end EvmTrans
