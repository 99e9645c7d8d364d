/-
# `EvmTrans.BlockTrace` — an EVM run inside one basic block.

`BlockRun` speaks of program counters only. `BlockTrace` is the same run seen from the block that
holds them: plain instructions one after the other, up to a last one that ends where the block ends.
With it the static count `ctxDep` becomes a fact about runs: a run that gets through a block found
the block's `m_stk_in` words on the stack when it entered (`BlockTrace.stkIn_le`), and a block that
starts on `m_stk_in` registers never runs out of them (`Supply.operands`).
-/
import EvmTrans.Evm
import EvmTrans.JumpResolution

namespace EvmTrans

/-! ## §1 — the stack demand of the rest of a block. -/

/-- `ctxDep`'s loop stands at `it` with `prev_s = prev` and `curr_s = curr`, and will report the
block's two numbers. -/
def Demand (code : List Byte) (bb : BasicBlock) (it prev curr : Nat) : Prop :=
  ∃ fuel, bb.endIdx ≤ it + fuel ∧
    ctxDepLoop code bb.endIdx fuel it prev curr = (bb.stkIn, bb.stkOut)

section Demand

variable {code : List Byte} {bb : BasicBlock} {it prev curr : Nat}

/-- One iteration; the two branches of the source agree on truncated subtraction. -/
theorem ctxDepLoop_succ {stop fuel : Nat} (h : it < stop) :
    ctxDepLoop code stop (fuel + 1) it prev curr =
      ctxDepLoop code stop fuel (min (instrEnd code it) stop)
        (prev + ((instAt code it).stkOut - curr))
        (curr - (instAt code it).stkOut + (instAt code it).stkIn) := by
  conv_lhs => unfold ctxDepLoop
  rw [if_neg (Nat.ne_of_lt h), skipPushDataAndGetNext_eq h]
  dsimp only
  split
  · rename_i hle
    rw [Nat.sub_eq_zero_of_le hle, Nat.add_zero]
  · rename_i hgt
    rw [Nat.sub_eq_zero_of_le (Nat.le_of_not_le hgt), Nat.zero_add]

theorem le_ctxDepLoop {stop : Nat} : ∀ (fuel it prev curr : Nat), it ≤ stop →
    prev ≤ (ctxDepLoop code stop fuel it prev curr).1 := by
  intro fuel
  induction fuel with
  | zero => intro it prev curr _; exact Nat.le_refl _
  | succ fuel ih =>
    intro it prev curr hle
    by_cases heq : it = stop
    · unfold ctxDepLoop
      rw [if_pos heq]
    · rw [ctxDepLoop_succ (by omega)]
      exact Nat.le_trans (Nat.le_add_right _ _) (ih _ _ _ (Nat.min_le_right _ _))

theorem GoodBlock.demand (hg : GoodBlock code bb) : Demand code bb bb.firstInstrIdx 0 0 := by
  have hlt := hg.first_lt
  exact ⟨bb.endIdx - bb.firstInstrIdx, by omega, hg.stk.symm⟩

theorem Demand.step (h : Demand code bb it prev curr) (hlt : it < bb.endIdx) :
    Demand code bb (min (instrEnd code it) bb.endIdx) (prev + ((instAt code it).stkOut - curr))
      (curr - (instAt code it).stkOut + (instAt code it).stkIn) := by
  obtain ⟨fuel, hfuel, heq⟩ := h
  obtain ⟨fuel, rfl⟩ : ∃ k, fuel = k + 1 := ⟨fuel - 1, by omega⟩
  have hgt := lt_instrEnd code it
  rw [ctxDepLoop_succ hlt] at heq
  exact ⟨fuel, by omega, heq⟩

/-- What was missing so far is part of what the block takes from below. -/
theorem Demand.prev_le (h : Demand code bb it prev curr) (hle : it ≤ bb.endIdx) :
    prev ≤ bb.stkIn := by
  obtain ⟨fuel, -, heq⟩ := h
  have hmono : prev ≤ (ctxDepLoop code bb.endIdx fuel it prev curr).1 :=
    le_ctxDepLoop fuel it prev curr hle
  rwa [heq] at hmono

theorem Demand.at_end (h : Demand code bb bb.endIdx prev curr) : prev = bb.stkIn := by
  obtain ⟨fuel, -, heq⟩ := h
  cases fuel with
  | zero => exact congrArg Prod.fst heq
  | succ fuel =>
    unfold ctxDepLoop at heq
    rw [if_pos rfl] at heq
    exact congrArg Prod.fst heq

/-- `n` words are at hand at `it`, for a block that started on its `m_stk_in` words. -/
def Supply (code : List Byte) (bb : BasicBlock) (it n : Nat) : Prop :=
  ∃ prev curr, Demand code bb it prev curr ∧ n + prev = bb.stkIn + curr

theorem GoodBlock.supply (hg : GoodBlock code bb) : Supply code bb bb.firstInstrIdx bb.stkIn :=
  ⟨0, 0, hg.demand, rfl⟩

/-- **The registers suffice**: every instruction of the block finds its operands. -/
theorem Supply.operands {n : Nat} (h : Supply code bb it n) (hlt : it < bb.endIdx) :
    (instAt code it).stkOut ≤ n := by
  obtain ⟨prev, curr, hd, hbal⟩ := h
  have := (hd.step hlt).prev_le (Nat.min_le_right _ _)
  omega

theorem Supply.step {n m : Nat} (h : Supply code bb it n) (hlt : it < bb.endIdx)
    (hm : m + (instAt code it).stkOut = n + (instAt code it).stkIn) :
    Supply code bb (min (instrEnd code it) bb.endIdx) m := by
  have hop := h.operands hlt
  obtain ⟨prev, curr, hd, hbal⟩ := h
  exact ⟨_, _, hd.step hlt, by omega⟩

end Demand

/-! ## §2 — the run seen from its block. -/

section Trace

variable {W : Type} {ops : Ops W} {code : List Byte} {bb : BasicBlock} {i : Nat} {e e' e₁ : EvmSt W}

/-- `pc` is the offset of an instruction of the block. -/
structure InBlock (code : List Byte) (bb : BasicBlock) (pc : Nat) : Prop where
  boundary : Boundary code pc
  first_le : bb.firstInstrIdx ≤ pc
  lt_end : pc < bb.endIdx

/-- An instruction that reaches over the end of its block reaches over the end of the code, where
the EVM reads zeros. -/
theorem GoodBlock.zeros_behind (hg : GoodBlock code bb) {pc : Nat} (hin : InBlock code bb pc) :
    ∀ j, bb.endIdx ≤ j → j < instrEnd code pc → codeAt code j = 0 := by
  intro j hle hlt
  rcases hg.end_boundary with hend | hend
  · rw [codeAt, List.getD_eq_getElem?_getD, List.getElem?_eq_none (by omega)]
    rfl
  · have := hin.boundary.instrEnd_le hend hin.lt_end
    omega

/-- **A run inside a block**, along plain instructions. -/
inductive BlockTrace (ops : Ops W) (code : List Byte) (bb : BasicBlock) :
    EvmSt W → EvmSt W → Prop
  | refl {s} : BlockTrace ops code bb s s
  | step {s s' s''} (hs : StepCase ops code s s') (hp : (instAt code s.pc).plain = true)
      (hin : InBlock code bb s'.pc) (ht : BlockTrace ops code bb s' s'') :
      BlockTrace ops code bb s s''

theorem plain_of_ordinary {op : Instruction} (h : op.ordinary = true) : op.plain = true := by
  cases op <;> first | rfl | cases h

theorem ne_push_of_ordinary {op : Instruction} (h : op.ordinary = true) (n : Nat) :
    op ≠ .PUSH n := by
  rintro rfl
  cases h

/-- Where a step goes: to the next instruction, or to a jump destination. -/
theorem StepCase.pc_cases (h : StepCase ops code e e') :
    ((instAt code e.pc).plain = true ∧ e'.pc = instrEnd code e.pc) ∨
    ((instAt code e.pc).endsBlock = true ∧ isJumpDest code e'.pc = true) ∨
    (instAt code e.pc = .JUMPI ∧ e'.pc = instrEnd code e.pc) := by
  have hone : ∀ {op : Instruction}, instAt code e.pc = op → (∀ n, op ≠ .PUSH n) →
      e.pc + 1 = instrEnd code e.pc := by
    rintro _ rfl hn
    exact (instrEnd_of_ne_push hn).symm
  cases h with
  | push hi => exact Or.inl ⟨by rw [hi]; rfl, rfl⟩
  | pop hi => exact Or.inl ⟨by rw [hi]; rfl, hone hi (by simp)⟩
  | dup hi => exact Or.inl ⟨by rw [hi]; rfl, hone hi (by simp)⟩
  | swap hi => exact Or.inl ⟨by rw [hi]; rfl, hone hi (by simp)⟩
  | jumpdest hi => exact Or.inl ⟨by rw [hi]; rfl, hone hi (by simp)⟩
  | pc hi => exact Or.inl ⟨by rw [hi]; rfl, hone hi (by simp)⟩
  | jump hi hs hd => exact Or.inr (Or.inl ⟨by rw [hi]; rfl, hd⟩)
  | jumpiTaken hi hs hc hd => exact Or.inr (Or.inl ⟨by rw [hi]; rfl, hd⟩)
  | jumpiFall hi hs => exact Or.inr (Or.inr ⟨hi, hone hi (by simp)⟩)
  | ordinary hi =>
    exact Or.inl ⟨plain_of_ordinary hi, hone rfl (ne_push_of_ordinary hi)⟩

/-- A plain step moves on to the next instruction. -/
theorem StepCase.pc_of_plain (h : StepCase ops code e e') (hp : (instAt code e.pc).plain = true) :
    e'.pc = instrEnd code e.pc := by
  rcases h.pc_cases with ⟨-, hpc⟩ | ⟨hend, -⟩ | ⟨-, hpc⟩
  · exact hpc
  · rw [endsBlock_of_plain hp] at hend
    cases hend
  · exact hpc

/-- The three ways a step leaves an instruction. -/
theorem StepCase.exits (h : StepCase ops code e e') :
    ((instAt code e.pc).plain = true ∧ e'.pc = instrEnd code e.pc) ∨
    (∃ d st, instAt code e.pc = .JUMP ∧ e.stack = d :: st ∧ isJumpDest code d.toNat = true ∧
      e' = ⟨d.toNat, st, e.world⟩) ∨
    ∃ d x st, instAt code e.pc = .JUMPI ∧ e.stack = d :: x :: st ∧
      ((x ≠ 0 ∧ isJumpDest code d.toNat = true ∧ e' = ⟨d.toNat, st, e.world⟩) ∨
        (x = 0 ∧ e' = ⟨instrEnd code e.pc, st, e.world⟩)) := by
  by_cases hp : (instAt code e.pc).plain = true
  · exact Or.inl ⟨hp, h.pc_of_plain hp⟩
  · apply Or.inr
    cases h with
    | jump hi hs hd => exact Or.inl ⟨_, _, hi, hs, hd, rfl⟩
    | jumpiTaken hi hs hc hd => exact Or.inr ⟨_, _, _, hi, hs, Or.inl ⟨hc, hd, rfl⟩⟩
    | jumpiFall hi hs =>
      refine Or.inr ⟨_, _, _, hi, hs, Or.inr ⟨rfl, ?_⟩⟩
      rw [instrEnd_of_ne_push (by simp [hi])]
    | ordinary hi => exact absurd (plain_of_ordinary hi) hp
    | push hi => exact absurd (by rw [hi]; rfl) hp
    | pop hi => exact absurd (by rw [hi]; rfl) hp
    | dup hi => exact absurd (by rw [hi]; rfl) hp
    | swap hi => exact absurd (by rw [hi]; rfl) hp
    | jumpdest hi => exact absurd (by rw [hi]; rfl) hp
    | pc hi => exact absurd (by rw [hi]; rfl) hp

/-- Past the end of the code the EVM reads `STOP`. -/
theorem instAt_of_length_le {pc : Nat} (h : code.length ≤ pc) : instAt code pc = .STOP := by
  rw [instAt, codeAt, List.getD_eq_getElem?_getD, List.getElem?_eq_none h]
  rfl

theorem BlockRun.pc_lt (h : BlockRun ops code e e') : e.pc < code.length := by
  have hstep : ∃ e₁, evmStep ops code e = .next e₁ := by
    cases h with
    | last hs => exact ⟨_, hs.1⟩
    | cons hs => exact ⟨_, hs.1⟩
  obtain ⟨e₁, hstep⟩ := hstep
  by_contra hge
  rw [evmStep, instAt_of_length_le (Nat.le_of_not_lt hge)] at hstep
  cases hstep

theorem blockStart_iff (hne : code ≠ []) {pc : Nat} : BlockStart code pc ↔
    ∃ (j : Nat) (b : BasicBlock), (blockTable code)[j]? = some b ∧ b.firstInstrIdx = pc := by
  constructor
  · rintro ⟨b₀, hmem, rfl⟩
    obtain ⟨j, hj⟩ := List.getElem?_of_mem hmem
    obtain ⟨b, hb, hs⟩ := (blockTable_edgeInv hne).getElem?_of_created hj
    exact ⟨j, b, hb, BasicBlock.first_eq hs⟩
  · rintro ⟨j, b, hb, rfl⟩
    obtain ⟨b₀, hb₀, hs⟩ := (blockTable_edgeInv hne).getElem? hb
    exact ⟨b₀, List.mem_of_getElem? hb₀, (BasicBlock.first_eq hs).symm⟩

/-- No block starts inside another. -/
theorem end_le_of_blockStart (hne : code ≠ []) (hbb : (blockTable code)[i]? = some bb) {pc : Nat}
    (hs : BlockStart code pc) (hlt : bb.firstInstrIdx < pc) : bb.endIdx ≤ pc := by
  obtain ⟨j, b, hb, rfl⟩ := (blockStart_iff hne).mp hs
  by_contra hle
  have hij : i = j := by
    apply (blockTable_edgeInv hne).eq_of_overlap hne hbb hb
    · exact hlt.trans (blockTable_good hne hb).first_lt
    · exact Nat.not_le.mp hle
  subst hij
  rw [hbb] at hb
  cases hb
  exact absurd hlt (Nat.lt_irrefl _)

/-- **The block behind.** When the last instruction does not kill, the next block of the list starts
where this one ends, unless the code ends there too. -/
theorem next_block (hne : code ≠ []) (hbb : (blockTable code)[i]? = some bb) {pc : Nat}
    (hin : InBlock code bb pc) (hk : (instAt code pc).kills = false)
    (hend : bb.endIdx ≤ instrEnd code pc) :
    (bb.endIdx = code.length ∧ i + 1 = (blockTable code).length) ∨
      ∃ nb, (blockTable code)[i + 1]? = some nb ∧ nb.firstInstrIdx = bb.endIdx := by
  have hs := createBasicBlocks_loopSpec hne
  obtain ⟨b₀, hb₀, hshape⟩ := (blockTable_edgeInv hne).getElem? hbb
  have hfirst := BasicBlock.first_eq hshape
  have hendEq := BasicBlock.end_eq hshape
  -- the instruction at `pc` is the last of its block
  have hnk : ¬ LastKills code b₀ := by
    rintro ⟨j, hj, hle, hje, hkill⟩
    have hgt := lt_instrEnd code j
    have hlt := hin.lt_end
    rcases Nat.lt_trichotomy j pc with h | rfl | h
    · have := hj.instrEnd_le hin.boundary h
      omega
    · rw [hk] at hkill
      cases hkill
    · have := hin.boundary.instrEnd_le hj h
      omega
  have hlen := (blockTable_edgeInv hne).length_eq
  by_cases hlast : i + 1 < (createBasicBlocks code).length
  · apply Or.inr
    obtain ⟨nb, hnb, hnshape⟩ := (blockTable_edgeInv hne).getElem?_of_created
      (List.getElem?_eq_getElem hlast)
    refine ⟨nb, hnb, ?_⟩
    obtain ⟨hi, rfl⟩ := List.getElem?_eq_some_iff.mp hb₀
    have hadj := List.isChain_iff_getElem.mp hs.chain i hlast
    rw [BasicBlock.first_eq hnshape, hendEq]
    exact (hadj.2.1 hnk).symm
  · obtain ⟨hi, rfl⟩ := List.getElem?_eq_some_iff.mp hb₀
    have hget : (createBasicBlocks code).getLast? = some (createBasicBlocks code)[i] := by
      rw [List.getLast?_eq_getElem?, show (createBasicBlocks code).length - 1 = i by omega]
      exact List.getElem?_eq_getElem hi
    refine Or.inl ⟨?_, by omega⟩
    rw [hendEq]
    exact (hs.last _ hget).resolve_left hnk

/-- A jump destination starts a block. -/
theorem blockStart_of_isJumpDest (hne : code ≠ []) {pc : Nat} (h : isJumpDest code pc = true) :
    BlockStart code pc := by
  obtain ⟨hb, hj⟩ := isJumpDest_iff.mp h
  exact exists_block_of_jumpDest hne hb hj

/-- A step to the next instruction stays in the block, or arrives at the next block. -/
theorem stay_or_leave (hne : code ≠ []) (hbb : (blockTable code)[i]? = some bb)
    (hin : InBlock code bb e.pc) (hk : (instAt code e.pc).kills = false) :
    (InBlock code bb (instrEnd code e.pc)) ∨ code.length ≤ instrEnd code e.pc ∨
      (instrEnd code e.pc = bb.endIdx ∧ BlockStart code bb.endIdx) := by
  have hg := blockTable_good hne hbb
  have hgt := lt_instrEnd code e.pc
  by_cases hlt : instrEnd code e.pc < bb.endIdx
  · refine Or.inl ⟨hin.boundary.next ?_, ?_, hlt⟩
    · have := hg.end_le
      omega
    · have := hin.first_le
      omega
  · rcases next_block hne hbb hin hk (by omega) with ⟨hend, -⟩ | ⟨nb, hnb, hfirst⟩
    · exact Or.inr (Or.inl (by omega))
    · refine Or.inr (Or.inr ⟨?_, (blockStart_iff hne).mpr ⟨_, _, hnb, hfirst⟩⟩)
      have hb : Boundary code bb.endIdx := hfirst ▸ (blockTable_good hne hnb).first_boundary
      have := hin.boundary.instrEnd_le hb hin.lt_end
      omega

theorem kills_of_plain {op : Instruction} (h : op.plain = true) : op.kills = false :=
  (Bool.or_eq_false_iff.mp (endsBlock_of_plain h)).1

/-- **A run to the next block start, or off the end of the code**, is a trace of the block and one
step over its end. -/
theorem BlockRun.trace (hne : code ≠ []) (hbb : (blockTable code)[i]? = some bb)
    (h : BlockRun ops code e e') (hin : InBlock code bb e.pc)
    (hs : BlockStart code e'.pc ∨ code.length ≤ e'.pc) :
    ∃ e₁, BlockTrace ops code bb e e₁ ∧ InBlock code bb e₁.pc ∧ StepCase ops code e₁ e' ∧
      bb.endIdx ≤ instrEnd code e₁.pc := by
  have hg := blockTable_good hne hbb
  induction h with
  | @last e e' hstep =>
    have hcase := evmStep_cases hstep.1
    refine ⟨e, .refl, hin, hcase, ?_⟩
    have hfall : e'.pc = instrEnd code e.pc → bb.endIdx ≤ instrEnd code e.pc := by
      intro hpc
      rw [← hpc]
      rcases hs with hs | hs
      · apply end_le_of_blockStart hne hbb hs
        have := hin.first_le
        have := lt_instrEnd code e.pc
        omega
      · exact Nat.le_trans hg.end_le hs
    rcases hcase.pc_cases with ⟨-, hpc⟩ | ⟨hends, -⟩ | ⟨-, hpc⟩
    · exact hfall hpc
    · exact (hg.ends_last _ hin.boundary hin.first_le hin.lt_end hends).ge
    · exact hfall hpc
  | @cons e e₁ e' hstep hns hrun ih =>
    have hcase := evmStep_cases hstep.1
    have hlt := hrun.pc_lt
    have hstay : ∀ {op}, instAt code e.pc = op → op.kills = false → e₁.pc = instrEnd code e.pc →
        InBlock code bb e₁.pc := by
      rintro _ rfl hk hpc
      rw [hpc] at hlt hns ⊢
      rcases stay_or_leave hne hbb hin hk with hstay | hout | ⟨heq, hstart⟩
      · exact hstay
      · omega
      · exact absurd (heq ▸ hstart) hns
    rcases hcase.pc_cases with ⟨hp, hpc⟩ | ⟨-, hd⟩ | ⟨hi, hpc⟩
    · have hin₁ := hstay rfl (kills_of_plain hp) hpc
      obtain ⟨e₂, htrace, hin₂, hlast, hend⟩ := ih hin₁ hs
      exact ⟨e₂, .step hcase hp hin₁ htrace, hin₂, hlast, hend⟩
    · exact absurd (blockStart_of_isJumpDest hne hd) hns
    · -- a `JUMPI` that falls through leaves the block
      have hin₁ := hstay hi rfl hpc
      have hend := hg.ends_last _ hin.boundary hin.first_le hin.lt_end (by rw [hi]; rfl)
      have := hin₁.lt_end
      omega

theorem BlockRun.height_le (h : BlockRun ops code e e') : e'.stack.length ≤ 511 := by
  induction h with
  | last hs => exact hs.2
  | cons _ _ _ ih => exact ih

/-! ## §3 — the operands were there. -/

/-- **`ctxDep` is a bound from below**: a run that has the operands of the last instruction of a
block had the block's `m_stk_in` words from the start. -/
theorem BlockTrace.stkIn_le {prev curr h₀ : Nat} (h : BlockTrace ops code bb e e₁)
    (hin : InBlock code bb e.pc) (hd : Demand code bb e.pc prev curr)
    (hbal : e.stack.length + prev = h₀ + curr) (hle : prev ≤ h₀)
    (hend : bb.endIdx ≤ instrEnd code e₁.pc) (hout : (instAt code e₁.pc).stkOut ≤ e₁.stack.length) :
    bb.stkIn ≤ h₀ := by
  induction h generalizing prev curr with
  | refl =>
    have hd' := hd.step hin.lt_end
    rw [Nat.min_eq_right hend] at hd'
    rw [← hd'.at_end]
    omega
  | step hs hp hin₁ ht ih =>
    have hd' := hd.step hin.lt_end
    have hpc := hs.pc_of_plain hp
    rw [Nat.min_eq_left (by have := hin₁.lt_end; omega), ← hpc] at hd'
    obtain ⟨hops, hheight⟩ := hs.height
    exact ih hin₁ hd' (by omega) (by omega) hend hout

/-- The same, from the entry of the block. -/
theorem BlockTrace.inputs_le (h : BlockTrace ops code bb e e₁) (hg : GoodBlock code bb)
    (hpc : e.pc = bb.firstInstrIdx) (hend : bb.endIdx ≤ instrEnd code e₁.pc)
    (hout : (instAt code e₁.pc).stkOut ≤ e₁.stack.length) : bb.stkIn ≤ e.stack.length := by
  refine h.stkIn_le ?_ (hpc ▸ hg.demand) rfl (Nat.zero_le _) hend hout
  rw [hpc]
  exact ⟨hg.first_boundary, Nat.le_refl _, hg.first_lt⟩

end Trace

end EvmTrans
