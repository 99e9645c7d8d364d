/-
# `EvmTrans.RunOffEnd` — what becomes of a run that executes past its last instruction.

The EVM stops there. The emitted code is in `Test`, falls into `JumpTable` and dispatches on
whatever `target` holds: the destination of the last computed jump, or 0 when there was none.
Without a `JUMPDEST` at that offset it reverts. With one it goes on there, on the stack and in the
world of a run that should be over, and what it reports in the end is the outcome of THAT run.

`targetMove` is the EVM's run with `target` beside it, and `resumeMove` the run that goes on. §2
follows the emitted function to the end of the code, §3 beyond; both are simulations between
deterministic machines.
-/
import EvmTrans.RunsAlike

namespace EvmTrans

open Lib (runFor Ends Simulation runFor_add_of_inl runFor_succ_of_inl runFor_succ_of_inr
  ends_iff_of_runFor)

variable {W : Type} {ops : Ops W} {env : CompileEnv} {w : W} {e e' e₁ : EvmSt W} {t : Word}

/-! ## §1 — the EVM's run, with `target` beside it. -/

/-- One instruction of the EVM and what it leaves in `target`. The run is over where the EVM's is,
and at a jump to a narrow constant, which the emitted code takes to `Abort`. -/
def targetMove (ops : Ops W) (env : CompileEnv) (code : List Byte) (p : EvmSt W × Word) :
    (EvmSt W × Word) ⊕ (EvmSt W × Word) :=
  if takesNarrow env code p.1 then .inr p
  else
    match evmStep ops code p.1 with
    | .next e' => .inl (e', targetAfter env code p.1 p.2)
    | _ => .inr p

/-- **The EVM, but for the end of the code**: where `target` holds a destination, the run goes on
there. -/
def resumeMove (ops : Ops W) (env : CompileEnv) (code : List Byte) (p : EvmSt W × Word) :
    (EvmSt W × Word) ⊕ Stop W :=
  match targetMove ops env code p with
  | .inl p' => .inl p'
  | .inr q =>
    if code.length ≤ q.1.pc ∧ isJumpDest code q.2.toNat = true then
      .inl (⟨q.2.toNat, q.1.stack, q.1.world⟩, q.2)
    else .inr (reported ops env code q.1)

/-- The run that starts in world `w` is past the last instruction at `e`, with `t` in `target`; it
has made no jump to a narrow constant. -/
def RunsOffWith (ops : Ops W) (env : CompileEnv) (code : List Byte) (w : W) (e : EvmSt W)
    (t : Word) : Prop :=
  code.length ≤ e.pc ∧ Ends (targetMove ops env code) (⟨0, [], w⟩, 0) (e, t)

/-- The run that goes on gets from `p` to `q`. -/
def ResumesTo (ops : Ops W) (env : CompileEnv) (code : List Byte) (p q : EvmSt W × Word) : Prop :=
  ∃ n, runFor (resumeMove ops env code) n p = .inl q

/-- The EVM states of the run that goes on from `p`. -/
def Resumed (ops : Ops W) (env : CompileEnv) (code : List Byte) (p : EvmSt W × Word) (e : EvmSt W) :
    Prop :=
  ∃ t, ResumesTo ops env code p (e, t)

section Machines

variable {code : List Byte} {bb : BasicBlock}

theorem targetMove_of_next (hn : takesNarrow env code e = false)
    (h : evmStep ops code e = .next e') :
    targetMove ops env code (e, t) = .inl (e', targetAfter env code e t) := by
  simp only [targetMove, hn, h, Bool.false_eq_true, if_false]

theorem targetMove_of_narrow (ops : Ops W) (t : Word) (hn : takesNarrow env code e = true) :
    targetMove ops env code (e, t) = .inr (e, t) :=
  if_pos hn

theorem targetMove_of_over (env : CompileEnv) (t : Word) (h : ∀ e', evmStep ops code e ≠ .next e') :
    targetMove ops env code (e, t) = .inr (e, t) := by
  unfold targetMove
  split
  · rfl
  · cases hstep : evmStep ops code e with
    | next e' => exact absurd hstep (h e')
    | _ => rfl

theorem resumeMove_of_inl {p p' : EvmSt W × Word} (h : targetMove ops env code p = .inl p') :
    resumeMove ops env code p = .inl p' := by
  unfold resumeMove
  rw [h]

/-- Where the run goes on. -/
theorem resumeMove_of_dest (h : targetMove ops env code (e, t) = .inr (e, t))
    (hoff : code.length ≤ e.pc) (hd : isJumpDest code t.toNat = true) :
    resumeMove ops env code (e, t) = .inl (⟨t.toNat, e.stack, e.world⟩, t) := by
  unfold resumeMove
  rw [h]
  exact if_pos ⟨hoff, hd⟩

/-- Where it does not. -/
theorem resumeMove_of_over (h : targetMove ops env code (e, t) = .inr (e, t))
    (hno : ¬ (code.length ≤ e.pc ∧ isJumpDest code t.toNat = true)) :
    resumeMove ops env code (e, t) = .inr (reported ops env code e) := by
  unfold resumeMove
  rw [h]
  exact if_neg hno

theorem runFor_resume {n : Nat} : ∀ {p q : EvmSt W × Word},
    runFor (targetMove ops env code) n p = .inl q →
    runFor (resumeMove ops env code) n p = .inl q := by
  induction n with
  | zero =>
    intro p q h
    cases h
    rfl
  | succ n ih =>
    intro p q h
    cases hp : targetMove ops env code p with
    | inl p' =>
      rw [runFor_succ_of_inl hp] at h
      rw [runFor_succ_of_inl (resumeMove_of_inl hp)]
      exact ih h
    | inr q' =>
      rw [runFor_succ_of_inr hp] at h
      cases h

theorem ResumesTo.runFor {n : Nat} {p q q' : EvmSt W × Word} (h : ResumesTo ops env code p q)
    (hn : Lib.runFor (resumeMove ops env code) n q = .inl q') : ResumesTo ops env code p q' := by
  obtain ⟨m, hm⟩ := h
  exact ⟨m + n, (runFor_add_of_inl hm n).trans hn⟩

/-- A block does not touch `target` before its last instruction. -/
theorem BlockTrace.exists_runFor_target (env : CompileEnv) (t : Word)
    (h : BlockTrace ops code bb e e₁) :
    ∃ n, runFor (targetMove ops env code) n (e, t) = .inl (e₁, t) := by
  induction h with
  | refl => exact ⟨0, rfl⟩
  | step hs hp _ _ ih =>
    obtain ⟨n, hn⟩ := ih
    have hfree : takesNarrow env code _ = false := takesNarrow_of_plain hp
    have hmove := targetMove_of_next (t := t) hfree hs.evmStep
    rw [targetAfter_of_plain hp] at hmove
    exact ⟨n + 1, (runFor_succ_of_inl hmove n).trans hn⟩

theorem BlockTrace.exists_runFor_target_next (h : BlockTrace ops code bb e e₁)
    (hstep : StepCase ops code e₁ e') (hn : takesNarrow env code e₁ = false) :
    ∃ n, runFor (targetMove ops env code) (n + 1) (e, t) =
      .inl (e', targetAfter env code e₁ t) := by
  obtain ⟨n, hrun⟩ := h.exists_runFor_target env t
  refine ⟨n, (runFor_add_of_inl hrun 1).trans ?_⟩
  exact runFor_succ_of_inl (targetMove_of_next hn hstep.evmStep) 0

theorem takesJump_inst (h : takesJump code e = true) :
    instAt code e.pc = .JUMP ∨ instAt code e.pc = .JUMPI := by
  unfold takesJump at h
  split at h
  · rename_i hi
    exact Or.inl hi
  · rename_i hi _
    exact Or.inr hi
  · cases h

/-- A narrow jump stands in the code. -/
theorem pc_lt_of_takesNarrow (h : takesNarrow env code e = true) : e.pc < code.length := by
  by_contra hge
  have hstop := instAt_of_length_le (Nat.le_of_not_lt hge)
  rcases takesJump_inst (Bool.and_eq_true_iff.mp h).1 with hi | hi
  · rw [hstop] at hi
    cases hi
  · rw [hstop] at hi
    cases hi

/-- No jump halts the EVM. -/
theorem evmStep_ne_halt_of_jump (hi : instAt code e.pc = .JUMP ∨ instAt code e.pc = .JUMPI)
    (o : Outcome) (w' : W) : evmStep ops code e ≠ .halt o w' := by
  intro h
  unfold evmStep at h
  rcases hi with hi | hi
  · rw [hi] at h
    rcases hs : e.stack with _ | ⟨d, st⟩
    · simp only [hs] at h
      cases h
    · simp only [hs] at h
      split at h <;> cases h
  · rw [hi] at h
    rcases hs : e.stack with _ | ⟨d, _ | ⟨x, st⟩⟩
    · simp only [hs] at h
      cases h
    · simp only [hs] at h
      cases h
    · simp only [hs] at h
      split at h
      · cases h
      · split at h <;> cases h

/-- `Abort` is what `reported` has for a jump to a narrow constant. -/
theorem reported_narrow (h : takesNarrow env code e = true) :
    reported ops env code e = .outcome (.revert []) e.world := by
  have hi := takesJump_inst (Bool.and_eq_true_iff.mp h).1
  unfold reported
  split
  · rename_i o w' hhalt
    exact absurd hhalt (evmStep_ne_halt_of_jump hi o w')
  · exact if_pos hi

theorem evmStep_off (hoff : code.length ≤ e.pc) :
    evmStep ops code e = .halt (.finish []) e.world := by
  rw [evmStep, instAt_of_length_le hoff]

theorem over_of_off (hoff : code.length ≤ e.pc) (e' : EvmSt W) : evmStep ops code e ≠ .next e' := by
  rw [evmStep_off hoff]
  intro h
  cases h

theorem reported_off (hoff : code.length ≤ e.pc) :
    reported ops env code e = .outcome (.revert []) e.world := by
  unfold reported
  rw [evmStep_off hoff]
  exact if_pos hoff

/-- The run with `target` ends where the EVM's does, or at a narrow jump before. -/
theorem ends_target (env : CompileEnv) {n : Nat} : ∀ {e₀ : EvmSt W} (t₀ : Word),
    runFor (evmMove ops code) n e₀ = .inr e → ∃ q, Ends (targetMove ops env code) (e₀, t₀) q ∧
      (q.1 = e ∨ takesNarrow env code q.1 = true) := by
  induction n with
  | zero => intro e₀ t₀ h; cases h
  | succ n ih =>
    intro e₀ t₀ h
    by_cases hn : takesNarrow env code e₀ = true
    · exact ⟨(e₀, t₀), .of_step (targetMove_of_narrow ops t₀ hn), Or.inr hn⟩
    · by_cases hnext : ∃ e', evmStep ops code e₀ = .next e'
      · obtain ⟨e', hstep⟩ := hnext
        rw [runFor_succ_of_inl (evmMove_of_next hstep)] at h
        obtain ⟨q, hq, hcase⟩ := ih (targetAfter env code e₀ t₀) h
        have hone : runFor (targetMove ops env code) 1 (e₀, t₀) =
            .inl (e', targetAfter env code e₀ t₀) :=
          runFor_succ_of_inl (targetMove_of_next (Bool.eq_false_iff.mpr hn) hstep) 0
        exact ⟨q, (ends_iff_of_runFor hone q).mpr hq, hcase⟩
      · have hover : ∀ e', evmStep ops code e₀ ≠ .next e' := fun e' hstep => hnext ⟨e', hstep⟩
        rw [runFor_succ_of_inr (evmMove_of_over hover)] at h
        exact ⟨(e₀, t₀), .of_step (targetMove_of_over env t₀ hover), Or.inl (Sum.inr.inj h)⟩

end Machines

/-! ## §2 — up to the end of the code. -/

section ToTheEnd

variable {code : Bytecode} {calls : List Call}

/-- From the entry of a block to the next entry; the last block is one that does not leave for a
code block. -/
def entryMove (ops : Ops W) (f : List IRBlock) (p : Nat × St W) : (Nat × St W) ⊕ (Nat × St W) :=
  match leave ops f p.1 p.2 with
  | .ok (.code j, s') => .inl (j, s')
  | _ => .inr p

theorem leave_of_entryMove {f : List IRBlock} {p p' : Nat × St W}
    (h : entryMove ops f p = .inl p') : leave ops f p.1 p.2 = .ok (.code p'.1, p'.2) := by
  unfold entryMove at h
  split at h
  · rename_i j s' hleave
    cases h
    exact hleave
  · cases h

theorem entryMove_of_leave {f : List IRBlock} {p : Nat × St W} {j : Nat} {s' : St W}
    (h : leave ops f p.1 p.2 = .ok (.code j, s')) : entryMove ops f p = .inl (j, s') := by
  unfold entryMove
  rw [h]

theorem eq_of_entryMove {f : List IRBlock} {p q : Nat × St W} (h : entryMove ops f p = .inr q) :
    q = p := by
  unfold entryMove at h
  split at h
  · cases h
  · exact (Sum.inr.inj h).symm

/-- The last entry is one of the entries of the run. -/
theorem entryAt_of_ends {f : List IRBlock} {n : Nat} : ∀ {k : Nat} {p q : Nat × St W},
    entryAt ops f w k = .ok p → runFor (entryMove ops f) n p = .inr q →
      ∃ k', entryAt ops f w k' = .ok q := by
  induction n with
  | zero => intro k p q _ h; cases h
  | succ n ih =>
    intro k p q hk h
    cases hp : entryMove ops f p with
    | inr q' =>
      rw [runFor_succ_of_inr hp] at h
      cases h
      rw [eq_of_entryMove hp]
      exact ⟨k, hk⟩
    | inl p' =>
      rw [runFor_succ_of_inl hp] at h
      refine ih (k := k + 1) ?_ h
      simp only [entryAt, hk]
      exact step_of_leave (leave_of_entryMove hp)

/-- **Where the two runs end**: in `Test`, with the EVM behind the code, its stack and world in the
globals and `t` in `target`; or inside the code, with an outcome of the emitted function. -/
def EndTogether (ops : Ops W) (env : CompileEnv) (code : List Byte) (p : Nat × St W)
    (q : EvmSt W × Word) : Prop :=
  (code.length ≤ q.1.pc ∧ ∃ r, leave ops (compileMain env code) p.1 p.2 = .ok (.test, r) ∧
    r.world = q.1.world ∧ RepStack r q.1.stack ∧ r.target = q.2) ∨
  (q.1.pc < code.length ∧
    step ops (compileMain env code) p.1 p.2 = .error (reported ops env code q.1))

/-- The EVM's run, with `target`, follows the emitted function block by block. -/
theorem target_simulation (hops : SameOps ops env) (hf : FunctionSpec env code.bytes calls)
    (hkeep : KeepsLimits ops code.bytes (EvmReaches ops code.bytes w)) :
    Simulation (entryMove ops (compileMain env code.bytes)) (targetMove ops env code.bytes)
      (fun p q => EvmReaches ops code.bytes w q.1 ∧ AtEntry code.bytes calls p.1 p.2 q.1 ∧
        p.2.target = q.2)
      (EndTogether ops env code.bytes) where
  next := by
    rintro ⟨i, s⟩ ⟨e, t⟩ p' ⟨hr, hat, rfl⟩ hmove
    have hleft := leave_of_entryMove hmove
    cases hat.passes hops hf evmReaches_plainClosed hkeep hr with
    | enters htrace hnext hleave hat' ht hn =>
      rw [hleave] at hleft
      cases hleft
      obtain ⟨n, hevm⟩ := htrace.exists_runFor_next hnext
      obtain ⟨n', hrun⟩ := htrace.exists_runFor_target_next hnext hn
      exact ⟨n', _, hrun, hr.of_runFor hevm, hat', ht⟩
    | runsOff _ _ _ hleave _ _ _ _ =>
      rw [hleave] at hleft
      cases hleft
    | narrow _ _ hstep _ =>
      rw [step_of_leave hleft] at hstep
      cases hstep
    | ends _ _ _ hstep =>
      rw [step_of_leave hleft] at hstep
      cases hstep
  last := by
    rintro ⟨i, s⟩ ⟨e, t⟩ p' ⟨hr, hat, rfl⟩ hmove
    cases eq_of_entryMove hmove
    cases hat.passes hops hf evmReaches_plainClosed hkeep hr with
    | enters _ _ hleave _ _ _ =>
      rw [entryMove_of_leave hleave] at hmove
      cases hmove
    | runsOff htrace hnext hoff hleave hworld hrep ht hn =>
      obtain ⟨n, hrun⟩ := htrace.exists_runFor_target_next hnext hn
      exact ⟨_,
        (ends_iff_of_runFor hrun _).mpr (.of_step (targetMove_of_over _ _ (over_of_off hoff))),
        Or.inl ⟨hoff, _, hleave, hworld, hrep, ht⟩⟩
    | narrow htrace _ hstep hn =>
      obtain ⟨n, hrun⟩ := htrace.exists_runFor_target env s.target
      refine ⟨_, (ends_iff_of_runFor hrun _).mpr (.of_step (targetMove_of_narrow ops _ hn)),
        Or.inr ⟨pc_lt_of_takesNarrow hn, ?_⟩⟩
      rw [reported_narrow hn]
      exact hstep
    | ends htrace hlt hover hstep =>
      obtain ⟨n, hrun⟩ := htrace.exists_runFor_target env s.target
      exact ⟨_, (ends_iff_of_runFor hrun _).mpr (.of_step (targetMove_of_over _ _ hover)),
        Or.inr ⟨hlt, hstep⟩⟩

/-- A run to the end of the code has the operands of its instructions and the inputs of its
blocks. -/
theorem keepsLimits_of_runOff (hreach : EvmReaches ops code.bytes w e)
    (hoff : code.bytes.length ≤ e.pc)
    (hspill : ∀ e', EvmReaches ops code.bytes w e' → ∀ h, SpillsAt ops code.bytes e' h → h ≤ 511) :
    KeepsLimits ops code.bytes (EvmReaches ops code.bytes w) := by
  have hends : Ends (evmMove ops code.bytes) ⟨0, [], w⟩ e :=
    ends_iff_reaches.mpr ⟨hreach, over_of_off hoff⟩
  -- the run is over nowhere else
  have hgoes : ∀ e₀, EvmReaches ops code.bytes w e₀ → e₀.pc < code.bytes.length →
      ∃ e', evmStep ops code.bytes e₀ = .next e' := by
    intro e₀ hr hlt
    by_contra hno
    have hover : ∀ e', evmStep ops code.bytes e₀ ≠ .next e' := fun e' h => hno ⟨e', h⟩
    obtain rfl := hends.unique (ends_iff_reaches.mpr ⟨hr, hover⟩)
    omega
  have hoperands : ∀ e₀, EvmReaches ops code.bytes w e₀ →
      (instAt code.bytes e₀.pc).stkOut ≤ e₀.stack.length := by
    intro e₀ hr
    by_cases hlt : e₀.pc < code.bytes.length
    · obtain ⟨e', hstep⟩ := hgoes e₀ hr hlt
      exact (evmStep_cases hstep).height.1
    · rw [instAt_of_length_le (Nat.le_of_not_lt hlt)]
      exact Nat.zero_le _
  refine ⟨hoperands, fun e₀ hr b₀ hb₀ hfirst => ?_, hspill⟩
  obtain ⟨j, hj⟩ := List.getElem?_of_mem hb₀
  obtain ⟨bb, hbb, hshape⟩ := (blockTable_edgeInv code.ne).getElem?_of_created hj
  have hg := blockTable_good code.ne hbb
  have hpc : e₀.pc = bb.firstInstrIdx := (BasicBlock.first_eq hshape ▸ hfirst).symm
  have hin : InBlock code.bytes bb e₀.pc := by
    rw [hpc]
    exact ⟨hg.first_boundary, Nat.le_refl _, hg.first_lt⟩
  obtain ⟨e₂, hr₂, htrace, hin₂, hlast⟩ := last_in_block evmReaches_plainClosed hr hin
  obtain ⟨e₃, hstep⟩ := hgoes e₂ hr₂ hin₂.boundary.1
  -- the run gets through the block
  have hend : bb.endIdx ≤ instrEnd code.bytes e₂.pc := by
    by_cases hp : (instAt code.bytes e₂.pc).plain = true
    · have hout := hlast hp e₃ hstep
      rw [(evmStep_cases hstep).pc_of_plain hp] at hout
      rcases stay_or_leave code.ne hbb hin₂ (kills_of_plain hp) with hstay | hpast | ⟨heq, -⟩
      · exact absurd hstay hout
      · exact Nat.le_trans hg.end_le hpast
      · exact heq.ge
    · refine (hg.ends_last _ hin₂.boundary hin₂.first_le hin₂.lt_end ?_).ge
      rcases (evmStep_cases hstep).pc_cases with ⟨hp', -⟩ | ⟨hends', -⟩ | ⟨hi, -⟩
      · exact absurd hp' hp
      · exact hends'
      · rw [hi]
        rfl
  have hinputs := htrace.inputs_le hg hpc hend (hoperands e₂ hr₂)
  rw [BasicBlock.stkIn_eq hshape] at hinputs
  exact hinputs

/-- **The emitted function at the end of the code**: in `Test`, or in `Abort` before. -/
theorem arrives (hops : SameOps ops env) (hf : FunctionSpec env code.bytes calls)
    (hreach : EvmReaches ops code.bytes w e) (hoff : code.bytes.length ≤ e.pc)
    (hspill : ∀ e', EvmReaches ops code.bytes w e' → ∀ h, SpillsAt ops code.bytes e' h → h ≤ 511) :
    (∃ k i s r, entryAt ops (compileMain env code.bytes) w k = .ok (i, s) ∧
      leave ops (compileMain env code.bytes) i s = .ok (.test, r) ∧ r.world = e.world ∧
      RepStack r e.stack ∧ RunsOffWith ops env code.bytes w e r.target) ∨
    ((∃ k w', entryAt ops (compileMain env code.bytes) w k = .error (.outcome (.revert []) w')) ∧
      ∀ t, ¬ RunsOffWith ops env code.bytes w e t) := by
  have hkeep := keepsLimits_of_runOff hreach hoff hspill
  obtain ⟨n, hn⟩ := ends_iff_reaches.mpr ⟨hreach, over_of_off hoff⟩
  obtain ⟨q, hq, hcase⟩ := ends_target env 0 hn
  have hstart : EvmReaches ops code.bytes w ⟨0, [], w⟩ ∧
      AtEntry code.bytes calls 0 (St.init w) ⟨0, [], w⟩ ∧ (St.init w).target = 0 :=
    ⟨Relation.ReflTransGen.refl, atEntry_init hf, rfl⟩
  obtain ⟨p, ⟨m, hm⟩, htogether⟩ :=
    ((target_simulation hops hf hkeep).endsAlike (s := (0, St.init w))
      (t := (⟨0, [], w⟩, 0)) hstart).2 q hq
  obtain ⟨k, hk⟩ := entryAt_of_ends (entryAt_zero hf) hm
  rcases htogether with ⟨hpast, r, hleave, hworld, hrep, ht⟩ | ⟨hlt, hstep⟩
  · -- a narrow jump stands in the code
    have hqe : q.1 = e := hcase.resolve_right fun hnarrow =>
      absurd hpast (Nat.not_le.mpr (pc_lt_of_takesNarrow hnarrow))
    subst hqe
    exact Or.inl ⟨k, p.1, p.2, r, hk, hleave, hworld, hrep, hoff, ht ▸ hq⟩
  · have hnarrow : takesNarrow env code.bytes q.1 = true := hcase.resolve_left fun heq =>
      absurd hlt (Nat.not_lt.mpr (heq ▸ hoff))
    refine Or.inr ⟨⟨k + 1, q.1.world, ?_⟩, fun t ⟨_, hends⟩ => ?_⟩
    · simp only [entryAt, hk, hstep, reported_narrow hnarrow]
    · obtain rfl := hq.unique hends
      exact absurd hlt (Nat.not_lt.mpr hoff)

end ToTheEnd

/-! ## §3 — beyond the end. -/

section Beyond

variable {code : Bytecode} {calls : List Call} {p₀ : EvmSt W × Word}

theorem resumed_plainClosed : PlainClosed ops code.bytes (Resumed ops env code.bytes p₀) := by
  rintro e e' ⟨t, hto⟩ hp hstep
  have hn : takesNarrow env code.bytes e = false := takesNarrow_of_plain hp
  have hmove := resumeMove_of_inl (targetMove_of_next (t := t) hn hstep)
  exact ⟨_, hto.runFor (runFor_succ_of_inl hmove 0)⟩

/-- **The run that goes on, and the emitted function.** -/
theorem resume_simulation (hops : SameOps ops env) (hf : FunctionSpec env code.bytes calls)
    (hkeep : KeepsLimits ops code.bytes (Resumed ops env code.bytes p₀)) :
    Simulation (emittedMove ops (compileMain env code.bytes)) (resumeMove ops env code.bytes)
      (fun p q => ResumesTo ops env code.bytes p₀ q ∧ AtEntry code.bytes calls p.1 p.2 q.1 ∧
        p.2.target = q.2)
      (· = ·) where
  next := by
    rintro ⟨i, s⟩ ⟨e, t⟩ p' ⟨hr, hat, rfl⟩ hmove
    cases hat.passes hops hf resumed_plainClosed hkeep ⟨_, hr⟩ with
    | enters htrace hnext hleave hat' ht hn =>
      rw [emittedMove_of_ok (step_of_leave hleave)] at hmove
      cases hmove
      obtain ⟨n, hrun⟩ := htrace.exists_runFor_target_next hnext hn
      have hrun := runFor_resume hrun
      exact ⟨n, _, hrun, hr.runFor hrun, hat', ht⟩
    | @runsOff bb e₁ e' r htrace hnext hoff hleave hworld hrep ht hn =>
      obtain ⟨n, hrun⟩ := htrace.exists_runFor_target_next hnext hn
      rw [← ht] at hrun
      by_cases hd : isJumpDest code.bytes r.target.toNat = true
      · obtain ⟨j, s', hstep, hat', ht'⟩ := step_of_leave_test hf hleave hd hrep
        rw [emittedMove_of_ok hstep] at hmove
        cases hmove
        have hover : ∀ e₂, evmStep ops code.bytes e' ≠ .next e₂ := over_of_off hoff
        have hgo := resumeMove_of_dest (targetMove_of_over env r.target hover) hoff hd
        have hrun := (runFor_add_of_inl (runFor_resume hrun) 1).trans (runFor_succ_of_inl hgo 0)
        exact ⟨n + 1, _, hrun, hr.runFor hrun, hworld ▸ hat', ht'⟩
      · rw [emittedMove_of_error (step_of_leave_test_abort hf hleave (Bool.eq_false_iff.mpr hd))]
          at hmove
        cases hmove
    | narrow _ _ hstep _ =>
      rw [emittedMove_of_error hstep] at hmove
      cases hmove
    | ends _ _ _ hstep =>
      rw [emittedMove_of_error hstep] at hmove
      cases hmove
  last := by
    rintro ⟨i, s⟩ ⟨e, t⟩ x ⟨hr, hat, rfl⟩ hmove
    cases hat.passes hops hf resumed_plainClosed hkeep ⟨_, hr⟩ with
    | enters _ _ hleave _ _ _ =>
      rw [emittedMove_of_ok (step_of_leave hleave)] at hmove
      cases hmove
    | @runsOff bb e₁ e' r htrace hnext hoff hleave hworld hrep ht hn =>
      obtain ⟨n, hrun⟩ := htrace.exists_runFor_target_next hnext hn
      rw [← ht] at hrun
      by_cases hd : isJumpDest code.bytes r.target.toNat = true
      · obtain ⟨j, s', hstep, -⟩ := step_of_leave_test hf hleave hd hrep
        rw [emittedMove_of_ok hstep] at hmove
        cases hmove
      · rw [emittedMove_of_error (step_of_leave_test_abort hf hleave (Bool.eq_false_iff.mpr hd))]
          at hmove
        cases hmove
        have hover : ∀ e₂, evmStep ops code.bytes e' ≠ .next e₂ := over_of_off hoff
        have hlast := resumeMove_of_over (targetMove_of_over env r.target hover) fun h => hd h.2
        rw [reported_off hoff, ← hworld] at hlast
        exact ⟨_, (ends_iff_of_runFor (runFor_resume hrun) _).mpr (.of_step hlast), rfl⟩
    | narrow htrace _ hstep hn =>
      rw [emittedMove_of_error hstep] at hmove
      cases hmove
      obtain ⟨n, hrun⟩ := htrace.exists_runFor_target env s.target
      have hmove := targetMove_of_narrow ops s.target hn
      have hlast :=
        resumeMove_of_over hmove fun h => absurd h.1 (Nat.not_le.mpr (pc_lt_of_takesNarrow hn))
      rw [reported_narrow hn] at hlast
      exact ⟨_, (ends_iff_of_runFor (runFor_resume hrun) _).mpr (.of_step hlast), rfl⟩
    | ends htrace hlt hover hstep =>
      rw [emittedMove_of_error hstep] at hmove
      cases hmove
      obtain ⟨n, hrun⟩ := htrace.exists_runFor_target env s.target
      have hmove := targetMove_of_over env s.target hover
      have hlast := resumeMove_of_over hmove fun h => absurd h.1 (Nat.not_le.mpr hlt)
      exact ⟨_, (ends_iff_of_runFor (runFor_resume hrun) _).mpr (.of_step hlast), rfl⟩

end Beyond

/-! ## §4 — the outcome. -/

/-- The emitted function ends as a `STOP` at `e` would: successfully, with empty output, in the
EVM's world. -/
def StopsAt (ops : Ops W) (env : CompileEnv) (code : List Byte) (w : W) (e : EvmSt W) : Prop :=
  ∃ k, entryAt ops (compileMain env code) w k = .error (.outcome (.finish []) e.world)

/-- Block `j` starts at the offset `t`, and the state has the stack and the world of a run that is
over at `e`. -/
structure EntersBehind (code : List Byte) (e : EvmSt W) (t : Word) (j : Nat) (s : St W) : Prop where
  block : ∃ bb, (createBasicBlocks code)[j]? = some bb ∧ bb.firstInstrIdx = t.toNat
  stack : RepStack s e.stack
  world : s.world = e.world
  target : s.target = t

section Outcome

variable {code : Bytecode} {calls : List Call}

theorem AtEntry.entersBehind {j : Nat} {s : St W} (hf : FunctionSpec env code.bytes calls)
    (hat : AtEntry code.bytes calls j s ⟨t.toNat, e.stack, e.world⟩) (ht : s.target = t) :
    EntersBehind code.bytes e t j s := by
  obtain ⟨c, hc, rfl, hfirst, -⟩ := hat.call
  obtain ⟨bb, hbb, hs⟩ := (blockTable_edgeInv code.ne).getElem? (hf.inv.block c hc)
  exact ⟨⟨bb, hbb, (BasicBlock.first_eq hs).symm.trans hfirst⟩, hat.rep, hat.world, ht⟩

/-- The outcome of a run is the outcome of its rest. -/
theorem error_iff_ends {f : List IRBlock} {k : Nat} {p₀ p : Nat × St W}
    (h₀ : entryAt ops f w 0 = .ok p₀) (hk : entryAt ops f w k = .ok p) (x : Stop W) :
    (∃ n, entryAt ops f w n = .error x) ↔ Ends (emittedMove ops f) p x :=
  (ends_iff_entryAt h₀ x).symm.trans (ends_iff_of_runFor ((entryAt_run h₀ k).1 p hk) x)

/-- A run that reverts does not stop. -/
theorem not_stopsAt (hf : FunctionSpec env code.bytes calls) {w' : W}
    (h : ∃ k, entryAt ops (compileMain env code.bytes) w k = .error (.outcome (.revert []) w')) :
    ¬ StopsAt ops env code.bytes w e := by
  intro hstops
  have hrev := (ends_iff_entryAt (entryAt_zero hf) _).mpr h
  have hfin := (ends_iff_entryAt (entryAt_zero hf) _).mpr hstops
  cases hrev.unique hfin

/-- **The two ways on from the end of the code**: into a block that starts at what `target` holds,
or to a revert, because no block starts there or the function has reverted before. -/
theorem beyond_end (hops : SameOps ops env) (hf : FunctionSpec env code.bytes calls)
    (hreach : EvmReaches ops code.bytes w e) (hoff : code.bytes.length ≤ e.pc)
    (hspill : ∀ e', EvmReaches ops code.bytes w e' → ∀ h, SpillsAt ops code.bytes e' h → h ≤ 511) :
    (∃ k j s t, entryAt ops (compileMain env code.bytes) w k = .ok (j, s) ∧
      AtEntry code.bytes calls j s ⟨t.toNat, e.stack, e.world⟩ ∧ s.target = t ∧
      RunsOffWith ops env code.bytes w e t ∧ isJumpDest code.bytes t.toNat = true) ∨
    ((∃ k w', entryAt ops (compileMain env code.bytes) w k = .error (.outcome (.revert []) w')) ∧
      ∀ t, RunsOffWith ops env code.bytes w e t → isJumpDest code.bytes t.toNat = false) := by
  rcases arrives hops hf hreach hoff hspill with
    ⟨k, i, s, r, hk, hleave, hworld, hrep, hruns⟩ | ⟨hrev, hnever⟩
  · by_cases hd : isJumpDest code.bytes r.target.toNat = true
    · obtain ⟨j, s', hstep, hat, ht⟩ := step_of_leave_test hf hleave hd hrep
      refine Or.inl ⟨k + 1, j, s', r.target, ?_, hworld ▸ hat, ht, hruns, hd⟩
      simp only [entryAt, hk, hstep]
    · have hno : isJumpDest code.bytes r.target.toNat = false := Bool.eq_false_iff.mpr hd
      refine Or.inr ⟨⟨k + 1, r.world, ?_⟩, fun t h => ?_⟩
      · simp only [entryAt, hk, step_of_leave_test_abort hf hleave hno]
      · obtain ⟨-, rfl⟩ := Prod.mk.inj (hruns.2.unique h.2)
        exact hno
  · exact Or.inr ⟨hrev, fun t h => absurd h (hnever t)⟩

end Outcome

/-- **Running off the end of the code is not STOP.** Take any bytecode and any EVM run of it that
executes past its last instruction, at `e`, with at most 511 words wherever a block spills. The EVM
stops at `e`. The emitted function ends so exactly when `target` holds the offset of a `JUMPDEST` —
the destination of the last computed jump, or 0 — and the run that it continues there, on the stack
and in the world of `e`, ends so. In terms of the EVM the continued run is that of `resumeMove`, as
long as it has its operands and its room. Without such an offset in `target`, or behind a jump to a
narrow constant, the emitted function reverts. -/
theorem run_off_end_exact (ops : Ops W) (env : CompileEnv) (hops : SameOps ops env)
    (code : Bytecode) (w : W) (e : EvmSt W) (hreach : EvmReaches ops code.bytes w e)
    (hoff : code.bytes.length ≤ e.pc)
    (hspill : ∀ e', EvmReaches ops code.bytes w e' → ∀ h, SpillsAt ops code.bytes e' h → h ≤ 511) :
    evmStep ops code.bytes e = .halt (.finish []) e.world ∧
    (StopsAt ops env code.bytes w e ↔
      ∃ t, RunsOffWith ops env code.bytes w e t ∧ isJumpDest code.bytes t.toNat = true ∧
        ∃ k j s, entryAt ops (compileMain env code.bytes) w k = .ok (j, s) ∧
          EntersBehind code.bytes e t j s ∧
          Ends (emittedMove ops (compileMain env code.bytes)) (j, s)
            (.outcome (.finish []) e.world)) ∧
    (∀ t, RunsOffWith ops env code.bytes w e t → isJumpDest code.bytes t.toNat = true →
      KeepsLimits ops code.bytes (Resumed ops env code.bytes (⟨t.toNat, e.stack, e.world⟩, t)) →
      (StopsAt ops env code.bytes w e ↔ Ends (resumeMove ops env code.bytes)
        (⟨t.toNat, e.stack, e.world⟩, t) (.outcome (.finish []) e.world))) ∧
    ((∀ t, RunsOffWith ops env code.bytes w e t → isJumpDest code.bytes t.toNat = false) →
      ∃ k w', entryAt ops (compileMain env code.bytes) w k =
        .error (.outcome (.revert []) w')) := by
  obtain ⟨calls, hf⟩ := compileMain_spec env code.ne
  have hfrom : ∀ {k p}, entryAt ops (compileMain env code.bytes) w k = .ok p →
      (StopsAt ops env code.bytes w e ↔
        Ends (emittedMove ops (compileMain env code.bytes)) p (.outcome (.finish []) e.world)) :=
    fun hk => error_iff_ends (entryAt_zero hf) hk _
  refine ⟨evmStep_off hoff, ⟨fun hstops => ?_, ?_⟩, fun t hruns hd hkeep => ?_, fun hno => ?_⟩
  · rcases beyond_end hops hf hreach hoff hspill with ⟨k, j, s, t, hk, hat, ht, hruns,
      hd⟩ | ⟨⟨k, w', hrev⟩, -⟩
    · exact ⟨t, hruns, hd, k, j, s, hk, hat.entersBehind hf ht, (hfrom hk).mp hstops⟩
    · exact absurd hstops (not_stopsAt hf ⟨k, hrev⟩)
  · rintro ⟨t, -, -, k, j, s, hk, -, hends⟩
    exact (hfrom hk).mpr hends
  · rcases beyond_end hops hf hreach hoff hspill with ⟨k, j, s, t', hk, hat, ht, hruns', -⟩ |
      ⟨-, hno⟩
    · obtain ⟨-, rfl⟩ := Prod.mk.inj (hruns'.2.unique hruns.2)
      have hstart : ResumesTo ops env code.bytes (⟨t'.toNat, e.stack, e.world⟩, t')
          (⟨t'.toNat, e.stack, e.world⟩, t') := ⟨0, rfl⟩
      rw [hfrom hk]
      exact ((resume_simulation hops hf hkeep).endsAlike (s := (j, s)) ⟨hstart, hat, ht⟩).same _
    · rw [hno t hruns] at hd
      cases hd
  · rcases beyond_end hops hf hreach hoff hspill with ⟨-, -, -, t, -, -, -, hruns, hd⟩ | ⟨hrev, -⟩
    · rw [hno t hruns] at hd
      cases hd
    · exact hrev

/-! `JUMPDEST`; `PUSH1 0; MLOAD; PUSH1 10; JUMPI`; `PUSH1 12; JUMP`; at 10 `JUMPDEST; STOP`; at 12
`JUMPDEST`; `PUSH1 1; PUSH1 0; MSTORE`, and the code is over. The emitted function goes on at offset
0, finds the cell set and stops. -/

def stopIfSet : Bytecode where
  bytes :=
  [0x5b, 0x60, 0x00, 0x51, 0x60, 0x0a, 0x57, 0x60, 0x0c, 0x56, 0x5b, 0x00, 0x5b, 0x60, 0x01, 0x60,
    0x00, 0x52]
  ne := by simp
  lt := by decide

/-- The world is the first word of memory. -/
def cellOps (code : List Byte) : Ops Word where
  exec := fun op args w =>
    match op, args with
    | .MLOAD, _ => some (w, w)
    | .MSTORE, [_, v] => some (0, v)
    | .CODESIZE, _ => some (BitVec.ofNat 256 (code.length % 2 ^ 32), w)
    | _, _ => some (0, w)
  output := fun _ _ size => List.replicate (size.toNat % 2 ^ 32) 0
  length_output := fun _ _ _ => List.length_replicate

theorem sameOps_cell (code : List Byte) : SameOps (cellOps code) (plainEnv code) where
  fold := fun h => nomatch h
  codeSize := fun _ => rfl

/-- What holds of every state of a run that is over after `m` steps. -/
theorem forall_of_over {σ ρ : Type} {step : σ → σ ⊕ ρ} {P : σ → Prop} [DecidablePred P] {s s' : σ}
    {m n : Nat}
    (hall : ∀ k, k < m → (runFor step k s).elim (fun s' => decide (P s')) (fun _ => true) = true)
    (hover : (runFor step m s).isRight = true) (h : runFor step n s = .inl s') : P s' := by
  have hlt : n < m := by
    cases hm : runFor step m s with
    | inl s₁ =>
      rw [hm] at hover
      cases hover
    | inr r => exact Lib.lt_of_runFor h hm
  have hn := hall n hlt
  rw [h] at hn
  exact of_decide_eq_true hn

theorem stopIfSet_height {e : EvmSt Word}
    (h : EvmReaches (cellOps stopIfSet.bytes) stopIfSet.bytes 0 e) : e.stack.length ≤ 2 := by
  obtain ⟨n, hn⟩ := h.exists_runFor
  exact forall_of_over (P := fun e => e.stack.length ≤ 2) (m := 12) (by decide +kernel)
    (by decide +kernel) hn

/-- The run that goes on at offset 0 has its operands and its room. -/
theorem stopIfSet_resumed {e : EvmSt Word}
    (h : Resumed (cellOps stopIfSet.bytes) (plainEnv stopIfSet.bytes)
    stopIfSet.bytes (⟨0, [], 1⟩, 0) e) : (instAt stopIfSet.bytes e.pc).stkOut ≤ e.stack.length ∧
      (∀ bb ∈ createBasicBlocks stopIfSet.bytes, bb.firstInstrIdx = e.pc →
        bb.stkIn ≤ e.stack.length) ∧
      e.stack.length ≤ 2 := by
  obtain ⟨t, n, hn⟩ := h
  exact forall_of_over (P := fun p : EvmSt Word × Word =>
    (instAt stopIfSet.bytes p.1.pc).stkOut ≤ p.1.stack.length ∧
    (∀ bb ∈ createBasicBlocks stopIfSet.bytes, bb.firstInstrIdx = p.1.pc →
      bb.stkIn ≤ p.1.stack.length) ∧
    p.1.stack.length ≤ 2) (m := 7) (by decide +kernel) (by decide +kernel) hn

theorem stopIfSet_keeps : KeepsLimits (cellOps stopIfSet.bytes) stopIfSet.bytes
    (Resumed (cellOps stopIfSet.bytes) (plainEnv stopIfSet.bytes) stopIfSet.bytes
      (⟨0, [], 1⟩, 0)) where
  operands _ h := (stopIfSet_resumed h).1
  inputs _ h := (stopIfSet_resumed h).2.1
  spill := spill_of_height fun _ h => (stopIfSet_resumed h).2.2.trans (by decide)

theorem run_off_end_exact_stopIfSet :
    EvmReaches (cellOps stopIfSet.bytes) stopIfSet.bytes 0 ⟨18, [], 1⟩ ∧
    StopsAt (cellOps stopIfSet.bytes) (plainEnv stopIfSet.bytes) stopIfSet.bytes 0 ⟨18, [], 1⟩ := by
  have hrun : runFor (evmMove (cellOps stopIfSet.bytes) stopIfSet.bytes) 11 ⟨0, [], 0⟩ =
      .inl ⟨18, [], 1⟩ := by decide +kernel
  have hreach : EvmReaches (cellOps stopIfSet.bytes) stopIfSet.bytes 0 ⟨18, [], 1⟩ :=
    EvmReaches.of_runFor .refl hrun
  obtain ⟨-, -, hresumed, -⟩ :=
    run_off_end_exact (cellOps stopIfSet.bytes) (plainEnv stopIfSet.bytes)
      (sameOps_cell _) stopIfSet 0 ⟨18, [], 1⟩ hreach (by decide)
      (spill_of_height fun e h => (stopIfSet_height h).trans (by decide))
  -- every destination is a constant, so `target` still holds 0
  have htarget :
      runFor (targetMove (cellOps stopIfSet.bytes) (plainEnv stopIfSet.bytes) stopIfSet.bytes) 12
      (⟨0, [], 0⟩, 0) = .inr (⟨18, [], 1⟩, 0) := by decide +kernel
  have hover :
      runFor (resumeMove (cellOps stopIfSet.bytes) (plainEnv stopIfSet.bytes) stopIfSet.bytes) 7
      (⟨0, [], 1⟩, 0) = .inr (.outcome (.finish []) 1) := by decide +kernel
  exact ⟨hreach, (hresumed 0 ⟨by decide, 12, htarget⟩ (by decide) stopIfSet_keeps).mpr ⟨7, hover⟩⟩

/-- `PUSH1 0; POP`, and the code is over. -/
def pushPop : Bytecode where
  bytes := [0x60, 0x00, 0x50]
  ne := by simp
  lt := by decide

/-- The emitted code reverts where the EVM stops. -/
theorem pushPop_reverts :
    EvmReaches (trivialOps pushPop.bytes) pushPop.bytes () ⟨3, [], ()⟩ ∧
    evmStep (trivialOps pushPop.bytes) pushPop.bytes ⟨3, [], ()⟩ = .halt (.finish []) () ∧
    entryAt (trivialOps pushPop.bytes) (compileMain (plainEnv pushPop.bytes) pushPop.bytes) () 1 =
      .error (.outcome (.revert []) ()) ∧
    ¬ StopsAt (trivialOps pushPop.bytes) (plainEnv pushPop.bytes) pushPop.bytes () ⟨3, [], ()⟩ := by
  have hstart : EvmReaches (trivialOps pushPop.bytes) pushPop.bytes () ⟨0, [], ()⟩ := .refl
  have hpushed : EvmReaches (trivialOps pushPop.bytes) pushPop.bytes () ⟨2, [0], ()⟩ :=
    hstart.next rfl
  have hrev :
      entryAt (trivialOps pushPop.bytes) (compileMain (plainEnv pushPop.bytes) pushPop.bytes) () 1 =
      .error (.outcome (.revert []) ()) := by rfl
  obtain ⟨calls, hf⟩ := compileMain_spec (plainEnv pushPop.bytes) pushPop.ne
  exact ⟨hpushed.next rfl, rfl, hrev, not_stopsAt hf ⟨1, hrev⟩⟩

end EvmTrans
