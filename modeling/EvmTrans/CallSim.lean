/-
# `EvmTrans.CallSim` — one compiled block, run from its first instruction to its terminator.

A call compiles a block in three parts, and so it runs: the INPUTS bring `m_stk_in` words into
registers (from `mstk`, from the predecessor's registers, or from both), the BODY keeps pace with
the EVM, and the SPILL puts the registers back. `Finished` is the result, the same for every route
of the inputs: `mstk` holds the EVM's stack again.
-/
import EvmTrans.BlockSim

namespace EvmTrans

variable {W : Type} {ops : Ops W} {env : CompileEnv} {code : List Byte} {bs : List BasicBlock}
  {c : Call} {s s' : St W} {e e' e₁ : EvmSt W} {st rest : List Word}

/-! ## §1 — the inputs. -/

/-- Registers a block may take over hold the top of the stack. -/
def Call.Inherits (code : List Byte) (bs : List BasicBlock) (c : Call) (s : St W)
    (st : List Word) : Prop :=
  mayInherit code bs c.bb = true → c.pstack ≠ [] →
    ∃ rest, st = c.pstack.map (Value.denote s.env) ++ rest

theorem Emitted.setRegs {on : Bool} {b : Builder} {Q : Unit → Builder → St W → Prop}
    (h : Q () { b with enableRegs := on } s) : Emitted ops (GlobalStack.setRegs on) b s Q :=
  ⟨s, ⟨Nat.le_refl _, ⟨[], (List.append_nil _).symm, rfl⟩, fun _ _ => rfl⟩, h⟩

/-- What the inputs of a block have to deliver. -/
def InputsDone (stkIn : Nat) (s : St W) (st : List Word) (vs : List Value) (s₁ : St W) : Prop :=
  vs.map (Value.denote s₁.env) = st.take stkIn ∧ RepStack s₁ (st.drop stkIn) ∧ SameWorld s s₁

theorem leftoverInputs_rep {b : Builder} {stkIn : Nat} (hrep : RepStack s st)
    (hlen : stkIn ≤ st.length) :
    Emitted ops (leftoverInputs stkIn) b s fun vs _ s₁ => InputsDone stkIn s st vs s₁ := by
  unfold leftoverInputs
  refine Emitted.bind (Emitted.setRegs fun _ => ?_)
  apply (popCallsN_rep stkIn rfl hlen hrep).imp
  rintro vs b' s₁ - ⟨-, -, hmap, hrep₁, hw⟩
  exact ⟨hmap, hrep₁, hw⟩

/-- `spPtr` goes down by the registers taken over, and the rest is popped. -/
theorem inheritedInputs_rep {b : Builder} {stkIn : Nat} {pstack : List Value} (hrep : RepStack s st)
    (hlen : stkIn ≤ st.length) (hb : ∀ v ∈ pstack, v.below b.next)
    (hst : st = pstack.map (Value.denote s.env) ++ rest) (hp : pstack ≠ []) :
    Emitted ops (queuedInputs true stkIn pstack) b s
      fun vs _ s₁ => InputsDone stkIn s st vs s₁ := by
  have hcond : (true && !pstack.isEmpty) = true := by
    rw [Bool.true_and, Bool.not_eq_true', List.isEmpty_eq_false_iff]
    exact hp
  unfold queuedInputs
  rw [if_pos hcond]
  -- the registers are the first words of the stack
  have hn : (pstack.take stkIn).length ≤ stkIn := by
    rw [List.length_take]
    exact Nat.min_le_left _ _
  have hdep : (pstack.take stkIn).map (Value.denote s.env) =
      st.take (pstack.take stkIn).length := by
    rw [hst, List.map_take, List.length_take, List.take_append_of_le_length (by
      rw [List.length_map]; exact Nat.min_le_right _ _), List.take_eq_take_iff, List.length_map]
    omega
  generalize hdepStk : pstack.take stkIn = depStk at hn hdep
  have hbdep : ∀ v ∈ depStk, v.below b.next := by
    rintro v hv
    rw [← hdepStk] at hv
    exact hb v (List.mem_of_mem_take hv)
  refine Emitted.bind ((lowerSp_rep hrep (Nat.le_trans hn hlen)).imp ?_)
  rintro _ b₁ s₁ - ⟨-, hrep₁, hw₁⟩ he₁
  refine Emitted.bind (Emitted.setRegs fun _ => ?_)
  refine Emitted.bind ((popCallsN_rep (stkIn - depStk.length) rfl (by
    rw [List.length_drop]; omega) hrep₁).imp ?_)
  rintro vs b₂ s₂ he₂ ⟨-, -, hmap, hrep₂, hw₂⟩ -
  have he : Emits ops b s b₂ s₂ := he₁.trans ⟨he₂.next_le, he₂.run, he₂.frame⟩
  refine Emitted.pure ⟨?_, ?_, hw₁.trans hw₂⟩
  · rw [List.map_append, he.map_denote hbdep, hdep, hmap, ← List.take_add]
    congr 1
    omega
  · rw [List.drop_drop] at hrep₂
    rw [show depStk.length + (stkIn - depStk.length) = stkIn by omega] at hrep₂
    exact hrep₂

variable (ops) in
/-- **Whichever way the inputs come**, they are the top of the stack, and `mstk` keeps the rest. -/
theorem Call.inputs_sim (hb : ∀ v ∈ c.pstack, v.below c.next) (hrep : RepStack s st)
    (hlen : c.bb.stkIn ≤ st.length) (hinh : c.Inherits code bs s st) :
    ∃ s₁, Emits ops (.empty c.next c.cases) s (c.inputs code bs).2 s₁ ∧
      InputsDone c.bb.stkIn s st (c.inputs code bs).1 s₁ := by
  have hem : Emitted ops (queuedInputs (mayInherit code bs c.bb) c.bb.stkIn c.pstack)
      (.empty c.next c.cases) s fun vs _ s₁ => InputsDone c.bb.stkIn s st vs s₁ := by
    by_cases hm : mayInherit code bs c.bb = true ∧ c.pstack ≠ []
    · obtain ⟨hm, hp⟩ := hm
      obtain ⟨rest, hst⟩ := hinh hm hp
      rw [hm]
      exact inheritedInputs_rep hrep hlen hb hst hp
    · have heq : queuedInputs (mayInherit code bs c.bb) c.bb.stkIn c.pstack =
          leftoverInputs c.bb.stkIn := by
        unfold queuedInputs
        rw [if_neg (by simpa [List.isEmpty_iff] using hm)]
        rfl
      rw [heq]
      exact leftoverInputs_rep hrep hlen
  exact hem

/-! ## §2 — the body. -/

/-- The body of a call, compiled and run up to the instruction where the EVM stands. -/
structure Reached (ops : Ops W) (code : List Byte) (s : St W) (e₁ : EvmSt W) (b' : Builder)
    (s' : St W) (rest : List Word) : Prop where
  run : execAll ops b'.code s = .ok s'
  rel : BodyRel s' rest b' s' e₁
  rep : RepStack s' rest
  target : s'.target = s.target
  operands : (instAt code e₁.pc).stkOut ≤ b'.locals.length

/-- **The emitted code at the entry of a block**, with the EVM there too and the block's inputs on
the stack. -/
structure Call.Entered (code : List Byte) (bs : List BasicBlock) (c : Call) (s : St W)
    (e : EvmSt W) : Prop where
  good : GoodBlock code c.bb
  below : ∀ v ∈ c.pstack, v.below c.next
  rep : RepStack s e.stack
  world : s.world = e.world
  inherits : c.Inherits code bs s e.stack
  pc : e.pc = c.bb.firstInstrIdx
  stkIn_le : c.bb.stkIn ≤ e.stack.length

theorem Call.body_sim (hops : SameOps ops env) (hent : c.Entered code bs s e)
    (htrace : BlockTrace ops code c.bb e e₁) (hin₁ : InBlock code c.bb e₁.pc) :
    ∃ fuel b' s' rest, c.bodyEnd env code bs = (compileBasicBlockLoop env code c.bb c.i
        (nextNode bs.length c.i) (fuel + 1) e₁.pc b').2 ∧ Reached ops code s e₁ b' s' rest := by
  obtain ⟨hg, hb, hrep, hw, hinh, hpc, hlen⟩ := hent
  have hin : InBlock code c.bb e.pc := by
    rw [hpc]
    exact ⟨hg.first_boundary, Nat.le_refl _, hg.first_lt⟩
  obtain ⟨s₁, he₁, hmap, hrep₁, hw₁⟩ := Call.inputs_sim ops hb hrep hlen hinh
  have hopen : (bodyStart (c.inputs code bs).1 (c.inputs code bs).2).Open := Call.start_open hb
  have hstart : (bodyStart (c.inputs code bs).1 (c.inputs code bs).2).locals =
      (c.inputs code bs).1 := by
    have hl : (c.inputs code bs).2.locals = [] := (queuedInputs_static _ _ hb).locals
    show _ ++ _ = _
    rw [hl, List.append_nil]
  have hrel : BodyRel s₁ (e.stack.drop c.bb.stkIn)
      (bodyStart (c.inputs code bs).1 (c.inputs code bs).2) s₁ e := by
    refine ⟨hopen, ?_, hw₁.world.trans hw, rfl, rfl, rfl⟩
    rw [hstart, hmap, List.take_append_drop]
  have hlength : (bodyStart (c.inputs code bs).1 (c.inputs code bs).2).locals.length =
      c.bb.stkIn := by
    rw [hstart]
    exact (queuedInputs_static _ _ hb).length
  have hfuel : c.bb.endIdx ≤ e.pc + (c.bb.endIdx - c.bb.firstInstrIdx) := by omega
  obtain ⟨fuel, b', s', hloop, hfuel, he', hrel', hsup⟩ := body_reaches env c.i
    (nextNode bs.length c.i) hops hg htrace hin hfuel hrel (by rw [hlength, hpc]; exact hg.supply)
  have hlt := hin₁.lt_end
  obtain ⟨fuel, rfl⟩ : ∃ k, fuel = k + 1 := ⟨fuel - 1, by omega⟩
  refine ⟨fuel, b', s', e.stack.drop c.bb.stkIn, ?_, ?_, ?_, ?_, ?_, hsup.operands hlt⟩
  · rw [← hloop, hpc]
    rfl
  · have hrun : execAll ops (bodyStart (c.inputs code bs).1 (c.inputs code bs).2).code s = .ok s₁ :=
      he₁.execAll_code rfl
    exact he'.execAll_code hrun
  · exact ⟨hrel'.isOpen, hrel'.stack, hrel'.world, rfl, rfl, rfl⟩
  · exact hrep₁.congr hrel'.sp hrel'.mstk
  · exact hrel'.target.trans hw₁.target

/-! ## §3 — the spill. -/

/-- The registers go back to `mstk`, and keep their meaning. -/
theorem spill_sim {bE : Builder} (hrun : execAll ops bE.code s = .ok s')
    (hb : ∀ v ∈ bE.locals, v.below bE.next) (hrep : RepStack s' rest)
    (hst : st = bE.locals.map (Value.denote s'.env) ++ rest) (hlen : st.length ≤ 511) :
    ∃ sF, execAll ops (spill bE).code s = .ok sF ∧ RepStack sF st ∧ SameWorld s' sF ∧
      ∀ v : Value, v.below bE.next → v.denote sF.env = v.denote s'.env := by
  have hlen' : rest.length + bE.locals.reverse.length ≤ 511 := by
    rw [hst, List.length_append, List.length_map] at hlen
    rw [List.length_reverse]
    omega
  obtain ⟨sF, he, -, hrepF, hw⟩ := pushAll_rep ops bE.locals.reverse
    (b := { bE with enableRegs := false }) rfl (fun v hv => hb v (List.mem_reverse.mp hv))
    hrep hlen'
  refine ⟨sF, he.execAll_code hrun, ?_, hw, fun v hv => he.denote_eq hv⟩
  rw [List.map_reverse, List.reverse_reverse] at hrepF
  rw [hst]
  exact hrepF

/-- **A block run to its end**: the globals hold the stack `st` and the world `w`, and the view that
a successor may inherit is the top of the stack. -/
structure Finished (ops : Ops W) (env : CompileEnv) (code : List Byte) (bs : List BasicBlock)
    (c : Call) (s : St W) (st : List Word) (w : W) (sF : St W) : Prop where
  run : execAll ops (c.final env code bs).code s = .ok sF
  rep : RepStack sF st
  world : sF.world = w
  view : ∃ rest, st = (c.view env code bs).map (Value.denote sF.env) ++ rest

/-- The spill finishes a body. -/
theorem Call.finish {bE : Builder} (hbE : c.bodyEnd env code bs = bE)
    (hrun : execAll ops bE.code s = .ok s') (hb : ∀ v ∈ bE.locals, v.below bE.next)
    (hrep : RepStack s' rest) (hst : st = bE.locals.map (Value.denote s'.env) ++ rest)
    (hlen : st.length ≤ 511) :
    ∃ sF, Finished ops env code bs c s st s'.world sF ∧ sF.target = s'.target ∧
      ∀ v : Value, v.below bE.next → v.denote sF.env = v.denote s'.env := by
  obtain ⟨sF, hF, hrepF, hw, hden⟩ := spill_sim hrun hb hrep hst hlen
  refine ⟨sF, ⟨?_, hrepF, hw.world, rest, ?_⟩, hw.target, hden⟩
  · rw [Call.final, hbE]
    exact hF
  · rw [Call.view, hbE, List.map_congr_left fun v hv => hden v (hb v hv)]
    exact hst

/-! ## §4 — the three ways out. -/

section Exits

variable (hops : SameOps ops env) (hent : c.Entered code bs s e)
  (htrace : BlockTrace ops code c.bb e e₁) (hin₁ : InBlock code c.bb e₁.pc)
  (hend : c.bb.endIdx ≤ instrEnd code e₁.pc)

/-- The last instruction of a body, when it is neither a push nor undefined. -/
theorem compileBasicBlockLoop_last {bb : BasicBlock} {i : Nat} {next : Label} {b : Builder}
    {fuel it : Nat} (hlt : it < bb.endIdx) (hend : bb.endIdx ≤ instrEnd code it)
    (hpush : ∀ n, instAt code it ≠ .PUSH n) (hund : ∀ x, instAt code it ≠ .UNDEFINED x) :
    (compileBasicBlockLoop env code bb i next (fuel + 1) it b).2 =
      (compileInst env bb i next it (instAt code it) b).2 := by
  have hnext : it + 1 = bb.endIdx := by
    rw [instrEnd_of_ne_push hpush] at hend
    omega
  rw [compileBasicBlockLoop_inst (Nat.ne_of_lt hlt) hpush hund, hnext, compileBasicBlockLoop_end]

include hops hent htrace hin₁ hend in
/-- **Falling through** behind a plain instruction. -/
theorem Call.finish_plain (hs : StepCase ops code e₁ e') (hp : (instAt code e₁.pc).plain = true)
    (hlen : e'.stack.length ≤ 511) :
    ∃ sF, Finished ops env code bs c s e'.stack e'.world sF ∧
      (c.final env code bs).term = none ∧ sF.target = s.target := by
  obtain ⟨fuel, b', s', rest, hbody, hr⟩ := Call.body_sim hops hent htrace hin₁
  obtain ⟨bE, s'', hloop, he, hrel⟩ :=
    step_sim env c.i (nextNode bs.length c.i) hops hent.good hr.rel
      hs hp hin₁ hr.operands
  rw [hloop, Nat.min_eq_right hend, compileBasicBlockLoop_end] at hbody
  obtain ⟨sF, hF, ht, -⟩ := Call.finish hbody (he.execAll_code hr.run) hrel.isOpen.below
    (hr.rep.congr hrel.sp hrel.mstk) hrel.stack hlen
  refine ⟨sF, hrel.world ▸ hF, ?_, ht.trans (hrel.target.trans hr.target)⟩
  rw [Call.final, hbody, (spill_quiet bE).term]
  exact hrel.isOpen.term

include hops hent htrace hin₁ hend in
/-- **`JUMP`** with the destination `d` on top of the stack, valid or not. -/
theorem Call.finish_jump {d : Word} (hi : instAt code e₁.pc = .JUMP) (hs : e₁.stack = d :: st)
    (hlen : st.length ≤ 511) :
    ∃ sF idx, Finished ops env code bs c s st e₁.world sF ∧
      EndsInJump (c.final env code bs) idx ∧ RunsErased ops (c.final env code bs) s sF ∧
      idx.denote sF.env = d := by
  obtain ⟨fuel, b', s', rest, hbody, hr⟩ := Call.body_sim hops hent htrace hin₁
  rw [compileBasicBlockLoop_last hin₁.lt_end hend (by simp [hi]) (by simp [hi]), hi,
    compileInst_jump hr.rel.isOpen.regs] at hbody
  have hbelow := hr.rel.isOpen.below_headD
  obtain ⟨idx, vs, hlocals⟩ : ∃ idx vs, b'.locals = idx :: vs := by
    have hop := hr.operands
    rw [hi] at hop
    exact List.exists_cons_of_length_pos hop
  rw [hlocals, List.headD_cons, List.tail_cons] at hbody
  rw [hlocals, List.headD_cons] at hbelow
  have hstack := hr.rel.stack
  rw [hs, hlocals] at hstack
  obtain ⟨hd, hst⟩ := List.cons.inj hstack
  have hrun : execAll ops (b'.code ++ [.store idx .target]) s =
      .ok { s' with target := idx.denote s'.env } := by
    rw [execAll_append, hr.run]
    rfl
  obtain ⟨sF, hF, -, hden⟩ := Call.finish hbody hrun (fun v hv => hr.rel.isOpen.below v (by
    rw [hlocals]; exact List.mem_cons_of_mem _ hv)) (hr.rep.congr rfl rfl) hst hlen
  refine ⟨sF, idx, hr.rel.world ▸ hF, ?_, ?_, (hden idx hbelow).trans hd.symm⟩
  · rw [Call.final, hbody]
    exact endsInJump_spill rfl hbelow rfl
  · have hrunF := hF.run
    rw [Call.final, hbody] at hrunF ⊢
    exact runsErased_spill rfl hr.run hr.target hrunF

include hops hent htrace hin₁ hend in
/-- **`JUMPI`** with destination `d` and condition `x`. -/
theorem Call.finish_jumpi {d x : Word} (hi : instAt code e₁.pc = .JUMPI)
    (hs : e₁.stack = d :: x :: st) (hlen : st.length ≤ 511) :
    ∃ sF idx rawCond, Finished ops env code bs c s st e₁.world sF ∧
      EndsInJumpi (c.final env code bs) (nextNode bs.length c.i) idx rawCond ∧
      RunsErased ops (c.final env code bs) s sF ∧ idx.denote sF.env = d ∧
      rawCond.denote sF.env = x := by
  obtain ⟨fuel, b', s', rest, hbody, hr⟩ := Call.body_sim hops hent htrace hin₁
  rw [compileBasicBlockLoop_last hin₁.lt_end hend (by simp [hi]) (by simp [hi]), hi,
    compileInst_jumpi hr.rel.isOpen.regs] at hbody
  have hbelow := hr.rel.isOpen.below_headD
  have hbelow₂ := hr.rel.isOpen.below_second
  obtain ⟨idx, rawCond, vs, hlocals⟩ : ∃ idx rawCond vs, b'.locals = idx :: rawCond :: vs := by
    have hop := hr.operands
    rw [hi] at hop
    rcases hl : b'.locals with _ | ⟨idx, _ | ⟨rawCond, vs⟩⟩
    · rw [hl] at hop
      exact absurd hop (by decide)
    · rw [hl] at hop
      exact absurd hop (by simp [Instruction.stkOut])
    · exact ⟨idx, rawCond, vs, rfl⟩
  rw [hlocals, List.headD_cons, List.tail_cons, List.headD_cons, List.tail_cons] at hbody
  rw [hlocals, List.headD_cons] at hbelow
  rw [hlocals, List.tail_cons, List.headD_cons] at hbelow₂
  have hstack := hr.rel.stack
  rw [hs, hlocals] at hstack
  obtain ⟨hd, hst⟩ := List.cons.inj hstack
  obtain ⟨hx, hst⟩ := List.cons.inj hst
  -- the test defines a register that no operand uses
  have hframe : ∀ (y : Word) (v : Value), v.below b'.next →
      v.denote (s'.define b'.next y).env = v.denote s'.env := fun y v hv =>
    Value.denote_congr hv fun r hr => define_env_of_ne s' y (Nat.ne_of_lt hr)
  have hvs : ∀ v ∈ vs, v.below b'.next := fun v hv => hr.rel.isOpen.below v (by
    rw [hlocals]; exact List.mem_cons_of_mem _ (List.mem_cons_of_mem _ hv))
  have hrun : execAll ops (b'.code ++ [.icmpNE b'.next rawCond, .store idx .target]) s =
      .ok { s'.define b'.next (if rawCond.denote s'.env ≠ 0 then 1 else 0) with
        target := idx.denote (s'.define b'.next
          (if rawCond.denote s'.env ≠ 0 then 1 else 0)).env } := by
    rw [execAll_append, hr.run]
    rfl
  obtain ⟨sF, hF, -, hden⟩ := Call.finish hbody hrun
    (fun v hv => Value.below_mono (hvs v hv) (Nat.le_succ _)) (hr.rep.congr rfl rfl) (by
      rw [hst]
      exact congrArg (· ++ rest) (List.map_congr_left fun v hv => (hframe _ v (hvs v hv)).symm))
    hlen
  have hdenote : ∀ v : Value, v.below b'.next → v.denote sF.env = v.denote s'.env := fun v hv =>
    (hden v (Value.below_mono hv (Nat.le_succ _))).trans (hframe _ v hv)
  refine ⟨sF, idx, rawCond, hr.rel.world ▸ hF, ?_, ?_, (hdenote idx hbelow).trans hd.symm,
    (hdenote rawCond hbelow₂).trans hx.symm⟩
  · rw [Call.final, hbody]
    exact endsInJumpi_spill rfl rfl hbelow hbelow₂ rfl
  · have hrunF := hF.run
    have htest : execAll ops (b'.code ++ [.icmpNE b'.next rawCond]) s =
        .ok (s'.define b'.next (if rawCond.denote s'.env ≠ 0 then 1 else 0)) := by
      rw [execAll_append, hr.run]
      rfl
    have hcode : b'.code ++ [.icmpNE b'.next rawCond, .store idx .target] =
        (b'.code ++ [.icmpNE b'.next rawCond]) ++ [.store idx .target] := by
      rw [List.append_assoc]
      rfl
    rw [Call.final, hbody] at hrunF ⊢
    exact runsErased_spill hcode htest hr.target hrunF

end Exits

end EvmTrans
