/-
# `EvmTrans.StackRefinement` — the operand stack of the emitted code is the EVM's, over whole runs.

`AtEntry` relates the emitted function at the entry of a code block to the EVM at the entry of the
same block: `mstk[1..spPtr]` is the stack, the worlds agree, and the registers that the block was
compiled to take over hold the top of the stack. The last part is where the breadth-first queue
matters. It keeps the registers of the FIRST predecessor only; `inherit_source` shows that a block
can use them only when that predecessor is the block right in front of it, which is also the only
way to get there.
-/
import EvmTrans.JumpTarget

namespace EvmTrans

variable {W : Type} {ops : Ops W} {env : CompileEnv} {code : List Byte} {calls : List Call}

/-! ## §1 — whose registers a block inherits. -/

/-- A block that is nothing but `JUMPI` uses up its two inputs. -/
theorem Call.view_of_jumpi {bs : List BasicBlock} {c : Call} (hg : GoodBlock code c.bb)
    (hb : ∀ v ∈ c.pstack, v.below c.next) (hj : instAt code c.bb.firstInstrIdx = .JUMPI) :
    c.view env code bs = [] := by
  have hlt := hg.first_lt
  have hend : instrEnd code c.bb.firstInstrIdx = c.bb.endIdx :=
    hg.ends_last _ hg.first_boundary (Nat.le_refl _) hlt (by rw [hj]; rfl)
  have hone : c.bb.endIdx = c.bb.firstInstrIdx + 1 := by
    rw [← hend, instrEnd_of_ne_push (by simp [hj])]
  have hstk : c.bb.stkIn = 2 := by
    have h := congrArg Prod.fst hg.stk
    rw [ctxDep, show c.bb.endIdx - c.bb.firstInstrIdx =
      0 + 1 by omega, ctxDepLoop_succ hlt, hj] at h
    exact h
  have hbody : c.bodyEnd env code bs = (compileInst env c.bb c.i (nextNode bs.length c.i)
      c.bb.firstInstrIdx .JUMPI (bodyStart (c.inputs code bs).1 (c.inputs code bs).2)).2 := by
    show (compileBasicBlockLoop env code c.bb c.i _ (c.bb.endIdx - c.bb.firstInstrIdx)
      c.bb.firstInstrIdx _).2 = _
    rw [show c.bb.endIdx - c.bb.firstInstrIdx = 0 + 1 by omega,
      compileBasicBlockLoop_last hlt hend.ge (by simp [hj]) (by simp [hj]), hj]
  have hin : Inputs (.empty c.next c.cases) c.bb.stkIn (c.inputs code bs) :=
    queuedInputs_static _ _ hb
  have hlen : (c.inputs code bs).1.length = 2 := hin.length.trans hstk
  rw [Call.view, hbody, compileInst_jumpi rfl]
  show ((c.inputs code bs).1 ++ (c.inputs code bs).2.locals).tail.tail = []
  rw [hin.locals]
  show ((c.inputs code bs).1 ++ []).tail.tail = []
  apply List.eq_nil_of_length_eq_zero
  simp [hlen]

/-- Blocks that meet stand next to each other. -/
theorem succ_of_end_eq_first (hne : code ≠ []) {i j : Nat} {bi bj : BasicBlock}
    (hi : (blockTable code)[i]? = some bi) (hj : (blockTable code)[j]? = some bj)
    (h : bj.firstInstrIdx = bi.endIdx) : j = i + 1 := by
  have hlti := (blockTable_good hne hi).first_lt
  have hltj := (blockTable_good hne hj).first_lt
  have hij : i < j := by
    rcases Nat.lt_trichotomy i j with hlt | rfl | hgt
    · exact hlt
    · rw [hi] at hj
      cases hj
      omega
    · have := blockTable_end_le_first hne hj hi hgt
      omega
  by_contra hne'
  -- a block in between would have no room
  have hlen := (List.getElem?_eq_some_iff.mp hj).1
  have hmid : (blockTable code)[i + 1]? = some (blockTable code)[i + 1] :=
    List.getElem?_eq_getElem (by omega)
  have h1 := blockTable_end_le_first hne hi hmid (Nat.lt_succ_self i)
  have h2 := blockTable_end_le_first hne hmid hj (by omega)
  have h3 := (blockTable_good hne hmid).first_lt
  omega

/-- **Registers are inherited from the block in front**, by a block that no jump can reach. -/
theorem inherit_source (hne : code ≠ []) (hf : FunctionSpec env code calls) {c : Call}
    (hc : c ∈ calls) (hm : mayInherit code (blockTable code) c.bb = true) (hp : c.pstack ≠ []) :
    instAt code c.bb.firstInstrIdx ≠ .JUMPDEST ∧
      ∃ d ∈ calls, d.view env code (blockTable code) = c.pstack ∧ c.i = d.i + 1 := by
  have hcb := hf.inv.block c hc
  rcases (hf.inv.source c hc).1 with hnil | ⟨d, hd, hview, hedge⟩
  · exact absurd hnil hp
  have hdb := hf.inv.block d hd
  obtain ⟨bq, hbq, hfrom, hwhere⟩ := (blockTable_edgeInv hne).sym d.i c.i d.bb hdb hedge
  obtain rfl : c.bb = bq := Option.some.inj (hcb.symm.trans hbq)
  by_cases hj : instAt code c.bb.firstInstrIdx = .JUMPDEST
  · -- a single predecessor that starts with `JUMPI`: its view is empty
    exfalso
    have hpred : ∃ p, c.bb.bbsFrom = [p] ∧ ((blockTable code)[p]?.map fun b =>
        instAt code b.firstInstrIdx == .JUMPI).getD false = true := by
      rw [mayInherit, hj] at hm
      simp only [bne_self_eq_false, Bool.false_or] at hm
      split at hm
      · rename_i p hfr
        exact ⟨p, hfr, hm⟩
      · cases hm
    obtain ⟨p, hfr, hpj⟩ := hpred
    rw [hfr, List.mem_singleton] at hfrom
    rw [← hfrom, hdb, Option.map_some, Option.getD_some, beq_iff_eq] at hpj
    exact hp (hview.symm.trans
      (Call.view_of_jumpi (blockTable_good hne hdb) (hf.inv.source d hd).2 hpj))
  · exact ⟨hj, d, hd, hview, succ_of_end_eq_first hne hdb hcb (hwhere.resolve_left hj)⟩

/-! ## §2 — one block of the run. -/

/-- **The emitted function and the EVM at the entry of the same block.** -/
structure AtEntry (code : List Byte) (calls : List Call) (i : Nat) (s : St W) (e : EvmSt W) :
    Prop where
  rep : RepStack s e.stack
  world : s.world = e.world
  call : ∃ c ∈ calls, c.i = i ∧ c.bb.firstInstrIdx = e.pc ∧
    c.Inherits code (blockTable code) s e.stack

/-- No jump of the block has a constant destination of less than 256 bits. -/
def IRBlock.WideDest (b : IRBlock) : Prop :=
  ∀ v ∈ b.term.bind Term.destIdx, v.Wide

instance (b : IRBlock) : Decidable b.WideDest :=
  inferInstanceAs (Decidable (∀ v ∈ b.term.bind Term.destIdx, v.Wide))

section Step

variable {code : Bytecode} {calls : List Call} {i : Nat} {s : St W} {e e' : EvmSt W}

/-- Entering the block behind: its inherited registers, if any, are this block's view. -/
theorem AtEntry.of_fall (hf : FunctionSpec env code.bytes calls) {c : Call} (hc : c ∈ calls)
    {nb : BasicBlock} (hnb : (blockTable code.bytes)[c.i + 1]? = some nb)
    (hpc : nb.firstInstrIdx = e'.pc) {r : St W} (hrep : RepStack r e'.stack)
    (hw : r.world = e'.world) (hview : ∃ rest,
      e'.stack = (c.view env code.bytes (blockTable code.bytes)).map (Value.denote r.env) ++ rest) :
    AtEntry code.bytes calls (c.i + 1) r e' := by
  obtain ⟨c', hc', hi⟩ := hf.all (c.i + 1) (List.getElem?_eq_some_iff.mp hnb).1
  have hbb : c'.bb = nb := Option.some.inj ((hf.inv.block c' hc').symm.trans (hi ▸ hnb))
  refine ⟨hrep, hw, c', hc', hi, hbb ▸ hpc, fun hm hp => ?_⟩
  obtain ⟨-, d, hd, hdv, hdi⟩ := inherit_source code.ne hf hc' hm hp
  obtain rfl : d = c := List.inj_on_of_nodup_map hf.inv.nodup hd hc (by omega)
  rw [← hdv]
  exact hview

/-- Entering a block by a jump: nothing is inherited there. -/
theorem AtEntry.of_jump (hf : FunctionSpec env code.bytes calls) {d : Word} {l : Label}
    (htr : TransfersTo code.bytes d l) (hd : isJumpDest code.bytes d.toNat = true)
    (hpc : e'.pc = d.toNat) {r : St W} (hrep : RepStack r e'.stack) (hw : r.world = e'.world) :
    ∃ j, l = .code j ∧ AtEntry code.bytes calls j r e' := by
  rcases htr with ⟨-, j, b₀, hb₀, hfirst, rfl⟩ | ⟨hno, -⟩
  · obtain ⟨bb, hbb, hs⟩ := (blockTable_edgeInv code.ne).getElem?_of_created hb₀
    obtain ⟨c', hc', hi⟩ := hf.all j (List.getElem?_eq_some_iff.mp hbb).1
    have heq : c'.bb = bb := Option.some.inj ((hf.inv.block c' hc').symm.trans (hi ▸ hbb))
    have hc'first : c'.bb.firstInstrIdx = d.toNat := by
      rw [heq, BasicBlock.first_eq hs, hfirst]
    refine ⟨j, rfl, hrep, hw, c', hc', hi, hc'first.trans hpc.symm, fun hm hp => ?_⟩
    refine absurd ?_ (inherit_source code.ne hf hc' hm hp).1
    rw [hc'first]
    exact (isJumpDest_iff.mp hd).2
  · rw [hd] at hno
    cases hno

/-- A narrow constant destination shows in the terminator of the emitted block. -/
theorem not_wideDest_of_takesNarrow {code : List Byte} {e : EvmSt W}
    (h : takesNarrow env code e = true) : ∃ b ∈ compileMain env code, ¬ b.WideDest := by
  obtain ⟨-, hany⟩ := Bool.and_eq_true_iff.mp h
  cases hop : jumpOperand env code e.pc with
  | none =>
    rw [hop] at hany
    cases hany
  | some idx =>
    rw [hop] at hany
    have hw : ¬ idx.Wide := by simpa using hany
    obtain ⟨blk, hfind, hterm⟩ := Option.bind_eq_some_iff.mp hop
    exact ⟨blk, List.mem_of_find?_eq_some hfind, fun hwide => hw (hwide idx hterm)⟩

/-- The call behind an entry, and what the simulation of its block starts from. -/
theorem AtEntry.entered (hf : FunctionSpec env code.bytes calls)
    (hat : AtEntry code.bytes calls i s e) :
    ∃ c ∈ calls, c.i = i ∧ (blockTable code.bytes)[c.i]? = some c.bb ∧
      e.pc = c.bb.firstInstrIdx ∧ InBlock code.bytes c.bb e.pc ∧
      (c.bb.stkIn ≤ e.stack.length → c.Entered code.bytes (blockTable code.bytes) s e) := by
  obtain ⟨c, hc, rfl, hfirst, hinh⟩ := hat.call
  have hcb := hf.inv.block c hc
  have hg := blockTable_good code.ne hcb
  exact ⟨c, hc, rfl, hcb, hfirst.symm, hfirst ▸ ⟨hg.first_boundary, Nat.le_refl _, hg.first_lt⟩,
    fun hlen => ⟨hg, (hf.inv.source c hc).2, hat.rep, hat.world, hinh, hfirst.symm, hlen⟩⟩

/-- Where the block behind starts, when control falls through. -/
theorem next_block_of_start {bb : BasicBlock} (hbb : (blockTable code.bytes)[i]? = some bb)
    {pc : Nat} (hin : InBlock code.bytes bb pc) (hk : (instAt code.bytes pc).kills = false)
    (hend : bb.endIdx ≤ instrEnd code.bytes pc)
    (hs : BlockStart code.bytes (instrEnd code.bytes pc)) :
    nextNode (blockTable code.bytes).length i = .code (i + 1) ∧ ∃ nb,
      (blockTable code.bytes)[i + 1]? = some nb ∧ nb.firstInstrIdx = instrEnd code.bytes pc := by
  obtain ⟨j, b, hb, hbf⟩ := (blockStart_iff code.ne).mp hs
  have hlt := (blockTable_good code.ne hb).first_boundary.1
  rcases next_block code.ne hbb hin hk hend with ⟨hlast, -⟩ | ⟨nb, hnb, hnf⟩
  · omega
  · have hboundary := (blockTable_good code.ne hnb).first_boundary
    rw [hnf] at hboundary
    have := hin.boundary.instrEnd_le hboundary hin.lt_end
    exact ⟨if_pos (List.getElem?_eq_some_iff.mp hnb).1, nb, hnb, by omega⟩

/-- A step that goes on at the entry the EVM makes, with what the instruction at `e₁` leaves in
`target`; or it stops there, because that instruction jumps to a narrow constant. -/
def StepsTo (ops : Ops W) (env : CompileEnv) (code : List Byte) (calls : List Call) (i : Nat)
    (s : St W) (e₁ e' : EvmSt W) : Prop :=
  (∃ j s', leave ops (compileMain env code) i s = .ok (.code j, s') ∧
    AtEntry code calls j s' e' ∧ s'.target = targetAfter env code e₁ s.target ∧
    takesNarrow env code e₁ = false) ∨
  (EvmTrans.step ops (compileMain env code) i s = .error (.outcome (.revert []) e₁.world) ∧
    takesNarrow env code e₁ = true)

/-- **A jump that is taken**, from the finished block to the entry of its destination. -/
theorem stepsTo_of_jump (hf : FunctionSpec env code.bytes calls) {c : Call} {e₁ : EvmSt W}
    {d : Word} {idx : Value} {r : St W} {st st₁ : List Word}
    (hd : isJumpDest code.bytes d.toNat = true)
    (hF : Finished ops env code.bytes (blockTable code.bytes) c s st e₁.world r)
    (hden : idx.denote r.env = d) (hs₁ : e₁.stack = d :: st₁)
    (hi : instAt code.bytes e₁.pc = .JUMP ∨ instAt code.bytes e₁.pc = .JUMPI)
    (hj : takesJump code.bytes e₁ = true) (hop : jumpOperand env code.bytes e₁.pc = some idx)
    (hleave : ∃ l s'', leave ops (compileMain env code.bytes) c.i s = .ok (l, s'') ∧
      SameStack { r with target := idx.stored r.env s.target } s'' ∧
      (idx.Wide → TransfersTo code.bytes (idx.denote r.env) l) ∧ (¬ idx.Wide → l = .abort)) :
    StepsTo ops env code.bytes calls c.i s e₁ ⟨d.toNat, st, e₁.world⟩ := by
  obtain ⟨l, s'', hleave, hsame, hto, hab⟩ := hleave
  have hnarrow : takesNarrow env code.bytes e₁ = !decide idx.Wide := takesNarrow_of_jump hj hop
  by_cases hw : idx.Wide
  · obtain ⟨j, rfl, hat'⟩ : ∃ j, l = .code j ∧
        AtEntry code.bytes calls j s'' ⟨d.toNat, st, e₁.world⟩ :=
      AtEntry.of_jump hf (hden ▸ hto hw) hd rfl (hF.rep.congr hsame.sp hsame.mstk)
        (hsame.world.trans hF.world)
    refine Or.inl ⟨j, s'', hleave, hat', ?_, by simp [hnarrow, hw]⟩
    exact hsame.target.trans (targetAfter_of_jump hi hop hs₁ hden).symm
  · rw [hab hw] at hleave
    have hworld : s''.world = e₁.world := hsame.world.trans hF.world
    exact Or.inr ⟨hworld ▸ step_of_leave_abort hf hleave, by simp [hnarrow, hw]⟩

/-- The operand of the jump that closes a finished block. -/
theorem carriesDest_of_jump (hf : FunctionSpec env code.bytes calls) {c : Call} (hc : c ∈ calls)
    {idx : Value} (hj : EndsInJump (c.final env code.bytes (blockTable code.bytes)) idx) :
    CarriesDest env code.bytes c.i idx := by
  refine ⟨_, hf.block c hc, ?_⟩
  rw [(resolve_jump _ _ _ hj).1]
  rfl

theorem carriesDest_of_jumpi (hf : FunctionSpec env code.bytes calls) {c : Call} (hc : c ∈ calls)
    {next' : Label} {idx rawCond : Value}
    (hj : EndsInJumpi (c.final env code.bytes (blockTable code.bytes)) next' idx rawCond) :
    CarriesDest env code.bytes c.i idx := by
  obtain ⟨pre, post, n, hterm, -⟩ := resolve_jumpi (jumpCases env code.bytes)
    (nextNode (blockTable code.bytes).length c.i) c.i hj
  refine ⟨_, hf.block c hc, ?_⟩
  rw [hterm]
  rfl

/-- **From the entry of a block over its last instruction**, to the next block start. -/
theorem Call.Entered.stepsTo (hops : SameOps ops env) (hf : FunctionSpec env code.bytes calls)
    {c : Call} (hc : c ∈ calls) {e₁ : EvmSt W}
    (hent : c.Entered code.bytes (blockTable code.bytes) s e)
    (htrace : BlockTrace ops code.bytes c.bb e e₁) (hin₁ : InBlock code.bytes c.bb e₁.pc)
    (hend : c.bb.endIdx ≤ instrEnd code.bytes e₁.pc) (hstep : StepCase ops code.bytes e₁ e')
    (hheight : e'.stack.length ≤ 511) (hs : BlockStart code.bytes e'.pc) :
    StepsTo ops env code.bytes calls c.i s e₁ e' := by
  have hcb := hf.inv.block c hc
  rcases hstep.exits with ⟨hp, hpc⟩ | ⟨d, st, hi, hst, hd, rfl⟩ | ⟨d, x, st, hi, hst, hx⟩
  · -- a plain last instruction
    obtain ⟨r, hF, hterm, ht⟩ := Call.finish_plain hops hent htrace hin₁ hend hstep hp hheight
    obtain ⟨hnext, nb, hnb, hnf⟩ := next_block_of_start hcb hin₁ (kills_of_plain hp) hend (hpc ▸ hs)
    have hleave := leave_plain hf hc hterm hF.run
    rw [hnext] at hleave
    exact Or.inl ⟨_, r, hleave,
      AtEntry.of_fall hf hc hnb (hnf.trans hpc.symm) hF.rep hF.world hF.view,
      ht.trans (targetAfter_of_plain hp).symm, takesNarrow_of_plain hp⟩
  · obtain ⟨r, idx, hF, hj, her, hden⟩ := Call.finish_jump hops hent htrace hin₁ hend hi hst hheight
    have hop := jumpOperand_eq hcb hin₁ (carriesDest_of_jump hf hc hj)
    exact stepsTo_of_jump hf hd hF hden hst (Or.inl hi) (takesJump_jump hi) hop
      (leave_jump hf hc hj hF.run her)
  · have hlen : st.length ≤ 511 := by
      rcases hx with ⟨-, -, rfl⟩ | ⟨-, rfl⟩
      · exact hheight
      · exact hheight
    obtain ⟨r, idx, rawCond, hF, hj, her, hden, hcond⟩ := Call.finish_jumpi hops hent htrace hin₁
      hend hi hst hlen
    obtain ⟨hjump, hfall⟩ := leave_jumpi hf hc hj hF.run her
    have hop := jumpOperand_eq hcb hin₁ (carriesDest_of_jumpi hf hc hj)
    rcases hx with ⟨hne, hd, rfl⟩ | ⟨rfl, rfl⟩
    · exact stepsTo_of_jump hf hd hF hden hst (Or.inr hi) (takesJump_jumpi hi hst hne) hop
        (hjump (hcond ▸ hne))
    · obtain ⟨hnext, nb, hnb, hnf⟩ := next_block_of_start hcb hin₁ (by rw [hi]; rfl) hend hs
      have hleave := hfall hcond
      rw [hnext] at hleave
      exact Or.inl ⟨_, _, hleave,
        AtEntry.of_fall hf hc hnb hnf (hF.rep.congr rfl rfl) hF.world hF.view,
        (targetAfter_of_jump (Or.inr hi) hop hst hden).symm, takesNarrow_of_fall hi hst⟩

/-- **One block of the run**: either the emitted code enters the block the EVM enters, with the
relation kept, or it stops at a jump to a narrow constant. -/
theorem AtEntry.step (hops : SameOps ops env) (hf : FunctionSpec env code.bytes calls)
    (hat : AtEntry code.bytes calls i s e) (hrun : BlockRun ops code.bytes e e')
    (hs : BlockStart code.bytes e'.pc) : ∃ e₁, StepsTo ops env code.bytes calls i s e₁ e' := by
  obtain ⟨c, hc, rfl, hcb, hpc, hin, hent⟩ := hat.entered hf
  obtain ⟨e₁, htrace, hin₁, hstep, hend⟩ := hrun.trace code.ne hcb hin (Or.inl hs)
  have hlen := htrace.inputs_le (blockTable_good code.ne hcb) hpc hend hstep.height.1
  exact ⟨e₁, (hent hlen).stepsTo hops hf hc htrace hin₁ hend hstep hrun.height_le hs⟩

end Step

/-! ## §3 — the run. -/

section Run

variable {code : Bytecode} {calls : List Call} {w : W}

/-- A run starts at the first block, on an empty stack. -/
theorem entryAt_zero {code : List Byte} (hf : FunctionSpec env code calls) :
    entryAt ops (compileMain env code) w 0 = .ok (0, St.init w) := by
  have hentry : runBlock ops (compileMain env code) .entry (St.init w) = .ok (.code 0, St.init w) :=
    runBlock_ok hf.entry rfl rfl rfl
  simp only [entryAt, settle, hentry]

theorem atEntry_init (hf : FunctionSpec env code.bytes calls) :
    AtEntry code.bytes calls 0 (St.init w) ⟨0, [], w⟩ := by
  obtain ⟨b₀, rest, hcons, hfirst⟩ := (createBasicBlocks_loopSpec code.ne).head_live rfl
    (List.length_pos_iff.mpr code.ne)
  obtain ⟨bb, hbb, hs⟩ := (blockTable_edgeInv code.ne).getElem?_of_created
    (show (createBasicBlocks code.bytes)[0]? = some b₀ by rw [hcons]; rfl)
  obtain ⟨c, hc, hi⟩ := hf.all 0 (List.getElem?_eq_some_iff.mp hbb).1
  have heq : c.bb = bb := Option.some.inj ((hf.inv.block c hc).symm.trans (hi ▸ hbb))
  refine ⟨⟨Nat.zero_le _, rfl, fun j hj => absurd hj (Nat.not_lt_zero j)⟩, rfl, c, hc, hi, ?_, ?_⟩
  · rw [heq, BasicBlock.first_eq hs, hfirst]
  · -- no block stands in front of the first
    intro hm hp
    obtain ⟨-, d, -, -, hd⟩ := inherit_source code.ne hf hc hm hp
    omega

/-- **The relation holds at every entry.** An entry of the EVM is missing only behind a jump to a
narrow constant, which the emitted code takes for an invalid one. -/
theorem entry_atEntry (hops : SameOps ops env) (hf : FunctionSpec env code.bytes calls) {k : Nat}
    {e : EvmSt W} (he : Entry ops code.bytes w k e) :
    (∃ i s, entryAt ops (compileMain env code.bytes) w k = .ok (i, s) ∧
      AtEntry code.bytes calls i s e) ∨
    ((∃ w', entryAt ops (compileMain env code.bytes) w k = .error (.outcome (.revert []) w')) ∧
      ∃ b ∈ compileMain env code.bytes, ¬ b.WideDest) := by
  induction he with
  | start => exact Or.inl ⟨0, St.init w, entryAt_zero hf, atEntry_init hf⟩
  | @next k e e' _ hrun hstart ih =>
    rcases ih with ⟨i, s, hk, hat⟩ | ⟨⟨w', hk⟩, hnarrow⟩
    · simp only [entryAt, hk]
      obtain ⟨e₁, ⟨j, s', hj, hat', -⟩ | ⟨hrev, hnarrow⟩⟩ := hat.step hops hf hrun hstart
      · exact Or.inl ⟨j, s', step_of_leave hj, hat'⟩
      · exact Or.inr ⟨⟨_, hrev⟩, not_wideDest_of_takesNarrow hnarrow⟩
    · simp only [entryAt, hk]
      exact Or.inr ⟨⟨w', rfl⟩, hnarrow⟩

/-- The same, for an entry that the emitted code makes. -/
theorem atEntry_of_entryAt (hops : SameOps ops env) (hf : FunctionSpec env code.bytes calls)
    {k i : Nat} {e : EvmSt W} {s : St W} (he : Entry ops code.bytes w k e)
    (hk : entryAt ops (compileMain env code.bytes) w k = .ok (i, s)) :
    AtEntry code.bytes calls i s e := by
  rcases entry_atEntry hops hf he with ⟨i', s', hk', hat⟩ | ⟨⟨w', hk'⟩, -⟩
  · rw [hk'] at hk
    cases hk
    exact hat
  · rw [hk'] at hk
    cases hk

/-- `mstk[1..spPtr]`, read from the bottom. -/
theorem RepStack.bottom_up {s : St W} {st : List Word} (h : RepStack s st) {j : Nat}
    (hj : j < st.reverse.length) : s.mstk (j + 1) = st.reverse[j] := by
  have hj' : j < st.length := by rwa [List.length_reverse] at hj
  rw [List.getElem_reverse, ← h.slots (st.length - 1 - j) (by omega)]
  congr 1
  omega

end Run

/-- **Operand-stack refinement over whole runs.** Take any bytecode and any EVM run of it that never
underflows and never holds more than 511 words, and give the non-stack opcodes one meaning on both
sides. Whenever the emitted code enters its `k`-th basic block, the EVM is at its `k`-th entry of
the same block, the worlds agree, `spPtr` is the height of the EVM's stack and `mstk[1..h]` is the
stack from bottom to top. The emitted code makes every entry the EVM makes, except behind a jump
whose destination is a constant of less than 256 bits. -/
theorem operand_stack_refinement (ops : Ops W) (env : CompileEnv) (hops : SameOps ops env)
    (code : Bytecode) (w : W) (k : Nat) (e : EvmSt W) (he : Entry ops code.bytes w k e) :
    (∀ i s, entryAt ops (compileMain env code.bytes) w k = .ok (i, s) →
      (∃ bb, (createBasicBlocks code.bytes)[i]? = some bb ∧ bb.firstInstrIdx = e.pc) ∧
      s.world = e.world ∧ s.sp = BitVec.ofNat 256 e.stack.length ∧
      ∀ (j : Nat) (hj : j < e.stack.reverse.length), s.mstk (j + 1) = e.stack.reverse[j]) ∧
    ((∀ b ∈ compileMain env code.bytes, b.WideDest) →
      ∃ i s, entryAt ops (compileMain env code.bytes) w k = .ok (i, s)) := by
  obtain ⟨calls, hf⟩ := compileMain_spec env code.ne
  constructor
  · intro i s h
    have hat := atEntry_of_entryAt hops hf he h
    obtain ⟨c, hc, rfl, hfirst, -⟩ := hat.call
    obtain ⟨bb, hbb, hs⟩ := (blockTable_edgeInv code.ne).getElem? (hf.inv.block c hc)
    exact ⟨⟨bb, hbb, (BasicBlock.first_eq hs).symm.trans hfirst⟩, hat.world, hat.rep.sp,
      fun j hj => hat.rep.bottom_up hj⟩
  · intro hwide
    rcases entry_atEntry hops hf he with ⟨i, s, hk, -⟩ | ⟨-, b, hb, hnarrow⟩
    · exact ⟨i, s, hk⟩
    · exact absurd (hwide b hb) hnarrow

/-! A run of `PUSH1 7; PUSH1 5; JUMP; JUMPDEST`. -/

/-- Opcodes without a world: `CODESIZE` as the translator has it, all others push 0. -/
def trivialOps (code : List Byte) : Ops Unit where
  exec := fun op _ w =>
    some (if op = .CODESIZE then BitVec.ofNat 256 (code.length % 2 ^ 32) else 0, w)
  output := fun _ _ size => List.replicate (size.toNat % 2 ^ 32) 0
  length_output := fun _ _ _ => List.length_replicate

theorem sameOps_trivial (code : List Byte) : SameOps (trivialOps code) (plainEnv code) where
  fold := fun h => nomatch h
  codeSize := fun _ => rfl

def pushJump : Bytecode where
  bytes := [0x60, 0x07, 0x60, 0x05, 0x56, 0x5b]
  ne := by simp
  lt := by decide

theorem operand_stack_refinement_pushJump :
    Entry (trivialOps pushJump.bytes) pushJump.bytes () 1 ⟨5, [7], ()⟩ ∧
    ∃ i s, entryAt (trivialOps pushJump.bytes)
        (compileMain (plainEnv pushJump.bytes) pushJump.bytes) () 1 = .ok (i, s) ∧
      s.sp = 1 ∧ s.mstk 1 = 7 := by
  have hentry : Entry (trivialOps pushJump.bytes) pushJump.bytes () 1 ⟨5, [7], ()⟩ := by
    have h₁ : EvmStep (trivialOps pushJump.bytes) pushJump.bytes ⟨0, [], ()⟩ ⟨2, [7], ()⟩ :=
      ⟨rfl, by decide⟩
    have h₂ : EvmStep (trivialOps pushJump.bytes) pushJump.bytes ⟨2, [7], ()⟩ ⟨4, [5, 7], ()⟩ :=
      ⟨rfl, by decide⟩
    have h₃ : EvmStep (trivialOps pushJump.bytes) pushJump.bytes ⟨4, [5, 7], ()⟩ ⟨5, [7], ()⟩ :=
      ⟨rfl, by decide⟩
    exact .next .start (.cons h₁ (by unfold BlockStart; decide)
      (.cons h₂ (by unfold BlockStart; decide) (.last h₃))) (by unfold BlockStart; decide)
  obtain ⟨hrel, hok⟩ := operand_stack_refinement (trivialOps pushJump.bytes)
    (plainEnv pushJump.bytes) (sameOps_trivial _) pushJump () 1 ⟨5, [7], ()⟩ hentry
  obtain ⟨i, s, h⟩ := hok (by decide +kernel)
  obtain ⟨-, -, hsp, hslots⟩ := hrel i s h
  exact ⟨hentry, i, s, h, hsp, hslots 0 (by decide)⟩

end EvmTrans
