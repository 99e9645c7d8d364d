/-
# `EvmTrans.ControlFlow` — jumps and the end of the code, over whole runs.

§1 is jump resolution: the table, a jump seen from an arbitrary machine state, and a jump of an EVM
run. The two routes — a rewritten branch, or `target` and the `switch` — are one statement, because
`leave` looks through the table. They agree but for one kind of operand: `findCaseValue` compares
pointers to `ConstantInt`s, so a constant of less than 256 bits is never found, and its jump goes to
`Abort`.

§2 is the end of the code, up to the dispatch. The helper blocks stand behind the code blocks in the
order `Test`, `JumpTable`, `Abort`, `Exit`, and `resolveJumps` lets the last code block fall into
`Test` and `Test` into `JumpTable`. A run that executes past its last instruction is STOP for the
EVM; the emitted code dispatches on whatever `target` holds. `EvmTrans.RunOffEnd` follows it from
there.
-/
import EvmTrans.StackRefinement

namespace EvmTrans

variable {W : Type} {ops : Ops W} {env : CompileEnv}

/-! ## §1 — jump resolution. -/

/-- Control leaves block `i` by a jump with the operand `idx`, and goes where a jump to `d` belongs
exactly when the operand is computed or a 256-bit constant, or `d` is no destination. A narrower
constant goes to `Abort`. -/
def JumpsTo (ops : Ops W) (env : CompileEnv) (code : List Byte) (i : Nat) (s : St W) (idx : Value)
    (d : Word) : Prop :=
  ∃ l s', leave ops (compileMain env code) i s = .ok (l, s') ∧
    (TransfersTo code d l ↔ idx.Wide ∨ isJumpDest code d.toNat = false) ∧ (¬ idx.Wide → l = .abort)

/-- Control leaves block `i` for the next block, and that starts at `pc`. -/
def FallsTo (ops : Ops W) (env : CompileEnv) (code : List Byte) (i : Nat) (s : St W) (pc : Nat) :
    Prop :=
  ∃ s' nb, leave ops (compileMain env code) i s = .ok (.code (i + 1), s') ∧
    (createBasicBlocks code)[i + 1]? = some nb ∧ nb.firstInstrIdx = pc

section Jumps

variable {code : Bytecode} {calls : List Call} {i t : Nat} {bb : BasicBlock}

theorem jumpsTo_of_leave {code : List Byte} {s s' : St W} {idx : Value} {d : Word} {l : Label}
    (hleave : leave ops (compileMain env code) i s = .ok (l, s'))
    (hto : idx.Wide → TransfersTo code d l) (hab : ¬ idx.Wide → l = .abort) :
    JumpsTo ops env code i s idx d := by
  refine ⟨l, s', hleave, ?_, hab⟩
  by_cases hw : idx.Wide
  · exact iff_of_true (hto hw) (Or.inl hw)
  · rw [hab hw]
    constructor
    · rintro (⟨-, j, b, -, -, hl⟩ | ⟨hno, -⟩)
      · cases hl
      · exact Or.inr hno
    · intro h
      exact Or.inr ⟨h.resolve_left hw, rfl⟩

/-- The successor of a `JUMPI` that is not the last instruction of the code. -/
theorem fallsTo_of_leave (hbb : (blockTable code.bytes)[i]? = some bb)
    (hin : InBlock code.bytes bb t) (hj : instAt code.bytes t = .JUMPI)
    (hlt : t + 1 < code.bytes.length) {s s' : St W}
    (h : leave ops (compileMain env code.bytes) i s =
      .ok (nextNode (blockTable code.bytes).length i, s')) :
    FallsTo ops env code.bytes i s (t + 1) := by
  have hone : instrEnd code.bytes t = t + 1 := instrEnd_of_ne_push (by simp [hj])
  have hend : instrEnd code.bytes t = bb.endIdx :=
    (blockTable_good code.ne hbb).ends_last t hin.boundary hin.first_le hin.lt_end (by rw [hj]; rfl)
  rcases next_block code.ne hbb hin (by rw [hj]; rfl) hend.ge with ⟨hlast, -⟩ | ⟨nb, hnb, hfirst⟩
  · omega
  · have hnext : nextNode (blockTable code.bytes).length i = .code (i + 1) :=
      if_pos (List.getElem?_eq_some_iff.mp hnb).1
    obtain ⟨b₀, hb₀, hs⟩ := (blockTable_edgeInv code.ne).getElem? hnb
    refine ⟨s', b₀, hnext ▸ h, hb₀, ?_⟩
    rw [← BasicBlock.first_eq hs, hfirst, ← hend, hone]

/-- **A `JUMP`, from any state.** -/
theorem jumpsTo_of_run (ops : Ops W) (env : CompileEnv)
    (hbb : (blockTable code.bytes)[i]? = some bb) (hin : InBlock code.bytes bb t)
    (hplain : ∀ u, Boundary code.bytes u → bb.firstInstrIdx ≤ u → u < t →
      (instAt code.bytes u).plain = true) (hj : instAt code.bytes t = .JUMP) :
    ∃ blk idx, (compileMain env code.bytes).find? (fun b => b.label == .code i) = some blk ∧
      blk.term.bind Term.destIdx = some idx ∧ ∀ s s' : St W, execAll ops blk.code s = .ok s' →
        JumpsTo ops env code.bytes i s idx (idx.denote s'.env) := by
  obtain ⟨calls, hf⟩ := compileMain_spec env code.ne
  obtain ⟨c, hc, rfl⟩ := hf.all i (List.getElem?_eq_some_iff.mp hbb).1
  obtain rfl : c.bb = bb := Option.some.inj ((hf.inv.block c hc).symm.trans hbb)
  obtain ⟨idx, hends⟩ : ∃ idx, EndsInJump (c.final env code.bytes (blockTable code.bytes)) idx :=
    spill_jump (blockTable_good code.ne hbb) (Call.start_open (hf.inv.source c hc).2) hin.boundary
      hin.first_le hin.lt_end hj hplain
  obtain ⟨hterm, pre, post, n, hq, hb, -, hcode⟩ := resolve_jump (jumpCases env code.bytes)
    (nextNode (blockTable code.bytes).length c.i) c.i hends
  refine ⟨_, idx, hf.block c hc, by rw [hterm]; rfl, fun s s' hrun => ?_⟩
  obtain ⟨l, s'', hleave, -, hto, hab⟩ := leave_jumpLabel hf
    (runBlock_ok (hf.block c hc) hrun hterm rfl) fun w r hreg => by
      subst hreg
      rw [hcode] at hrun
      exact target_of_store hq hb hrun
  exact jumpsTo_of_leave hleave hto hab

/-- **A `JUMPI`, from any state**; `rawCond` is the operand that the emitted block compares
with 0. -/
theorem jumpsTo_of_run_jumpi (ops : Ops W) (env : CompileEnv)
    (hbb : (blockTable code.bytes)[i]? = some bb) (hin : InBlock code.bytes bb t)
    (hplain : ∀ u, Boundary code.bytes u → bb.firstInstrIdx ≤ u → u < t →
      (instAt code.bytes u).plain = true) (hj : instAt code.bytes t = .JUMPI) :
    ∃ blk idx rawCond n, (compileMain env code.bytes).find? (fun b => b.label == .code i) =
      some blk ∧ blk.term.bind Term.destIdx = some idx ∧ .icmpNE n rawCond ∈ blk.code ∧
      (∃ l₁ l₂, blk.term = some (.condBr (.reg .i1 n) l₁ l₂ (some idx))) ∧
      ∀ s s' : St W, execAll ops blk.code s = .ok s' →
        (rawCond.denote s'.env ≠ 0 → JumpsTo ops env code.bytes i s idx (idx.denote s'.env)) ∧
        (rawCond.denote s'.env = 0 → t + 1 < code.bytes.length →
          FallsTo ops env code.bytes i s (t + 1)) := by
  obtain ⟨calls, hf⟩ := compileMain_spec env code.ne
  obtain ⟨c, hc, rfl⟩ := hf.all i (List.getElem?_eq_some_iff.mp hbb).1
  obtain rfl : c.bb = bb := Option.some.inj ((hf.inv.block c hc).symm.trans hbb)
  obtain ⟨idx, rawCond, hends⟩ : ∃ idx rawCond,
      EndsInJumpi (c.final env code.bytes (blockTable code.bytes))
        (nextNode (blockTable code.bytes).length c.i) idx rawCond :=
    spill_jumpi (blockTable_good code.ne hbb) (Call.start_open (hf.inv.source c hc).2) hin.boundary
      hin.first_le hin.lt_end hj hplain
  obtain ⟨pre, post, n, hterm, hq, hb, hbc, -, hcode⟩ := resolve_jumpi (jumpCases env code.bytes)
    (nextNode (blockTable code.bytes).length c.i) c.i hends
  refine ⟨_, idx, rawCond, n, hf.block c hc, by rw [hterm]; rfl, ?_, ⟨_, _, hterm⟩,
    fun s s' hrun => ?_⟩
  · rw [hcode]
    cases idx <;> simp
  have hcond : s'.env n ≠ 0 ↔ rawCond.denote s'.env ≠ 0 := by
    rw [hcode] at hrun
    cases idx with
    | const w v =>
      exact cond_of_icmpNE hq hbc (Or.inl hrun : _ ∨ execAll ops (pre ++
        .icmpNE n rawCond :: .store (.const w v) .target :: post) s = .ok s')
    | reg w r => exact cond_of_icmpNE hq hbc (Or.inr hrun)
  constructor
  · intro hne
    obtain ⟨l, s'', hleave, -, hto, hab⟩ :=
      leave_jumpLabel hf (runBlock_ok (hf.block c hc) hrun hterm
        (congrArg Except.ok (if_pos (hcond.mpr hne)))) fun w r hreg => by
          subst hreg
          rw [hcode] at hrun
          have happ : pre ++ .icmpNE n rawCond :: .store (.reg w r) .target :: post =
              (pre ++ [.icmpNE n rawCond]) ++ .store (.reg w r) .target :: post := by
            rw [List.append_assoc]
            rfl
          exact target_of_store hq (Value.below_mono hb (Nat.le_succ n)) (happ ▸ hrun)
    exact jumpsTo_of_leave hleave hto hab
  · intro hz hlt
    have hzero : ¬ s'.env n ≠ 0 := fun h => hcond.mp h hz
    refine fallsTo_of_leave hbb hin hj hlt (leave_of_ne (runBlock_ok (hf.block c hc) hrun hterm
      (congrArg Except.ok (if_neg hzero))) ?_)
    unfold nextNode
    split <;> exact Label.noConfusion

/-- A trace stays in its block. -/
theorem BlockTrace.inBlock {code : List Byte} {e e₁ : EvmSt W} (h : BlockTrace ops code bb e e₁)
    (hin : InBlock code bb e.pc) : InBlock code bb e₁.pc := by
  induction h with
  | refl => exact hin
  | step _ _ hin' _ ih => exact ih hin'

/-- The run of a block up to its closing instruction, seen from the call that compiled the block. -/
theorem AtEntry.entered_closing {s : St W} {e e₁ : EvmSt W} (hf : FunctionSpec env code.bytes calls)
    (hat : AtEntry code.bytes calls i s e) (hbb : (blockTable code.bytes)[i]? = some bb)
    (htrace : BlockTrace ops code.bytes bb e e₁)
    (hends : (instAt code.bytes e₁.pc).endsBlock = true)
    (hout : (instAt code.bytes e₁.pc).stkOut ≤ e₁.stack.length) :
    ∃ c ∈ calls, c.i = i ∧ c.bb = bb ∧ c.Entered code.bytes (blockTable code.bytes) s e ∧
      InBlock code.bytes bb e₁.pc ∧ bb.endIdx ≤ instrEnd code.bytes e₁.pc := by
  obtain ⟨c, hc, rfl, hcb, hpc, hin, hent⟩ := hat.entered hf
  obtain rfl : c.bb = bb := Option.some.inj (hcb.symm.trans hbb)
  have hg := blockTable_good code.ne hbb
  have hin₁ := htrace.inBlock hin
  have hend := hg.ends_last _ hin₁.boundary hin₁.first_le hin₁.lt_end hends
  exact ⟨c, hc, rfl, rfl, hent (htrace.inputs_le hg hpc hend.ge hout), hin₁, hend.ge⟩

/-- **A jump of an EVM run**: the emitted block jumps to the word on top of the EVM's stack. -/
theorem jumpsTo_of_entry (hops : SameOps ops env) {w : W} {k : Nat} {e e₁ : EvmSt W}
    (he : Entry ops code.bytes w k e) {s : St W}
    (hk : entryAt ops (compileMain env code.bytes) w k = .ok (i, s))
    (hbb : (blockTable code.bytes)[i]? = some bb) (htrace : BlockTrace ops code.bytes bb e e₁)
    {d : Word} {st : List Word} (hj : instAt code.bytes e₁.pc = .JUMP) (hs : e₁.stack = d :: st)
    (hlen : st.length ≤ 511) :
    ∃ idx, CarriesDest env code.bytes i idx ∧ JumpsTo ops env code.bytes i s idx d := by
  obtain ⟨calls, hf⟩ := compileMain_spec env code.ne
  have hat := atEntry_of_entryAt hops hf he hk
  obtain ⟨c, hc, rfl, rfl, hent, hin₁, hend⟩ := hat.entered_closing hf hbb htrace (by rw [hj]; rfl)
    (by rw [hj, hs]; exact Nat.le_add_left _ _)
  obtain ⟨r, idx, hF, hends, her, hden⟩ := Call.finish_jump hops hent htrace hin₁ hend hj hs hlen
  obtain ⟨l, s'', hleave, -, hto, hab⟩ := leave_jump hf hc hends hF.run her
  exact ⟨idx, carriesDest_of_jump hf hc hends, jumpsTo_of_leave hleave (hden ▸ hto) hab⟩

/-- **A conditional jump of an EVM run.** -/
theorem jumpsTo_of_entry_jumpi (hops : SameOps ops env) {w : W} {k : Nat} {e e₁ : EvmSt W}
    (he : Entry ops code.bytes w k e) {s : St W}
    (hk : entryAt ops (compileMain env code.bytes) w k = .ok (i, s))
    (hbb : (blockTable code.bytes)[i]? = some bb) (htrace : BlockTrace ops code.bytes bb e e₁)
    {d x : Word} {st : List Word} (hj : instAt code.bytes e₁.pc = .JUMPI)
    (hs : e₁.stack = d :: x :: st) (hlen : st.length ≤ 511) :
    ∃ idx, CarriesDest env code.bytes i idx ∧
      (x ≠ 0 → JumpsTo ops env code.bytes i s idx d) ∧
      (x = 0 → e₁.pc + 1 < code.bytes.length → FallsTo ops env code.bytes i s (e₁.pc + 1)) := by
  obtain ⟨calls, hf⟩ := compileMain_spec env code.ne
  have hat := atEntry_of_entryAt hops hf he hk
  obtain ⟨c, hc, rfl, rfl, hent, hin₁, hend⟩ := hat.entered_closing hf hbb htrace (by rw [hj]; rfl)
    (by rw [hj, hs]; exact Nat.le_add_left _ _)
  obtain ⟨r, idx, rawCond, hF, hends, her, hden, hcond⟩ := Call.finish_jumpi hops hent htrace hin₁
    hend hj hs hlen
  obtain ⟨hjump, hfall⟩ := leave_jumpi hf hc hends hF.run her
  refine ⟨idx, carriesDest_of_jumpi hf hc hends, fun hx => ?_, fun hx hlt => ?_⟩
  · obtain ⟨l, s'', hleave, -, hto, hab⟩ := hjump (hcond ▸ hx)
    exact jumpsTo_of_leave hleave (hden ▸ hto) hab
  · exact fallsTo_of_leave hbb hin₁ hj hlt (hfall (hcond.trans hx))

/-- **Jump resolution is exact but for narrow constants.** The switch of `JumpTable` has one case
for each offset that holds a `JUMPDEST` on an instruction boundary, and no other. From every state,
a block that ends in `JUMP`, or in `JUMPI` with a non-zero condition, transfers control to the block
at its destination word, or to `Abort` when that is no such offset, exactly when the operand is not
a constant of less than 256 bits or the word is no such offset; a narrow constant goes to `Abort`. A
`JUMPI` with condition zero that is not the last instruction of the code goes to the block at the
next instruction. In a run, destination and condition are the words on the EVM's stack. 256-bit
constants, placed by `resolveJumps`, and computed destinations, which travel through `target` and
the switch, are not told apart. -/
theorem jump_resolution_exact (env : CompileEnv) (code : Bytecode) :
    (∃ cases, (compileMain env code.bytes).find? (fun b => b.label == .jumpTable) =
        some ⟨.jumpTable, [.load 0 .target], some (.switch (.reg .i256 0) cases .abort)⟩ ∧
      (cases.map Prod.fst).Nodup ∧
      (∀ d : Word, d ∈ cases.map Prod.fst ↔ isJumpDest code.bytes d.toNat = true) ∧
      ∀ d l, (d, l) ∈ cases → TransfersTo code.bytes d l) ∧
    (∀ (W : Type) (ops : Ops W) (i t : Nat) (bb : BasicBlock),
      (blockTable code.bytes)[i]? = some bb → InBlock code.bytes bb t →
      (∀ u, Boundary code.bytes u → bb.firstInstrIdx ≤ u → u < t →
        (instAt code.bytes u).plain = true) →
      (instAt code.bytes t = .JUMP → ∃ blk idx,
        (compileMain env code.bytes).find? (fun b => b.label == .code i) = some blk ∧
        blk.term.bind Term.destIdx = some idx ∧ ∀ s s' : St W, execAll ops blk.code s = .ok s' →
          JumpsTo ops env code.bytes i s idx (idx.denote s'.env)) ∧
      (instAt code.bytes t = .JUMPI → ∃ blk idx rawCond n,
        (compileMain env code.bytes).find? (fun b => b.label == .code i) = some blk ∧
        blk.term.bind Term.destIdx = some idx ∧ .icmpNE n rawCond ∈ blk.code ∧
        (∃ l₁ l₂, blk.term = some (.condBr (.reg .i1 n) l₁ l₂ (some idx))) ∧
        ∀ s s' : St W, execAll ops blk.code s = .ok s' →
          (rawCond.denote s'.env ≠ 0 → JumpsTo ops env code.bytes i s idx (idx.denote s'.env)) ∧
          (rawCond.denote s'.env = 0 → t + 1 < code.bytes.length →
            FallsTo ops env code.bytes i s (t + 1)))) ∧
    (∀ (W : Type) (ops : Ops W), SameOps ops env → ∀ (w : W) (k i : Nat) (e e₁ : EvmSt W) (s : St W)
      (bb : BasicBlock), Entry ops code.bytes w k e →
      entryAt ops (compileMain env code.bytes) w k = .ok (i, s) →
      (blockTable code.bytes)[i]? = some bb → BlockTrace ops code.bytes bb e e₁ →
      (∀ d st, instAt code.bytes e₁.pc = .JUMP → e₁.stack = d :: st → st.length ≤ 511 →
        ∃ idx, CarriesDest env code.bytes i idx ∧ JumpsTo ops env code.bytes i s idx d) ∧
      (∀ d x st, instAt code.bytes e₁.pc = .JUMPI → e₁.stack = d :: x :: st → st.length ≤ 511 →
        ∃ idx, CarriesDest env code.bytes i idx ∧
          (x ≠ 0 → JumpsTo ops env code.bytes i s idx d) ∧
          (x = 0 → e₁.pc + 1 < code.bytes.length →
            FallsTo ops env code.bytes i s (e₁.pc + 1)))) := by
  obtain ⟨calls, hf⟩ := compileMain_spec env code.ne
  refine ⟨⟨_, hf.jumpTable, jumpCases_nodup env code, mem_jumpCases_fst env code,
    fun d l hmem => transfersTo_of_mem_jumpCases hmem⟩, ?_, ?_⟩
  · intro W ops i t bb hbb hin hplain
    exact ⟨jumpsTo_of_run ops env hbb hin hplain, jumpsTo_of_run_jumpi ops env hbb hin hplain⟩
  · intro W ops hops w k i e e₁ s bb he hk hbb htrace
    exact ⟨fun d st hj hs hlen => jumpsTo_of_entry hops he hk hbb htrace hj hs hlen,
      fun d x st hj hs hlen => jumpsTo_of_entry_jumpi hops he hk hbb htrace hj hs hlen⟩

end Jumps

/-- The destination of `pushJump` is a 256-bit constant. -/
theorem jump_resolution_exact_pushJump : ∃ l s',
    leave (trivialOps pushJump.bytes) (compileMain (plainEnv pushJump.bytes) pushJump.bytes) 0
      (St.init ()) = .ok (l, s') ∧ TransfersTo pushJump.bytes 5 l := by
  obtain ⟨-, -, hruns⟩ := jump_resolution_exact (plainEnv pushJump.bytes) pushJump
  obtain ⟨bb, hbb, hfirst, hend⟩ : ∃ bb, (blockTable pushJump.bytes)[0]? = some bb ∧
      bb.firstInstrIdx = 0 ∧ bb.endIdx = 5 := ⟨_, rfl, by decide, by decide⟩
  have h₂ : InBlock pushJump.bytes bb 2 := ⟨⟨by decide, 1, by decide⟩, by omega, by omega⟩
  have h₄ : InBlock pushJump.bytes bb 4 := ⟨⟨by decide, 2, by decide⟩, by omega, by omega⟩
  have htrace :
      BlockTrace (trivialOps pushJump.bytes) pushJump.bytes bb ⟨0, [], ()⟩ ⟨4, [5, 7], ()⟩ :=
    .step (evmStep_cases rfl) (by decide) h₂ (.step (evmStep_cases rfl) (by decide) h₄ .refl)
  obtain ⟨idx, ⟨blk, hblk, hterm⟩, l, s', hleave, hiff, -⟩ :=
    (hruns Unit (trivialOps pushJump.bytes) (sameOps_trivial _) () 0 0 ⟨0, [], ()⟩ ⟨4, [5, 7], ()⟩
      (St.init ()) bb .start rfl hbb htrace).1 5 [7] (by decide) rfl (by decide)
  have hwide : ∀ b ∈ compileMain (plainEnv pushJump.bytes) pushJump.bytes, b.WideDest := by
    decide +kernel
  exact ⟨l, s', hleave, hiff.mpr (Or.inl (hwide blk (List.mem_of_find?_eq_some hblk) idx hterm))⟩

/-- `JUMPDEST; CODESIZE; CODESIZE; SUB; JUMP`: the destination folds to an `i32` 0. -/
def sizeMinusSize : Bytecode where
  bytes := [0x5b, 0x38, 0x38, 0x03, 0x56]
  ne := by simp
  lt := by decide

/-- A folder that subtracts a constant from itself, as LLVM's does. -/
def cancelFold : Instruction → List Value → Option Value
  | .SUB, [.const w a, .const w' b] => if w = w' ∧ a = b then some (.const w 0) else none
  | _, _ => none

theorem cancelFold_eq {op : Instruction} {args : List Value} {v : Value}
    (h : cancelFold op args = some v) :
    ∃ w a, op = .SUB ∧ args = [.const w a, .const w a] ∧ v = .const w 0 := by
  unfold cancelFold at h
  split at h
  · obtain ⟨⟨rfl, rfl⟩, hv⟩ := Option.ite_none_right_eq_some.mp h
    exact ⟨_, _, rfl, rfl, (Option.some.inj hv).symm⟩
  · cases h

def cancelEnv : CompileEnv where
  bytecode := sizeMinusSize.bytes
  retPC := 0
  rtWasmCode := []
  fold := cancelFold
  fold_mem := fun h => by
    obtain ⟨w, a, -, -, rfl⟩ := cancelFold_eq h
    exact Or.inr ⟨w, 0, rfl⟩

/-- `trivialOps`, with subtraction. -/
def subOps : Ops Unit where
  exec := fun op args w =>
    match op, args with
    | .SUB, [a, b] => some (a - b, w)
    | op, args => (trivialOps sizeMinusSize.bytes).exec op args w
  output := (trivialOps sizeMinusSize.bytes).output
  length_output := (trivialOps sizeMinusSize.bytes).length_output

theorem sameOps_cancel : SameOps subOps cancelEnv where
  fold := fun h ρ w => by
    obtain ⟨ty, a, rfl, rfl, rfl⟩ := cancelFold_eq h
    exact congrArg (fun x => some (x, w)) (BitVec.sub_self a)
  codeSize := fun _ => rfl

/-- **A narrow constant is never found.** The EVM jumps to the `JUMPDEST` at 0, the emitted code to
`Abort`. -/
theorem sizeMinusSize_aborts :
    SameOps subOps cancelEnv ∧ isJumpDest sizeMinusSize.bytes 0 = true ∧
    Entry subOps sizeMinusSize.bytes () 1 ⟨0, [], ()⟩ ∧
    (∃ l s', leave subOps (compileMain cancelEnv sizeMinusSize.bytes) 0 (St.init ()) = .ok (l, s') ∧
      ¬ TransfersTo sizeMinusSize.bytes 0 l) ∧
    entryAt subOps (compileMain cancelEnv sizeMinusSize.bytes) () 1 =
      .error (.outcome (.revert []) ()) := by
  have hdest : isJumpDest sizeMinusSize.bytes 0 = true := by decide
  refine ⟨sameOps_cancel, hdest, ?_, ⟨.abort, _, by rfl, ?_⟩, by rfl⟩
  · have h₁ : EvmStep subOps sizeMinusSize.bytes ⟨0, [], ()⟩ ⟨1, [], ()⟩ := ⟨rfl, by decide⟩
    have h₂ : EvmStep subOps sizeMinusSize.bytes ⟨1, [], ()⟩ ⟨2, [5], ()⟩ := ⟨rfl, by decide⟩
    have h₃ : EvmStep subOps sizeMinusSize.bytes ⟨2, [5], ()⟩ ⟨3, [5, 5], ()⟩ := ⟨rfl, by decide⟩
    have h₄ : EvmStep subOps sizeMinusSize.bytes ⟨3, [5, 5], ()⟩ ⟨4, [0], ()⟩ := ⟨rfl, by decide⟩
    have h₅ : EvmStep subOps sizeMinusSize.bytes ⟨4, [0], ()⟩ ⟨0, [], ()⟩ := ⟨rfl, by decide⟩
    exact .next .start (.cons h₁ (by unfold BlockStart; decide)
      (.cons h₂ (by unfold BlockStart; decide) (.cons h₃ (by unfold BlockStart; decide)
        (.cons h₄ (by unfold BlockStart; decide) (.last h₅)))))
      (by unfold BlockStart; decide)
  · rintro (⟨-, i, bb, -, -, hl⟩ | ⟨hno, -⟩)
    · cases hl
    · rw [show ((0 : Word)).toNat = 0 from rfl, hdest] at hno
      cases hno

/-! ## §2 — running off the end. -/

section RunOff

variable {code : Bytecode} {calls : List Call} {i : Nat}

/-- `Test` falls into the table. -/
theorem step_of_leave_test_eq (hf : FunctionSpec env code.bytes calls) {s r : St W}
    (h : leave ops (compileMain env code.bytes) i s = .ok (.test, r)) :
    step ops (compileMain env code.bytes) i s = settle ops (compileMain env code.bytes) 2
      (caseSuccessor (jumpCases env code.bytes) .i256 r.target) (r.define 0 r.target) := by
  have htest : runBlock ops (compileMain env code.bytes) .test r = .ok (.jumpTable, r) :=
    runBlock_ok hf.test rfl rfl rfl
  have hrun : runBlock ops (compileMain env code.bytes) (.code i) s = .ok (.test, r) := by
    unfold leave at h
    split at h
    · rename_i s₁ hl
      -- the table never leads to `Test`
      rw [runBlock_jumpTable hf] at h
      have htr := caseSuccessor_transfersTo env code s₁.target
      rw [(Prod.mk.inj (Except.ok.inj h)).1] at htr
      rcases htr with ⟨-, j, bb, -, -, hl⟩ | ⟨-, hl⟩ <;> cases hl
    · exact h
  simp only [step, hrun, settle, htest, runBlock_jumpTable hf]

/-- The table has no case for what `target` holds. -/
theorem step_of_leave_test_abort (hf : FunctionSpec env code.bytes calls) {s r : St W}
    (h : leave ops (compileMain env code.bytes) i s = .ok (.test, r))
    (hno : isJumpDest code.bytes r.target.toNat = false) :
    step ops (compileMain env code.bytes) i s = .error (.outcome (.revert []) r.world) := by
  rw [step_of_leave_test_eq hf h]
  rcases caseSuccessor_transfersTo env code r.target with ⟨hd, -⟩ | ⟨-, hl⟩
  · rw [hno] at hd
    cases hd
  · simp only [hl, settle, runBlock_abort hf]
    rfl

/-- **`Test` is no exit**: where `target` holds a destination, the run goes on there. -/
theorem step_of_leave_test (hf : FunctionSpec env code.bytes calls) {s r : St W}
    (h : leave ops (compileMain env code.bytes) i s = .ok (.test, r))
    (hd : isJumpDest code.bytes r.target.toNat = true) {st : List Word} (hrep : RepStack r st) :
    ∃ j s', step ops (compileMain env code.bytes) i s = .ok (j, s') ∧
      AtEntry code.bytes calls j s' ⟨r.target.toNat, st, r.world⟩ ∧ s'.target = r.target := by
  have htr := caseSuccessor_transfersTo env code r.target
  obtain ⟨j, hl, hat⟩ : ∃ j, caseSuccessor (jumpCases env code.bytes) .i256 r.target = .code j ∧
      AtEntry code.bytes calls j (r.define 0 r.target) ⟨r.target.toNat, st, r.world⟩ :=
    AtEntry.of_jump hf htr hd rfl (hrep.congr rfl rfl) rfl
  refine ⟨j, _, ?_, hat, rfl⟩
  rw [step_of_leave_test_eq hf h, hl]
  rfl

/-- **From the entry of the last block over the end of the code**: the emitted code is in `Test`. -/
theorem Call.Entered.leave_test (hops : SameOps ops env) (hf : FunctionSpec env code.bytes calls)
    {c : Call} (hc : c ∈ calls) {s : St W} {e e₁ e' : EvmSt W}
    (hent : c.Entered code.bytes (blockTable code.bytes) s e)
    (htrace : BlockTrace ops code.bytes c.bb e e₁) (hin₁ : InBlock code.bytes c.bb e₁.pc)
    (hend : c.bb.endIdx ≤ instrEnd code.bytes e₁.pc) (hstep : StepCase ops code.bytes e₁ e')
    (hheight : e'.stack.length ≤ 511) (hoff : code.bytes.length ≤ e'.pc) :
    ∃ r, leave ops (compileMain env code.bytes) c.i s = .ok (.test, r) ∧ r.world = e'.world ∧
      RepStack r e'.stack ∧ r.target = targetAfter env code.bytes e₁ s.target ∧
      takesNarrow env code.bytes e₁ = false := by
  -- the block is the last one
  have hlast : (instAt code.bytes e₁.pc).kills = false → e'.pc = instrEnd code.bytes e₁.pc →
      nextNode (blockTable code.bytes).length c.i = .test := by
    intro hk hpc'
    rcases next_block code.ne (hf.inv.block c hc) hin₁ hk hend with ⟨-, hn⟩ | ⟨nb, hnb, hfirst⟩
    · exact if_neg (by omega)
    · have hboundary := (blockTable_good code.ne hnb).first_boundary
      rw [hfirst] at hboundary
      have := hin₁.boundary.instrEnd_le hboundary hin₁.lt_end
      have := hboundary.1
      omega
  have hvalid : ∀ {d : Nat}, isJumpDest code.bytes d = true → ¬ code.bytes.length ≤ d :=
    fun hd => Nat.not_le.mpr (isJumpDest_iff.mp hd).1.1
  rcases hstep.exits with ⟨hp, hpc'⟩ | ⟨d, st, hi, hst, hd, rfl⟩ | ⟨d, x, st, hi, hst, hx⟩
  · obtain ⟨r, hF, hterm, ht⟩ := Call.finish_plain hops hent htrace hin₁ hend hstep hp hheight
    exact ⟨r, hlast (kills_of_plain hp) hpc' ▸ leave_plain hf hc hterm hF.run, hF.world, hF.rep,
      ht.trans (targetAfter_of_plain hp).symm, takesNarrow_of_plain hp⟩
  · exact absurd hoff (hvalid hd)
  · rcases hx with ⟨-, hd, rfl⟩ | ⟨rfl, rfl⟩
    · exact absurd hoff (hvalid hd)
    · obtain ⟨r, idx, rawCond, hF, hj, her, hden, hcond⟩ := Call.finish_jumpi hops hent htrace hin₁
        hend hi hst hheight
      have hop := jumpOperand_eq (hf.inv.block c hc) hin₁ (carriesDest_of_jumpi hf hc hj)
      have hleave := (leave_jumpi hf hc hj hF.run her).2 hcond
      rw [hlast (by rw [hi]; rfl) rfl] at hleave
      exact ⟨_, hleave, hF.world, hF.rep.congr rfl rfl,
        (targetAfter_of_jump (Or.inr hi) hop hst hden).symm, takesNarrow_of_fall hi hst⟩

end RunOff

end EvmTrans
