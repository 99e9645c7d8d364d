/-
# `EvmTrans.BlockHalts` — blocks that a run does not leave for another one.

A run may come to its end inside a block: at `STOP`, at a call that hands a result to the host, at
an undefined opcode, at a jump without a destination, or at an opcode that fails. What the emitted
code still does there depends on where the compiler put the spill. It stands behind the whole body,
in front of the terminator, so it runs behind `STOP` and behind an undefined opcode but not behind
`RETURN`, `REVERT`, `SUICIDE` or an opcode that traps.

In the last case the rest of the block is dead code. §1 says that it was only appended, so that what
runs is the code in front of it; `resolveJumps` may still have erased a store from it.
-/
import EvmTrans.ControlFlow

namespace EvmTrans

/-! ## §1 — code only grows. -/

/-- `b'` is `b` with more code, none of which reads `target`. -/
def Builder.Grows (b b' : Builder) : Prop :=
  ∃ is, b'.code = b.code ++ is ∧ ∀ x ∈ is, x.loadsTarget = false

section Grows

variable {b b' b'' : Builder} {env : CompileEnv} {code : List Byte} {bb : BasicBlock} {i : Nat}
  {next : Label}

theorem Builder.Grows.of_code_eq (h : b'.code = b.code) : b.Grows b' :=
  ⟨[], by rw [h, List.append_nil], by simp⟩

theorem Builder.Grows.trans (h₁ : b.Grows b') (h₂ : b'.Grows b'') : b.Grows b'' := by
  obtain ⟨is₁, hc₁, hl₁⟩ := h₁
  obtain ⟨is₂, hc₂, hl₂⟩ := h₂
  refine ⟨is₁ ++ is₂, by rw [hc₂, hc₁, List.append_assoc], fun x hx => ?_⟩
  rcases List.mem_append.mp hx with hx | hx
  · exact hl₁ x hx
  · exact hl₂ x hx

theorem Builder.Quiet.grows (h : b.Quiet b') : b.Grows b' := by
  obtain ⟨is, hc, hq⟩ := h.code
  exact ⟨is, hc, fun x hx => (hq x hx).loads⟩

/-- A pop from memory reads `spPtr` and a slot. -/
theorem pop_mem_grows (h : b.enableRegs = false) : b.Grows (GlobalStack.pop b).2 := by
  refine ⟨[.load b.next .spPtr, .load (b.next + 1) (.mstk (.reg .i256 b.next)),
    .load (b.next + 2) .spPtr, .sub (b.next + 3) (.reg .i256 (b.next + 2)) (constWord 1),
    .store (.reg .i256 (b.next + 3)) .spPtr], ?_, by simp [Instr.loadsTarget]⟩
  show ((if b.enableRegs = true then _ else _ : Build Value) b).2.code = _
  rw [if_neg (by rw [h]; exact Bool.false_ne_true)]
  show ((((b.code ++ [_]) ++ [_]) ++ [_]) ++ [_]) ++ [_] = _
  simp only [List.append_assoc, List.cons_append, List.nil_append]

theorem popCallsN_mem_grows : ∀ (n : Nat) {b : Builder}, b.enableRegs = false →
    b.Grows (popCallsN n b).2 := by
  intro n
  induction n with
  | zero => exact fun _ => .of_code_eq rfl
  | succ n ih =>
    intro b h
    have hu := (pop_mem_static h).2.2
    exact (pop_mem_grows h).trans (ih (b := (GlobalStack.pop b).2) (hu.enableRegs.trans h))

theorem queuedInputs_grows (inherit : Bool) (stkIn : Nat) (pstack : List Value) :
    b.Grows (queuedInputs inherit stkIn pstack b).2 := by
  unfold queuedInputs
  split
  · have hlower :
        b.Grows { (lowerSp (pstack.take stkIn).length b).2 with enableRegs := false } := by
      refine ⟨[.load b.next .spPtr, .sub (b.next + 1) (.reg .i256 b.next)
        (constWord (pstack.take stkIn).length), .store (.reg .i256 (b.next + 1)) .spPtr], ?_,
        by simp [Instr.loadsTarget]⟩
      show ((b.code ++ [_]) ++ [_]) ++ [_] = _
      simp only [List.append_assoc, List.cons_append, List.nil_append]
    exact hlower.trans (popCallsN_mem_grows (stkIn - (pstack.take stkIn).length) rfl)
  · exact (Builder.Grows.of_code_eq rfl).trans
      (popCallsN_mem_grows stkIn (b := { b with enableRegs := false }) rfl)

/-- The loop over the rest of a block. -/
theorem compileBasicBlockLoop_grows : ∀ (fuel it : Nat) {b : Builder}, b.enableRegs = true →
    b.Grows (compileBasicBlockLoop env code bb i next fuel it b).2 := by
  intro fuel
  induction fuel with
  | zero => exact fun _ _ _ => .of_code_eq rfl
  | succ fuel ih =>
    intro it b h
    by_cases heq : it = bb.endIdx
    · rw [heq, compileBasicBlockLoop_end]
      exact .of_code_eq rfl
    · by_cases hpush : ∃ n, instAt code it = .PUSH n
      · obtain ⟨n, hn⟩ := hpush
        unfold compileBasicBlockLoop
        rw [if_neg heq, hn]
        show b.Grows (compileBasicBlockLoop env code bb i next fuel _ (GlobalStack.push _ b).2).2
        rw [push_regs h]
        exact (Builder.Grows.of_code_eq rfl).trans (ih _ (b := { b with locals := _ }) h)
      · have hpush : ∀ n, instAt code it ≠ .PUSH n := fun n hn => hpush ⟨n, hn⟩
        by_cases hund : ∃ x, instAt code it = .UNDEFINED x
        · obtain ⟨x, hx⟩ := hund
          unfold compileBasicBlockLoop
          rw [if_neg heq, hx]
          exact .of_code_eq rfl
        · rw [compileBasicBlockLoop_inst heq hpush fun x hx => hund ⟨x, hx⟩]
          have he := compileInst_effect env bb i next h it (instAt code it)
          have hgrows : b.Grows (compileInst env bb i next it (instAt code it) b).2 := he.code
          exact hgrows.trans (ih _ he.regs)

/-- No block reads `target`: only `JumpTable` does. -/
theorem Call.final_loads (env : CompileEnv) (code : List Byte) (bs : List BasicBlock) (c : Call) :
    ∀ x ∈ (c.final env code bs).code, x.loadsTarget = false := by
  have hin : (Builder.empty c.next c.cases).Grows
      (bodyStart (c.inputs code bs).1 (c.inputs code bs).2) :=
    (queuedInputs_grows _ _ _).trans (.of_code_eq rfl)
  have hbody :
      (bodyStart (c.inputs code bs).1 (c.inputs code bs).2).Grows (c.bodyEnd env code bs) :=
    compileBasicBlockLoop_grows _ _ rfl
  obtain ⟨is, hcode, hl⟩ := (hin.trans hbody).trans (spill_quiet (c.bodyEnd env code bs)).grows
  intro x hx
  have hcode : (c.final env code bs).code = [] ++ is := hcode
  rw [hcode] at hx
  exact hl x hx

end Grows

/-! ## §2 — an error is an error without the erased store. -/

section Erase

variable {W : Type} {ops : Ops W}

variable (ops) in
/-- An instruction that does not read `target` does the same whatever `target` holds. -/
theorem execInstr_anyTarget {x : Instr} (hl : x.loadsTarget = false) (s : St W) (t : Word) :
    (∃ s' t', execInstr ops x s = .ok s' ∧
      execInstr ops x { s with target := t } = .ok { s' with target := t' }) ∨
    ∃ e, execInstr ops x s = .error e ∧ execInstr ops x { s with target := t } = .error e := by
  cases x with
  | load d p =>
    have hp : p ≠ .target := by
      rintro rfl
      cases hl
    simp only [execInstr, read_retarget hp]
    cases s.read p with
    | error e => exact Or.inr ⟨e, rfl, rfl⟩
    | ok v => exact Or.inl ⟨_, t, rfl, rfl⟩
  | store v p =>
    cases p with
    | target => exact Or.inl ⟨_, v.denote s.env, rfl, rfl⟩
    | spPtr => exact Or.inl ⟨_, t, rfl, rfl⟩
    | mstk idx =>
      simp only [execInstr, St.write]
      split
      · exact Or.inl ⟨_, t, rfl, rfl⟩
      · exact Or.inr ⟨_, rfl, rfl⟩
  | opcode d op args =>
    simp only [execInstr]
    cases ops.exec op (args.map (Value.denote s.env)) s.world with
    | none => exact Or.inr ⟨_, rfl, rfl⟩
    | some r => exact Or.inl ⟨_, t, rfl, rfl⟩
  | add d a b => exact Or.inl ⟨_, t, rfl, rfl⟩
  | sub d a b => exact Or.inl ⟨_, t, rfl, rfl⟩
  | zext d v => exact Or.inl ⟨_, t, rfl, rfl⟩
  | icmpNE d v => exact Or.inl ⟨_, t, rfl, rfl⟩
  | _ => exact Or.inr ⟨_, rfl, rfl⟩

theorem execAll_error_anyTarget {x : Stop W} : ∀ {is : List Instr} {s : St W},
    (∀ y ∈ is, y.loadsTarget = false) → execAll ops is s = .error x → ∀ t,
    execAll ops is { s with target := t } = .error x := by
  intro is
  induction is with
  | nil => intro s _ h; cases h
  | cons y is ih =>
    intro s hl h t
    unfold execAll at h ⊢
    rcases execInstr_anyTarget ops (hl y List.mem_cons_self) s t with
      ⟨s', t', h₁, h₂⟩ | ⟨e, h₁, h₂⟩
    · rw [h₁] at h
      rw [h₂]
      exact ih (fun z hz => hl z (List.mem_cons_of_mem _ hz)) h t'
    · rw [h₁] at h
      rw [h₂]
      exact h

theorem execAll_append_error {xs ys : List Instr} {s : St W} {x : Stop W}
    (h : execAll ops xs s = .error x) : execAll ops (xs ++ ys) s = .error x := by
  rw [execAll_append, h]

theorem execAll_error_erase {is : List Instr} (hl : ∀ y ∈ is, y.loadsTarget = false) {s : St W}
    {x : Stop W} (h : execAll ops is s = .error x) :
    execAll ops (eraseTargetStore is) s = .error x := by
  rcases eraseTargetStore_split is with hself | ⟨pre, post, idx, his, herase⟩
  · rw [hself]
    exact h
  · have hpost : ∀ y ∈ post, y.loadsTarget = false := fun y hy =>
      hl y (by rw [his]; exact List.mem_append_right _ (List.mem_cons_of_mem _ hy))
    rw [his, execAll_append] at h
    rw [herase, execAll_append]
    cases hpre : execAll ops pre s with
    | error e =>
      rw [hpre] at h
      exact h
    | ok s₁ =>
      rw [hpre] at h
      have h : execAll ops post { s₁ with target := idx.denote s₁.env } = .error x := h
      exact execAll_error_anyTarget hpost h s₁.target

/-- **A block that stops in its code** stops there with or without the store to `target`. -/
theorem resolved_error {env : CompileEnv} {code : List Byte} {c : Call} {s : St W} {x : Stop W}
    (h : execAll ops (c.final env code (blockTable code)).code s = .error x) :
    execAll ops (resolveBlock (jumpCases env code) (nextNode (blockTable code).length c.i)
      ((c.final env code (blockTable code)).block c.i)).code s = .error x := by
  rcases resolveBlock_code (jumpCases env code) (nextNode (blockTable code).length c.i)
    ((c.final env code (blockTable code)).block c.i) with hcode | hcode
  · rw [hcode]
    exact h
  · rw [hcode]
    exact execAll_error_erase (Call.final_loads env code (blockTable code) c) h

theorem step_of_error {env : CompileEnv} {code : List Byte} {calls : List Call}
    (hf : FunctionSpec env code calls) {c : Call} (hc : c ∈ calls) {s : St W} {x : Stop W}
    (h : execAll ops (c.final env code (blockTable code)).code s = .error x) :
    step ops (compileMain env code) c.i s = .error x := by
  simp only [step, runBlock, hf.block c hc, resolved_error h]

end Erase

/-! ## §3 — the ends of a run inside a block. -/

section Ends

variable {W : Type} {ops : Ops W} {env : CompileEnv} {code : List Byte} {calls : List Call}
  {c : Call} {s s' : St W} {e e₁ : EvmSt W} {b' : Builder} {rest : List Word}

/-- A block whose terminator is not a jump is emitted as it stands. -/
theorem runBlock_of_term (hf : FunctionSpec env code calls) (hc : c ∈ calls) {t : Term}
    (hterm : (c.final env code (blockTable code)).term = some t)
    (ht : t = .br .exit none ∨ t = .unreachable) {sF : St W}
    (hrun : execAll ops (c.final env code (blockTable code)).code s = .ok sF) :
    runBlock ops (compileMain env code) (.code c.i) s = (execTerm t sF).map fun l => (l, sF) := by
  have hres : resolveBlock (jumpCases env code) (nextNode (blockTable code).length c.i)
      ((c.final env code (blockTable code)).block c.i) =
        (c.final env code (blockTable code)).block c.i := by
    rcases ht with rfl | rfl
    · simp only [resolveBlock, Builder.block, hterm]
    · simp only [resolveBlock, Builder.block, hterm]
  have hblock := hf.block c hc
  rw [hres] at hblock
  simp only [runBlock, hblock, Builder.block, hrun, hterm]
  rcases ht with rfl | rfl
  · simp only [execTerm, Except.map]
  · simp only [execTerm, Except.map]

/-- `Exit` ends the run, with empty output. -/
theorem step_of_exit (hf : FunctionSpec env code calls) {i : Nat} {sF : St W}
    (h : runBlock ops (compileMain env code) (.code i) s = .ok (.exit, sF)) :
    step ops (compileMain env code) i s = .error (.outcome (.finish []) sF.world) := by
  have hexit : runBlock ops (compileMain env code) .exit sF =
      .error (.outcome (.finish []) sF.world) := by
    have hout :
        ops.output sF.world ((constWord 0).denote sF.env) ((constWord 0).denote sF.env) = [] :=
      output_zero ops sF.world
    simp only [runBlock, hf.exit, execAll, execInstr, hout]
  simp only [step, h, settle, hexit]

/-- A run that the emitted code ends, by an outcome or a trap. -/
def EndsRun (ops : Ops W) (env : CompileEnv) (code : List Byte) (i : Nat) (s : St W) : Prop :=
  ∃ x, step ops (compileMain env code) i s = .error x ∧ x ≠ .undefined

/-- The body, the spill and the terminator behind it. -/
theorem Reached.runBlock_term (hr : Reached ops code s e₁ b' s' rest)
    (hf : FunctionSpec env code calls) (hc : c ∈ calls) {t : Term}
    (hbody : c.bodyEnd env code (blockTable code) = { b' with term := some t })
    (ht : t = .br .exit none ∨ t = .unreachable) (hlen : e₁.stack.length ≤ 511) :
    ∃ sF, runBlock ops (compileMain env code) (.code c.i) s =
      (execTerm t sF).map (fun l => (l, sF)) ∧ sF.world = e₁.world := by
  obtain ⟨sF, hF, -⟩ := Call.finish hbody hr.run hr.rel.isOpen.below hr.rep hr.rel.stack hlen
  have hterm : (c.final env code (blockTable code)).term = some t := by
    rw [Call.final, hbody, (spill_quiet _).term]
  exact ⟨sF, runBlock_of_term hf hc hterm ht hF.run, hF.world.trans hr.rel.world⟩

/-- An instruction that stops in the middle: nothing behind it runs, the spill included. -/
theorem Reached.ends_error (hr : Reached ops code s e₁ b' s' rest)
    (hf : FunctionSpec env code calls) (hc : c ∈ calls) {b'' : Builder} {y : Instr} {x : Stop W}
    (hcode : b''.code = b'.code ++ [y]) (hgrows : b''.Grows (c.bodyEnd env code (blockTable code)))
    (hstop : execInstr ops y s' = .error x) : step ops (compileMain env code) c.i s = .error x := by
  obtain ⟨is, his, -⟩ := hgrows.trans (spill_quiet _).grows
  have hrun : execAll ops b''.code s = .error x := by
    rw [hcode, execAll_append, hr.run]
    simp only [execAll, hstop]
  have hfinal : execAll ops (c.final env code (blockTable code)).code s = .error x := by
    rw [Call.final, his]
    exact execAll_append_error hrun
  exact step_of_error hf hc hfinal

/-- What the host is told where the EVM halts with `o`. The `RETURN` at `RetPC` hands over the
translated runtime instead. -/
def CompileEnv.sent (env : CompileEnv) (code : List Byte) (pc : Nat) (o : Outcome) : Outcome :=
  if instAt code pc = .RETURN ∧ env.retPC ≠ 0 ∧ env.rtWasmCode ≠ [] ∧ pc = env.retPC then
    .finish env.rtWasmCode
  else o

theorem exists_two_of_length {α : Type} {l : List α} (h : 2 ≤ l.length) :
    ∃ a b rest, l = a :: b :: rest := by
  obtain ⟨a, l, rfl⟩ := List.exists_cons_of_length_pos (Nat.lt_of_lt_of_le Nat.two_pos h)
  obtain ⟨b, rest, rfl⟩ := List.exists_cons_of_length_pos (Nat.le_of_succ_le_succ h)
  exact ⟨a, b, rest, rfl⟩

/-- The call of the host that a halting opcode is compiled to, and what it reports. -/
theorem Reached.halts (hr : Reached ops code s e₁ b' s' rest) {bb : BasicBlock} {i : Nat}
    {next : Label}
    (hi : instAt code e₁.pc = .RETURN ∨ instAt code e₁.pc = .REVERT ∨ instAt code e₁.pc = .SUICIDE)
    {o : Outcome} {w : W} (hhalt : evmStep ops code e₁ = .halt o w) :
    ∃ y, (compileInst env bb i next e₁.pc (instAt code e₁.pc) b').2.code = b'.code ++ [y] ∧
      execInstr ops y s' = .error (.outcome (env.sent code e₁.pc o) e₁.world) := by
  have hregs := hr.rel.isOpen.regs
  have hstack := hr.rel.stack
  have hop := hr.operands
  rcases hi with hi | hi | hi
  · rw [hi] at hop ⊢
    obtain ⟨off, size, vs, hlocals⟩ : ∃ off size vs, b'.locals = off :: size :: vs :=
      exists_two_of_length hop
    rw [hlocals] at hstack
    simp only [evmStep, hi, hstack, List.map_cons, List.cons_append] at hhalt
    cases hhalt
    rw [compileInst_return hregs, hlocals]
    refine ⟨_, rfl, ?_⟩
    unfold CompileEnv.sent
    rw [hi, ← hr.rel.world]
    by_cases hret : env.retPC ≠ 0 ∧ env.rtWasmCode ≠ [] ∧ e₁.pc = env.retPC
    · rw [if_pos hret, if_pos ⟨rfl, hret⟩]
      rfl
    · rw [if_neg hret, if_neg fun h => hret h.2]
      rfl
  · rw [hi] at hop ⊢
    obtain ⟨off, size, vs, hlocals⟩ : ∃ off size vs, b'.locals = off :: size :: vs :=
      exists_two_of_length hop
    rw [hlocals] at hstack
    simp only [evmStep, hi, hstack, List.map_cons, List.cons_append] at hhalt
    cases hhalt
    rw [compileInst_revert hregs, hlocals]
    refine ⟨_, rfl, ?_⟩
    unfold CompileEnv.sent
    rw [hi, ← hr.rel.world, if_neg fun h => by cases h.1]
    rfl
  · rw [hi] at hop ⊢
    obtain ⟨dest, vs, hlocals⟩ := List.exists_cons_of_length_pos hop
    rw [hlocals] at hstack
    simp only [evmStep, hi, hstack, List.map_cons, List.cons_append] at hhalt
    cases hhalt
    rw [compileInst_suicide hregs, hlocals]
    refine ⟨_, rfl, ?_⟩
    unfold CompileEnv.sent
    rw [hi, ← hr.rel.world, if_neg fun h => by cases h.1]
    rfl

variable (hops : SameOps ops env) (hf : FunctionSpec env code calls) (hc : c ∈ calls)
  (hent : c.Entered code (blockTable code) s e) (htrace : BlockTrace ops code c.bb e e₁)
  (hin₁ : InBlock code c.bb e₁.pc)

include hops hent htrace hin₁ in
/-- A body that ends with `STOP`: nothing is added but the terminator. -/
theorem Call.Entered.body_stop (hi : instAt code e₁.pc = .STOP) : ∃ b' s' rest,
    c.bodyEnd env code (blockTable code) = { b' with term := some (.br .exit none) } ∧
      Reached ops code s e₁ b' s' rest := by
  obtain ⟨fuel, b', s', rest, hbody, hr⟩ := Call.body_sim hops hent htrace hin₁
  have hend := hent.good.ends_last _ hin₁.boundary hin₁.first_le hin₁.lt_end (by rw [hi]; rfl)
  rw [compileBasicBlockLoop_last hin₁.lt_end hend.ge (by simp [hi]) (by simp [hi]), hi] at hbody
  exact ⟨b', s', rest, hbody, hr⟩

include hops hf hc hent htrace hin₁ in
/-- **`STOP`**, behind the spill. -/
theorem Call.Entered.ends_stop (hi : instAt code e₁.pc = .STOP) (hlen : e₁.stack.length ≤ 511) :
    step ops (compileMain env code) c.i s = .error (.outcome (.finish []) e₁.world) := by
  obtain ⟨b', s', rest, hbody, hr⟩ := hent.body_stop hops htrace hin₁ hi
  obtain ⟨sF, hblock, hworld⟩ := hr.runBlock_term hf hc hbody (Or.inl rfl) hlen
  rw [← hworld]
  exact step_of_exit hf hblock

include hops hf hc hent htrace hin₁ in
/-- **An undefined opcode**, behind the spill; the rest of the block is not compiled. -/
theorem Call.Entered.ends_undefined {y : Byte} (hi : instAt code e₁.pc = .UNDEFINED y)
    (hlen : e₁.stack.length ≤ 511) : step ops (compileMain env code) c.i s = .error .trap := by
  obtain ⟨fuel, b', s', rest, hbody, hr⟩ := Call.body_sim hops hent htrace hin₁
  unfold compileBasicBlockLoop at hbody
  rw [if_neg (Nat.ne_of_lt hin₁.lt_end), hi] at hbody
  obtain ⟨sF, hblock, -⟩ := hr.runBlock_term hf hc hbody (Or.inr rfl) hlen
  simp only [step, hblock]
  rfl

include hops hf hc hent htrace hin₁ in
/-- **`RETURN`, `REVERT` and `SUICIDE`**: the host takes over in front of the spill. -/
theorem Call.Entered.ends_halt (hi : instAt code e₁.pc = .RETURN ∨ instAt code e₁.pc = .REVERT ∨
    instAt code e₁.pc = .SUICIDE) {o : Outcome} {w : W} (hhalt : evmStep ops code e₁ = .halt o w) :
    step ops (compileMain env code) c.i s =
      .error (.outcome (env.sent code e₁.pc o) e₁.world) := by
  obtain ⟨fuel, b', s', rest, hbody, hr⟩ := Call.body_sim hops hent htrace hin₁
  -- the last instruction of the body is the call of the host
  obtain ⟨y, hcode, hy⟩ : ∃ y, (compileInst env c.bb c.i (nextNode (blockTable code).length c.i)
      e₁.pc (instAt code e₁.pc) b').2.code = b'.code ++ [y] ∧
      execInstr ops y s' = .error (.outcome (env.sent code e₁.pc o) e₁.world) := hr.halts hi hhalt
  have hends : (instAt code e₁.pc).endsBlock = true := by
    rcases hi with hi | hi | hi <;> rw [hi] <;> rfl
  have hend := hent.good.ends_last _ hin₁.boundary hin₁.first_le hin₁.lt_end hends
  have hpush : ∀ n, instAt code e₁.pc ≠ .PUSH n := fun n => by
    rcases hi with hi | hi | hi <;> simp [hi]
  have hund : ∀ x, instAt code e₁.pc ≠ .UNDEFINED x := fun x => by
    rcases hi with hi | hi | hi <;> simp [hi]
  rw [compileBasicBlockLoop_last hin₁.lt_end hend.ge hpush hund] at hbody
  exact hr.ends_error hf hc hcode (.of_code_eq (congrArg Builder.code hbody)) hy

include hops hf hc hent htrace hin₁ in
/-- **An opcode that fails**: the emitted opcode traps, and what was compiled behind it is dead. -/
theorem Call.Entered.ends_fail (hi : (instAt code e₁.pc).ordinary = true)
    (hx :
      ops.exec (instAt code e₁.pc) (e₁.stack.take (instAt code e₁.pc).removed) e₁.world = none) :
    step ops (compileMain env code) c.i s = .error .trap := by
  obtain ⟨fuel, b', s', rest, hbody, hr⟩ := Call.body_sim hops hent htrace hin₁
  have hregs := hr.rel.isOpen.regs
  have hnotSize : instAt code e₁.pc ≠ .CODESIZE := by
    intro hsize
    rw [hsize] at hx
    exact absurd ((hops.codeSize e₁.world).symm.trans hx) (Option.some_ne_none _)
  have hund : ∀ x, instAt code e₁.pc ≠ .UNDEFINED x := by
    intro x hu
    rw [hu] at hi
    cases hi
  rw [compileBasicBlockLoop_inst (Nat.ne_of_lt hin₁.lt_end) (ne_push_of_ordinary hi) hund,
    compileInst_ordinary hi hnotSize, compileOpcode_regs hregs] at hbody
  -- the operands of the emitted opcode are the EVM's
  obtain ⟨hpops, -⟩ := popCalls_eq_removed (instAt code e₁.pc)
  have hlen : (instAt code e₁.pc).popCalls ≤ b'.locals.length := by
    rw [hpops, ← (removed_eq_stkOut hi).1]
    exact hr.operands
  rw [← hpops, hr.rel.take hlen, ← hr.rel.world] at hx
  have hcode : (opcodeBuilder env (instAt code e₁.pc) b').code = b'.code ++ [.opcode b'.next
      (instAt code e₁.pc) (popped (instAt code e₁.pc).popCalls b'.locals)] := by
    unfold opcodeBuilder
    dsimp only
    split
    · cases hfold : env.fold (instAt code e₁.pc)
        (popped (instAt code e₁.pc).popCalls b'.locals) with
      | some v =>
        exact absurd ((hops.fold hfold s'.env s'.world).symm.trans hx) (Option.some_ne_none _)
      | none => rfl
    · rfl
  have hgrows : (opcodeBuilder env (instAt code e₁.pc) b').Grows
      (c.bodyEnd env code (blockTable code)) := by
    rw [hbody]
    exact compileBasicBlockLoop_grows _ _ (opcodeBuilder_effect hregs _).regs
  refine hr.ends_error hf hc hcode hgrows ?_
  simp only [execInstr, hx]

end Ends

/-! ## §4 — jumps that go nowhere. -/

section BadJumps

variable {W : Type} {ops : Ops W} {env : CompileEnv} {code : Bytecode} {calls : List Call}
  {c : Call} {s : St W} {e e₁ : EvmSt W} {d x : Word} {st : List Word}

/-- Control that leaves for an invalid destination ends in `Abort`. -/
theorem step_of_leave_invalid (hf : FunctionSpec env code.bytes calls) {idx : Value} {r : St W}
    {t : Word}
    (hden : idx.denote r.env = d) (hd : isJumpDest code.bytes d.toNat = false)
    (hleave : ∃ l s'', leave ops (compileMain env code.bytes) c.i s = .ok (l, s'') ∧
      SameStack { r with target := t } s'' ∧
      (idx.Wide → TransfersTo code.bytes (idx.denote r.env) l) ∧ (¬ idx.Wide → l = .abort)) :
    step ops (compileMain env code.bytes) c.i s = .error (.outcome (.revert []) r.world) := by
  obtain ⟨l, s'', hleave, hsame, hto, hab⟩ := hleave
  have hl : l = .abort := by
    by_cases hw : idx.Wide
    · rcases hto hw with ⟨hval, -⟩ | ⟨-, hl⟩
      · rw [hden, hd] at hval
        cases hval
      · exact hl
    · exact hab hw
  rw [hl] at hleave
  have hworld : s''.world = r.world := hsame.world
  rw [← hworld]
  exact step_of_leave_abort hf hleave

variable (hops : SameOps ops env) (hf : FunctionSpec env code.bytes calls) (hc : c ∈ calls)
  (hent : c.Entered code.bytes (blockTable code.bytes) s e)
  (htrace : BlockTrace ops code.bytes c.bb e e₁) (hin₁ : InBlock code.bytes c.bb e₁.pc)
  (hd : isJumpDest code.bytes d.toNat = false) (hlen : st.length ≤ 511)

include hops hf hc hent htrace hin₁ hd hlen in
theorem Call.Entered.ends_jump (hi : instAt code.bytes e₁.pc = .JUMP) (hs : e₁.stack = d :: st) :
    step ops (compileMain env code.bytes) c.i s = .error (.outcome (.revert []) e₁.world) := by
  have hend := hent.good.ends_last _ hin₁.boundary hin₁.first_le hin₁.lt_end (by rw [hi]; rfl)
  obtain ⟨r, idx, hF, hj, her, hden⟩ := Call.finish_jump hops hent htrace hin₁ hend.ge hi hs hlen
  rw [← hF.world]
  exact step_of_leave_invalid hf hden hd (leave_jump hf hc hj hF.run her)

include hops hf hc hent htrace hin₁ hd hlen in
theorem Call.Entered.ends_jumpi (hi : instAt code.bytes e₁.pc = .JUMPI)
    (hs : e₁.stack = d :: x :: st) (hx : x ≠ 0) :
    step ops (compileMain env code.bytes) c.i s = .error (.outcome (.revert []) e₁.world) := by
  have hend := hent.good.ends_last _ hin₁.boundary hin₁.first_le hin₁.lt_end (by rw [hi]; rfl)
  obtain ⟨r, idx, rawCond, hF, hj, her, hden, hcond⟩ := Call.finish_jumpi hops hent htrace hin₁
    hend.ge hi hs hlen
  rw [← hF.world]
  exact step_of_leave_invalid hf hden hd ((leave_jumpi hf hc hj hF.run her).1 (hcond ▸ hx))

end BadJumps

end EvmTrans
