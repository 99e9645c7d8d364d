/-
# `EvmTrans.BlockSim` — the body of a block against the EVM.

While the body of a block is compiled, `m_local` is the top of the EVM's stack: what its registers
denote, followed by the words still in `mstk`, is the stack of the EVM at the same instruction.
`BodyRel` says so, `step_sim` keeps it over one instruction, and `body_reaches` over a run inside
the block.

The two sides share one meaning of the opcodes (`SameOps`): whatever `IRBuilder` folds instead of
emitting an opcode has the value of the opcode, and `CODESIZE`, which the translator makes a
constant, is that constant for the EVM as well.
-/
import EvmTrans.StackRep
import EvmTrans.BlockTrace

namespace EvmTrans

/-! ## §1 — one meaning of the opcodes. -/

variable {W : Type} {ops : Ops W} {env : CompileEnv} {code : List Byte} {bb : BasicBlock} {i : Nat}
  {next : Label} {b b' : Builder} {s₀ s s' : St W} {e e' e₁ : EvmSt W} {rest : List Word}

/-- What the compilation decides on its own agrees with the opcodes' meaning. -/
structure SameOps (ops : Ops W) (env : CompileEnv) : Prop where
  fold : ∀ {op args v}, env.fold op args = some v → ∀ (ρ : Nat → Word) (w : W),
    ops.exec op (args.map (Value.denote ρ)) w = some (v.denote ρ, w)
  codeSize : ∀ w : W, ops.exec .CODESIZE [] w =
    some (BitVec.ofNat 256 (env.bytecode.length % 2 ^ 32), w)

/-- The `switch` pops and pushes as the EVM does. -/
theorem popCalls_eq_removed (op : Instruction) :
    op.popCalls = op.removed ∧ op.pushCall = op.adds := by
  cases op with
  | LOG n => exact ⟨Nat.add_comm 2 n, rfl⟩
  | _ => exact ⟨rfl, rfl⟩

theorem compileInst_ordinary {op : Instruction} (h : op.ordinary = true) (hc : op ≠ .CODESIZE)
    (it : Nat) : compileInst env bb i next it op = compileOpcode env op := by
  cases op with
  | CODESIZE => exact absurd rfl hc
  | _ => first | rfl | cases h

/-! ## §2 — one instruction. -/

/-- **The registers are the top of the stack**; `rest` is what the block has not taken from
`mstk`. -/
structure BodyRel (s₀ : St W) (rest : List Word) (b : Builder) (s : St W) (e : EvmSt W) : Prop where
  isOpen : b.Open
  stack : e.stack = b.locals.map (Value.denote s.env) ++ rest
  world : s.world = e.world
  sp : s.sp = s₀.sp
  mstk : s.mstk = s₀.mstk
  target : s.target = s₀.target

theorem BodyRel.length (h : BodyRel s₀ rest b s e) :
    e.stack.length = b.locals.length + rest.length := by
  rw [h.stack, List.length_append, List.length_map]

theorem BodyRel.getElem? (h : BodyRel s₀ rest b s e) {n : Nat} (hn : n < b.locals.length) :
    e.stack[n]? = some ((b.locals.getD n (constWord 0)).denote s.env) := by
  rw [h.stack, List.getElem?_append_left (by rwa [List.length_map]), List.getElem?_map,
    List.getD_eq_getElem?_getD, List.getElem?_eq_getElem hn]
  rfl

theorem BodyRel.take (h : BodyRel s₀ rest b s e) {n : Nat} (hn : n ≤ b.locals.length) :
    e.stack.take n = (popped n b.locals).map (Value.denote s.env) := by
  rw [h.stack, List.take_append_of_le_length (by rwa [List.length_map]), popped,
    Nat.sub_eq_zero_of_le hn, List.replicate_zero, List.append_nil, List.map_take]

theorem BodyRel.drop (h : BodyRel s₀ rest b s e) {n : Nat} (hn : n ≤ b.locals.length) :
    e.stack.drop n = (b.locals.drop n).map (Value.denote s.env) ++ rest := by
  rw [h.stack, List.drop_append_of_le_length (by rwa [List.length_map]), List.map_drop]

/-- Code that only rearranges `m_local` runs in no time. -/
theorem Emits.rearrange (b : Builder) (l : List Value) (cs : List (Word × Label)) (s : St W) :
    Emits ops b s { b with locals := l, cases := cs } s :=
  ⟨Nat.le_refl _, ⟨[], (List.append_nil _).symm, rfl⟩, fun _ _ => rfl⟩

/-- The branch of an opcode, run. -/
theorem opcode_sim (hops : SameOps ops env) (hrel : BodyRel s₀ rest b s e) {op : Instruction}
    {v : Word} {w : W} (hlen : op.popCalls ≤ b.locals.length)
    (hx : ops.exec op (e.stack.take op.popCalls) e.world = some (v, w)) {pc : Nat} :
    ∃ s', Emits ops b s (opcodeBuilder env op b) s' ∧
      BodyRel s₀ rest (opcodeBuilder env op b) s'
        ⟨pc, (if op.pushCall then [v] else []) ++ e.stack.drop op.popCalls, w⟩ := by
  have hopen : (opcodeBuilder env op b).Open := (opcodeBuilder_advance hrel.isOpen op).isOpen
  rw [hrel.take hlen, ← hrel.world] at hx
  -- the emitted opcode, and what the remaining registers denote behind it
  have hexec : execAll ops [.opcode b.next op (popped op.popCalls b.locals)] s =
      .ok { s.define b.next v with world := w } := by
    simp only [execAll, execInstr, hx]
  have hframe : ∀ r, r < b.next → (s.define b.next v).env r = s.env r :=
    fun r hr => define_env_of_ne s v (Nat.ne_of_lt hr)
  have hrest : (b.locals.drop op.popCalls).map (Value.denote (s.define b.next v).env) =
      (b.locals.drop op.popCalls).map (Value.denote s.env) :=
    List.map_congr_left fun u hu =>
      Value.denote_congr (hrel.isOpen.below_drop _ u hu) hframe
  have hdrop := hrel.drop hlen
  unfold opcodeBuilder at hopen ⊢
  dsimp only at hopen ⊢
  by_cases hp : op.pushCall = true
  · rw [if_pos hp] at hopen ⊢
    rw [if_pos hp, hdrop]
    cases hf : env.fold op (popped op.popCalls b.locals) with
    | some u =>
      simp only [hf] at hopen ⊢
      have hval := hops.fold hf s.env s.world
      rw [hx] at hval
      obtain ⟨rfl, rfl⟩ : v = u.denote s.env ∧ w = s.world := by
        cases hval
        exact ⟨rfl, rfl⟩
      exact ⟨s, .rearrange b _ _ s, hopen, rfl, rfl, hrel.sp, hrel.mstk, hrel.target⟩
    | none =>
      simp only [hf] at hopen ⊢
      refine ⟨{ s.define b.next v with world := w },
        ⟨Nat.le_succ _, ⟨_, rfl, hexec⟩, hframe⟩, hopen, ?_, rfl, hrel.sp, hrel.mstk, hrel.target⟩
      show v :: _ = ((s.define b.next v).env b.next :: List.map _ _) ++ rest
      rw [define_env_self, hrest]
      rfl
  · rw [if_neg hp] at hopen ⊢
    rw [if_neg hp, hdrop]
    refine ⟨{ s.define b.next v with world := w },
      ⟨Nat.le_succ _, ⟨_, rfl, hexec⟩, hframe⟩, hopen, ?_, rfl, hrel.sp, hrel.mstk, hrel.target⟩
    show [] ++ _ = List.map (Value.denote (s.define b.next v).env) _ ++ rest
    rw [hrest]
    rfl

/-- A value put on the register stack. -/
theorem BodyRel.push (hrel : BodyRel s₀ rest b s e) {v : Value} (hv : v.below b.next) {pc : Nat}
    {x : Word} (hx : v.denote s.env = x) :
    BodyRel s₀ rest { b with locals := v :: b.locals } s ⟨pc, x :: e.stack, e.world⟩ := by
  refine ⟨⟨hrel.isOpen.regs, hrel.isOpen.term, fun u hu => ?_⟩, ?_, hrel.world, hrel.sp, hrel.mstk,
    hrel.target⟩
  · rcases List.mem_cons.mp hu with rfl | hu
    · exact hv
    · exact hrel.isOpen.below u hu
  · show x :: e.stack = (v.denote s.env :: _) ++ rest
    rw [hx, hrel.stack]
    rfl

/-- The exchange, on registers and on words. -/
theorem BodyRel.swap (hrel : BodyRel s₀ rest b s e) {n : Nat} {x y : Word}
    (hn : n + 1 < b.locals.length) (hx : e.stack[0]? = some x) (hy : e.stack[n + 1]? = some y) :
    (e.stack.set (n + 1) x).set 0 y =
      (swapLocals n b.locals).map (Value.denote s.env) ++ rest := by
  rw [hrel.getElem? (by omega)] at hx hy
  cases hx
  cases hy
  rw [swapLocals, if_neg (by omega), List.map_set, List.map_set, hrel.stack,
    List.set_append_left _ _ (by rw [List.length_map]; omega),
    List.set_append_left _ _ (by rw [List.length_set, List.length_map]; omega)]

/-- **One plain instruction that is not a push.** -/
theorem inst_sim (hops : SameOps ops env) (hrel : BodyRel s₀ rest b s e)
    (hstep : StepCase ops code e e') (hp : (instAt code e.pc).plain = true)
    (hpush : ∀ n, instAt code e.pc ≠ .PUSH n)
    (hlen : (instAt code e.pc).stkOut ≤ b.locals.length) :
    ∃ s', Emits ops b s (compileInst env bb i next e.pc (instAt code e.pc) b).2 s' ∧
      BodyRel s₀ rest (compileInst env bb i next e.pc (instAt code e.pc) b).2 s' e' := by
  have hr := hrel.isOpen.regs
  have hopen : (compileInst env bb i next e.pc (instAt code e.pc) b).2.Open :=
    (compileInst_advance hrel.isOpen hp e.pc).isOpen
  cases hstep with
  | push hi => exact absurd hi (hpush _)
  | jump hi => rw [hi] at hp; cases hp
  | jumpiTaken hi => rw [hi] at hp; cases hp
  | jumpiFall hi => rw [hi] at hp; cases hp
  | @pop v st hi hs =>
    rw [hi] at hlen hopen ⊢
    have heq : (compileInst env bb i next e.pc .POP b).2 = { b with locals := b.locals.tail } := by
      show (GlobalStack.pop b).2 = _
      rw [pop_regs hr]
    rw [heq] at hopen ⊢
    refine ⟨s, .rearrange b _ _ s, hopen, ?_, hrel.world, hrel.sp, hrel.mstk, hrel.target⟩
    have hdrop := hrel.drop (n := 1) hlen
    rw [hs] at hdrop
    show st = List.map _ b.locals.tail ++ rest
    rw [← List.drop_one]
    exact hdrop
  | @dup n v hi hv =>
    have hpos := instAt_dup_pos hi
    rw [hi] at hlen ⊢
    have hlt : n - 1 < b.locals.length := by
      have : n ≤ b.locals.length := hlen
      omega
    rw [hrel.getElem? hlt] at hv
    refine ⟨s, ?_⟩
    rw [show (compileInst env bb i next e.pc (.DUP n) b).2 =
      { b with locals := b.locals.getD (n - 1) (constWord 0) :: b.locals } by
        show (GlobalStack.dup (n - 1) b).2 = _
        rw [dup_regs hr]]
    exact ⟨.rearrange b _ _ s, hrel.push (hrel.isOpen.below_getD _) (Option.some.inj hv)⟩
  | @swap n x y hi hx hy =>
    have hpos := instAt_swap_pos hi
    obtain ⟨n, rfl⟩ : ∃ k, n = k + 1 := ⟨n - 1, by omega⟩
    rw [hi] at hlen hopen ⊢
    have heq : (compileInst env bb i next e.pc (.SWAP (n + 1)) b).2 =
        { b with locals := swapLocals n b.locals } := by
      show (GlobalStack.swap n b).2 = _
      rw [swap_regs hr]
    rw [heq] at hopen ⊢
    exact ⟨s, .rearrange b _ _ s, hopen, hrel.swap hlen hx hy, hrel.world, hrel.sp, hrel.mstk,
      hrel.target⟩
  | jumpdest hi =>
    rw [hi] at hopen ⊢
    exact ⟨s, .rearrange b _ _ s, hopen, hrel.stack, hrel.world, hrel.sp, hrel.mstk, hrel.target⟩
  | pc hi =>
    rw [hi]
    refine ⟨s, ?_⟩
    rw [show (compileInst env bb i next e.pc .PC b).2 =
      { b with locals := constWord e.pc :: b.locals } by
        show (GlobalStack.push _ b).2 = _
        rw [push_regs hr]]
    exact ⟨.rearrange b _ _ s, hrel.push (below_constWord _ _) rfl⟩
  | @ordinary v w hi hlen' hx =>
    by_cases hc : instAt code e.pc = .CODESIZE
    · -- a constant on the translator's side
      rw [hc] at hx ⊢
      have hx : ops.exec .CODESIZE [] e.world = some (v, w) := hx
      rw [hops.codeSize] at hx
      cases hx
      refine ⟨s, ?_⟩
      rw [show (compileInst env bb i next e.pc .CODESIZE b).2 = { b with
        locals := .const .i32 (BitVec.ofNat 256 (env.bytecode.length % 2 ^ 32)) :: b.locals } by
          show (GlobalStack.push _ b).2 = _
          rw [push_regs hr]]
      exact ⟨.rearrange b _ _ s, hrel.push (v := .const .i32 _) trivial rfl⟩
    · obtain ⟨hpops, hpushes⟩ := popCalls_eq_removed (instAt code e.pc)
      rw [compileInst_ordinary hi hc, compileOpcode_regs hr, ← hpushes, ← hpops]
      rw [← hpops] at hx
      refine opcode_sim hops hrel ?_ hx
      rw [hpops, ← (removed_eq_stkOut hi).1]
      exact hlen

/-! ## §3 — along a block. -/

/-- What a push can do. -/
theorem StepCase.of_push (h : StepCase ops code e e') {n : Nat} (hn : instAt code e.pc = .PUSH n) :
    e' = ⟨instrEnd code e.pc, pushValue code e.pc n :: e.stack, e.world⟩ := by
  have hstep : ∀ {op}, instAt code e.pc = op → op ≠ .PUSH n → False :=
    fun hi hne => hne (hi ▸ hn)
  cases h with
  | push hi =>
    rw [hn] at hi
    cases hi
    rfl
  | ordinary hi =>
    rw [hn] at hi
    cases hi
  | pop hi => exact (hstep hi (by simp)).elim
  | dup hi => exact (hstep hi (by simp)).elim
  | swap hi => exact (hstep hi (by simp)).elim
  | jumpdest hi => exact (hstep hi (by simp)).elim
  | pc hi => exact (hstep hi (by simp)).elim
  | jump hi => exact (hstep hi (by simp)).elim
  | jumpiTaken hi => exact (hstep hi (by simp)).elim
  | jumpiFall hi => exact (hstep hi (by simp)).elim

variable (env i next) in
/-- **One plain instruction of the loop**, pushes included. -/
theorem step_sim (hops : SameOps ops env) (hg : GoodBlock code bb) (hrel : BodyRel s₀ rest b s e)
    (hstep : StepCase ops code e e') (hp : (instAt code e.pc).plain = true)
    (hin : InBlock code bb e.pc) (hlen : (instAt code e.pc).stkOut ≤ b.locals.length) :
    ∃ b' s', (∀ fuel, compileBasicBlockLoop env code bb i next (fuel + 1) e.pc b =
        compileBasicBlockLoop env code bb i next fuel (min (instrEnd code e.pc) bb.endIdx) b') ∧
      Emits ops b s b' s' ∧ BodyRel s₀ rest b' s' e' := by
  have hlt := hin.lt_end
  by_cases hpush : ∃ n, instAt code e.pc = .PUSH n
  · obtain ⟨n, hn⟩ := hpush
    have hval : (readPushData code e.pc bb.endIdx).1 = pushValue code e.pc n :=
      readPushData_fst hlt hn (hg.zeros_behind hin)
    refine ⟨{ b with locals := .const .i256 (readPushData code e.pc bb.endIdx).1 :: b.locals }, s,
      fun fuel => ?_, .rearrange b _ _ s, ?_⟩
    · exact compileBasicBlockLoop_push hlt hn hrel.isOpen.regs
    · rw [hstep.of_push hn]
      exact hrel.push (v := .const .i256 _) trivial hval
  · have hpush : ∀ n, instAt code e.pc ≠ .PUSH n := fun n hn => hpush ⟨n, hn⟩
    have hund : ∀ x, instAt code e.pc ≠ .UNDEFINED x := by
      intro x hx
      rw [hx] at hp
      cases hp
    obtain ⟨s', he, hrel'⟩ := inst_sim hops hrel hstep hp hpush hlen
    refine ⟨_, s', fun fuel => ?_, he, hrel'⟩
    rw [instrEnd_of_ne_push hpush, Nat.min_eq_left hlt]
    exact compileBasicBlockLoop_inst (Nat.ne_of_lt hlt) hpush hund

/-- Registers and EVM stack change by the same amount. -/
theorem BodyRel.length_step (hrel : BodyRel s₀ rest b s e) (hrel' : BodyRel s₀ rest b' s' e')
    (hstep : StepCase ops code e e') :
    b'.locals.length + (instAt code e.pc).stkOut = b.locals.length + (instAt code e.pc).stkIn := by
  have h := hrel.length
  have h' := hrel'.length
  have := hstep.height.2
  omega

variable (env i next) in
/-- **The body of a block**, up to the instruction that an EVM run inside the block has reached. -/
theorem body_reaches (hops : SameOps ops env) (hg : GoodBlock code bb)
    (htrace : BlockTrace ops code bb e e₁) (hin : InBlock code bb e.pc) {fuel : Nat}
    (hfuel : bb.endIdx ≤ e.pc + fuel) (hrel : BodyRel s₀ rest b s e)
    (hsup : Supply code bb e.pc b.locals.length) :
    ∃ fuel' b' s', compileBasicBlockLoop env code bb i next fuel e.pc b =
        compileBasicBlockLoop env code bb i next fuel' e₁.pc b' ∧ bb.endIdx ≤ e₁.pc + fuel' ∧
      Emits ops b s b' s' ∧ BodyRel s₀ rest b' s' e₁ ∧
      Supply code bb e₁.pc b'.locals.length := by
  induction htrace generalizing fuel b s with
  | refl => exact ⟨fuel, b, s, rfl, hfuel, .refl b s, hrel, hsup⟩
  | @step e e' e₁ hs hp hin' ht ih =>
    have hpc := hs.pc_of_plain hp
    have hlt := hin.lt_end
    have hlt' := hin'.lt_end
    have hgt := lt_instrEnd code e.pc
    obtain ⟨fuel, rfl⟩ : ∃ k, fuel = k + 1 := ⟨fuel - 1, by omega⟩
    obtain ⟨b₁, s₁, hloop, he, hrel₁⟩ :=
      step_sim env i next hops hg hrel hs hp hin (hsup.operands hlt)
    have hsup₁ := hsup.step hlt (hrel.length_step hrel₁ hs)
    have hmin : min (instrEnd code e.pc) bb.endIdx = e'.pc := by omega
    rw [hmin] at hsup₁
    have hfuel' : bb.endIdx ≤ e'.pc + fuel := by omega
    obtain ⟨fuel', b', s', hloop', hf', he', hrel', hsup'⟩ := ih hin' hfuel' hrel₁ hsup₁
    refine ⟨fuel', b', s', ?_, hf', he.trans he', hrel', hsup'⟩
    rw [hloop fuel, hmin]
    exact hloop'

end EvmTrans
