/-
# `EvmTrans.BlockShape` — a block as `compileMain` leaves it: inputs, body, spill.

`compileWith` wraps the body of a block in code that only moves words between `mstk` and registers.
That code is QUIET: it neither reads nor writes `target`, sets no terminator and defines only fresh
registers. So the terminator and the jump-table case of a finished block are those of its body
(`spill_quiet`, `bodyEnd_closed`), and in a block that ends in a jump the store of the destination
is followed by quiet code only (`spill_jump`, `spill_jumpi`).
-/
import EvmTrans.CompileShape

namespace EvmTrans

/-! ## §1 — quiet code. -/

/-- The register an instruction defines. -/
def Instr.dst? : Instr → Option Nat
  | .load d _ | .add d _ _ | .sub d _ _ | .zext d _ | .icmpNE d _ | .opcode d _ _ => some d
  | _ => none

/-- An instruction that leaves `target` and the registers below `n` alone. -/
structure Instr.Quiet (n : Nat) (x : Instr) : Prop where
  stores : x.storesTarget = false
  loads : x.loadsTarget = false
  dst : ∀ d, x.dst? = some d → n ≤ d

theorem Instr.Quiet.mono {n m : Nat} {x : Instr} (h : x.Quiet m) (hnm : n ≤ m) : x.Quiet n :=
  ⟨h.stores, h.loads, fun d hd => Nat.le_trans hnm (h.dst d hd)⟩

/-- `b'` is `b` with quiet code appended. -/
structure Builder.Quiet (b b' : Builder) : Prop where
  next_le : b.next ≤ b'.next
  code : ∃ is, b'.code = b.code ++ is ∧ ∀ x ∈ is, x.Quiet b.next
  term : b'.term = b.term
  cases : b'.cases = b.cases

/-- An emitter that appends quiet code wherever it is run. -/
def Quiets {α : Type} (m : Build α) : Prop := ∀ b : Builder, b.Quiet (m b).2

section Quiet

variable {α β : Type} {b b' b'' : Builder}

theorem Builder.Quiet.refl (b : Builder) : b.Quiet b :=
  ⟨Nat.le_refl _, ⟨[], by simp, by simp⟩, rfl, rfl⟩

theorem Builder.Quiet.trans (h₁ : b.Quiet b') (h₂ : b'.Quiet b'') : b.Quiet b'' := by
  obtain ⟨is₁, hc₁, hq₁⟩ := h₁.code
  obtain ⟨is₂, hc₂, hq₂⟩ := h₂.code
  refine ⟨Nat.le_trans h₁.next_le h₂.next_le, ⟨is₁ ++ is₂, ?_, ?_⟩, h₂.term.trans h₁.term,
    h₂.cases.trans h₁.cases⟩
  · rw [hc₂, hc₁, List.append_assoc]
  · intro x hx
    rcases List.mem_append.mp hx with hx | hx
    · exact hq₁ x hx
    · exact (hq₂ x hx).mono h₁.next_le

theorem Quiets.pure (a : α) : Quiets (pure a : Build α) := fun b => .refl b

theorem Quiets.bind {m : Build α} {f : α → Build β} (hm : Quiets m) (hf : ∀ a, Quiets (f a)) :
    Quiets (m >>= f) :=
  fun b => (hm b).trans (hf _ _)

theorem Quiets.ite {c : Prop} [Decidable c] {m m' : Build α} (h : Quiets m) (h' : Quiets m') :
    Quiets (if c then m else m') := by
  split
  · exact h
  · exact h'

theorem Quiets.get : Quiets (get : Build Builder) := fun b => .refl b

theorem Quiets.emit {x : Instr} (hx : ∀ n, x.Quiet n) : Quiets (emit x) := fun b =>
  ⟨Nat.le_refl _, ⟨[x], rfl, by simpa using hx b.next⟩, rfl, rfl⟩

theorem Quiets.emitReg {w : Width} {x : Nat → Instr} (hx : ∀ n, (x n).Quiet n) :
    Quiets (emitReg w x) := fun b =>
  ⟨Nat.le_succ _, ⟨[x b.next], rfl, by simpa using hx b.next⟩, rfl, rfl⟩

/-- Only the register stack changes. -/
theorem Quiets.modifyLocals {f : Builder → Builder} (hn : ∀ b, (f b).next = b.next)
    (hc : ∀ b, (f b).code = b.code) (ht : ∀ b, (f b).term = b.term)
    (hs : ∀ b, (f b).cases = b.cases) : Quiets (modify f : Build Unit) := fun b =>
  ⟨Nat.le_of_eq (hn b).symm, ⟨[], (hc b).trans (by simp), by simp⟩, ht b, hs b⟩

theorem quiet_load {n : Nat} {p : Ptr} (hp : p ≠ .target) : (Instr.load n p).Quiet n := by
  refine ⟨rfl, ?_, fun _ hd => Nat.le_of_eq (Option.some.inj hd)⟩
  cases p with
  | target => exact absurd rfl hp
  | _ => rfl

theorem quiet_store {n : Nat} {v : Value} {p : Ptr} (hp : p ≠ .target) :
    (Instr.store v p).Quiet n := by
  refine ⟨?_, rfl, fun _ hd => by cases hd⟩
  cases p with
  | target => exact absurd rfl hp
  | _ => rfl

theorem quiet_alu {n : Nat} (x : Nat → Instr) (hd : (x n).dst? = some n)
    (hs : (x n).storesTarget = false) (hl : (x n).loadsTarget = false) : (x n).Quiet n :=
  ⟨hs, hl, fun _ h => Nat.le_of_eq (Option.some.inj (hd.symm.trans h))⟩

/-- The address `getPtr` computes lies in `mstk`. -/
theorem getPtr_ne_target (n : Nat) (b : Builder) : (GlobalStack.getPtr n b).1 ≠ .target := by
  show ((if n > 0 then _ else _ : Build Ptr) _).1 ≠ _
  split <;> exact Ptr.noConfusion

theorem quiets_getPtr (n : Nat) : Quiets (GlobalStack.getPtr n) := by
  refine Quiets.bind (Quiets.emitReg fun _ => quiet_load Ptr.noConfusion) fun index => ?_
  refine Quiets.ite (Quiets.bind (Quiets.emitReg fun n => ?_) fun _ => Quiets.pure _)
    (Quiets.pure _)
  exact quiet_alu (.sub · index _) rfl rfl rfl

/-- A store to the slot `getPtr` delivers. -/
theorem quiets_storeTop (v : Value) :
    Quiets (do let p ← GlobalStack.getPtr 0; createStore v p) := by
  intro b
  refine (quiets_getPtr 0 b).trans ⟨Nat.le_refl _, ⟨[.store v (GlobalStack.getPtr 0 b).1], rfl, ?_⟩,
    rfl, rfl⟩
  intro x hx
  rw [List.mem_singleton.mp hx]
  exact quiet_store (getPtr_ne_target 0 b)

theorem quiets_push (v : Value) : Quiets (GlobalStack.push v) := by
  refine Quiets.bind Quiets.get fun b => Quiets.ite ?_ ?_
  · exact Quiets.modifyLocals (fun _ => rfl) (fun _ => rfl) (fun _ => rfl) fun _ => rfl
  · refine Quiets.bind (Quiets.emitReg fun _ => quiet_load Ptr.noConfusion) fun tsp => ?_
    refine Quiets.bind (Quiets.emitReg fun n => quiet_alu (.add · tsp _) rfl rfl rfl) fun tsp1 => ?_
    refine Quiets.bind (Quiets.emit fun _ => quiet_store Ptr.noConfusion) fun _ => ?_
    refine Quiets.ite ?_ (quiets_storeTop v)
    exact Quiets.bind (Quiets.emitReg fun n => quiet_alu (.zext · v) rfl rfl rfl) quiets_storeTop

theorem quiets_pushAll : ∀ vs, Quiets (pushAll vs) := by
  intro vs
  induction vs with
  | nil => exact Quiets.pure ()
  | cons v vs ih => exact Quiets.bind (quiets_push v) fun _ => ih

end Quiet

/-! ## §2 — the inputs. -/

section Inputs

variable {b : Builder}

/-- A pop from memory delivers a fresh register. -/
theorem pop_mem_static (h : b.enableRegs = false) :
    (GlobalStack.pop b).1.below (GlobalStack.pop b).2.next ∧
      b.next ≤ (GlobalStack.pop b).2.next ∧ b.Untouched (GlobalStack.pop b).2 := by
  show ((if b.enableRegs = true then _ else _ : Build Value) b).1.below
    ((if b.enableRegs = true then _ else _ : Build Value) b).2.next ∧
    b.next ≤ ((if b.enableRegs = true then _ else _ : Build Value) b).2.next ∧
    b.Untouched ((if b.enableRegs = true then _ else _ : Build Value) b).2
  rw [if_neg (by rw [h]; exact Bool.false_ne_true)]
  refine ⟨?_, ?_, rfl, rfl, rfl, rfl⟩
  · show b.next + 1 < b.next + 1 + 1 + 1 + 1
    omega
  · show b.next ≤ b.next + 1 + 1 + 1 + 1
    omega

theorem popCallsN_mem_static : ∀ (n : Nat) {b : Builder}, b.enableRegs = false →
    (∀ v ∈ (popCallsN n b).1, v.below (popCallsN n b).2.next) ∧
      b.next ≤ (popCallsN n b).2.next ∧ b.Untouched (popCallsN n b).2 ∧
      (popCallsN n b).1.length = n := by
  intro n
  induction n with
  | zero =>
    intro b _
    exact ⟨fun v hv => absurd hv List.not_mem_nil, Nat.le_refl _, ⟨rfl, rfl, rfl, rfl⟩, rfl⟩
  | succ n ih =>
    intro b h
    obtain ⟨hv, hle, hu⟩ := pop_mem_static h
    obtain ⟨hvs, hle', hu', hlen⟩ := ih (b := (GlobalStack.pop b).2) (hu.enableRegs.trans h)
    refine ⟨?_, Nat.le_trans hle hle', hu.trans hu', congrArg (· + 1) hlen⟩
    intro v hm
    rcases List.mem_cons.mp hm with rfl | hm
    · exact Value.below_mono hv hle'
    · exact hvs v hm

/-- What the inputs of a block leave behind, whichever way they came. -/
structure Inputs (b : Builder) (stkIn : Nat) (r : List Value × Builder) : Prop where
  below : ∀ v ∈ r.1, v.below r.2.next
  next_le : b.next ≤ r.2.next
  locals : r.2.locals = b.locals
  term : r.2.term = b.term
  cases : r.2.cases = b.cases
  length : r.1.length = stkIn

theorem leftoverInputs_static (stkIn : Nat) (b : Builder) :
    Inputs b stkIn (leftoverInputs stkIn b) := by
  obtain ⟨hb, hle, hu, hlen⟩ := popCallsN_mem_static stkIn (b := { b with enableRegs := false }) rfl
  exact ⟨hb, hle, hu.locals, hu.term, hu.cases, hlen⟩

/-- Without registers to inherit, the queue loop treats a block as the second loop does. -/
theorem queuedInputs_nil (inherit : Bool) (stkIn : Nat) :
    queuedInputs inherit stkIn [] = leftoverInputs stkIn := by
  unfold queuedInputs
  rw [if_neg (by simp)]
  rfl

theorem queuedInputs_static (inherit : Bool) (stkIn : Nat) {pstack : List Value}
    (hp : ∀ v ∈ pstack, v.below b.next) : Inputs b stkIn (queuedInputs inherit stkIn pstack b) := by
  unfold queuedInputs
  split
  · -- registers of the predecessor, and the rest from memory
    have hlen : (pstack.take stkIn).length ≤ stkIn := by
      rw [List.length_take]
      omega
    obtain ⟨hb, hle, hu, hl⟩ := popCallsN_mem_static (stkIn - (pstack.take stkIn).length)
      (b := { (lowerSp (pstack.take stkIn).length b).2 with enableRegs := false }) rfl
    have hle' : b.next ≤ _ := Nat.le_trans (Nat.le_add_right b.next 2) hle
    refine ⟨?_, hle', hu.locals, hu.term, hu.cases, ?_⟩
    · intro v hv
      rcases List.mem_append.mp hv with hv | hv
      · exact Value.below_mono (hp v (List.mem_of_mem_take hv)) hle'
      · exact hb v hv
    · refine List.length_append.trans ((congrArg ((pstack.take stkIn).length + ·) hl).trans ?_)
      show (pstack.take stkIn).length + (stkIn - (pstack.take stkIn).length) = stkIn
      omega
  · exact leftoverInputs_static stkIn b

theorem pushAll_regs : ∀ (vs : List Value) {b : Builder}, b.enableRegs = true →
    pushAll vs b = ((), { b with locals := vs.reverse ++ b.locals }) := by
  intro vs
  induction vs with
  | nil => intro b _; rfl
  | cons v vs ih =>
    intro b h
    show pushAll vs (GlobalStack.push v b).2 = _
    rw [push_regs h, ih (b := { b with locals := v :: b.locals }) h]
    simp

end Inputs

/-! ## §3 — the finished block. -/

section Finished

variable {env : CompileEnv} {code : List Byte} {bb : BasicBlock} {i : Nat} {next : Label}
  {depStk : List Value} {b : Builder}

/-- The insertion point at the first instruction. -/
def bodyStart (depStk : List Value) (b : Builder) : Builder :=
  { b with enableRegs := true, locals := depStk ++ b.locals }

/-- The insertion point behind the last instruction. -/
def bodyEnd (env : CompileEnv) (code : List Byte) (bb : BasicBlock) (i : Nat) (next : Label)
    (depStk : List Value) (b : Builder) : Builder :=
  (compileBasicBlock env code bb i next (bodyStart depStk b)).2

/-- The spill of a view, and `clearLocals()`. -/
def spill (e : Builder) : Builder :=
  { (pushAll e.locals.reverse { e with enableRegs := false }).2 with locals := [] }

theorem compileWith_eq : compileWith env code bb i next depStk b =
    ((bodyEnd env code bb i next depStk b).locals,
      spill (bodyEnd env code bb i next depStk b)) := by
  show (let p := pushAll depStk.reverse { b with enableRegs := true }
    let e := (compileBasicBlock env code bb i next p.2).2
    (e.locals,
      { (pushAll e.locals.reverse { e with enableRegs := false }).2 with locals := [] })) = _
  rw [pushAll_regs _ rfl, List.reverse_reverse]
  rfl

theorem spill_quiet (e : Builder) : e.Quiet (spill e) := by
  have h := quiets_pushAll e.locals.reverse { e with enableRegs := false }
  exact ⟨h.next_le, h.code, h.term, h.cases⟩

theorem bodyStart_open (hd : ∀ v ∈ depStk, v.below b.next) (hl : b.locals = [])
    (ht : b.term = none) : (bodyStart depStk b).Open := by
  refine ⟨rfl, ht, fun v hv => ?_⟩
  have hv : v ∈ depStk ++ b.locals := hv
  rw [hl, List.append_nil] at hv
  exact hd v hv

variable (env i next) in
/-- The body of a block, walked up to a position that only plain instructions precede. -/
theorem compileBasicBlock_reaches (hg : GoodBlock code bb) (h : b.Open) {t : Nat}
    (ht : StandsAt code bb t) (hle : bb.firstInstrIdx ≤ t)
    (hplain : ∀ u, Boundary code u → bb.firstInstrIdx ≤ u → u < t → (instAt code u).plain = true) :
    ∃ fuel b', compileBasicBlock env code bb i next b =
        compileBasicBlockLoop env code bb i next fuel t b' ∧ bb.endIdx ≤ t + fuel ∧
      Advance b b' (if bb.firstInstrIdx < t ∧ instAt code bb.firstInstrIdx = .JUMPDEST then
        [caseFor bb i] else []) := by
  have hlt := hg.first_lt
  have hstart : StandsAt code bb bb.firstInstrIdx :=
    Or.inl ⟨hg.first_boundary, Nat.le_refl _, hlt⟩
  obtain ⟨fuel, b', heq, hf, hadv⟩ := compileBasicBlockLoop_reaches env i next
    hg ht (bb.endIdx - bb.firstInstrIdx) bb.firstInstrIdx b h hstart hle (by omega)
    hplain
  refine ⟨fuel, b', heq, hf, ?_⟩
  simpa only [true_and] using hadv

variable (env i next) in
/-- The walk up to a closing instruction, and that instruction. -/
theorem bodyEnd_closing (hg : GoodBlock code bb) (h : (bodyStart depStk b).Open) {t : Nat}
    (ht : Boundary code t) (hf : bb.firstInstrIdx ≤ t) (hlt : t < bb.endIdx)
    (hc : (instAt code t).endsBlock = true)
    (hplain : ∀ u, Boundary code u → bb.firstInstrIdx ≤ u → u < t → (instAt code u).plain = true) :
    ∃ b', Advance (bodyStart depStk b) b' (if bb.firstInstrIdx < t ∧
          instAt code bb.firstInstrIdx = .JUMPDEST then [caseFor bb i] else []) ∧
      bodyEnd env code bb i next depStk b =
        (compileInst env bb i next t (instAt code t) b').2 := by
  obtain ⟨fuel, b', heq, hfuel, hadv⟩ := compileBasicBlock_reaches env i next
    hg h (Or.inl ⟨ht, hf, hlt⟩) hf hplain
  refine ⟨b', hadv, ?_⟩
  obtain ⟨fuel, rfl⟩ : ∃ k, fuel = k + 1 := ⟨fuel - 1, by omega⟩
  have hpush : ∀ n, instAt code t ≠ .PUSH n := by
    intro n hn
    rw [hn] at hc
    cases hc
  have hund : ∀ x, instAt code t ≠ .UNDEFINED x := by
    intro x hx
    rw [hx] at hc
    cases hc
  have hend : t + 1 = bb.endIdx := by
    rw [← instrEnd_of_ne_push hpush]
    exact hg.ends_last t ht hf hlt hc
  rw [bodyEnd, heq, compileBasicBlockLoop_inst (Nat.ne_of_lt hlt) hpush hund, hend,
    compileBasicBlockLoop_end]

/-- **The body of any block**: what is left on the register stack is defined, and a case is added to
the jump table exactly when the block opens with `JUMPDEST`. -/
theorem bodyEnd_closed (hg : GoodBlock code bb) (h : (bodyStart depStk b).Open) :
    Closed (bodyStart depStk b) (bodyEnd env code bb i next depStk b)
      (if instAt code bb.firstInstrIdx = .JUMPDEST then [caseFor bb i] else []) := by
  by_cases hall : ∀ u, Boundary code u → bb.firstInstrIdx ≤ u → u < bb.endIdx →
      (instAt code u).plain = true
  · obtain ⟨fuel, b', heq, -, hadv⟩ := compileBasicBlock_reaches env i next hg h (Or.inr rfl)
      hg.first_lt.le hall
    rw [bodyEnd, heq, compileBasicBlockLoop_end]
    simpa only [hg.first_lt, true_and] using hadv.closed
  · -- the walk stops at the first instruction that is not plain
    obtain ⟨t, ⟨htb, htf, htl, htn⟩, hmin⟩ : ∃ t, (Boundary code t ∧ bb.firstInstrIdx ≤ t ∧
        t < bb.endIdx ∧ (instAt code t).plain ≠ true) ∧ ∀ u, u < t → ¬ (Boundary code u ∧
        bb.firstInstrIdx ≤ u ∧ u < bb.endIdx ∧ (instAt code u).plain ≠ true) := by
      have hex : ∃ t, Boundary code t ∧ bb.firstInstrIdx ≤ t ∧ t < bb.endIdx ∧
          (instAt code t).plain ≠ true := by
        push Not at hall
        exact hall
      classical
      exact ⟨Nat.find hex, Nat.find_spec hex, fun u hu => Nat.find_min hex hu⟩
    have hplain : ∀ u, Boundary code u → bb.firstInstrIdx ≤ u → u < t →
        (instAt code u).plain = true := by
      intro u hu h1 h2
      by_contra hn
      exact hmin u h2 ⟨hu, h1, by omega, hn⟩
    have hcond : (bb.firstInstrIdx < t ∧ instAt code bb.firstInstrIdx = .JUMPDEST) ↔
        instAt code bb.firstInstrIdx = .JUMPDEST := by
      refine ⟨fun h => h.2, fun hj => ⟨?_, hj⟩⟩
      rcases Nat.lt_or_eq_of_le htf with h | rfl
      · exact h
      · rw [hj] at htn
        exact absurd rfl htn
    by_cases hc : (instAt code t).endsBlock = true
    · obtain ⟨b', hadv, heq⟩ := bodyEnd_closing env i next hg h htb htf htl hc hplain
      rw [heq]
      simpa only [hcond] using hadv.trans_closed (compileInst_closed hadv.isOpen hc t)
    · obtain ⟨fuel, b', heq, hfuel, hadv⟩ := compileBasicBlock_reaches env i next hg h
        (Or.inl ⟨htb, htf, htl⟩) htf hplain
      obtain ⟨fuel, rfl⟩ : ∃ k, fuel = k + 1 := ⟨fuel - 1, by omega⟩
      obtain ⟨x, hx⟩ : ∃ x, instAt code t = .UNDEFINED x := by
        cases hi : instAt code t with
        | UNDEFINED x => exact ⟨x, rfl⟩
        | _ =>
          rw [hi] at hc htn
          simp only [Instruction.plain, hc] at htn
          exact absurd rfl htn
      have hstep : Closed b' (compileBasicBlockLoop env code bb i next (fuel + 1) t b').2 [] := by
        unfold compileBasicBlockLoop
        rw [if_neg (Nat.ne_of_lt htl), hx]
        exact ⟨hadv.isOpen.below, Nat.le_refl _, (List.append_nil _).symm⟩
      rw [bodyEnd, heq]
      simpa only [hcond] using hadv.trans_closed hstep

/-- **A block that ends in `JUMP`**: the destination goes to `target`, and only quiet code
follows. -/
def EndsInJump (b : Builder) (idx : Value) : Prop :=
  ∃ pre post n, b.code = pre ++ .store idx .target :: post ∧ (∀ x ∈ post, x.Quiet n) ∧
    idx.below n ∧ b.term = some (.br .jumpTable (some idx))

/-- **A block that ends in `JUMPI`**: the same, behind the test of the condition. -/
def EndsInJumpi (b : Builder) (next : Label) (idx rawCond : Value) : Prop :=
  ∃ pre post n, b.code = pre ++ .icmpNE n rawCond :: .store idx .target :: post ∧
    (∀ x ∈ post, x.Quiet (n + 1)) ∧ idx.below n ∧ rawCond.below n ∧
    b.term = some (.condBr (.reg .i1 n) .jumpTable next (some idx))

/-- The spill behind a `JUMP` is quiet. -/
theorem endsInJump_spill {e : Builder} {pre : List Instr} {idx : Value}
    (hcode : e.code = pre ++ [.store idx .target]) (hb : idx.below e.next)
    (hterm : e.term = some (.br .jumpTable (some idx))) : EndsInJump (spill e) idx := by
  have hs := spill_quiet e
  obtain ⟨post, hpost, hq⟩ := hs.code
  refine ⟨pre, post, e.next, ?_, hq, hb, hs.term.trans hterm⟩
  rw [hpost, hcode, List.append_assoc]
  rfl

theorem endsInJumpi_spill {e : Builder} {next : Label} {pre : List Instr} {idx rawCond : Value}
    {n : Nat} (hcode : e.code = pre ++ [.icmpNE n rawCond, .store idx .target])
    (hn : e.next = n + 1) (hb : idx.below n) (hc : rawCond.below n)
    (hterm : e.term = some (.condBr (.reg .i1 n) .jumpTable next (some idx))) :
    EndsInJumpi (spill e) next idx rawCond := by
  have hs := spill_quiet e
  obtain ⟨post, hpost, hq⟩ := hs.code
  rw [hn] at hq
  refine ⟨pre, post, n, ?_, hq, hb, hc, hs.term.trans hterm⟩
  rw [hpost, hcode, List.append_assoc]
  rfl

theorem spill_jump (hg : GoodBlock code bb) (h : (bodyStart depStk b).Open) {t : Nat}
    (ht : Boundary code t) (hf : bb.firstInstrIdx ≤ t) (hlt : t < bb.endIdx)
    (hj : instAt code t = .JUMP)
    (hplain : ∀ u, Boundary code u → bb.firstInstrIdx ≤ u → u < t → (instAt code u).plain = true) :
    ∃ idx, EndsInJump (spill (bodyEnd env code bb i next depStk b)) idx := by
  obtain ⟨b', hadv, heq⟩ := bodyEnd_closing env i next hg h ht hf hlt
    (by rw [hj]; rfl) hplain
  rw [hj, compileInst_jump hadv.isOpen.regs] at heq
  rw [heq]
  exact ⟨_, endsInJump_spill rfl hadv.isOpen.below_headD rfl⟩

theorem spill_jumpi (hg : GoodBlock code bb) (h : (bodyStart depStk b).Open) {t : Nat}
    (ht : Boundary code t) (hf : bb.firstInstrIdx ≤ t) (hlt : t < bb.endIdx)
    (hj : instAt code t = .JUMPI)
    (hplain : ∀ u, Boundary code u → bb.firstInstrIdx ≤ u → u < t → (instAt code u).plain = true) :
    ∃ idx rawCond, EndsInJumpi (spill (bodyEnd env code bb i next depStk b)) next idx rawCond := by
  obtain ⟨b', hadv, heq⟩ := bodyEnd_closing env i next hg h ht hf hlt
    (by rw [hj]; rfl) hplain
  rw [hj, compileInst_jumpi hadv.isOpen.regs] at heq
  rw [heq]
  exact ⟨_, _, endsInJumpi_spill rfl rfl hadv.isOpen.below_headD hadv.isOpen.below_second rfl⟩

end Finished

end EvmTrans
