/-
# `EvmTrans.StackModes` — the two modes of `GlobalStack` are one stack.

With `enableRegs` the four operations move values in the vector `m_local`, counted from its back;
without it they emit loads and stores of `mstk`, addressed downwards from `spPtr`. §1 gives
sequences of operations three meanings: as code of either mode, and as a list. §2 follows the
register mode, which emits nothing, §3 the memory mode, whose loads have to see the stores in front
of them. §4 puts them side by side: they agree as long as the array has the slots, and only the
memory mode needs them in between.
-/
import EvmTrans.StackBound
import EvmTrans.StackRep

namespace EvmTrans

/-! ## §1 — sequences of operations. -/

/-- What is pushed: a value at hand before the sequence, or one that the sequence has popped. -/
inductive Pushed where
  | given (v : Value)
  | popped (j : Nat)

/-- An operation of `GlobalStack`: `dup index` is `DUP(index + 1)`, and `swap index` is
`SWAP(index + 1)`. -/
inductive StackOp where
  | push (a : Pushed)
  | pop
  | dup (index : Nat)
  | swap (index : Nat)

/-- `vals` are the values popped so far. -/
def Pushed.value (vals : List Value) : Pushed → Value
  | .given v => v
  | .popped j => vals.getD j (constWord 0)

def Pushed.word (env : Nat → Word) (ps : List Word) : Pushed → Word
  | .given v => v.denote env
  | .popped j => ps.getD j 0

/-- An operation in the mode of the builder; the values popped so far. -/
def StackOp.emit (vals : List Value) : StackOp → Build (List Value)
  | .push a => do
    GlobalStack.push (a.value vals)
    return vals
  | .pop => do
    let v ← GlobalStack.pop
    return vals ++ [v]
  | .dup index => do
    GlobalStack.dup index
    return vals
  | .swap index => do
    GlobalStack.swap index
    return vals

def emitOps : List StackOp → List Value → Build (List Value)
  | [], vals => return vals
  | op :: seq, vals => do
    let vals ← op.emit vals
    emitOps seq vals

/-- `k` words into registers, the sequence on registers, and the spill, as `compileMain` does around
a block. -/
def viaRegisters (k : Nat) (seq : List StackOp) : Build (List Value) := do
  GlobalStack.setRegs false
  let depStk ← popCallsN k
  GlobalStack.setRegs true
  pushAll depStk.reverse
  let vals ← emitOps seq []
  GlobalStack.setRegs false
  let view := (← get).locals
  pushAll view.reverse
  modify fun b => { b with locals := [] }
  return vals

/-- The sequence on the stack in memory. -/
def viaMemory (seq : List StackOp) : Build (List Value) := do
  GlobalStack.setRegs false
  emitOps seq []

/-- The EVM's meaning on a stack and the words popped so far: `DUPn` copies the `n`-th word, `SWAPn`
exchanges the first and the `n + 1`-st. `none` is an underflow. -/
def StackOp.eval (env : Nat → Word) : StackOp → List Word → List Word →
    Option (List Word × List Word)
  | .push a, st, ps => some (a.word env ps :: st, ps)
  | .pop, x :: st, ps => some (st, ps ++ [x])
  | .pop, [], _ => none
  | .dup index, st, ps => st[index]?.map fun x => (x :: st, ps)
  | .swap index, st, ps =>
    match st[0]?, st[index + 1]? with
    | some x, some y => some ((st.set (index + 1) x).set 0 y, ps)
    | _, _ => none

def evalOps (env : Nat → Word) : List StackOp → List Word → List Word →
    Option (List Word × List Word)
  | [], st, ps => some (st, ps)
  | op :: seq, st, ps => (op.eval env st ps).bind fun r => evalOps env seq r.1 r.2

/-- The heights of the stack, from the first to the last. -/
def heights (env : Nat → Word) : List StackOp → List Word → List Word → List Nat
  | [], st, _ => [st.length]
  | op :: seq, st, ps =>
    st.length :: match op.eval env st ps with
      | some r => heights env seq r.1 r.2
      | none => []

/-- The values that the sequence is given are defined. -/
def StackOp.Below (n : Nat) : StackOp → Prop
  | .push (.given v) => v.below n
  | _ => True

variable {env : Nat → Word} {op : StackOp} {seq : List StackOp} {st st' rest ps ps' : List Word}

theorem StackOp.eval_swap {index : Nat}
    (h : (StackOp.swap index).eval env st ps = some (st', ps')) :
    ∃ x y, st[0]? = some x ∧ st[index + 1]? = some y ∧
      ((st.set (index + 1) x).set 0 y, ps) = (st', ps') := by
  simp only [StackOp.eval] at h
  cases hx : st[0]? with
  | none => simp only [hx] at h; cases h
  | some x =>
    cases hy : st[index + 1]? with
    | none => simp only [hx, hy] at h; cases h
    | some y =>
      simp only [hx, hy] at h
      exact ⟨x, y, rfl, rfl, Option.some.inj h⟩

/-- Words below the ones in use do not matter. -/
theorem StackOp.eval_append (h : op.eval env st ps = some (st', ps')) :
    op.eval env (st ++ rest) ps = some (st' ++ rest, ps') := by
  cases op with
  | push a => cases h; rfl
  | pop =>
    cases st with
    | nil => cases h
    | cons x st => cases h; rfl
  | dup index =>
    obtain ⟨x, hx, heq⟩ := Option.map_eq_some_iff.mp h
    cases heq
    have hlt := (List.getElem?_eq_some_iff.mp hx).1
    show ((st ++ rest)[index]?).map _ = _
    rw [List.getElem?_append_left hlt, hx]
    rfl
  | swap index =>
    obtain ⟨x, y, hx, hy, heq⟩ := StackOp.eval_swap h
    cases heq
    have hlt := (List.getElem?_eq_some_iff.mp hy).1
    simp only [StackOp.eval]
    rw [List.getElem?_append_left (by omega), List.getElem?_append_left hlt, hx, hy]
    simp only
    rw [List.set_append_left _ _ hlt, List.set_append_left _ _ (by rw [List.length_set]; omega)]

theorem evalOps_append : ∀ {seq : List StackOp} {st ps : List Word}, evalOps env seq st ps =
    some (st', ps') → evalOps env seq (st ++ rest) ps = some (st' ++ rest, ps') := by
  intro seq
  induction seq with
  | nil =>
    intro st ps h
    cases h
    rfl
  | cons op seq ih =>
    intro st ps h
    obtain ⟨⟨st₁, ps₁⟩, hop, h⟩ := Option.bind_eq_some_iff.mp h
    unfold evalOps
    rw [StackOp.eval_append hop]
    exact ih h

theorem head_mem_heights : st.length ∈ heights env seq st ps := by
  cases seq with
  | nil => exact List.mem_singleton_self _
  | cons op seq => exact List.mem_cons_self

/-- The last height is that of the result. -/
theorem length_mem_heights : ∀ {seq : List StackOp} {st ps : List Word}, evalOps env seq st ps =
    some (st', ps') → st'.length ∈ heights env seq st ps := by
  intro seq
  induction seq with
  | nil =>
    intro st ps h
    cases h
    exact List.mem_singleton_self _
  | cons op seq ih =>
    intro st ps h
    obtain ⟨⟨st₁, ps₁⟩, hop, h⟩ := Option.bind_eq_some_iff.mp h
    unfold heights
    rw [hop]
    exact List.mem_cons_of_mem _ (ih h)

/-! ## §2 — the register mode. -/

/-- The values popped so far denote `ps`; `n` and `env` are the registers and their words before the
sequence. -/
structure Popped (n : Nat) (env : Nat → Word) (b : Builder) (env' : Nat → Word) (vals : List Value)
    (ps : List Word) : Prop where
  next_le : n ≤ b.next
  frame : ∀ i, i < n → env' i = env i
  below : ∀ v ∈ vals, v.below b.next
  denote : vals.map (Value.denote env') = ps

section Values

variable {n : Nat} {b b' : Builder} {env' env'' : Nat → Word} {vals : List Value} {a : Pushed}

theorem Popped.value_below (h : Popped n env b env' vals ps) (ha : (StackOp.push a).Below n) :
    (a.value vals).below b.next := by
  cases a with
  | given v => exact Value.below_mono ha h.next_le
  | popped j => exact forall_getD trivial h.below j

/-- What is pushed denotes the word that the list semantics pushes. -/
theorem Popped.value_denote (h : Popped n env b env' vals ps) (ha : (StackOp.push a).Below n) :
    (a.value vals).denote env' = a.word env ps := by
  cases a with
  | given v => exact Value.denote_congr ha h.frame
  | popped j =>
    show (vals.getD j (constWord 0)).denote env' = ps.getD j 0
    rw [← h.denote, List.getD_eq_getElem?_getD, List.getD_eq_getElem?_getD, List.getElem?_map]
    cases vals[j]? with
    | none => rfl
    | some v => rfl

theorem Popped.append (h : Popped n env b env' vals ps) {v : Value} {x : Word} (hv : v.below b.next)
    (hx : v.denote env' = x) : Popped n env b env' (vals ++ [v]) (ps ++ [x]) where
  next_le := h.next_le
  frame := h.frame
  below := by
    intro u hu
    rcases List.mem_append.mp hu with hu | hu
    · exact h.below u hu
    · rw [List.mem_singleton.mp hu]
      exact hv
  denote := by rw [List.map_append, h.denote, List.map_singleton, hx]

/-- Code behind keeps the values. -/
theorem Popped.mono (h : Popped n env b env' vals ps) (hle : b.next ≤ b'.next)
    (hframe : ∀ i, i < b.next → env'' i = env' i) : Popped n env b' env'' vals ps where
  next_le := Nat.le_trans h.next_le hle
  frame := fun i hi => (hframe i (Nat.lt_of_lt_of_le hi h.next_le)).trans (h.frame i hi)
  below := fun v hv => Value.below_mono (h.below v hv) hle
  denote := by
    rw [← h.denote]
    exact List.map_congr_left fun v hv => Value.denote_congr (h.below v hv) hframe

end Values

/-- The registers hold the words `st`. -/
structure InRegisters (b : Builder) (env : Nat → Word) (st : List Word) : Prop where
  regs : b.enableRegs = true
  below : ∀ v ∈ b.locals, v.below b.next
  denote : b.locals.map (Value.denote env) = st

section Registers

variable {n : Nat} {b : Builder} {env' : Nat → Word} {vals : List Value}

theorem InRegisters.getElem? (h : InRegisters b env' st) {i : Nat} {x : Word}
    (hx : st[i]? = some x) :
    (b.locals.getD i (constWord 0)).denote env' = x ∧ i < b.locals.length := by
  rw [← h.denote, List.getElem?_map] at hx
  obtain ⟨v, hv, rfl⟩ := Option.map_eq_some_iff.mp hx
  rw [List.getD_eq_getElem?_getD, hv]
  exact ⟨rfl, (List.getElem?_eq_some_iff.mp hv).1⟩

/-- **One operation on registers** changes `m_local`, and nothing else of the builder. -/
theorem StackOp.emit_regs (h : InRegisters b env' st) (hp : Popped n env b env' vals ps)
    (hb : op.Below n) (he : op.eval env st ps = some (st', ps')) :
    ∃ vals' l, op.emit vals b = (vals', { b with locals := l }) ∧
      InRegisters { b with locals := l } env' st' ∧
      Popped n env { b with locals := l } env' vals' ps' := by
  have hkeep : ∀ l, Popped n env { b with locals := l } env' vals ps := fun l =>
    ⟨hp.next_le, hp.frame, hp.below, hp.denote⟩
  cases op with
  | push a =>
    cases he
    refine ⟨vals, a.value vals :: b.locals, ?_, ⟨h.regs, ?_, ?_⟩, hkeep _⟩
    · show (let p := GlobalStack.push (a.value vals) b; (vals, p.2)) = _
      rw [push_regs h.regs]
    · exact List.forall_mem_cons.mpr ⟨hp.value_below hb, h.below⟩
    · rw [List.map_cons, h.denote, hp.value_denote hb]
  | pop =>
    cases hst : st with
    | nil => rw [hst] at he; cases he
    | cons x st₁ =>
      rw [hst] at he
      cases he
      have hx := h.getElem? (i := 0) (x := x) (by rw [hst]; rfl)
      refine ⟨vals ++ [b.locals.headD (constWord 0)], b.locals.tail, ?_, ⟨h.regs, ?_, ?_⟩, ?_⟩
      · show (let p := GlobalStack.pop b; (vals ++ [p.1], p.2)) = _
        rw [pop_regs h.regs]
      · exact fun v hv => h.below v (List.mem_of_mem_tail hv)
      · rw [List.map_tail, h.denote, hst]
        rfl
      · rw [List.headD_eq_head?_getD, List.head?_eq_getElem?, ← List.getD_eq_getElem?_getD]
        exact (hkeep _).append (forall_getD trivial h.below 0) hx.1
  | dup index =>
    obtain ⟨x, hx, heq⟩ := Option.map_eq_some_iff.mp he
    cases heq
    refine ⟨vals, b.locals.getD index (constWord 0) :: b.locals, ?_, ⟨h.regs, ?_, ?_⟩, hkeep _⟩
    · show (let p := GlobalStack.dup index b; (vals, p.2)) = _
      rw [dup_regs h.regs]
    · exact List.forall_mem_cons.mpr ⟨forall_getD trivial h.below index, h.below⟩
    · rw [List.map_cons, h.denote, (h.getElem? hx).1]
  | swap index =>
    obtain ⟨x, y, hx, hy, heq⟩ := StackOp.eval_swap he
    cases heq
    refine ⟨vals, swapLocals index b.locals, ?_, ⟨h.regs, ?_, ?_⟩, hkeep _⟩
    · show (let p := GlobalStack.swap index b; (vals, p.2)) = _
      rw [swap_regs h.regs]
    · exact forall_swapLocals trivial h.below index
    · have hlt := (h.getElem? hy).2
      rw [swapLocals, if_neg (by omega), List.map_set, List.map_set, h.denote, (h.getElem? hx).1,
        (h.getElem? hy).1]

/-- A sequence on registers, by induction on the operations left. -/
theorem emitOps_regs : ∀ {seq : List StackOp} {b : Builder} {vals : List Value} {st ps : List Word},
    InRegisters b env' st → Popped n env b env' vals ps → (∀ op ∈ seq, op.Below n) →
    evalOps env seq st ps = some (st', ps') →
    ∃ vals' l, emitOps seq vals b = (vals', { b with locals := l }) ∧
      InRegisters { b with locals := l } env' st' ∧
      Popped n env { b with locals := l } env' vals' ps' := by
  intro seq
  induction seq with
  | nil =>
    intro b vals st ps h hp _ he
    cases he
    exact ⟨vals, b.locals, rfl, h, hp⟩
  | cons op seq ih =>
    intro b vals st ps h hp hb he
    obtain ⟨hop, hseq⟩ := List.forall_mem_cons.mp hb
    obtain ⟨⟨st₁, ps₁⟩, he₁, he⟩ := Option.bind_eq_some_iff.mp he
    obtain ⟨vals₁, l₁, hemit, h₁, hp₁⟩ := StackOp.emit_regs h hp hop he₁
    obtain ⟨vals', l, hrest, h', hp'⟩ := ih h₁ hp₁ hseq he
    refine ⟨vals', l, ?_, h', hp'⟩
    show (let p := op.emit vals b; emitOps seq p.1 p.2) = _
    rw [hemit]
    exact hrest

end Registers

/-! ## §3 — the memory mode. -/

section Memory

variable {W : Type} {ops : Ops W} {b b' : Builder} {s s' : St W} {v : Value} {p : Ptr} {x : Word}
  {n index i : Nat} {env' : Nat → Word} {vals : List Value}

/-- `p` points at slot `i` of `mstk`. -/
structure StackSlot (b : Builder) (s : St W) (p : Ptr) (i : Nat) : Prop where
  lt : i < 512
  index : ∃ v : Value, p = .mstk v ∧ v.below b.next ∧ (v.denote s.env).toNat = i

theorem StackSlot.mono (h : StackSlot b s p i) (he : Emits ops b s b' s') :
    StackSlot b' s' p i := by
  obtain ⟨v, rfl, hv, hi⟩ := h.index
  exact ⟨h.lt, v, rfl, Value.below_mono hv he.next_le, by rw [he.denote_eq hv, hi]⟩

variable (ops) in
/-- `getPtr` counts from the top: index 0 is the slot of the first word. -/
theorem getPtr_rep (h : RepStack s st) (hlt : index < st.length) :
    Emitted ops (GlobalStack.getPtr index) b s fun p b' s' => b.Untouched b' ∧
      StackSlot b' s' p (st.length - index) ∧ SameStack s s' := by
  have hh := h.height
  unfold GlobalStack.getPtr createLoad createSub
  refine Emitted.bind (Emitted.emitReg (x := s.sp) rfl fun _ => ?_)
  split
  · refine Emitted.bind
      (Emitted.emitReg (x := s.sp - BitVec.ofNat 256 index) ?_ fun _ => Emitted.pure ?_)
    · simp [execInstr, constWord]
    · refine ⟨⟨rfl, rfl, rfl, rfl⟩, ⟨by omega, _, rfl, Nat.lt_succ_self _, ?_⟩, rfl, rfl, rfl, rfl⟩
      rw [Value.denote_reg, define_env_self, h.sp, ofNat_sub_ofNat (by omega) hlt.le,
        toNat_ofNat_height (by omega)]
  · refine Emitted.pure ⟨⟨rfl, rfl, rfl, rfl⟩, ⟨by omega, _, rfl, Nat.lt_succ_self _, ?_⟩, rfl,
      rfl, rfl, rfl⟩
    rw [Value.denote_reg, define_env_self, h.toNat_sp]
    omega

variable (ops) in
theorem loadSlot (hp : StackSlot b s p i) :
    Emitted ops (createLoad p) b s fun v b' s' => b.Untouched b' ∧
    v.below b'.next ∧ v.denote s'.env = s.mstk i ∧ SameStack s s' := by
  obtain ⟨idx, rfl, -, hi⟩ := hp.index
  refine Emitted.emitReg (x := s.mstk i) ?_
    ⟨⟨rfl, rfl, rfl, rfl⟩, Nat.lt_succ_self _, ?_, rfl, rfl, rfl, rfl⟩
  · simp only [execInstr, St.read, hi, if_pos hp.lt]
  · rw [Value.denote_reg, define_env_self]

theorem storeSlot (hp : StackSlot b s p i) :
    Emitted ops (createStore v p) b s fun _ b' s' => b.Untouched b' ∧
    s'.sp = s.sp ∧ s'.mstk = Function.update s.mstk i (v.denote s.env) := by
  obtain ⟨idx, rfl, -, hi⟩ := hp.index
  refine Emitted.emit (t := { s with mstk := Function.update s.mstk i (v.denote s.env) }) ?_ rfl
    ⟨⟨rfl, rfl, rfl, rfl⟩, rfl, rfl⟩
  simp only [execInstr, St.write, hi, if_pos hp.lt]

/-- A store to the slot of a word in use. -/
theorem RepStack.set (h : RepStack s st) {j : Nat} (hj : j < st.length) (hsp : s'.sp = s.sp)
    (hm : s'.mstk = Function.update s.mstk (st.length - j) x) : RepStack s' (st.set j x) := by
  refine ⟨by rw [List.length_set]; exact h.height, by rw [hsp, h.sp, List.length_set],
    fun k hk => ?_⟩
  rw [List.length_set] at hk
  rw [hm, show (st.set j x).length - k = st.length - k by rw [List.length_set], List.getElem_set]
  by_cases heq : j = k
  · rw [if_pos heq, heq, Function.update_self]
  · rw [if_neg heq, Function.update_of_ne (by omega), h.slots k hk]

theorem RepStack.same (h : RepStack s st) (hsame : SameStack s s') : RepStack s' st :=
  h.congr hsame.sp hsame.mstk

/-- The word in the slot of index `index`. -/
theorem RepStack.mstk_eq (h : RepStack s st) (hx : st[index]? = some x) :
    s.mstk (st.length - index) = x := by
  obtain ⟨hlt, hx⟩ := List.getElem?_eq_some_iff.mp hx
  rw [h.slots index hlt, hx]

theorem dup_rep (hr : b.enableRegs = false) (h : RepStack s st) (hx : st[index]? = some x)
    (hlt : st.length < 511) :
    Emitted ops (GlobalStack.dup index) b s fun _ b' s' => b.Untouched b' ∧
    RepStack s' (x :: st) := by
  unfold GlobalStack.dup
  refine Emitted.bind (Emitted.get fun _ => ?_)
  rw [hr, if_neg Bool.false_ne_true]
  refine Emitted.bind ((getPtr_rep ops h (List.getElem?_eq_some_iff.mp hx).1).imp ?_)
  rintro p b₁ s₁ - ⟨hu₁, hp, hsame₁⟩ -
  refine Emitted.bind ((loadSlot ops hp).imp ?_)
  rintro v b₂ s₂ - ⟨hu₂, hvb, hv, hsame₂⟩ -
  have hu := hu₁.trans hu₂
  apply (push_rep (hu.enableRegs.trans hr) hvb ((h.same hsame₁).same hsame₂) hlt).imp
  rintro _ b₃ s₃ - ⟨hu₃, hrep, -⟩
  rw [hv, (h.same hsame₁).mstk_eq hx] at hrep
  exact ⟨hu.trans hu₃, hrep⟩

/-- `swap` has both words in registers before the first store. -/
theorem swap_rep {y : Word} (hr : b.enableRegs = false) (h : RepStack s st) (hx : st[0]? = some x)
    (hy : st[index + 1]? = some y) :
    Emitted ops (GlobalStack.swap index) b s fun _ b' s' => b.Untouched b' ∧
      RepStack s' ((st.set (index + 1) x).set 0 y) := by
  have hlt := (List.getElem?_eq_some_iff.mp hy).1
  unfold GlobalStack.swap
  refine Emitted.bind (Emitted.get fun _ => ?_)
  rw [hr, if_neg Bool.false_ne_true]
  refine Emitted.bind ((getPtr_rep ops h (by omega : 0 < st.length)).imp ?_)
  rintro src b₁ s₁ - ⟨hu₁, hsrc, hsame₁⟩ -
  refine Emitted.bind ((loadSlot ops hsrc).imp ?_)
  rintro srcVal b₂ s₂ - ⟨hu₂, hsb, hsv, hsame₂⟩ -
  have h₂ := (h.same hsame₁).same hsame₂
  refine Emitted.bind ((getPtr_rep ops h₂ hlt).imp ?_)
  rintro dst b₃ s₃ he₃ ⟨hu₃, hdst, hsame₃⟩ -
  refine Emitted.bind ((loadSlot ops hdst).imp ?_)
  rintro dstVal b₄ s₄ he₄ ⟨hu₄, hdb, hdv, hsame₄⟩ -
  have h₄ := (h₂.same hsame₃).same hsame₄
  refine Emitted.bind ((getPtr_rep ops h₄ (by omega : 0 < st.length)).imp ?_)
  rintro top b₅ s₅ he₅ ⟨hu₅, htop, hsame₅⟩ -
  have h₅ := h₄.same hsame₅
  -- the two stores
  refine Emitted.bind ((storeSlot htop).imp ?_)
  rintro _ b₆ s₆ he₆ ⟨hu₆, hsp₆, hm₆⟩ -
  apply (storeSlot (((hdst.mono he₄).mono he₅).mono he₆)).imp
  rintro _ b₇ s₇ - ⟨hu₇, hsp₇, hm₇⟩
  refine ⟨(((((hu₁.trans hu₂).trans hu₃).trans hu₄).trans hu₅).trans hu₆).trans hu₇, ?_⟩
  have hd : dstVal.denote s₅.env = y := by
    rw [he₅.denote_eq hdb, hdv]
    exact (h₂.same hsame₃).mstk_eq hy
  have hs : srcVal.denote s₆.env = x := by
    rw [(((he₃.trans he₄).trans he₅).trans he₆).denote_eq hsb, hsv]
    exact (h.same hsame₁).mstk_eq hx
  rw [hd] at hm₆
  rw [hs] at hm₇
  have h₆ : RepStack s₆ (st.set 0 y) := h₅.set (j := 0) (by omega) hsp₆ hm₆
  rw [List.set_comm _ _ (Nat.succ_ne_zero index)]
  exact h₆.set (by rw [List.length_set]; exact hlt) hsp₇ (by rw [List.length_set]; exact hm₇)

variable (ops) in
/-- **One operation on the stack in memory**, when the array has the slot. -/
theorem StackOp.emit_mem (hr : b.enableRegs = false) (h : RepStack s st)
    (hp : Popped n env b s.env vals ps) (hb : op.Below n) (he : op.eval env st ps = some (st', ps'))
    (hlen : st'.length ≤ 511) :
    Emitted ops (op.emit vals) b s fun vals' b' s' => b'.enableRegs = false ∧ RepStack s' st' ∧
      Popped n env b' s'.env vals' ps' := by
  cases op with
  | push a =>
    cases he
    refine Emitted.bind ((push_rep hr (hp.value_below hb) h hlen).imp ?_)
    rintro _ b₁ s₁ hemits ⟨hu, hrep, -⟩ -
    rw [hp.value_denote hb] at hrep
    exact Emitted.pure ⟨hu.enableRegs.trans hr, hrep, hp.mono hemits.next_le hemits.frame⟩
  | pop =>
    cases hst : st with
    | nil => rw [hst] at he; cases he
    | cons x st₁ =>
      rw [hst] at he h
      cases he
      refine Emitted.bind ((pop_rep hr h).imp ?_)
      rintro v b₁ s₁ hemits ⟨hu, hvb, hv, hrep, -⟩ -
      exact Emitted.pure ⟨hu.enableRegs.trans hr, hrep,
        (hp.mono hemits.next_le hemits.frame).append hvb hv⟩
  | dup index =>
    obtain ⟨x, hx, heq⟩ := Option.map_eq_some_iff.mp he
    cases heq
    refine Emitted.bind ((dup_rep hr h hx hlen).imp ?_)
    rintro _ b₁ s₁ hemits ⟨hu, hrep⟩ -
    exact Emitted.pure ⟨hu.enableRegs.trans hr, hrep, hp.mono hemits.next_le hemits.frame⟩
  | swap index =>
    obtain ⟨x, y, hx, hy, heq⟩ := StackOp.eval_swap he
    cases heq
    refine Emitted.bind ((swap_rep hr h hx hy).imp ?_)
    rintro _ b₁ s₁ hemits ⟨hu, hrep⟩ -
    exact Emitted.pure ⟨hu.enableRegs.trans hr, hrep, hp.mono hemits.next_le hemits.frame⟩

/-- A sequence in memory, as long as no height is above 511; by induction on the operations left. -/
theorem emitOps_mem :
    ∀ {seq : List StackOp} {b : Builder} {s : St W} {vals : List Value} {st ps : List Word},
    b.enableRegs = false → RepStack s st → Popped n env b s.env vals ps → (∀ op ∈ seq, op.Below n) →
    evalOps env seq st ps = some (st', ps') → (∀ m ∈ heights env seq st ps, m ≤ 511) →
    Emitted ops (emitOps seq vals) b s fun vals' b' s' => b'.enableRegs = false ∧ RepStack s' st' ∧
      Popped n env b' s'.env vals' ps' := by
  intro seq
  induction seq with
  | nil =>
    intro b s vals st ps hr h hp _ he _
    cases he
    exact Emitted.pure ⟨hr, h, hp⟩
  | cons op seq ih =>
    intro b s vals st ps hr h hp hb he hlen
    obtain ⟨hop, hseq⟩ := List.forall_mem_cons.mp hb
    obtain ⟨⟨st₁, ps₁⟩, he₁, he⟩ := Option.bind_eq_some_iff.mp he
    unfold heights at hlen
    rw [he₁] at hlen
    have hlen := (List.forall_mem_cons.mp hlen).2
    refine Emitted.bind ((StackOp.emit_mem ops hr h hp hop he₁ (hlen _ head_mem_heights)).imp ?_)
    rintro vals₁ b₁ s₁ - ⟨hr₁, h₁, hp₁⟩ -
    exact ih hr₁ h₁ hp₁ hseq he hlen

/-! ### Above 511 words. -/

theorem pop_grows (b : Builder) : b.Grows (GlobalStack.pop b).2 := by
  cases hr : b.enableRegs with
  | false => exact pop_mem_grows hr
  | true =>
    rw [pop_regs hr]
    exact .of_code_eq rfl

/-- What is done with the address of a slot. -/
theorem Quiets.getPtr_bind {α : Type} {f : Ptr → Build α} (hf : ∀ p, p ≠ .target → Quiets (f p)) :
    Quiets (GlobalStack.getPtr index >>= f) :=
  fun b => (quiets_getPtr index b).trans (hf _ (getPtr_ne_target index b) _)

theorem dup_grows (index : Nat) (b : Builder) : b.Grows (GlobalStack.dup index b).2 := by
  cases hr : b.enableRegs with
  | false =>
    unfold GlobalStack.dup
    show b.Grows ((if b.enableRegs = true then _ else _ : Build Unit) b).2
    rw [if_neg (by rw [hr]; exact Bool.false_ne_true)]
    refine (Quiets.getPtr_bind (fun p hp => ?_) b).grows
    exact Quiets.bind (Quiets.emitReg fun _ => quiet_load hp) quiets_push
  | true =>
    rw [dup_regs hr]
    exact .of_code_eq rfl

theorem swap_grows (index : Nat) (b : Builder) : b.Grows (GlobalStack.swap index b).2 := by
  cases hr : b.enableRegs with
  | false =>
    unfold GlobalStack.swap
    show b.Grows ((if b.enableRegs = true then _ else _ : Build Unit) b).2
    rw [if_neg (by rw [hr]; exact Bool.false_ne_true)]
    refine (Quiets.getPtr_bind (fun src hsrc => ?_) b).grows
    refine Quiets.bind (Quiets.emitReg fun _ => quiet_load hsrc) fun srcVal => ?_
    refine Quiets.getPtr_bind fun dst hdst => ?_
    refine Quiets.bind (Quiets.emitReg fun _ => quiet_load hdst) fun dstVal => ?_
    refine Quiets.getPtr_bind fun top htop => ?_
    refine Quiets.bind (Quiets.emit fun _ => quiet_store htop) fun _ => ?_
    exact Quiets.emit fun _ => quiet_store hdst
  | true =>
    rw [swap_regs hr]
    exact .of_code_eq rfl

theorem StackOp.emit_grows (op : StackOp) (vals : List Value) (b : Builder) :
    b.Grows (op.emit vals b).2 := by
  cases op with
  | push a => exact (quiets_push (a.value vals) b).grows
  | pop => exact pop_grows b
  | dup index => exact dup_grows index b
  | swap index => exact swap_grows index b

theorem emitOps_grows : ∀ (seq : List StackOp) (vals : List Value) (b : Builder),
    b.Grows (emitOps seq vals b).2 := by
  intro seq
  induction seq with
  | nil => exact fun _ _ => .of_code_eq rfl
  | cons op seq ih => exact fun vals b => (op.emit_grows vals b).trans (ih _ _)

variable (ops) in
/-- The operation that would need the slot behind the array is a store there. -/
theorem StackOp.emit_overflow (vals : List Value) (hr : b.enableRegs = false) (h : RepStack s st)
    (he : op.eval env st ps = some (st', ps')) (hlen : 511 < st'.length) :
    ∃ is, (op.emit vals b).2.code = b.code ++ is ∧ execAll ops is s = .error .undefined := by
  have hh := h.height
  have hfull : ∀ {t : St W}, RepStack t st → st.length = 511 → 512 ≤ (t.sp + 1).toNat := by
    intro t ht hst
    rw [ht.sp_add_one, toNat_ofNat_height (by omega)]
    omega
  cases op with
  | push a =>
    cases he
    rw [List.length_cons] at hlen
    exact push_overflow ops hr (a.value vals) (hfull h (by omega))
  | pop =>
    cases hst : st with
    | nil => rw [hst] at he; cases he
    | cons x st₁ =>
      rw [hst] at he hh
      cases he
      rw [List.length_cons] at hh
      omega
  | dup index =>
    obtain ⟨x, hx, heq⟩ := Option.map_eq_some_iff.mp he
    cases heq
    rw [List.length_cons] at hlen
    -- the word is loaded, and then its push overflows
    obtain ⟨s₁, he₁, hu₁, hp, hsame₁⟩ := getPtr_rep ops (b := b) h
      (List.getElem?_eq_some_iff.mp hx).1
    obtain ⟨s₂, he₂, hu₂, -, -, hsame₂⟩ := loadSlot ops hp
    obtain ⟨is₁, hc₁, hr₁⟩ := (he₁.trans he₂).run
    obtain ⟨is₂, hc₂, hr₂⟩ := push_overflow ops ((hu₁.trans hu₂).enableRegs.trans hr)
      (createLoad (GlobalStack.getPtr index b).1 (GlobalStack.getPtr index b).2).1
      (hfull ((h.same hsame₁).same hsame₂) (by omega))
    refine ⟨is₁ ++ is₂, ?_, by rw [execAll_append, hr₁]; exact hr₂⟩
    rw [← List.append_assoc, ← hc₁, ← hc₂]
    show (GlobalStack.dup index b).2.code = _
    unfold GlobalStack.dup
    show ((if b.enableRegs = true then _ else _ : Build Unit) b).2.code = _
    rw [if_neg (by rw [hr]; exact Bool.false_ne_true)]
    rfl
  | swap index =>
    obtain ⟨x, y, -, -, heq⟩ := StackOp.eval_swap he
    cases heq
    rw [List.length_set, List.length_set] at hlen
    omega

/-- **A height above 511 leaves the array**, wherever in the sequence it is. -/
theorem emitOps_overflow : ∀ {seq : List StackOp} {b : Builder} {s : St W} {vals : List Value}
    {st ps : List Word}, b.enableRegs = false → RepStack s st → Popped n env b s.env vals ps →
    (∀ op ∈ seq, op.Below n) → evalOps env seq st ps = some (st', ps') →
    (∃ m ∈ heights env seq st ps, 511 < m) →
    ∃ is, (emitOps seq vals b).2.code = b.code ++ is ∧ execAll ops is s = .error .undefined := by
  intro seq
  induction seq with
  | nil =>
    intro b s vals st ps _ h _ _ _ hm
    obtain ⟨m, hm, hgt⟩ := hm
    rw [List.mem_singleton.mp hm] at hgt
    exact absurd h.height (Nat.not_le.mpr hgt)
  | cons op seq ih =>
    intro b s vals st ps hr h hp hb he hm
    obtain ⟨hop, hseq⟩ := List.forall_mem_cons.mp hb
    obtain ⟨⟨st₁, ps₁⟩, he₁, he⟩ := Option.bind_eq_some_iff.mp he
    by_cases hlen : st₁.length ≤ 511
    · obtain ⟨s₁, hemits, hr₁, h₁, hp₁⟩ := StackOp.emit_mem ops hr h hp hop he₁ hlen
      obtain ⟨is₁, hc₁, hrun₁⟩ := hemits.run
      have hm₁ : ∃ m ∈ heights env seq st₁ ps₁, 511 < m := by
        obtain ⟨m, hm, hgt⟩ := hm
        unfold heights at hm
        rw [he₁] at hm
        rcases List.mem_cons.mp hm with rfl | hm
        · exact absurd h.height (Nat.not_le.mpr hgt)
        · exact ⟨m, hm, hgt⟩
      obtain ⟨is₂, hc₂, hrun₂⟩ := ih hr₁ h₁ hp₁ hseq he hm₁
      refine ⟨is₁ ++ is₂, ?_, by rw [execAll_append, hrun₁]; exact hrun₂⟩
      rw [← List.append_assoc, ← hc₁]
      exact hc₂
    · obtain ⟨is₁, hc₁, hrun₁⟩ := StackOp.emit_overflow ops vals hr h he₁ (by omega)
      obtain ⟨is₂, hc₂, -⟩ := emitOps_grows seq (op.emit vals b).1 (op.emit vals b).2
      refine ⟨is₁ ++ is₂, ?_, execAll_append_error hrun₁⟩
      rw [← List.append_assoc, ← hc₁]
      exact hc₂

end Memory

/-! ## §4 — the two modes side by side. -/

section Modes

variable {W : Type} {ops : Ops W} {b : Builder} {s : St W} {k : Nat}

theorem Popped.start (b : Builder) (env : Nat → Word) : Popped b.next env b env [] [] :=
  ⟨Nat.le_refl _, fun _ _ => rfl, fun _ h => absurd h List.not_mem_nil, rfl⟩

/-- An emitter that only moves registers. -/
theorem Emitted.of_eq {α : Type} {m : Build α} {a : α} {l : List Value}
    {Q : α → Builder → St W → Prop} (hm : m b = (a, { b with locals := l }))
    (h : Q a { b with locals := l } s) : Emitted ops m b s Q := by
  refine ⟨s, ?_, ?_⟩
  · rw [hm]
    exact ⟨Nat.le_refl _, ⟨[], (List.append_nil _).symm, rfl⟩, fun _ _ => rfl⟩
  · rw [hm]
    exact h

/-- The spill at the end, with the values popped before it. -/
theorem spillLocals_rep {vals : List Value} (hr : b.enableRegs = false)
    (hb : ∀ v ∈ b.locals, v.below b.next) (hvals : ∀ v ∈ vals, v.below b.next) (h : RepStack s st)
    (hroom : st.length + b.locals.length ≤ 511) :
    Emitted ops (do
        let view := (← get).locals
        pushAll view.reverse
        modify fun b => { b with locals := [] }
        return vals) b s
      fun vals' _ s' => RepStack s' (b.locals.map (Value.denote s.env) ++ st) ∧
        vals'.map (Value.denote s'.env) = vals.map (Value.denote s.env) := by
  refine Emitted.bind (Emitted.get fun _ => ?_)
  refine Emitted.bind
    ((pushAll_rep ops b.locals.reverse hr (fun v hv => hb v (List.mem_reverse.mp hv)) h
    (by rw [List.length_reverse]; exact hroom)).imp ?_)
  rintro _ b₁ s₁ he₁ ⟨-, hrep₁, -⟩ -
  rw [List.map_reverse, List.reverse_reverse] at hrep₁
  refine Emitted.bind ⟨s₁, ⟨Nat.le_refl _, ⟨[], (List.append_nil _).symm, rfl⟩, fun _ _ => rfl⟩,
    fun _ => ?_⟩
  exact Emitted.pure ⟨hrep₁, he₁.map_denote hvals⟩

variable (ops) in
/-- Through registers only the last height has to fit. -/
theorem viaRegisters_rep (hl : b.locals = []) (h : RepStack s st) (hk : k ≤ st.length)
    (hb : ∀ op ∈ seq, op.Below b.next) (he : evalOps s.env seq (st.take k) [] = some (st', ps))
    (hlen : (st' ++ st.drop k).length ≤ 511) :
    Emitted ops (viaRegisters k seq) b s fun vals _ s' => RepStack s' (st' ++ st.drop k) ∧
      vals.map (Value.denote s'.env) = ps := by
  unfold viaRegisters
  refine Emitted.bind (Emitted.setRegs fun _ => ?_)
  -- the words into registers
  refine Emitted.bind ((popCallsN_rep k (b := { b with enableRegs := false }) rfl hk h).imp ?_)
  rintro depStk b₁ s₁ he₁ ⟨hu₁, hbelow₁, hmap₁, hrep₁, -⟩ -
  refine Emitted.bind (Emitted.setRegs fun _ => ?_)
  refine Emitted.bind (Emitted.of_eq (pushAll_regs depStk.reverse rfl) ?_)
  intro _
  have hlocals : depStk.reverse.reverse ++ b₁.locals = depStk := by
    rw [hu₁.locals, List.reverse_reverse]
    show depStk ++ b.locals = depStk
    rw [hl, List.append_nil]
  show Emitted ops _
    { b₁ with enableRegs := true, locals := depStk.reverse.reverse ++ b₁.locals } s₁ _
  rw [hlocals]
  -- the sequence
  have hin : InRegisters { b₁ with enableRegs := true, locals := depStk } s₁.env (st.take k) :=
    ⟨rfl, hbelow₁, hmap₁⟩
  have hp₁ : Popped b.next s.env { b₁ with enableRegs := true, locals := depStk } s₁.env [] [] :=
    (Popped.start b s.env).mono he₁.next_le he₁.frame
  obtain ⟨vals, l, hemit, hin₂, hp₂⟩ := emitOps_regs hin hp₁ hb he
  refine Emitted.bind (Emitted.of_eq hemit fun _ => ?_)
  refine Emitted.bind (Emitted.setRegs fun _ => ?_)
  have hstk : l.map (Value.denote s₁.env) = st' := hin₂.denote
  have hroom : (st.drop k).length + l.length ≤ 511 := by
    rw [List.length_append, ← hstk, List.length_map] at hlen
    omega
  apply (spillLocals_rep (b := { b₁ with locals := l, enableRegs := false }) rfl hin₂.below
    hp₂.below hrep₁ hroom).imp
  rintro vals' b₃ s₃ - ⟨hrep₃, hvals⟩
  rw [show (List.map (Value.denote s₁.env) l) = st' from hstk] at hrep₃
  exact ⟨hrep₃, hvals.trans hp₂.denote⟩

variable (ops) in
/-- In memory every height has to fit. -/
theorem viaMemory_rep (h : RepStack s st) (hb : ∀ op ∈ seq, op.Below b.next)
    (he : evalOps s.env seq st [] = some (st', ps))
    (hlen : ∀ m ∈ heights s.env seq st [], m ≤ 511) :
    Emitted ops (viaMemory seq) b s fun vals _ s' => RepStack s' st' ∧
      vals.map (Value.denote s'.env) = ps := by
  unfold viaMemory
  refine Emitted.bind (Emitted.setRegs fun _ => ?_)
  have hp : Popped b.next s.env { b with enableRegs := false } s.env [] [] :=
    (Popped.start b s.env).mono (Nat.le_refl _) fun _ _ => rfl
  apply (emitOps_mem rfl h hp hb he hlen).imp
  rintro vals b' s' - ⟨-, hrep, hp'⟩
  exact ⟨hrep, hp'.denote⟩

variable (ops) in
theorem viaMemory_overflow (h : RepStack s st) (hb : ∀ op ∈ seq, op.Below b.next)
    (he : evalOps s.env seq st [] = some (st', ps))
    (hlen : ∃ m ∈ heights s.env seq st [], 511 < m) :
    ∃ is, (viaMemory seq b).2.code = b.code ++ is ∧ execAll ops is s = .error .undefined := by
  have hp : Popped b.next s.env { b with enableRegs := false } s.env [] [] :=
    (Popped.start b s.env).mono (Nat.le_refl _) fun _ _ => rfl
  exact emitOps_overflow (b := { b with enableRegs := false }) rfl h hp hb he hlen

variable (ops) in
/-- **The two modes agree** on a sequence, where `mstk[1..spPtr]` is the stack `st`: both run to
their end, with the same `spPtr`, the same words in `mstk[1..spPtr]` and the same popped words, and
these are what the EVM's operations make of `st`. -/
structure ModesAgree (k : Nat) (seq : List StackOp) (b : Builder) (s : St W) (st : List Word)
    (s₁ s₂ : St W) : Prop where
  registers : Emits ops b s (viaRegisters k seq b).2 s₁
  memory : Emits ops b s (viaMemory seq b).2 s₂
  sp : s₁.sp = s₂.sp
  mstk : ∀ j, 1 ≤ j → j ≤ s₁.sp.toNat → s₁.mstk j = s₂.mstk j
  popped :
  (viaRegisters k seq b).1.map (Value.denote s₁.env) = (viaMemory seq b).1.map (Value.denote s₂.env)
  evm : ∃ st' ps, evalOps s.env seq st [] = some (st', ps) ∧ RepStack s₁ st' ∧
    (viaRegisters k seq b).1.map (Value.denote s₁.env) = ps

/-- The words in use are those of the list. -/
theorem RepStack.mstk_congr {s₁ s₂ : St W} (h₁ : RepStack s₁ st) (h₂ : RepStack s₂ st) {j : Nat}
    (hpos : 1 ≤ j) (hle : j ≤ s₁.sp.toNat) : s₁.mstk j = s₂.mstk j := by
  rw [h₁.toNat_sp] at hle
  have h₁ := h₁.slots (st.length - j) (by omega)
  have h₂ := h₂.slots (st.length - j) (by omega)
  rw [show st.length - (st.length - j) = j by omega] at h₁ h₂
  rw [h₁, h₂]

/-- The memory mode does not get past a height that has no slot. -/
theorem ModesAgree.heights_le {s₁ s₂ : St W} (hagree : ModesAgree ops k seq b s st s₁ s₂)
    (h : RepStack s st) (hb : ∀ op ∈ seq, op.Below b.next)
    (he : evalOps s.env seq st [] = some (st', ps)) : ∀ m ∈ heights s.env seq st [], m ≤ 511 := by
  by_contra hover
  push Not at hover
  obtain ⟨is, hcode, hrun⟩ := viaMemory_overflow ops h hb he hover
  obtain ⟨is', hcode', hrun'⟩ := hagree.memory.run
  rw [List.append_cancel_left (hcode'.symm.trans hcode), hrun] at hrun'
  cases hrun'

variable (ops) in
/-- **Registers or memory**: a sequence that stays within the first `k` words does the same in both
modes, and the same as on the EVM's stack, if and only if the stack never holds more than the 511
words that `mstk` has slots for above the unused slot 0. -/
theorem modes_agree_iff (hl : b.locals = []) (h : RepStack s st) (hk : k ≤ st.length)
    (hb : ∀ op ∈ seq, op.Below b.next) (hwithin : (evalOps s.env seq (st.take k) []).isSome) :
    (∃ s₁ s₂, ModesAgree ops k seq b s st s₁ s₂) ↔ ∀ m ∈ heights s.env seq st [], m ≤ 511 := by
  obtain ⟨⟨st', ps⟩, he⟩ := Option.isSome_iff_exists.mp hwithin
  have heval : evalOps s.env seq st [] = some (st' ++ st.drop k, ps) := by
    have happ : evalOps s.env seq (st.take k ++ st.drop k) [] = some (st' ++ st.drop k, ps) :=
      evalOps_append he
    rwa [List.take_append_drop] at happ
  constructor
  · rintro ⟨s₁, s₂, hagree⟩
    exact hagree.heights_le h hb heval
  · intro hlen
    obtain ⟨s₁, hemits₁, hrep₁, hvals₁⟩ := viaRegisters_rep ops hl h hk hb he
      (hlen _ (length_mem_heights heval))
    obtain ⟨s₂, hemits₂, hrep₂, hvals₂⟩ := viaMemory_rep ops h hb heval hlen
    exact ⟨s₁, s₂, hemits₁, hemits₂, hrep₁.sp.trans hrep₂.sp.symm,
      fun j hpos hle => hrep₁.mstk_congr hrep₂ hpos hle, hvals₁.trans hvals₂.symm,
      _, _, heval, hrep₁, hvals₁⟩

end Modes

/-- A stack of two words, 20 above 10. -/
def twoWords : St Unit where
  env := fun _ => 0
  sp := 2
  mstk := fun i => if i = 1 then 10 else 20
  target := 0
  world := ()

theorem twoWords_rep : RepStack twoWords [20, 10] where
  height := by decide
  sp := rfl
  slots := by decide

/-- `SWAP1`, `POP`, and a push of what was popped. -/
theorem modes_agree_iff_twoWords :
    (∃ s₁ s₂, ModesAgree (trivialOps []) 2 [.swap 0, .pop, .push (.popped 0)]
      (.empty 0 []) twoWords [20, 10] s₁ s₂) ↔
    ∀ m ∈ heights twoWords.env [.swap 0, .pop, .push (.popped 0)] [20, 10] [], m ≤ 511 :=
  modes_agree_iff (trivialOps []) rfl twoWords_rep (by decide) (by
    intro op hop
    rcases List.mem_cons.mp hop with rfl | hop
    · trivial
    · rcases List.mem_cons.mp hop with rfl | hop
      · trivial
      · rw [List.mem_singleton.mp hop]
        trivial) rfl

/-- A stack of 511 zeros: `mstk` is full. -/
def fullStack : St Unit where
  env := fun _ => 0
  sp := 511
  mstk := fun _ => 0
  target := 0
  world := ()

theorem fullStack_rep : RepStack fullStack (List.replicate 511 0) where
  height := by rw [List.length_replicate]
  sp := by rw [List.length_replicate]; rfl
  slots := by
    intro j h
    rw [List.getElem_replicate]
    rfl

/-- **One more push and its pop** go through registers, but not through memory. -/
theorem fullStack_modes_differ :
    RepStack fullStack (List.replicate 511 0) ∧
    evalOps fullStack.env [.push (.given (constWord 7)), .pop] ((List.replicate 511 0).take 0) [] =
      some ([], [7]) ∧
    (∀ op ∈ [StackOp.push (.given (constWord 7)), .pop], op.Below (Builder.empty 0 []).next) ∧
    (∃ s₁, Emits (trivialOps []) (.empty 0 []) fullStack
      (viaRegisters 0 [.push (.given (constWord 7)), .pop] (.empty 0 [])).2 s₁) ∧
    ¬ ∃ s₁ s₂, ModesAgree (trivialOps []) 0 [.push (.given (constWord 7)), .pop]
      (.empty 0 []) fullStack (List.replicate 511 0) s₁ s₂ := by
  have hbelow : ∀ op ∈ [StackOp.push (.given (constWord 7)), .pop],
      op.Below (Builder.empty 0 []).next := by
    intro op hop
    rcases List.mem_cons.mp hop with rfl | hop
    · trivial
    · rw [List.mem_singleton.mp hop]
      trivial
  have heval : evalOps fullStack.env [.push (.given (constWord 7)), .pop]
      ((List.replicate 511 0).take 0) [] = some ([], [7]) := rfl
  refine ⟨fullStack_rep, heval, hbelow, ?_, ?_⟩
  · obtain ⟨s₁, hemits, -⟩ :=
      viaRegisters_rep (trivialOps []) rfl fullStack_rep (Nat.zero_le _) hbelow heval (by
      rw [List.nil_append, List.drop_zero, List.length_replicate])
    exact ⟨s₁, hemits⟩
  · rintro ⟨s₁, s₂, hagree⟩
    have hle :=
      hagree.heights_le fullStack_rep hbelow rfl ((List.replicate 511 (0 : Word)).length + 1)
        (List.mem_cons_of_mem _ List.mem_cons_self)
    rw [List.length_replicate] at hle
    omega

end EvmTrans
