/-
# `EvmTrans.GlobalStack` — the operand stack of the translator, in registers and in memory.

`GlobalStack` has two modes. With `enableRegs` its operations move `llvm::Value*`s around in the
vector `m_local` and emit nothing; without it they emit loads and stores of `mstk` and `spPtr`,
which address the stack as `mstk[1..spPtr]`, top at `mstk[spPtr]`.

The emitters are state transformers over a `Builder`, which stands for the insertion point: the
registers used so far, the instructions of the current block, `m_local` and the block's terminator.
`Emits` is the contract each of them is used through: what it appends runs from `s` to `s'` and
defines only fresh registers.
-/
import EvmTrans.IR

namespace EvmTrans

/-! ## §1 — the builder. -/

/-- The insertion point in a block, with the fields of `GlobalStack` that change (the back of the
vector `m_local` is the head of `locals`) and the cases added so far to the switch of
`JumpTable`. -/
structure Builder where
  next : Nat
  code : List Instr
  locals : List Value
  enableRegs : Bool
  term : Option Term
  cases : List (Word × Label)
  deriving DecidableEq, Repr

/-- An empty block; registers from `next` on are unused. -/
def Builder.empty (next : Nat) (cases : List (Word × Label)) : Builder where
  next := next
  code := []
  locals := []
  enableRegs := false
  term := none
  cases := cases

abbrev Build := StateM Builder

/-- Append an instruction that defines no register. -/
def emit (i : Instr) : Build Unit := modify fun b => { b with code := b.code ++ [i] }

/-- Append an instruction that defines a fresh register of type `w`, and return the register. -/
def emitReg (w : Width) (i : Nat → Instr) : Build Value := fun b =>
  (.reg w b.next, { b with next := b.next + 1, code := b.code ++ [i b.next] })

/-- `llvm::ConstantInt::get(Type::Int256Ty, n)`. -/
def constWord (n : Nat) : Value := .const .i256 (BitVec.ofNat 256 n)

def createLoad (p : Ptr) : Build Value := emitReg .i256 (.load · p)
def createStore (v : Value) (p : Ptr) : Build Unit := emit (.store v p)
def createAdd (a b : Value) : Build Value := emitReg .i256 (.add · a b)
def createSub (a b : Value) : Build Value := emitReg .i256 (.sub · a b)
def createZExt (v : Value) : Build Value := emitReg .i256 (.zext · v)

def setTerm (t : Term) : Build Unit := modify fun b => { b with term := some t }

/-! ## §2 — the operations. -/

namespace GlobalStack

/-- Assignment to the public field `enableRegs`. -/
def setRegs (on : Bool) : Build Unit := modify fun b => { b with enableRegs := on }

/-- `GlobalStack::getPtr(idx)`: the address of `stk[sp - idx]`. -/
def getPtr (idx : Nat) : Build Ptr := do
  let index ← createLoad .spPtr
  if idx > 0 then
    let index ← createSub index (constWord idx)
    return .mstk index
  else return .mstk index

/-- `GlobalStack::push(_value)`. -/
def push (v : Value) : Build Unit := do
  if (← get).enableRegs then modify fun b => { b with locals := v :: b.locals }
  else
    let tsp ← createLoad .spPtr
    let tsp1 ← createAdd tsp (constWord 1)
    createStore tsp1 .spPtr
    if v.width ≠ .i256 then
      let v256 ← createZExt v
      let p ← getPtr 0
      createStore v256 p
    else
      let p ← getPtr 0
      createStore v p

/-- `GlobalStack::pop()`. In register mode an empty `m_local` yields the constant 0. -/
def pop : Build Value := do
  let b ← get
  if b.enableRegs then
    match b.locals with
    | [] => return constWord 0
    | v :: vs =>
      set { b with locals := vs }
      return v
  else
    let p ← getPtr 0
    let item ← createLoad p
    let tsp ← createLoad .spPtr
    let tsp1 ← createSub tsp (constWord 1)
    createStore tsp1 .spPtr
    return item

/-- `GlobalStack::dup(_index)`. -/
def dup (index : Nat) : Build Unit := do
  let b ← get
  if b.enableRegs then
    set { b with locals := b.locals.getD index (constWord 0) :: b.locals }
  else
    let p ← getPtr index
    let v ← createLoad p
    push v

/-- `GlobalStack::swap(_index)`. In register mode a stack of at most `_index + 1` registers is only
padded with zeros on top. -/
def swap (index : Nat) : Build Unit := do
  let b ← get
  if b.enableRegs then
    if b.locals.length ≤ index + 1 then
      set { b with
        locals := List.replicate (index + 2 - b.locals.length) (constWord 0) ++ b.locals }
    else
      let srcVal := b.locals.getD (index + 1) (constWord 0)
      let dstVal := b.locals.getD 0 (constWord 0)
      set { b with locals := (b.locals.set (index + 1) dstVal).set 0 srcVal }
  else
    let srcPtr ← getPtr 0
    let srcVal ← createLoad srcPtr
    let dstPtr ← getPtr (index + 1)
    let dstVal ← createLoad dstPtr
    let topPtr ← getPtr 0
    createStore dstVal topPtr
    createStore srcVal dstPtr

end GlobalStack

/-! ## §3 — the contract of an emitter. -/

section Contract

variable {W : Type} (ops : Ops W) {α β : Type} {b b' b'' : Builder} {s s' s'' : St W}

/-- What stands between `b` and `b'` runs from `s` to `s'` and leaves the registers of `b` alone. -/
structure Emits (b : Builder) (s : St W) (b' : Builder) (s' : St W) : Prop where
  next_le : b.next ≤ b'.next
  run : ∃ is, b'.code = b.code ++ is ∧ execAll ops is s = .ok s'
  frame : ∀ i, i < b.next → s'.env i = s.env i

variable {ops}

theorem Emits.refl (b : Builder) (s : St W) : Emits ops b s b s :=
  ⟨Nat.le_refl _, ⟨[], by simp, rfl⟩, fun _ _ => rfl⟩

theorem Emits.trans (h₁ : Emits ops b s b' s') (h₂ : Emits ops b' s' b'' s'') :
    Emits ops b s b'' s'' := by
  obtain ⟨is₁, hc₁, hr₁⟩ := h₁.run
  obtain ⟨is₂, hc₂, hr₂⟩ := h₂.run
  refine ⟨Nat.le_trans h₁.next_le h₂.next_le, ⟨is₁ ++ is₂, ?_, ?_⟩, ?_⟩
  · rw [hc₂, hc₁, List.append_assoc]
  · rw [execAll_append, hr₁]
    exact hr₂
  · intro i hi
    rw [h₂.frame i (Nat.lt_of_lt_of_le hi h₁.next_le), h₁.frame i hi]

/-- A value of `b` keeps its meaning. -/
theorem Emits.denote_eq (h : Emits ops b s b' s') {v : Value} (hv : v.below b.next) :
    v.denote s'.env = v.denote s.env :=
  Value.denote_congr hv h.frame

theorem Emits.map_denote (h : Emits ops b s b' s') {vs : List Value}
    (hv : ∀ v ∈ vs, v.below b.next) : vs.map (Value.denote s'.env) = vs.map (Value.denote s.env) :=
  List.map_congr_left fun v hm => h.denote_eq (hv v hm)

theorem Emits.below (h : Emits ops b s b' s') {vs : List Value} (hv : ∀ v ∈ vs, v.below b.next) :
    ∀ v ∈ vs, v.below b'.next :=
  fun v hm => Value.below_mono (hv v hm) h.next_le

/-- The code of the builder so far, and then what the emitter adds to it. -/
theorem Emits.execAll_code (h : Emits ops b s b' s') {s₀ : St W}
    (h₀ : execAll ops b.code s₀ = .ok s) : execAll ops b'.code s₀ = .ok s' := by
  obtain ⟨is, hc, hr⟩ := h.run
  rw [hc, execAll_append, h₀]
  exact hr

variable (ops) in
/-- **The triple of an emitter**: from builder `b` and machine state `s`, running `m` and then the
code it appended establishes `Q`. -/
def Emitted (m : Build α) (b : Builder) (s : St W) (Q : α → Builder → St W → Prop) : Prop :=
  ∃ s', Emits ops b s (m b).2 s' ∧ Q (m b).1 (m b).2 s'

theorem Emitted.pure {a : α} {Q : α → Builder → St W → Prop} (h : Q a b s) :
    Emitted ops (pure a) b s Q :=
  ⟨s, Emits.refl b s, h⟩

theorem Emitted.bind {m : Build α} {f : α → Build β} {Q : β → Builder → St W → Prop}
    (h : Emitted ops m b s fun a b' s' => Emits ops b s b' s' → Emitted ops (f a) b' s' Q) :
    Emitted ops (m >>= f) b s Q := by
  obtain ⟨s', he, h'⟩ := h
  obtain ⟨s'', he', hQ⟩ := h' he
  exact ⟨s'', he.trans he', hQ⟩

theorem Emitted.imp {m : Build α} {Q R : α → Builder → St W → Prop} (h : Emitted ops m b s Q)
    (hi : ∀ a b' s', Emits ops b s b' s' → Q a b' s' → R a b' s') : Emitted ops m b s R := by
  obtain ⟨s', he, hQ⟩ := h
  exact ⟨s', he, hi _ _ _ he hQ⟩

/-- The fields of a builder that an emitter of memory code leaves alone. -/
structure Builder.Untouched (b b' : Builder) : Prop where
  locals : b'.locals = b.locals
  enableRegs : b'.enableRegs = b.enableRegs
  term : b'.term = b.term
  cases : b'.cases = b.cases

theorem Builder.Untouched.trans (h₁ : b.Untouched b') (h₂ : b'.Untouched b'') :
    b.Untouched b'' :=
  ⟨h₂.1.trans h₁.1, h₂.2.trans h₁.2, h₂.3.trans h₁.3, h₂.4.trans h₁.4⟩

/-! ## §4 — the memory mode of `push` and `pop`. -/

theorem Emitted.get {Q : Builder → Builder → St W → Prop} (h : Q b b s) :
    Emitted ops get b s Q :=
  ⟨s, Emits.refl b s, h⟩

/-- An instruction that defines the next register, whatever word it computes. -/
theorem Emitted.emitReg {w : Width} {i : Nat → Instr} {x : Word}
    {Q : Value → Builder → St W → Prop} (hi : execInstr ops (i b.next) s = .ok (s.define b.next x))
    (h : Q (.reg w b.next) { b with next := b.next + 1, code := b.code ++ [i b.next] }
      (s.define b.next x)) :
    Emitted ops (emitReg w i) b s Q := by
  refine ⟨s.define b.next x, ⟨Nat.le_succ _, ⟨[i b.next], rfl, ?_⟩, ?_⟩, h⟩
  · simp only [execAll, hi]
  · intro j hj
    exact define_env_of_ne s x (Nat.ne_of_lt hj)

/-- An instruction that defines no register. -/
theorem Emitted.emit {i : Instr} {t : St W} {Q : Unit → Builder → St W → Prop}
    (hi : execInstr ops i s = .ok t) (henv : t.env = s.env)
    (h : Q () { b with code := b.code ++ [i] } t) : Emitted ops (emit i) b s Q := by
  refine ⟨t, ⟨Nat.le_refl _, ⟨[i], rfl, ?_⟩, ?_⟩, h⟩
  · simp only [execAll, hi]
  · intro j _
    rw [henv]

/-- `getPtr(0)` followed by a store: the word goes to the slot `spPtr` points at. -/
theorem storeTop {v : Value} {x : Word} (hv : v.below b.next) (hx : v.denote s.env = x)
    (hsp : s.sp.toNat < 512) :
    Emitted ops (do let p ← GlobalStack.getPtr 0; createStore v p) b s fun _ b' s' =>
      b.Untouched b' ∧
        ∃ env, s' = { s with env := env, mstk := Function.update s.mstk s.sp.toNat x } := by
  unfold GlobalStack.getPtr createLoad createStore
  refine Emitted.bind (Emitted.bind (Emitted.emitReg (x := s.sp) rfl fun _ => Emitted.pure ?_))
  intro he
  refine Emitted.emit (t := { s.define b.next s.sp with
    mstk := Function.update s.mstk s.sp.toNat x }) ?_ rfl ⟨⟨rfl, rfl, rfl, rfl⟩, _, rfl⟩
  have hd : v.denote (s.define b.next s.sp).env = x := (he.denote_eq hv).trans hx
  simp only [execInstr, hd, St.write, Value.denote_reg, define_env_self, if_pos hsp, define_mstk]

/-- `push` of a value outside registers: `spPtr` goes up by one and the word lands at the new top,
zero-extended by the meaning of registers. -/
theorem push_mem {v : Value} (hr : b.enableRegs = false) (hv : v.below b.next)
    (hsp : (s.sp + 1).toNat < 512) :
    Emitted ops (GlobalStack.push v) b s fun _ b' s' => b.Untouched b' ∧
      ∃ env, s' = { s with env := env, sp := s.sp + 1,
                           mstk := Function.update s.mstk (s.sp + 1).toNat (v.denote s.env) } := by
  unfold GlobalStack.push createLoad createAdd
  refine Emitted.bind (Emitted.get fun _ => ?_)
  rw [hr, if_neg (by simp)]
  -- `spPtr := spPtr + 1`
  refine Emitted.bind (Emitted.emitReg (x := s.sp) rfl fun h₁ => ?_)
  refine Emitted.bind (Emitted.emitReg (x := s.sp + 1) ?_ fun h₂ => ?_)
  · simp [execInstr, constWord]
  refine Emitted.bind (Emitted.emit (t := _) rfl rfl fun h₃ => ?_)
  have h := (h₁.trans h₂).trans h₃
  have hden := h.denote_eq hv
  have hbelow := Value.below_mono hv h.next_le
  have hspx : (Value.reg .i256 (b.next + 1)).denote
      ((s.define b.next s.sp).define (b.next + 1) (s.sp + 1)).env = s.sp + 1 := define_env_self ..
  -- the slot above the old top, through a `zext` for a narrow register
  split
  · refine Emitted.bind (Emitted.emitReg (x := v.denote s.env) ?_ fun h₄ => ?_)
    · exact congrArg (fun x => Except.ok (St.define _ _ x)) hden
    · refine (storeTop (x := v.denote s.env) (Nat.lt_succ_self _) ?_ ?_).imp ?_
      · exact define_env_self ..
      · exact (congrArg BitVec.toNat hspx).trans_lt hsp
      · rintro _ b' s' - ⟨hu, env, rfl⟩
        refine ⟨⟨hu.1, hu.2, hu.3, hu.4⟩, env, ?_⟩
        simp only [define_mstk, define_sp, hspx]
        rfl
  · refine (storeTop hbelow hden ?_).imp ?_
    · exact (congrArg BitVec.toNat hspx).trans_lt hsp
    · rintro _ b' s' - ⟨hu, env, rfl⟩
      refine ⟨⟨hu.1, hu.2, hu.3, hu.4⟩, env, ?_⟩
      simp only [define_mstk, hspx]
      rfl

/-- `pop` outside registers: the word at the top, and `spPtr` goes down by one. -/
theorem pop_mem (hr : b.enableRegs = false) (hsp : s.sp.toNat < 512) :
    Emitted ops GlobalStack.pop b s fun v b' s' => b.Untouched b' ∧ v.below b'.next ∧
      v.denote s'.env = s.mstk s.sp.toNat ∧ ∃ env, s' = { s with env := env, sp := s.sp - 1 } := by
  unfold GlobalStack.pop GlobalStack.getPtr createLoad createSub
  refine Emitted.bind (Emitted.get fun _ => ?_)
  rw [hr, if_neg (by simp)]
  refine Emitted.bind (Emitted.bind (Emitted.emitReg (x := s.sp) rfl fun _ => Emitted.pure ?_))
  intro _
  refine Emitted.bind (Emitted.emitReg (x := s.mstk s.sp.toNat) ?_ fun _ => ?_)
  · simp [execInstr, St.read, hsp]
  refine Emitted.bind (Emitted.emitReg (x := s.sp) rfl fun _ => ?_)
  refine Emitted.bind (Emitted.emitReg (x := s.sp - 1) ?_ fun _ => ?_)
  · simp [execInstr, constWord]
  refine Emitted.bind (Emitted.emit (t := _) rfl rfl fun _ => ?_)
  refine Emitted.pure ⟨⟨rfl, rfl, rfl, rfl⟩, ?_, ?_, ?_⟩
  · show b.next + 1 < b.next + 1 + 1 + 1 + 1
    omega
  · -- the two registers defined after the item do not hide it
    show (((_ : St W).define (b.next + 1 + 1) s.sp).define (b.next + 1 + 1 + 1) (s.sp - 1)).env
      (b.next + 1) = _
    rw [define_env_of_ne _ _ (by omega), define_env_of_ne _ _ (by omega), define_env_self]
  · exact ⟨_, by rw [Value.denote_reg, define_env_self]; rfl⟩

end Contract

end EvmTrans
