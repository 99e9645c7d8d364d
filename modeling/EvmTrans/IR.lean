/-
# `EvmTrans.IR` — the LLVM IR that the translator's skeleton is made of, and how it runs.

`compileMain` emits one function whose blocks touch three private globals — the operand stack `mstk`
(512 words), its pointer `spPtr` and the pending jump `target` — and otherwise call out to the host.
The IR here is exactly that skeleton. Loads, stores, additions and branches are spelled out; the
code emitted for one NON-STACK opcode is a single instruction `opcode`, whose effect is the
parameter `Ops.exec` of the semantics. The detailed code of those opcodes has its own modules.

A register holds its ZERO-EXTENSION to 256 bits and carries its integer type; `GlobalStack::push`
zero-extends before a store, so the word that reaches `mstk` is the word the register denotes.

A run ends in a `Stop`: an outcome reported to the host, a trap (`unreachable`, or a host function
that throws), or undefined behaviour (an `mstk` index outside the array).
-/
import EvmTrans.Instruction

namespace EvmTrans

/-! ## §1 — values, instructions, blocks. -/

/-- The integer types of stack registers, `Type::Int32Ty`, `Type::Int128Ty` and `Type::Int256Ty`,
and the `i1` of a comparison. -/
inductive Width where
  | i1 | i32 | i128 | i256
  deriving DecidableEq, Repr

/-- An `llvm::Value*` on the register stack: a `ConstantInt` or the result of an instruction. -/
inductive Value where
  | const (w : Width) (v : Word)
  | reg (w : Width) (id : Nat)
  deriving DecidableEq, Repr

/-- `getType()`. -/
def Value.width : Value → Width
  | .const w _ => w
  | .reg w _ => w

/-- The blocks of the emitted function: `main_Entry`, one block per `BasicBlock`, and the four
helper blocks `Test`, `JumpTable`, `Abort`, `Exit`. -/
inductive Label where
  | entry
  | code (i : Nat)
  | test | jumpTable | abort | exit
  deriving DecidableEq, Repr

/-- Pointers into the translator's globals; `mstk idx` is `GEP(mstk, {0, idx})`. -/
inductive Ptr where
  | spPtr | target
  | mstk (idx : Value)
  deriving DecidableEq, Repr

/-- The instructions of the skeleton; `dst` is the register an instruction defines. -/
inductive Instr where
  | load (dst : Nat) (p : Ptr)
  | store (v : Value) (p : Ptr)
  | add (dst : Nat) (a b : Value)
  | sub (dst : Nat) (a b : Value)
  | zext (dst : Nat) (v : Value)
  | icmpNE (dst : Nat) (v : Value)
  | opcode (dst : Nat) (op : Instruction) (args : List Value)
  | finish (off size : Value)
  | finishData (data : List Byte)
  | revert (off size : Value)
  | selfDestruct (dest : Value)
  deriving DecidableEq, Repr

/-- Terminators. A jump carries the `destIdx` metadata that `resolveJumps` reads. -/
inductive Term where
  | br (l : Label) (destIdx : Option Value)
  | condBr (cond : Value) (ifTrue ifFalse : Label) (destIdx : Option Value)
  | switch (v : Value) (cases : List (Word × Label)) (dflt : Label)
  | unreachable
  deriving DecidableEq, Repr

/-- `getSuccessor(0)`, `getSuccessor(1)`, …; the default of a `switch` comes first. -/
def Term.successors : Term → List Label
  | .br l _ => [l]
  | .condBr _ ifTrue ifFalse _ => [ifTrue, ifFalse]
  | .switch _ cases dflt => dflt :: cases.map Prod.snd
  | .unreachable => []

/-- An `llvm::BasicBlock`; `term` is `getTerminator()`. -/
structure IRBlock where
  label : Label
  code : List Instr
  term : Option Term
  deriving DecidableEq, Repr

/-! ## §2 — the machine. -/

/-- How a run reports back to the host. -/
inductive Outcome where
  | finish (out : List Byte)
  | revert (out : List Byte)
  | selfDestruct (dest : Word)
  deriving DecidableEq, Repr

/-- The non-stack opcodes, as functions of their popped operands (top of the stack first) and of a
world `W` that holds memory, storage and everything else. `exec` is `none` when the execution fails;
the word it returns is ignored for an opcode that pushes nothing. `output` is the memory slice that
`RETURN` and `REVERT` hand back; its size is truncated to 32 bits. -/
structure Ops (W : Type) where
  exec : Instruction → List Word → W → Option (Word × W)
  output : W → Word → Word → List Byte
  length_output : ∀ w off size, (output w off size).length = size.toNat % 2 ^ 32

/-- The state of a run: register file, the three globals, the world. -/
structure St (W : Type) where
  env : Nat → Word
  sp : Word
  mstk : Nat → Word
  target : Word
  world : W

/-- Why a run is over. -/
inductive Stop (W : Type) where
  | outcome (o : Outcome) (w : W)
  | trap
  | undefined
  deriving DecidableEq

/-- The state in which the emitted function is entered: the globals' zero initialisers. -/
def St.init {W : Type} (w : W) : St W where
  env := fun _ => 0
  sp := 0
  mstk := fun _ => 0
  target := 0
  world := w

variable {W : Type}

/-- The word a value denotes. -/
def Value.denote (env : Nat → Word) : Value → Word
  | .const _ v => v
  | .reg _ id => env id

/-- Define a register. -/
def St.define (s : St W) (dst : Nat) (v : Word) : St W :=
  { s with env := Function.update s.env dst v }

/-- The value loaded through a pointer; outside `mstk[0..511]` the access is undefined. -/
def St.read (s : St W) : Ptr → Except (Stop W) Word
  | .spPtr => .ok s.sp
  | .target => .ok s.target
  | .mstk idx =>
    if (idx.denote s.env).toNat < 512 then .ok (s.mstk (idx.denote s.env).toNat)
        else .error .undefined

/-- The state after a store through a pointer. -/
def St.write (s : St W) (v : Word) : Ptr → Except (Stop W) (St W)
  | .spPtr => .ok { s with sp := v }
  | .target => .ok { s with target := v }
  | .mstk idx =>
    if (idx.denote s.env).toNat < 512 then
      .ok { s with mstk := Function.update s.mstk (idx.denote s.env).toNat v }
    else .error .undefined

/-- One instruction. -/
def execInstr (ops : Ops W) (i : Instr) (s : St W) : Except (Stop W) (St W) :=
  match i with
  | .load dst p =>
    match s.read p with
    | .ok v => .ok (s.define dst v)
    | .error e => .error e
  | .store v p => s.write (v.denote s.env) p
  | .add dst a b => .ok (s.define dst (a.denote s.env + b.denote s.env))
  | .sub dst a b => .ok (s.define dst (a.denote s.env - b.denote s.env))
  | .zext dst v => .ok (s.define dst (v.denote s.env))
  | .icmpNE dst v => .ok (s.define dst (if v.denote s.env ≠ 0 then 1 else 0))
  | .opcode dst op args =>
    match ops.exec op (args.map (Value.denote s.env)) s.world with
    | some (v, w) => .ok { s.define dst v with world := w }
    | none => .error .trap
  | .finish off size =>
    .error (.outcome (.finish (ops.output s.world (off.denote s.env) (size.denote s.env))) s.world)
  | .finishData data => .error (.outcome (.finish data) s.world)
  | .revert off size =>
    .error (.outcome (.revert (ops.output s.world (off.denote s.env) (size.denote s.env))) s.world)
  | .selfDestruct dest => .error (.outcome (.selfDestruct (dest.denote s.env)) s.world)

/-- A straight line of instructions. -/
def execAll (ops : Ops W) : List Instr → St W → Except (Stop W) (St W)
  | [], s => .ok s
  | i :: is, s =>
    match execInstr ops i s with
    | .ok s' => execAll ops is s'
    | .error e => .error e

/-- The successor a terminator selects. -/
def execTerm (t : Term) (s : St W) : Except (Stop W) Label :=
  match t with
  | .br l _ => .ok l
  | .condBr c l₁ l₂ _ => .ok (if c.denote s.env ≠ 0 then l₁ else l₂)
  | .switch v cases dflt =>
    .ok (((cases.find? fun c => c.1 == v.denote s.env).map Prod.snd).getD dflt)
  | .unreachable => .error .trap

/-- One block of the function `f`: its instructions, then its terminator. A label without a block,
or a block without a terminator, is not LLVM IR. -/
def runBlock (ops : Ops W) (f : List IRBlock) (l : Label) (s : St W) :
    Except (Stop W) (Label × St W) :=
  match f.find? fun b => b.label == l with
  | none => .error .undefined
  | some b =>
    match execAll ops b.code s with
    | .error e => .error e
    | .ok s' =>
      match b.term with
      | none => .error .undefined
      | some t =>
        match execTerm t s' with
        | .error e => .error e
        | .ok l' => .ok (l', s')

/-- Control at label `l`: through the helper blocks until the next code block, or to the end of the
run. The helper blocks form a path (`entry`; `test`, `jumpTable`, `abort`, `exit`), so four steps of
fuel reach one of the two. -/
def settle (ops : Ops W) (f : List IRBlock) : Nat → Label → St W → Except (Stop W) (Nat × St W)
  | _, .code i, s => .ok (i, s)
  | 0, _, _ => .error .undefined
  | fuel + 1, l, s =>
    match runBlock ops f l s with
    | .ok (l', s') => settle ops f fuel l' s'
    | .error e => .error e

/-- **One code block of a run**: from the entry of block `i` to the entry of the next code block. -/
def step (ops : Ops W) (f : List IRBlock) (i : Nat) (s : St W) : Except (Stop W) (Nat × St W) :=
  match runBlock ops f (.code i) s with
  | .ok (l, s') => settle ops f 4 l s'
  | .error e => .error e

/-- The `k`-th code block a run of `f` enters, with the state on entry; or how the run ended
before. -/
def entryAt (ops : Ops W) (f : List IRBlock) (w : W) : Nat → Except (Stop W) (Nat × St W)
  | 0 => settle ops f 4 .entry (St.init w)
  | k + 1 =>
    match entryAt ops f w k with
    | .ok (i, s) => step ops f i s
    | .error e => .error e

/-! ## §3 — first facts. -/

@[simp] theorem Value.denote_const (env : Nat → Word) (w : Width) (v : Word) :
    (Value.const w v).denote env = v := rfl
@[simp] theorem Value.denote_reg (env : Nat → Word) (w : Width) (id : Nat) :
    (Value.reg w id).denote env = env id := rfl

@[simp] theorem define_sp (s : St W) (d : Nat) (v : Word) : (s.define d v).sp = s.sp := rfl
@[simp] theorem define_mstk (s : St W) (d : Nat) (v : Word) : (s.define d v).mstk = s.mstk := rfl
@[simp] theorem define_target (s : St W) (d : Nat) (v : Word) :
    (s.define d v).target = s.target := rfl
@[simp] theorem define_world (s : St W) (d : Nat) (v : Word) : (s.define d v).world = s.world := rfl

@[simp] theorem define_env_self (s : St W) (d : Nat) (v : Word) : (s.define d v).env d = v := by
  simp [St.define]

theorem define_env_of_ne (s : St W) {d i : Nat} (v : Word) (h : i ≠ d) :
    (s.define d v).env i = s.env i := by
  simp [St.define, h]

theorem execAll_append (ops : Ops W) (xs ys : List Instr) (s : St W) :
    execAll ops (xs ++ ys) s =
      match execAll ops xs s with
      | .ok s' => execAll ops ys s'
      | .error e => .error e := by
  induction xs generalizing s with
  | nil => rfl
  | cons x xs ih =>
    simp only [List.cons_append, execAll]
    cases execInstr ops x s with
    | ok s' => exact ih s'
    | error e => rfl

/-- A value that is a constant, or a register below `n`. -/
def Value.below (n : Nat) : Value → Prop
  | .const _ _ => True
  | .reg _ id => id < n

theorem Value.below_mono {v : Value} {n m : Nat} (h : v.below n) (hnm : n ≤ m) : v.below m := by
  cases v with
  | const => trivial
  | reg w id => exact Nat.lt_of_lt_of_le h hnm

/-- Registers at or above the bound do not matter to a value below it. -/
theorem Value.denote_congr {v : Value} {n : Nat} {env env' : Nat → Word} (hv : v.below n)
    (h : ∀ i, i < n → env' i = env i) : v.denote env' = v.denote env := by
  cases v with
  | const => rfl
  | reg w id => exact h id hv

end EvmTrans
