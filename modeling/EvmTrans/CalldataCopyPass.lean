/-
# `EvmTrans.CalldataCopyPass` — `calldataCopyPass`: a load of the function selector copies four
bytes.

The pass looks for the copy, load, byte swap and shift that `CALLDATALOAD` and `SHR` by 224 emit, or
for a division and a mask in place of the shift, and cuts the copy to four bytes. It matches
positions, opcodes and one constant: not the operands, not the divisor, not the other uses of the
swapped word.

`Site.rewrite_block` says what the pass leaves of a function, `matchAt_spec` what it has checked of
the instructions it rewrites. What this does to the runs is `EvmTrans.SelectorLoad`.
-/
import EvmTrans.Endian
import EvmTrans.MemoryLayout

namespace EvmTrans.Llvm.CalldataCopyPass

open Lib (InRange read write)

/-! ## §1 — the function as the pass reads it. -/

/-- An operand: a `ConstantInt`, or a register. -/
inductive Operand where
  | const (c : Word)
  | reg (r : Nat)
  deriving DecidableEq, Repr

/-- `llvm::dyn_cast<llvm::ConstantInt>`. -/
def Operand.constantInt : Operand → Option Word
  | .const c => some c
  | .reg _ => none

/-- What an instruction does. `callDataCopy` is the call of `ethereum.callDataCopy`, `bswap` that of
`solidity.bswapi256`; `O` is every other instruction. -/
inductive Action (O : Type) where
  | callDataCopy (dst off size : Operand)
  | load (ptr : Operand)
  | bswap (data : Operand)
  | lshr (lhs rhs : Operand)
  | udiv (lhs rhs : Operand)
  | and (lhs rhs : Operand)
  | other (op : O) (args : List Operand)

structure Inst (O : Type) where
  dst : Nat
  name : String
  action : Action O

inductive Terminator where
  | br (block : Nat)
  | condBr (cond : Operand) (ifTrue ifFalse : Nat)
  | switch (cond : Operand) (cases : List (Word × Nat)) (default : Nat)
  | ret

structure Block (O : Type) where
  insts : List (Inst O)
  term : Terminator

/-- `main`: its blocks, in order. -/
abbrev Func (O : Type) := List (Block O)

variable {O X : Type}

/-! ## §2 — the pass. -/

/-- What stands at a position: an instruction, the terminator, or nothing (a null pointer). -/
inductive Node (O : Type) where
  | inst (i : Inst O)
  | term
  | null

def Block.node (b : Block O) (i : Nat) : Node O :=
  match b.insts[i]? with
  | some inst => .inst inst
  | none => if i = b.insts.length then .term else .null

/-- `getSExtValue()` and `getZExtValue()`, as far as they are compared with a positive number: the
low word (a constant that needs more is against an assertion). -/
def lowWord (c : Word) : Nat := c.toNat % 2 ^ 64

/-- What the pass has recognised behind a copy: the shift, or the division and the mask, with the
register named `.reverse`. -/
inductive Match where
  | shift
  | mask (reverse : Nat)
  deriving DecidableEq, Repr

/-- The tests on the instruction at position `i`. The outer `none` is undefined behaviour: a member
of a null pointer is called. -/
def matchAt (b : Block O) (i : Nat) : Option (Option Match) :=
  match b.node i with
  | .inst ⟨_, _, .callDataCopy _ _ _⟩ =>
    match b.node (i + 2) with
    | .inst reverse =>
      if reverse.name ≠ ".reverse" then some none
      else
        match b.node (i + 3) with
        | .inst ⟨_, _, .lshr _ amount⟩ =>
          amount.constantInt.map fun c => if lowWord c = 224 then some .shift else none
        | .inst ⟨_, _, .udiv _ _⟩ =>
          match b.node (i + 4) with
          | .inst ⟨_, _, .and lhs _⟩ =>
            lhs.constantInt.map fun c => if lowWord c =
              0xffffffff then some (.mask reverse.dst) else none
          | _ => some none
        | _ => some none
    | .term => some none
    | .null => none
  | _ => some none

/-- `setOperand(2, 4)`. -/
def setSize (inst : Inst O) : Inst O :=
  { inst with action :=
    match inst.action with
    | .callDataCopy dst off _ => .callDataCopy dst off (.const 4)
    | action => action }

/-- `ReplaceInstWithInst` by the shift of the swapped word. -/
def replaceByShift (reverse : Nat) (inst : Inst O) : Inst O :=
  { inst with action := .lshr (.reg reverse) (.const 224) }

/-- Where the pass rewrites: block, instruction, and what was recognised there. -/
structure Site where
  block : Nat
  pc : Nat
  kind : Match
  deriving DecidableEq, Repr

def Block.rewrite (b : Block O) (pc : Nat) : Match → Block O
  | .shift => { b with insts := b.insts.modify pc setSize }
  | .mask reverse =>
    { b with insts := (b.insts.modify pc setSize).modify (pc + 4) (replaceByShift reverse) }

/-- The instructions in the order of the two loops. -/
def positions (f : Func O) : List (Nat × Nat) :=
  (List.range f.length).flatMap fun k =>
    (List.range ((f[k]?.map (·.insts.length)).getD 0)).map fun i => (k, i)

/-- The two loops, up to the first match. -/
def findSite (f : Func O) : List (Nat × Nat) → Option (Option Site)
  | [] => some none
  | (k, i) :: ps =>
    match f[k]? with
    | none => some none
    | some b =>
      match matchAt b i with
      | none => none
      | some none => findSite f ps
      | some (some kind) => some (some ⟨k, i, kind⟩)

/-- `calldataCopyPass::runOnFunction` on `main`. -/
def runOnFunction (f : Func O) : Option (Func O) :=
  (findSite f (positions f)).map fun
    | some site => f.modify site.block fun b => b.rewrite site.pc site.kind
    | none => f

/-! ## §3 — runs. -/

/-- The other instructions: which ranges of memory one reads, and the word, host state and writes it
leaves. -/
structure Host (O X : Type) where
  callData : Nat → Byte
  reads : O → List Word → List (Nat × Nat)
  run : O → List Word → List (List Byte) → X → Option (Word × X × List (Nat × List Byte))

structure State (X : Type) where
  env : Nat → Word
  mem : Nat → Byte
  host : X

def Operand.eval (env : Nat → Word) : Operand → Word
  | .const c => c
  | .reg r => env r

def State.define (s : State X) (dst : Nat) (v : Word) : State X :=
  { s with env := Function.update s.env dst v }

/-- The memory behind these writes. -/
def writeAll (m : Nat → Byte) (ws : List (Nat × List Byte)) : Nat → Byte :=
  ws.foldl (fun m w => write m w.1 w.2) m

/-- What `op` reads from memory. -/
def Host.bytesRead (H : Host O X) (op : O) (args : List Word) (m : Nat → Byte) : List (List Byte) :=
  (H.reads op args).map fun r => read m r.1 r.2

/-- One instruction. The host copies exactly as many bytes as it is asked for. A shift by the width
or more and a division by zero are undefined: the run ends there. -/
def exec (H : Host O X) (inst : Inst O) (s : State X) : Option (State X) :=
  match inst.action with
  | .callDataCopy dst off size =>
    let bytes := read H.callData (off.eval s.env).toNat (size.eval s.env).toNat
    some { s with mem := write s.mem (dst.eval s.env).toNat bytes }
  | .load ptr => some (s.define inst.dst (readWord s.mem (ptr.eval s.env).toNat))
  | .bswap data => some (s.define inst.dst (bswap256 (data.eval s.env)))
  | .lshr lhs rhs =>
    if (rhs.eval s.env).toNat < 256 then some
        (s.define inst.dst (lhs.eval s.env >>> (rhs.eval s.env).toNat)) else none
  | .udiv lhs rhs =>
    if rhs.eval s.env = 0 then none else some (s.define inst.dst (lhs.eval s.env / rhs.eval s.env))
  | .and lhs rhs => some (s.define inst.dst (lhs.eval s.env &&& rhs.eval s.env))
  | .other op args =>
    let args := args.map (Operand.eval s.env)
    (H.run op args (H.bytesRead op args s.mem) s.host).map fun r =>
      { s.define inst.dst r.1 with host := r.2.1, mem := writeAll s.mem r.2.2 }

/-- The value a terminator branches on. -/
def Terminator.operand : Terminator → Option Operand
  | .condBr cond _ _ => some cond
  | .switch cond _ _ => some cond
  | _ => none

/-- The block a terminator leads to. -/
def Terminator.target (env : Nat → Word) : Terminator → Option Nat
  | .br block => some block
  | .condBr cond ifTrue ifFalse => some (if cond.eval env = 0 then ifFalse else ifTrue)
  | .switch cond cases default => some ((cases.lookup (cond.eval env)).getD default)
  | .ret => none

/-- A point of a run. -/
structure Config (X : Type) where
  block : Nat
  pc : Nat
  state : State X

def step (H : Host O X) (f : Func O) (c : Config X) : Option (Config X) :=
  match f[c.block]? with
  | none => none
  | some b =>
    match b.insts[c.pc]? with
    | some inst => (exec H inst c.state).map fun s => ⟨c.block, c.pc + 1, s⟩
    | none => (b.term.target c.state.env).map fun k => ⟨k, 0, c.state⟩

def run (H : Host O X) (f : Func O) (s : State X) : Nat → Option (Config X)
  | 0 => some ⟨0, 0, s⟩
  | n + 1 => (run H f s n).bind (step H f)

/-- What a step uses: the operands of an instruction and the bytes it reads (storage, memory, calls,
output), or the value it branches on. The copy, the load and what is computed from them are not uses
in this sense: they are what the pass rewrites. -/
inductive Use (O : Type) where
  | op (op : O) (args : List Word) (bytes : List (List Byte))
  | branch (value : Option Word)
  deriving DecidableEq

def uses (H : Host O X) (f : Func O) (c : Config X) : Option (Use O) :=
  match f[c.block]? with
  | none => none
  | some b =>
    match b.insts[c.pc]? with
    | some inst =>
      match inst.action with
      | .other op args =>
        let args := args.map (Operand.eval c.state.env)
        some (.op op args (H.bytesRead op args c.state.mem))
      | _ => none
    | none => some (.branch (b.term.operand.map (Operand.eval c.state.env)))

/-! ## §4 — the rewritten function. -/

/-- The copy that is cut. -/
def Site.IsCopy (site : Site) (c : Config X) : Prop := c.block = site.block ∧ c.pc = site.pc

instance (site : Site) (c : Config X) : Decidable (site.IsCopy c) :=
  inferInstanceAs (Decidable (_ ∧ _))

/-- The mask that is replaced by the shift of this register. -/
def Site.shifted (site : Site) (c : Config X) : Option Nat :=
  match site.kind with
  | .shift => .none
  | .mask reverse => if c.block = site.block ∧ c.pc = site.pc + 4 then some reverse else .none

/-- What the rewritten function has where the original has `inst`. -/
def Site.inst (site : Site) (c : Config X) (inst : Inst O) : Inst O :=
  if site.IsCopy c then setSize inst
  else
    match site.shifted c with
    | some reverse => replaceByShift reverse inst
    | .none => inst

/-- What the pass has checked of the instructions it rewrites. -/
structure Site.Matches (site : Site) (c : Config X) (inst : Inst O) : Prop where
  copy : site.IsCopy c → ∃ dst off size, inst.action = .callDataCopy dst off size
  mask : ∀ reverse, site.shifted c = some reverse → ∃ lhs rhs, inst.action = .and lhs rhs

variable {H : Host O X} {site : Site} {c : Config X} {inst : Inst O}

/-- Only a copy and a mask are rewritten. -/
theorem Site.inst_of_other (hm : site.Matches c inst)
    (hcopy : ∀ dst off size, inst.action ≠ .callDataCopy dst off size)
    (hmask : ∀ lhs rhs, inst.action ≠ .and lhs rhs) : site.inst c inst = inst := by
  have hnot : ¬ site.IsCopy c := by
    intro h
    obtain ⟨dst, off, size, ha⟩ := hm.copy h
    exact hcopy dst off size ha
  rw [Site.inst, if_neg hnot]
  cases hs : site.shifted c with
  | none => rfl
  | some reverse =>
    obtain ⟨lhs, rhs, ha⟩ := hm.mask reverse hs
    exact absurd ha (hmask lhs rhs)

/-- No other instruction comes in. -/
theorem Site.inst_other {op : O} {args : List Operand}
    (h : (site.inst c inst).action = .other op args) : inst.action = .other op args := by
  unfold Site.inst at h
  split at h
  · unfold setSize at h
    dsimp only at h
    split at h
    · cases h
    · exact h
  · split at h
    · cases h
    · exact h

theorem Block.node_eq_inst {b : Block O} {i : Nat} (h : b.node i = .inst inst) :
    b.insts[i]? = some inst := by
  unfold Block.node at h
  split at h
  · cases h
    assumption
  · split at h <;> cases h

/-- What the tests have seen. -/
theorem matchAt_spec {b : Block O} {i : Nat} {kind : Match} (h : matchAt b i = some (some kind)) :
    (∃ inst dst off size, b.insts[i]? = some inst ∧ inst.action = .callDataCopy dst off size) ∧
      ∀ reverse, kind = .mask reverse →
        ∃ inst lhs rhs, b.insts[i + 4]? = some inst ∧ inst.action = .and lhs rhs := by
  unfold matchAt at h
  split at h
  · rename_i n name dst off size hcopy
    refine ⟨⟨_, dst, off, size, Block.node_eq_inst hcopy, rfl⟩, fun reverse hkind => ?_⟩
    subst hkind
    split at h
    · split at h
      · cases h
      · split at h
        · obtain ⟨c, -, h⟩ := Option.map_eq_some_iff.mp h
          split at h <;> cases h
        · split at h
          · rename_i hand
            exact ⟨_, _, _, Block.node_eq_inst hand, rfl⟩
          · cases h
        · cases h
    · cases h
    · cases h
  · cases h

theorem findSite_spec {f : Func O} {site : Site} :
    ∀ {ps : List (Nat × Nat)}, findSite f ps = some (some site) →
    ∃ b, f[site.block]? = some b ∧ matchAt b site.pc = some (some site.kind) := by
  intro ps
  induction ps with
  | nil => exact nofun
  | cons p ps ih =>
    obtain ⟨k, i⟩ := p
    intro h
    unfold findSite at h
    split at h
    · cases h
    · rename_i b hb
      split at h
      · cases h
      · exact ih h
      · rename_i kind hmatch
        cases h
        exact ⟨b, hb, hmatch⟩

/-- The instructions that the pass has matched, met in a run. -/
theorem Site.matches_of_findSite {f : Func O} {ps : List (Nat × Nat)}
    (hsite : findSite f ps = some (some site))
    {b : Block O} (hb : f[c.block]? = some b) (hinst : b.insts[c.pc]? = some inst) :
    site.Matches c inst := by
  obtain ⟨b₀, hb₀, hmatch⟩ := findSite_spec hsite
  obtain ⟨⟨inst₀, dst, off, size, hinst₀, haction⟩, hmask⟩ := matchAt_spec hmatch
  constructor
  · rintro ⟨hblock, hpc⟩
    rw [hblock, hb₀] at hb
    cases hb
    rw [hpc, hinst₀] at hinst
    cases hinst
    exact ⟨dst, off, size, haction⟩
  · intro reverse hsh
    unfold Site.shifted at hsh
    split at hsh
    · cases hsh
    · rename_i rev hkind
      split at hsh
      · rename_i hpos
        obtain ⟨inst₁, lhs, rhs, hinst₁, hand⟩ := hmask rev hkind
        rw [hpos.1, hb₀] at hb
        cases hb
        rw [hpos.2, hinst₁] at hinst
        cases hinst
        exact ⟨lhs, rhs, hand⟩
      · cases hsh

/-- The function that the pass leaves. -/
def Site.rewrite (site : Site) (f : Func O) : Func O :=
  f.modify site.block fun b => b.rewrite site.pc site.kind

theorem runOnFunction_eq {f f' : Func O} (h : runOnFunction f = some f') :
    (findSite f (positions f) = some none ∧ f' = f) ∨
      ∃ site, findSite f (positions f) = some (some site) ∧ f' = site.rewrite f := by
  obtain ⟨found, hfound, h⟩ := Option.map_eq_some_iff.mp h
  cases found with
  | none => exact .inl ⟨hfound, h.symm⟩
  | some site => exact .inr ⟨site, hfound, h.symm⟩

/-- Blocks stay where they are, with their terminators; instructions are rewritten one by one. -/
theorem Site.rewrite_block (site : Site) {f : Func O} {b : Block O} (hb : f[c.block]? = some b) :
    ∃ b', (site.rewrite f)[c.block]? = some b' ∧ b'.term = b.term ∧
      b'.insts[c.pc]? = b.insts[c.pc]?.map (site.inst c) := by
  unfold Site.rewrite
  rw [List.getElem?_modify, hb]
  by_cases hblock : site.block = c.block
  · refine ⟨b.rewrite site.pc site.kind, by simp [hblock], ?_⟩
    have hcopy : site.IsCopy c ↔ site.pc = c.pc :=
      ⟨fun h => h.2.symm, fun h => ⟨hblock.symm, h.symm⟩⟩
    cases hkind : site.kind with
    | shift =>
      refine ⟨rfl, ?_⟩
      have hsh : site.shifted c = .none := by
        rw [Site.shifted, hkind]
      show (b.insts.modify site.pc setSize)[c.pc]? = _
      rw [List.getElem?_modify]
      cases b.insts[c.pc]? with
      | none => rfl
      | some inst => simp [Site.inst, hcopy, hsh]
    | mask reverse =>
      refine ⟨rfl, ?_⟩
      have hsh : site.shifted c = if site.pc + 4 = c.pc then some reverse else .none := by
        rw [Site.shifted, hkind]
        simp [hblock.symm, eq_comm]
      show
        ((b.insts.modify site.pc setSize).modify (site.pc + 4) (replaceByShift reverse))[c.pc]? = _
      rw [List.getElem?_modify, List.getElem?_modify]
      cases b.insts[c.pc]? with
      | none => rfl
      | some inst =>
        -- the mask stands four instructions behind the copy, so it is another instruction
        by_cases hpc : site.pc = c.pc
        · simp [Site.inst, hcopy, hpc]
        · by_cases hpc4 : site.pc + 4 = c.pc
          · simp [Site.inst, hcopy, hsh, hpc, hpc4]
          · simp [Site.inst, hcopy, hsh, hpc, hpc4]
  · -- another block is left as it is
    refine ⟨b, by simp [hblock], rfl, ?_⟩
    have hcopy : ¬ site.IsCopy c := fun h => hblock h.1.symm
    have hsh : site.shifted c = .none := by
      unfold Site.shifted
      split
      · rfl
      · exact if_neg fun h => hblock h.1.symm
    cases b.insts[c.pc]? with
    | none => rfl
    | some inst => simp [Site.inst, hcopy, hsh]

end EvmTrans.Llvm.CalldataCopyPass
