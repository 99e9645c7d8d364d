/-
# `EvmTrans.MemoryLayout` — one linear memory for the contract and for the translator.

The machine of `EvmTrans.IR` keeps `mstk`, `spPtr` and `target` apart from everything the contract
can touch. The emitted module does not: `wasm-ld` places these globals, and the string `evmCode`, in
the same linear memory in which EVM offset `a` is address `a`. Nothing rebases the contract's
offsets (the `__heap_base` of `initMemorySection` is commented out).

The FLAT machine below runs the same emitted function over that one memory: loads and stores of the
globals go to their addresses, memory opcodes to theirs. Its runs are functions of the number of
steps, and carry the ranges that the contract has written. `memory_separation` says what survives: a
contract write moves no byte outside its own range, so it spares the globals when the range does,
and a byte outside the translator's regions that the contract never wrote is zero in every state of
every run.
-/
import Mathlib.Data.List.Pairwise
import EvmTrans.CompileMain
import EvmTrans.Eei
import EvmTrans.StackRefinement

namespace EvmTrans

open Lib (leBytes beBytes ofLE ofBE read write InRange Apart length_leBytes length_beBytes
  length_read write_of_not_inRange ofBE_zeros ofLE_leBytes read_congr read_write_self
  read_write_apart)

/-! ## §1 — the layout. -/

/-- Where the linker put the translator's data: the four globals, the string `runtimeCode` and the
stack of the `alloca`s. -/
structure Layout where
  mstk : Nat
  spPtr : Nat
  target : Nat
  evmCode : Nat
  codeSize : Nat
  runtimeCode : Nat
  runtimeSize : Nat
  stack : Nat
  stackSize : Nat
  disjoint :
  [(mstk, 512 * 32), (spPtr, 32), (target, 32), (evmCode, codeSize), (runtimeCode, runtimeSize),
    (stack, stackSize)].Pairwise fun r s => Apart r.1 r.2 s.1 s.2

/-- Address ranges of the globals. -/
def Layout.globals (L : Layout) : List (Nat × Nat) :=
  [(L.mstk, 512 * 32), (L.spPtr, 32), (L.target, 32), (L.evmCode, L.codeSize)]

/-- Address ranges of all the translator's data. -/
def Layout.translator (L : Layout) : List (Nat × Nat) :=
  L.globals ++ [(L.runtimeCode, L.runtimeSize), (L.stack, L.stackSize)]

/-- The address lies in one of the ranges. -/
def InAny (rs : List (Nat × Nat)) (a : Nat) : Prop := ∃ r ∈ rs, InRange r.1 r.2 a

/-! ## §2 — the memory opcodes. -/

/-- What the host and the module share: the memory, the call data, `m_lastReturnData`; `X` is the
rest. -/
structure World (X : Type) where
  mem : LinMem
  input : List Byte
  returnData : List Byte
  host : X

/-- What an opcode does besides its own access to contract memory: the word it pushes, the return
data and host state it leaves, and the bytes it leaves in stack slots. `copyCode` is
`m_host.copy_code`. -/
structure HostOps (X : Type) where
  run : Instruction → List Word → World X → Option (Word × List Byte × X × (Nat → Byte))
  copyCode : X → Word → Nat → Nat → List Byte

/-- An operand as a pointer or a 32-bit length. -/
def ptr (v : Word) : Nat := v.toNat % 2 ^ 32

/-- The length that `eeiCallDataCopy` copies: past the end of the call data it is cut to what is
left, in 32-bit arithmetic. -/
def callDataLength (input : List Byte) (dataOffset length : Nat) : Nat :=
  if (dataOffset + length) % 2 ^ 32 ≤ input.length then length
  else (input.length + 2 ^ 32 - dataOffset) % 2 ^ 32

/-- `storeMemory(src, srcOffset, dstOffset, length)`. -/
def storeMemory (src : List Byte) (srcOffset dstOffset length : Nat) (m : LinMem) : Option LinMem :=
  if srcOffset + length < 2 ^ 32 ∧ srcOffset + length ≤ src.length ∧
      dstOffset + length < 2 ^ 32 then
    m.store dstOffset ((src.drop srcOffset).take length)
  else none

/-- `solidity.memcpy`: a forward loop of byte loads and stores. -/
def memcpy : (dst src length : Nat) → LinMem → Option LinMem
  | _, _, 0, m => some m
  | dst, src, length + 1, m => do
    let value ← m.load src 1
    let m ← m.store dst value
    memcpy (dst + 1) (src + 1) length m

variable {X : Type}

/-- The range of contract memory that an opcode writes. -/
def writeRange (input : List Byte) : Instruction → List Word → Option (Nat × Nat)
  | .MSTORE, [addr, _] => some (ptr addr, 32)
  | .MSTORE8, [addr, _] => some (ptr addr, 1)
  | .CALLDATACOPY, [destMemIdx, srcIdx, reqBytes] =>
    some (ptr destMemIdx, callDataLength input (ptr srcIdx) (ptr reqBytes))
  | .RETURNDATACOPY, [destMemIdx, _, reqBytes] => some (ptr destMemIdx, ptr reqBytes)
  | .CODECOPY, [destMemIdx, _, reqBytes] => some (ptr destMemIdx, ptr reqBytes)
  | .EXTCODECOPY, [_, destMemIdx, _, reqBytes] => some (ptr destMemIdx, ptr reqBytes)
  | .CALL, [_, _, _, _, _, outOff, outSize] => some (ptr outOff, ptr outSize)
  | .CALLCODE, [_, _, _, _, _, outOff, outSize] => some (ptr outOff, ptr outSize)
  | .DELEGATECALL, [_, _, _, _, outOff, outSize] => some (ptr outOff, ptr outSize)
  | .STATICCALL, [_, _, _, _, outOff, outSize] => some (ptr outOff, ptr outSize)
  | _, _ => none

/-- The memory after that write; `none` when the host throws or the access traps. -/
def writeMem (L : Layout) (H : HostOps X) (w : World X) : Instruction → List Word → Option LinMem
  | .MSTORE, [addr, word] => w.mem.store (ptr addr) (beBytes 32 word.toNat)
  | .MSTORE8, [addr, word] => w.mem.store (ptr addr) [word.setWidth 8]
  | .CALLDATACOPY, [destMemIdx, srcIdx, reqBytes] =>
    storeMemory w.input (ptr srcIdx) (ptr destMemIdx)
      (callDataLength w.input (ptr srcIdx) (ptr reqBytes)) w.mem
  | .RETURNDATACOPY, [destMemIdx, srcIdx, reqBytes] =>
    storeMemory w.returnData (ptr srcIdx) (ptr destMemIdx) (ptr reqBytes) w.mem
  | .CODECOPY, [destMemIdx, srcIdx, reqBytes] =>
    memcpy (ptr destMemIdx) ((L.evmCode + ptr srcIdx) % 2 ^ 32) (ptr reqBytes) w.mem
  | .EXTCODECOPY, [addr, destMemIdx, srcIdx, reqBytes] =>
    storeMemory (H.copyCode w.host addr (ptr srcIdx) (ptr reqBytes)) 0 (ptr destMemIdx)
      (ptr reqBytes) w.mem
  | .CALL, [_, _, _, _, _, outOff, outSize] =>
    storeMemory w.returnData 0 (ptr outOff) (ptr outSize) w.mem
  | .CALLCODE, [_, _, _, _, _, outOff, outSize] =>
    storeMemory w.returnData 0 (ptr outOff) (ptr outSize) w.mem
  | .DELEGATECALL, [_, _, _, _, outOff, outSize] =>
    storeMemory w.returnData 0 (ptr outOff) (ptr outSize) w.mem
  | .STATICCALL, [_, _, _, _, outOff, outSize] =>
    storeMemory w.returnData 0 (ptr outOff) (ptr outSize) w.mem
  | _, _ => some w.mem

/-- The host's part of an opcode: contract memory stays, stack slots may not. -/
def hostPart (L : Layout) (H : HostOps X) (op : Instruction) (args : List Word) (w : World X) :
    Option (Word × World X) := do
  let (v, returnData, host, slots) ← H.run op args w
  let bytes := fun a => if L.stack ≤ a ∧ a < L.stack + L.stackSize then slots a else w.mem.bytes a
  return (v,
    { w with mem := { w.mem with bytes := bytes }, returnData := returnData, host := host })

/-- An opcode over the shared memory: the host's part, then the access to contract memory. -/
def execShared (L : Layout) (H : HostOps X) (op : Instruction) (args : List Word) (w : World X) :
    Option (Word × World X) := do
  let (v, w) ← hostPart L H op args w
  match op, args with
  | .MLOAD, [addr] =>
    let bs ← w.mem.load (ptr addr) 32
    return (BitVec.ofNat 256 (ofBE bs), w)
  | _, _ =>
    let m ← writeMem L H w op args
    return (v, { w with mem := m })

/-- The opcodes of the module, as the IR machine takes them. -/
def sharedOps (L : Layout) (H : HostOps X) : Ops (World X) where
  exec := execShared L H
  output := fun w off size => read w.mem.bytes (ptr off) (ptr size)
  length_output := fun _ _ _ => length_read ..

/-! ## §3 — the flat machine. -/

/-- A word of memory. -/
def readWord (m : Nat → Byte) (a : Nat) : Word := BitVec.ofNat 256 (ofLE (read m a 32))

/-- The state that the IR machine would see: the globals as the memory holds them. -/
def flatView (L : Layout) (env : Nat → Word) (w : World X) : St (World X) where
  env := env
  sp := readWord w.mem.bytes L.spPtr
  mstk := fun i => if i < 512 then readWord w.mem.bytes (L.mstk + 32 * i) else 0
  target := readWord w.mem.bytes L.target
  world := w

/-- The address of a global. -/
def globalAddr (L : Layout) (env : Nat → Word) : Ptr → Option Nat
  | .spPtr => some L.spPtr
  | .target => some L.target
  | .mstk idx =>
    if (idx.denote env).toNat < 512 then some (L.mstk + 32 * (idx.denote env).toNat) else none

/-- One instruction over the flat memory. Only a store to a global differs from the IR machine. -/
def flatInstr (L : Layout) (H : HostOps X) (i : Instr) (env : Nat → Word) (w : World X) :
    Except (Stop (World X)) ((Nat → Word) × World X) :=
  match i with
  | .store v p =>
    match globalAddr L env p with
    | some a =>
      .ok (env, { w with mem :=
        { w.mem with bytes := write w.mem.bytes a (leBytes 32 (v.denote env).toNat) } })
    | none => .error .undefined
  | i =>
    match execInstr (sharedOps L H) i (flatView L env w) with
    | .ok s => .ok (s.env, s.world)
    | .error e => .error e

/-- A point of a run: the block, the instructions left in it, the registers, the world, and the
ranges that the contract has written so far. -/
structure Config (X : Type) where
  label : Label
  rest : List Instr
  env : Nat → Word
  world : World X
  written : List (Nat × Nat)

/-- The range that an instruction of the run writes on behalf of the contract. -/
def Instr.contractWrite (env : Nat → Word) (input : List Byte) : Instr → Option (Nat × Nat)
  | .opcode _ op args => writeRange input op (args.map (Value.denote env))
  | _ => none

/-- The address from which an instruction of the run loads a word for the contract, with its
register. -/
def Instr.contractLoad (env : Nat → Word) : Instr → Option (Nat × Nat)
  | .opcode dst .MLOAD [addr] => some (dst, ptr (addr.denote env))
  | _ => none

/-- One instruction, or one terminator. -/
def flatStep (L : Layout) (H : HostOps X) (f : List IRBlock) (c : Config X) : Option (Config X) :=
  match c.rest with
  | i :: rest =>
    match flatInstr L H i c.env c.world with
    | .ok (env, world) =>
      some { c with
        rest := rest
        env := env
        world := world
        written := c.written ++ (i.contractWrite c.env c.world.input).toList }
    | .error _ => none
  | [] => do
    let b ← f.find? fun b => b.label == c.label
    let t ← b.term
    match execTerm t (flatView L c.env c.world) with
    | .ok l =>
      let b ← f.find? fun b => b.label == l
      return { c with label := l, rest := b.code }
    | .error _ => none

/-- **A run of the emitted function over the flat memory**, after `n` steps. -/
def flatRun (L : Layout) (H : HostOps X) (f : List IRBlock) (w : World X) : Nat → Option (Config X)
  | 0 => do
    let b ← f.find? fun b => b.label == .entry
    return ⟨.entry, b.code, fun _ => 0, w, []⟩
  | n + 1 => (flatRun L H f w n).bind (flatStep L H f)

/-- The memory in which the module starts: the bytes of the two strings, terminators included (none
where the module has no such string), and zeros everywhere else. -/
structure InitialMem (L : Layout) (evmCode runtimeCode : List Byte) (m : LinMem) : Prop where
  evmCode_eq : L.codeSize = evmCode.length ∧ read m.bytes L.evmCode L.codeSize = evmCode
  runtimeCode_eq : L.runtimeSize = runtimeCode.length ∧
    read m.bytes L.runtimeCode L.runtimeSize = runtimeCode
  zero : ∀ a, ¬ InRange L.evmCode L.codeSize a → ¬ InRange L.runtimeCode L.runtimeSize a →
    m.bytes a = 0

/-! ## §4 — what an access can move. -/

/-- A change of memory that stays within `n` bytes at `a`. -/
def Within (m m' : LinMem) (a n : Nat) : Prop := ∀ i, ¬ InRange a n i → m'.bytes i = m.bytes i

theorem LinMem.store_within {m m' : LinMem} {a : Nat} {bs : List Byte}
    (h : m.store a bs = some m') : Within m m' a bs.length := by
  intro i hi
  unfold LinMem.store at h
  split at h
  · cases h
    exact write_of_not_inRange hi
  · cases h

theorem LinMem.store_size {m m' : LinMem} {a : Nat} {bs : List Byte} (h : m.store a bs = some m') :
    m'.size = m.size := by
  unfold LinMem.store at h
  split at h
  · cases h
    rfl
  · cases h

theorem storeMemory_within {src : List Byte} {srcOffset dstOffset length : Nat} {m m' : LinMem}
    (h : storeMemory src srcOffset dstOffset length m = some m') :
    Within m m' dstOffset length := by
  unfold storeMemory at h
  split at h
  · rename_i hb
    have hw := LinMem.store_within h
    rwa [List.length_take, List.length_drop, Nat.min_eq_left (by omega)] at hw
  · cases h

/-- The byte loop of `memcpy`, by induction on the bytes left. -/
theorem memcpy_within {length : Nat} : ∀ {dst src : Nat} {m m' : LinMem},
    memcpy dst src length m = some m' → Within m m' dst length := by
  induction length with
  | zero =>
    intro dst src m m' h
    cases h
    exact fun _ _ => rfl
  | succ length ih =>
    intro dst src m m' h i hi
    obtain ⟨value, hload, h⟩ := Option.bind_eq_some_iff.mp h
    obtain ⟨m₁, hstore, h⟩ := Option.bind_eq_some_iff.mp h
    have hlen : value.length = 1 := by
      unfold LinMem.load at hload
      split at hload
      · cases hload
        exact length_read ..
      · cases hload
    have hfirst := LinMem.store_within hstore
    rw [hlen] at hfirst
    have hrange : ¬ InRange (dst + 1) length i ∧ ¬ InRange dst 1 i := by
      constructor <;> rintro ⟨h1, h2⟩ <;> exact hi ⟨by omega, by omega⟩
    rw [ih h i hrange.1, hfirst i hrange.2]

/-- **A contract write stays in its range.** -/
theorem writeMem_frame {L : Layout} {H : HostOps X} {w : World X} {op : Instruction}
    {args : List Word} {m' : LinMem} (h : writeMem L H w op args = some m') {i : Nat}
    (hi : ∀ r, writeRange w.input op args = some r → ¬ InRange r.1 r.2 i) :
    m'.bytes i = w.mem.bytes i := by
  unfold writeMem at h
  split at h
  · rename_i addr word
    have hw := LinMem.store_within h
    rw [length_beBytes] at hw
    exact hw i (hi _ rfl)
  · exact LinMem.store_within h i (hi _ rfl)
  · exact storeMemory_within h i (hi _ rfl)
  · exact storeMemory_within h i (hi _ rfl)
  · exact memcpy_within h i (hi _ rfl)
  · exact storeMemory_within h i (hi _ rfl)
  · exact storeMemory_within h i (hi _ rfl)
  · exact storeMemory_within h i (hi _ rfl)
  · exact storeMemory_within h i (hi _ rfl)
  · exact storeMemory_within h i (hi _ rfl)
  · cases h
    rfl

theorem hostPart_frame {L : Layout} {H : HostOps X} {op : Instruction} {args : List Word}
    {w w' : World X} {v : Word} (h : hostPart L H op args w = some (v, w')) :
    w'.input = w.input ∧ w'.mem.size = w.mem.size ∧
      ∀ i, ¬ InRange L.stack L.stackSize i → w'.mem.bytes i = w.mem.bytes i := by
  obtain ⟨r, -, h⟩ := Option.bind_eq_some_iff.mp h
  cases h
  exact ⟨rfl, rfl, fun i hi => if_neg hi⟩

/-- An opcode moves stack slots and its own range, nothing else. -/
theorem execShared_frame {L : Layout} {H : HostOps X} {op : Instruction} {args : List Word}
    {w w' : World X} {v : Word} (h : execShared L H op args w = some (v, w')) {i : Nat}
    (hs : ¬ InRange L.stack L.stackSize i)
    (hi : ∀ r, writeRange w.input op args = some r → ¬ InRange r.1 r.2 i) :
    w'.mem.bytes i = w.mem.bytes i := by
  obtain ⟨⟨v₁, w₁⟩, hhost, h⟩ := Option.bind_eq_some_iff.mp h
  obtain ⟨hin, -, hbytes⟩ := hostPart_frame hhost
  dsimp only at h
  split at h
  · obtain ⟨bs, -, h⟩ := Option.bind_eq_some_iff.mp h
    cases h
    exact hbytes i hs
  · obtain ⟨m', hm', h⟩ := Option.bind_eq_some_iff.mp h
    cases h
    rw [← hin] at hi
    exact (writeMem_frame hm' hi).trans (hbytes i hs)

/-! ## §5 — one step, and a run. -/

theorem globalAddr_range {L : Layout} {env : Nat → Word} {p : Ptr} {a : Nat}
    (h : globalAddr L env p = some a) : ∀ i, InRange a 32 i → InAny L.translator i := by
  intro i hi
  cases p with
  | spPtr =>
    cases h
    exact ⟨(L.spPtr, 32), by simp [Layout.translator, Layout.globals], hi⟩
  | target =>
    cases h
    exact ⟨(L.target, 32), by simp [Layout.translator, Layout.globals], hi⟩
  | mstk idx =>
    simp only [globalAddr] at h
    split at h
    · cases h
      refine ⟨(L.mstk, 512 * 32), by simp [Layout.translator, Layout.globals], ?_⟩
      obtain ⟨h1, h2⟩ := hi
      exact ⟨by dsimp only; omega, by dsimp only; omega⟩
    · cases h

/-- Only an opcode changes the world. -/
theorem execInstr_world {W : Type} {ops : Ops W} {i : Instr} {s s' : St W}
    (h : execInstr ops i s = .ok s') (hop : ∀ dst op args, i ≠ .opcode dst op args) :
    s'.world = s.world := by
  cases i with
  | load dst p =>
    simp only [execInstr] at h
    split at h
    · cases h
      rfl
    · cases h
  | store v p =>
    cases p with
    | spPtr => cases h; rfl
    | target => cases h; rfl
    | mstk idx =>
      simp only [execInstr, St.write] at h
      split at h
      · cases h
        rfl
      · cases h
  | add dst a b => cases h; rfl
  | sub dst a b => cases h; rfl
  | zext dst v => cases h; rfl
  | icmpNE dst v => cases h; rfl
  | opcode dst op args => exact absurd rfl (hop dst op args)
  | finish off size => cases h
  | finishData data => cases h
  | revert off size => cases h
  | selfDestruct dest => cases h

/-- Every instruction but a store runs as on the IR machine. -/
theorem flatInstr_of_not_store {L : Layout} {H : HostOps X} {i : Instr} {env : Nat → Word}
    {w : World X} (h : ∀ v p, i ≠ .store v p) : flatInstr L H i env w =
      match execInstr (sharedOps L H) i (flatView L env w) with
      | .ok s => .ok (s.env, s.world)
      | .error e => .error e := by
  cases i <;> first | rfl | exact absurd rfl (h _ _)

/-- What an opcode instruction does over the flat memory. -/
theorem flatInstr_opcode {L : Layout} {H : HostOps X} {dst : Nat} {op : Instruction}
    {args : List Value} {env env' : Nat → Word} {w w' : World X}
    (h : flatInstr L H (.opcode dst op args) env w = .ok (env', w')) :
    ∃ v, execShared L H op (args.map (Value.denote env)) w = some (v, w') ∧ env' dst = v := by
  simp only [flatInstr, execInstr] at h
  cases hx : (sharedOps L H).exec op (args.map (Value.denote (flatView L env w).env))
      (flatView L env w).world with
  | none => rw [hx] at h; cases h
  | some r =>
    obtain ⟨v, w₁⟩ := r
    rw [hx] at h
    cases h
    exact ⟨v, hx, define_env_self ..⟩

/-- **One instruction** moves the translator's regions and the range it writes for the contract. -/
theorem flatInstr_frame {L : Layout} {H : HostOps X} {i : Instr} {env env' : Nat → Word}
    {w w' : World X} (h : flatInstr L H i env w = .ok (env', w')) {a : Nat}
    (ha : ¬ InAny L.translator a)
    (hi : ∀ r, i.contractWrite env w.input = some r → ¬ InRange r.1 r.2 a) :
    w'.mem.bytes a = w.mem.bytes a := by
  have hworld : (∀ dst op args, i ≠ .opcode dst op args) → (∀ v p, i ≠ .store v p) →
      w'.mem.bytes a = w.mem.bytes a := by
    intro hop hst
    rw [flatInstr_of_not_store hst] at h
    split at h
    · rename_i s hs
      cases h
      rw [execInstr_world hs hop]
      rfl
    · cases h
  cases i with
  | opcode dst op args =>
    obtain ⟨v, hx, -⟩ := flatInstr_opcode h
    refine execShared_frame hx (fun hs => ha ?_) hi
    exact ⟨(L.stack, L.stackSize), by simp [Layout.translator], hs⟩
  | store v p =>
    simp only [flatInstr] at h
    split at h
    · rename_i b hb
      cases h
      apply write_of_not_inRange
      rw [length_leBytes]
      exact fun hr => ha (globalAddr_range hb a hr)
    · cases h
  | _ => exact hworld nofun nofun

/-- **One step of a run** moves the translator's regions and what it records as written. -/
theorem flatStep_frame {L : Layout} {H : HostOps X} {f : List IRBlock} {c c' : Config X}
    (h : flatStep L H f c = some c') {a : Nat} (ha : ¬ InAny L.translator a)
    (hw : ¬ InAny c'.written a) : c'.world.mem.bytes a = c.world.mem.bytes a ∧
    ¬ InAny c.written a := by
  unfold flatStep at h
  split at h
  · rename_i i rest hrest
    split at h
    · rename_i env world hi
      cases h
      dsimp only at hw ⊢
      refine ⟨flatInstr_frame hi ha fun r hr hin => hw ⟨r, ?_, hin⟩, ?_⟩
      · rw [hr]
        exact List.mem_append_right _ (List.mem_singleton.mpr rfl)
      · rintro ⟨r, hr, hin⟩
        exact hw ⟨r, List.mem_append_left _ hr, hin⟩
    · cases h
  · obtain ⟨b, -, h⟩ := Option.bind_eq_some_iff.mp h
    obtain ⟨t, -, h⟩ := Option.bind_eq_some_iff.mp h
    split at h
    · obtain ⟨b', -, h⟩ := Option.bind_eq_some_iff.mp h
      cases h
      exact ⟨rfl, hw⟩
    · cases h

/-- **Over a run**: outside the translator's regions, a byte that the contract never wrote is
zero. -/
theorem flatRun_unwritten {L : Layout} {H : HostOps X} {f : List IRBlock} {w : World X}
    {evmCode runtimeCode : List Byte} (hinit : InitialMem L evmCode runtimeCode w.mem) {a : Nat}
    (ha : ¬ InAny L.translator a) : ∀ {n : Nat} {c : Config X}, flatRun L H f w n = some c →
      ¬ InAny c.written a → c.world.mem.bytes a = 0 := by
  intro n
  induction n with
  | zero =>
    intro c h hw
    obtain ⟨b, -, h⟩ := Option.bind_eq_some_iff.mp h
    cases h
    refine hinit.zero a (fun hr => ha ?_) (fun hr => ha ?_)
    · exact ⟨(L.evmCode, L.codeSize), by simp [Layout.translator, Layout.globals], hr⟩
    · exact ⟨(L.runtimeCode, L.runtimeSize), by simp [Layout.translator], hr⟩
  | succ n ih =>
    intro c h hw
    obtain ⟨c₀, h₀, hstep⟩ := Option.bind_eq_some_iff.mp h
    obtain ⟨hsame, hw₀⟩ := flatStep_frame hstep ha hw
    rw [hsame]
    exact ih h₀ hw₀

/-! ## §6 — separation. -/

/-- The next step keeps clear of the translator: a contract write of the globals, a load of all its
data. -/
def Config.Clear (L : Layout) (c : Config X) : Prop :=
  ∀ i ∈ c.rest.head?,
    (∀ r ∈ i.contractWrite c.env c.world.input, ∀ g ∈ L.globals, Apart r.1 r.2 g.1 g.2) ∧
    (∀ r ∈ i.contractLoad c.env, ∀ g ∈ L.translator, Apart r.2 32 g.1 g.2)

instance (L : Layout) (c : Config X) : Decidable (c.Clear L) :=
  inferInstanceAs (Decidable (∀ i ∈ c.rest.head?, _ ∧ _))

/-- The next step does not interfere: a contract write leaves the contents of `mstk`, `spPtr`,
`target` and `evmCode` as they are, and an `MLOAD` of bytes that the contract never wrote returns
zero. -/
def Config.Undisturbed (L : Layout) (H : HostOps X) (f : List IRBlock) (c : Config X) : Prop :=
  ∀ i ∈ c.rest.head?, ∀ c', flatStep L H f c = some c' →
    (∀ r ∈ i.contractWrite c.env c.world.input, ∀ a, InAny L.globals a →
      c'.world.mem.bytes a = c.world.mem.bytes a) ∧
    (∀ r ∈ i.contractLoad c.env, (∀ j, j < 32 → ¬ InAny c.written (r.2 + j)) → c'.env r.1 = 0)

theorem not_inRange_of_apart {a n b k i : Nat} (h : Apart a n b k) (hi : InRange b k i) :
    ¬ InRange a n i := by
  rintro ⟨h1, h2⟩
  obtain ⟨h3, h4⟩ := hi
  rcases h with h | h <;> omega

/-- The stack of the `alloca`s holds no global. -/
theorem Layout.stack_apart (L : Layout) {a : Nat} (ha : InAny L.globals a) :
    ¬ InRange L.stack L.stackSize a := by
  obtain ⟨g, hg, hin⟩ := ha
  have hsplit : (L.globals ++ [(L.runtimeCode, L.runtimeSize), (L.stack, L.stackSize)]).Pairwise
      fun r s => Apart r.1 r.2 s.1 s.2 := L.disjoint
  have happ := (List.pairwise_append.mp hsplit).2.2 g hg (L.stack, L.stackSize) (by simp)
  intro hs
  exact not_inRange_of_apart happ hs hin

/-- An opcode whose write keeps clear of the globals leaves them alone. -/
theorem execShared_globals {L : Layout} {H : HostOps X} {op : Instruction} {args : List Word}
    {w w' : World X} {v : Word} (h : execShared L H op args w = some (v, w'))
    (hclear : ∀ r, writeRange w.input op args = some r → ∀ g ∈ L.globals, Apart r.1 r.2 g.1 g.2)
    {a : Nat} (ha : InAny L.globals a) : w'.mem.bytes a = w.mem.bytes a := by
  refine execShared_frame h (L.stack_apart ha) fun r hr => ?_
  obtain ⟨g, hg, hin⟩ := ha
  exact not_inRange_of_apart (hclear r hr g hg) hin

/-- `MLOAD` of zeros that lie outside the stack slots. -/
theorem execShared_mload {L : Layout} {H : HostOps X} {addr v : Word} {w w' : World X}
    (h : execShared L H .MLOAD [addr] w = some (v, w'))
    (hclear : Apart (ptr addr) 32 L.stack L.stackSize)
    (hzero : ∀ j, j < 32 → w.mem.bytes (ptr addr + j) = 0) : v = 0 := by
  obtain ⟨⟨v₁, w₁⟩, hhost, h⟩ := Option.bind_eq_some_iff.mp h
  obtain ⟨-, -, hbytes⟩ := hostPart_frame hhost
  obtain ⟨bs, hload, h⟩ := Option.bind_eq_some_iff.mp h
  cases h
  have hbs : bs = List.replicate 32 0 := by
    unfold LinMem.load at hload
    split at hload
    · cases hload
      refine List.eq_replicate_iff.mpr ⟨length_read .., fun b hb => ?_⟩
      obtain ⟨j, hj, rfl⟩ := List.mem_map.mp hb
      have hj := List.mem_range.mp hj
      rw [hbytes _ fun hs => not_inRange_of_apart hclear hs ⟨Nat.le_add_right .., by omega⟩]
      exact hzero j hj
    · cases hload
  rw [hbs, ofBE_zeros]
  rfl

/-- A step executes the next instruction. -/
theorem flatStep_instr {L : Layout} {H : HostOps X} {f : List IRBlock} {c c' : Config X} {i : Instr}
    (hi : i ∈ c.rest.head?) (h : flatStep L H f c = some c') :
    flatInstr L H i c.env c.world = .ok (c'.env, c'.world) := by
  obtain ⟨rest, hrest⟩ := List.head?_eq_some_iff.mp hi
  unfold flatStep at h
  rw [hrest] at h
  dsimp only at h
  split at h
  · rename_i env world hok
    cases h
    exact hok
  · cases h

/-- **Separation, over whole runs.** In every run of the emitted function whose steps keep clear of
the translator's data, no step interferes. -/
theorem memory_separation (L : Layout) (H : HostOps X) (env : CompileEnv) (code : List Byte)
    (w : World X) (evmCode runtimeCode : List Byte) (hinit : InitialMem L evmCode runtimeCode w.mem)
    (hclear : ∀ n c, flatRun L H (compileMain env code) w n = some c → c.Clear L) :
    ∀ n c, flatRun L H (compileMain env code) w n = some c →
      c.Undisturbed L H (compileMain env code) := by
  intro n c hrun i hi c' hstep
  obtain ⟨hwrite, hload⟩ := hclear n c hrun i hi
  have hinstr := flatStep_instr hi hstep
  constructor
  · intro r hr a ha
    cases i with
    | opcode dst op args =>
      obtain ⟨v, hx, -⟩ := flatInstr_opcode hinstr
      exact execShared_globals hx hwrite ha
    | _ => cases hr
  · intro r hr hunwritten
    obtain ⟨dst, op, args, rfl⟩ : ∃ dst op args, i = .opcode dst op args := by
      cases i <;> first | exact ⟨_, _, _, rfl⟩ | cases hr
    have happ := hload r hr
    simp only [Instr.contractLoad] at hr
    split at hr
    · rename_i dst' addr hop
      cases hop
      cases hr
      obtain ⟨v, hx, henv⟩ := flatInstr_opcode hinstr
      rw [henv]
      refine execShared_mload hx (happ (L.stack, L.stackSize) (by simp [Layout.translator]))
        fun j hj => ?_
      refine flatRun_unwritten hinit ?_ hrun (hunwritten j hj)
      rintro ⟨g, hg, hin⟩
      exact not_inRange_of_apart (happ g hg) hin ⟨Nat.le_add_right .., by omega⟩
    · cases hr

/-! ## §7 — the globals as variables of their own. -/

theorem readWord_congr {m m' : Nat → Byte} {a : Nat} (h : ∀ i, InRange a 32 i → m' i = m i) :
    readWord m' a = readWord m a := by
  rw [readWord, readWord, read_congr h]

/-- A word that was stored is loaded. -/
theorem readWord_write_self (m : Nat → Byte) (a : Nat) (v : Word) :
    readWord (write m a (leBytes 32 v.toNat)) a = v := by
  have hread := read_write_self m a (leBytes 32 v.toNat)
  rw [length_leBytes] at hread
  have hlt : v.toNat < 256 ^ 32 := by
    have := v.isLt
    omega
  rw [readWord, hread, ofLE_leBytes, Nat.mod_eq_of_lt hlt, BitVec.ofNat_toNat, BitVec.setWidth_eq]

theorem readWord_write_apart (m : Nat → Byte) {a b : Nat} (v : Word) (h : Apart a 32 b 32) :
    readWord (write m a (leBytes 32 v.toNat)) b = readWord m b := by
  rw [readWord, read_write_apart (by rw [length_leBytes]; exact h), readWord]

/-- No global that holds words lies in another. -/
theorem Layout.words_apart (L : Layout) : Apart L.mstk (512 * 32) L.spPtr 32 ∧
    Apart L.mstk (512 * 32) L.target 32 ∧ Apart L.spPtr 32 L.target 32 := by
  obtain ⟨hmstk, hrest⟩ := List.pairwise_cons.mp L.disjoint
  obtain ⟨hsp, -⟩ := List.pairwise_cons.mp hrest
  exact ⟨hmstk (L.spPtr, 32) (by simp), hmstk (L.target, 32) (by simp),
    hsp (L.target, 32) (by simp)⟩

/-- The three globals hold the same words. -/
structure SameGlobals {W : Type} (s s' : St W) : Prop where
  sp : s.sp = s'.sp
  mstk : s.mstk = s'.mstk
  target : s.target = s'.target

/-- Bytes of the globals decide what a state sees in them. -/
theorem sameGlobals_of_bytes {L : Layout} {env env' : Nat → Word} {w w' : World X}
    (h : ∀ a, InAny L.globals a → w'.mem.bytes a = w.mem.bytes a) :
    SameGlobals (flatView L env w) (flatView L env' w') where
  sp := by
    refine (readWord_congr fun i hi => h i ?_).symm
    exact ⟨(L.spPtr, 32), by simp [Layout.globals], hi⟩
  mstk := by
    funext j
    show (if j < 512 then _ else _) = if j < 512 then _ else _
    split
    · refine (readWord_congr fun i hi => h i ?_).symm
      obtain ⟨h1, h2⟩ := hi
      exact ⟨(L.mstk, 512 * 32),
        by simp [Layout.globals], by dsimp only; omega, by dsimp only; omega⟩
    · rfl
  target := by
    refine (readWord_congr fun i hi => h i ?_).symm
    exact ⟨(L.target, 32), by simp [Layout.globals], hi⟩

/-- A store to one slot of `mstk`, seen from every slot. -/
theorem slot_write {L : Layout} {m : Nat → Byte} {k j : Nat} {v : Word} (hk : k < 512) :
    (if j < 512 then readWord (write m (L.mstk + 32 * k) (leBytes 32 v.toNat))
      (L.mstk + 32 * j) else 0) = Function.update (fun j => if j < 512 then readWord m
      (L.mstk + 32 * j) else 0) k v j := by
  rcases Nat.lt_trichotomy j k with hlt | rfl | hgt
  · rw [Function.update_of_ne (by omega), readWord_write_apart _ _ (.inr (by omega))]
  · rw [Function.update_self, if_pos hk, readWord_write_self]
  · rw [Function.update_of_ne (by omega), readWord_write_apart _ _ (.inl (by omega))]

/-- A store to a global changes that global, and no other: the regions are disjoint. -/
theorem flatInstr_store_view {L : Layout} {H : HostOps X} {v : Value} {p : Ptr}
    {env env' : Nat → Word} {w w' : World X}
    (h : flatInstr L H (.store v p) env w = .ok (env', w')) :
    ∃ s', (flatView L env w).write (v.denote env) p = .ok s' ∧ s'.env = env' ∧
      SameGlobals s' (flatView L env' w') := by
  obtain ⟨hms, hmt, hst⟩ := L.words_apart
  simp only [flatInstr] at h
  split at h
  · rename_i a ha
    cases h
    cases p with
    | spPtr =>
      cases ha
      refine ⟨_, rfl, rfl, ⟨(readWord_write_self ..).symm, ?_, (readWord_write_apart _ _ hst).symm⟩⟩
      funext j
      show (if j < 512 then _ else _) = if j < 512 then _ else _
      split
      · refine (readWord_write_apart _ _ ?_).symm
        rcases hms with hms | hms
        · exact .inr (by omega)
        · exact .inl (by omega)
      · rfl
    | target =>
      cases ha
      refine ⟨_, rfl, rfl,
        ⟨(readWord_write_apart _ _ hst.symm).symm, ?_, (readWord_write_self ..).symm⟩⟩
      funext j
      show (if j < 512 then _ else _) = if j < 512 then _ else _
      split
      · refine (readWord_write_apart _ _ ?_).symm
        rcases hmt with hmt | hmt
        · exact .inr (by omega)
        · exact .inl (by omega)
      · rfl
    | mstk idx =>
      simp only [globalAddr] at ha
      split at ha
      · rename_i hidx
        cases ha
        refine ⟨_, if_pos hidx, rfl, ⟨?_, ?_, ?_⟩⟩
        · refine (readWord_write_apart _ _ ?_).symm
          rcases hms with hms | hms
          · exact .inl (by omega)
          · exact .inr (by omega)
        · funext j
          exact (slot_write hidx).symm
        · refine (readWord_write_apart _ _ ?_).symm
          rcases hmt with hmt | hmt
          · exact .inl (by omega)
          · exact .inr (by omega)
      · cases ha
  · cases h

/-- Only a store changes a global of the IR machine. -/
theorem execInstr_globals {W : Type} {ops : Ops W} {i : Instr} {s s' : St W}
    (h : execInstr ops i s = .ok s') (hst : ∀ v p, i ≠ .store v p) : SameGlobals s' s := by
  cases i with
  | load dst p =>
    simp only [execInstr] at h
    split at h
    · cases h
      exact ⟨rfl, rfl, rfl⟩
    · cases h
  | store v p => exact absurd rfl (hst v p)
  | opcode dst op args =>
    simp only [execInstr] at h
    split at h
    · cases h
      exact ⟨rfl, rfl, rfl⟩
    · cases h
  | _ => cases h <;> exact ⟨rfl, rfl, rfl⟩

/-- **In a step that keeps clear of them, the globals are what the IR machine takes them for**:
variables of their own. The flat machine and the IR machine, started in the state that the memory
shows, agree on the registers and on the three globals. -/
theorem flatInstr_view {L : Layout} {H : HostOps X} {i : Instr} {env env' : Nat → Word}
    {w w' : World X} (h : flatInstr L H i env w = .ok (env', w'))
    (hclear : ∀ r ∈ i.contractWrite env w.input, ∀ g ∈ L.globals, Apart r.1 r.2 g.1 g.2) :
    ∃ s', execInstr (sharedOps L H) i (flatView L env w) = .ok s' ∧ s'.env = env' ∧
      SameGlobals s' (flatView L env' w') := by
  by_cases hst : ∃ v p, i = .store v p
  · obtain ⟨v, p, rfl⟩ := hst
    exact flatInstr_store_view h
  · have h₀ := h
    rw [flatInstr_of_not_store fun v p hi => hst ⟨v, p, hi⟩] at h
    split at h
    · rename_i s hs
      obtain ⟨henv, hworld⟩ := Prod.mk.inj (Except.ok.inj h)
      -- the instruction leaves the globals of the IR machine alone
      have hir := execInstr_globals hs fun v p hi => hst ⟨v, p, hi⟩
      -- and the bytes of the memory that hold them
      have hbytes : ∀ a, InAny L.globals a → w'.mem.bytes a = w.mem.bytes a := by
        intro a ha
        by_cases hop : ∃ dst op args, i = .opcode dst op args
        · obtain ⟨dst, op, args, rfl⟩ := hop
          obtain ⟨v, hx, -⟩ := flatInstr_opcode h₀
          exact execShared_globals hx hclear ha
        · rw [← hworld, execInstr_world hs fun dst op args hi => hop ⟨dst, op, args, hi⟩]
          rfl
      have hmem : SameGlobals (flatView L env w) (flatView L env' w') := sameGlobals_of_bytes hbytes
      exact ⟨s, hs, henv,
        ⟨hir.sp.trans hmem.sp, hir.mstk.trans hmem.mstk, hir.target.trans hmem.target⟩⟩
    · cases h

/-! ## §8 — two contracts. -/

/-- Globals from address 1024 on, where `wasm-ld` starts, and the stack behind them. -/
def smallLayout : Layout where
  mstk := 1024
  spPtr := 17408
  target := 17664
  evmCode := 17920
  codeSize := 0
  runtimeCode := 17920
  runtimeSize := 0
  stack := 18176
  stackSize := 65536
  disjoint := by decide

/-- A host that is never asked for anything. -/
def quietHost : HostOps Unit where
  run := fun _ _ w => some (0, w.returnData, (), w.mem.bytes)
  copyCode := fun _ _ _ _ => []

def emptyWorld : World Unit := ⟨⟨131072, fun _ => 0⟩, [], [], ()⟩

theorem emptyWorld_initial : InitialMem smallLayout [] [] emptyWorld.mem where
  evmCode_eq := ⟨rfl, rfl⟩
  runtimeCode_eq := ⟨rfl, rfl⟩
  zero := fun _ _ _ => rfl

/-- A run that has ended does not go on. -/
theorem flatRun_none {L : Layout} {H : HostOps X} {f : List IRBlock} {w : World X} {n : Nat}
    (h : flatRun L H f w n = none) : ∀ k, flatRun L H f w (n + k) = none := by
  intro k
  induction k with
  | zero => exact h
  | succ k ih =>
    show (flatRun L H f w (n + k)).bind _ = none
    rw [ih]
    rfl

/-- `PUSH1 ff, PUSH1 00, MSTORE, PUSH1 40, MLOAD, STOP`. -/
def lowStore : List Byte := [0x60, 0xff, 0x60, 0x00, 0x52, 0x60, 0x40, 0x51, 0x00]

/-- All of its run keeps clear of the translator's data. -/
theorem lowStore_clear : ∀ n c,
    flatRun smallLayout quietHost (compileMain (plainEnv lowStore) lowStore) emptyWorld n = some c →
      c.Clear smallLayout := by
  have hend : (flatRun smallLayout quietHost (compileMain (plainEnv lowStore) lowStore) emptyWorld
      12).isNone = true := by
    decide +kernel
  have hsteps : ∀ n, n < 12 →
      (flatRun smallLayout quietHost (compileMain (plainEnv lowStore) lowStore)
      emptyWorld n).all (fun c => decide (c.Clear smallLayout)) = true := by
    decide +kernel
  intro n c hrun
  rcases Nat.lt_or_ge n 12 with hn | hn
  · have hc := hsteps n hn
    rw [hrun] at hc
    exact of_decide_eq_true hc
  · obtain ⟨k, rfl⟩ := Nat.exists_eq_add_of_le hn
    rw [flatRun_none (Option.isNone_iff_eq_none.mp hend)] at hrun
    cases hrun

/-- So its `MSTORE` spares the globals, and its `MLOAD` gives 0. -/
theorem memory_separation_lowStore :
    (∃ c, flatRun smallLayout quietHost (compileMain (plainEnv lowStore) lowStore) emptyWorld 1 =
      some c ∧ (c.rest.head?.bind fun i => i.contractWrite c.env c.world.input) = some (0, 32) ∧
      c.Undisturbed smallLayout quietHost (compileMain (plainEnv lowStore) lowStore)) ∧
    ∃ c, flatRun smallLayout quietHost (compileMain (plainEnv lowStore) lowStore) emptyWorld
      2 = some c ∧ (c.rest.head?.bind fun i => i.contractLoad c.env) = some (2, 64) ∧
      c.Undisturbed smallLayout quietHost (compileMain (plainEnv lowStore) lowStore) := by
  have hsep := memory_separation smallLayout quietHost (plainEnv lowStore) lowStore emptyWorld [] []
    emptyWorld_initial lowStore_clear
  have hwrite :
      (flatRun smallLayout quietHost (compileMain (plainEnv lowStore) lowStore) emptyWorld 1).map
      (fun c => c.rest.head?.bind fun i => i.contractWrite c.env c.world.input) =
        some (some (0, 32)) := by
    decide +kernel
  have hload :
      (flatRun smallLayout quietHost (compileMain (plainEnv lowStore) lowStore) emptyWorld 2).map
      (fun c => c.rest.head?.bind fun i => i.contractLoad c.env) = some (some (2, 64)) := by
    decide +kernel
  obtain ⟨c, hc, hcw⟩ := Option.map_eq_some_iff.mp hwrite
  obtain ⟨d, hd, hdl⟩ := Option.map_eq_some_iff.mp hload
  exact ⟨⟨c, hc, hcw, hsep 1 c hc⟩, ⟨d, hd, hdl, hsep 2 d hd⟩⟩

/-- `PUSH1 07, JUMPDEST, PUSH1 ff, PUSH2 0420, MSTORE, STOP`. -/
def stackStore : List Byte := [0x60, 0x07, 0x5b, 0x60, 0xff, 0x61, 0x04, 0x20, 0x52, 0x00]

/-- In front of the `MSTORE` a 7 waits on the operand stack, in `mstk[1]`; behind it the 7 is
gone. -/
theorem stackStore_mstk :
    (flatRun smallLayout quietHost (compileMain (plainEnv stackStore) stackStore) emptyWorld 7).map
        (fun c => ((flatView smallLayout c.env c.world).mstk 1, c.world.mem.bytes 1056, c.rest)) =
      some (7, 7, [.opcode 4 .MSTORE [.const .i256 0x420, .const .i256 0xff]]) ∧
    (flatRun smallLayout quietHost (compileMain (plainEnv stackStore) stackStore) emptyWorld 8).map
        (fun c => ((flatView smallLayout c.env c.world).mstk 1, c.world.mem.bytes 1056)) =
      some (BitVec.ofNat 256 (0xff * 2 ^ 248), 0) := by
  decide +kernel

/-- **A contract write reaches the operand stack**: not every step of the run of `stackStore` leaves
the translator undisturbed. -/
theorem stackStore_overwrites_mstk : ¬ ∀ n c,
    flatRun smallLayout quietHost (compileMain (plainEnv stackStore) stackStore) emptyWorld n =
      some c →
      c.Undisturbed smallLayout quietHost (compileMain (plainEnv stackStore) stackStore) := by
  intro hall
  obtain ⟨h7, h8⟩ := stackStore_mstk
  obtain ⟨c, hc, hcv⟩ := Option.map_eq_some_iff.mp h7
  obtain ⟨-, hcv⟩ := Prod.mk.inj hcv
  obtain ⟨hbyte, hrest⟩ := Prod.mk.inj hcv
  obtain ⟨c', hc', hcv'⟩ := Option.map_eq_some_iff.mp h8
  obtain ⟨-, hbyte'⟩ := Prod.mk.inj hcv'
  have hstep : flatStep smallLayout quietHost (compileMain (plainEnv stackStore) stackStore) c =
      some c' := by
    have h := hc'
    rw [flatRun, hc] at h
    exact h
  have hhead : Instr.opcode 4 .MSTORE [.const .i256 0x420, .const .i256 0xff] ∈ c.rest.head? := by
    rw [hrest]
    rfl
  have hsame := (hall 7 c hc _ hhead c' hstep).1 (1056, 32) rfl 1056
    ⟨(1024, 16384), by decide, by decide, by decide⟩
  rw [hbyte, hbyte'] at hsame
  exact absurd hsame (by decide)

end EvmTrans
