/-
# `EvmTrans.MemorySize` — `MSIZE`, and the active memory size of the EVM.

`MSIZE` pushes the word of the global `memory.size`. `initMemorySection` declares it with the
initialiser 0, and the lines that would create `solidity.updateMemorySize` are commented out: no
opcode stores to it. So it stays 0 through every run, unless the contract writes over its 32 bytes
of linear memory.

The runs are those of the flat machine. What the EVM would answer is read off the opcodes the run
has executed: the ranges they access, and the words that cover them.
-/
import EvmTrans.MemoryLayout

namespace EvmTrans

open Lib (InRange Apart)

variable {X : Type}

/-! ## §1 — the active memory size. -/

/-- The ranges of memory that an instruction accesses in the EVM: offset and length. -/
def memoryRanges : Instruction → List Word → List (Nat × Nat)
  | .MLOAD, [addr] => [(addr.toNat, 32)]
  | .MSTORE, [addr, _] => [(addr.toNat, 32)]
  | .MSTORE8, [addr, _] => [(addr.toNat, 1)]
  | .SHA3, [off, size] => [(off.toNat, size.toNat)]
  | .CALLDATACOPY, [dest, _, size] => [(dest.toNat, size.toNat)]
  | .CODECOPY, [dest, _, size] => [(dest.toNat, size.toNat)]
  | .RETURNDATACOPY, [dest, _, size] => [(dest.toNat, size.toNat)]
  | .EXTCODECOPY, [_, dest, _, size] => [(dest.toNat, size.toNat)]
  | .LOG _, off :: size :: _ => [(off.toNat, size.toNat)]
  | .CREATE, [_, off, size] => [(off.toNat, size.toNat)]
  | .CREATE2, [_, off, size, _] => [(off.toNat, size.toNat)]
  | .CALL, [_, _, _, inOff, inSize, outOff, outSize] =>
    [(inOff.toNat, inSize.toNat), (outOff.toNat, outSize.toNat)]
  | .CALLCODE, [_, _, _, inOff, inSize, outOff, outSize] =>
    [(inOff.toNat, inSize.toNat), (outOff.toNat, outSize.toNat)]
  | .DELEGATECALL, [_, _, inOff, inSize, outOff, outSize] =>
    [(inOff.toNat, inSize.toNat), (outOff.toNat, outSize.toNat)]
  | .STATICCALL, [_, _, inOff, inSize, outOff, outSize] =>
    [(inOff.toNat, inSize.toNat), (outOff.toNat, outSize.toNat)]
  | _, _ => []

/-- The 32-byte words that cover a range, counted from offset 0; an empty range needs none. -/
def coveringWords (r : Nat × Nat) : Nat := if r.2 = 0 then 0 else (r.1 + r.2 + 31) / 32

/-- **The active memory size** after these accesses. -/
def activeSize : List (Nat × Nat) → Nat
  | [] => 0
  | r :: rs => max (32 * coveringWords r) (activeSize rs)

theorem coveringWords_eq_zero_iff (r : Nat × Nat) : coveringWords r = 0 ↔ r.2 = 0 := by
  unfold coveringWords
  split <;> omega

/-- It is 0 exactly when nothing was accessed. -/
theorem activeSize_eq_zero_iff (rs : List (Nat × Nat)) : activeSize rs = 0 ↔ ∀ r ∈ rs, r.2 = 0 := by
  induction rs with
  | nil => simp [activeSize]
  | cons r rs ih =>
    rw [List.forall_mem_cons, ← ih, ← coveringWords_eq_zero_iff, activeSize]
    omega

/-! ## §2 — the global. -/

/-- Where the linker put `memory.size`: apart from the translator's other data. -/
structure SizeGlobal (L : Layout) where
  addr : Nat
  apart : ∀ r ∈ L.translator, Apart addr 32 r.1 r.2

variable {L : Layout}

/-- The opcodes of the module, with `MSIZE` as `CreateLoad(_eei.MemorySize)`. -/
def withMemorySize (g : SizeGlobal L) (H : HostOps X) : HostOps X where
  run op args w :=
    if op = .MSIZE then some (readWord w.mem.bytes g.addr, w.returnData, w.host, w.mem.bytes)
    else H.run op args w
  copyCode := H.copyCode

/-- The opcode that a step executes, with its operands. -/
def Config.opcode (c : Config X) : Option (Instruction × List Word) :=
  match c.rest.head? with
  | some (.opcode _ op args) => some (op, args.map (Value.denote c.env))
  | _ => none

/-- The ranges accessed by the first `n` steps of a run. -/
def accessed (L : Layout) (H : HostOps X) (f : List IRBlock) (w : World X) : Nat → List (Nat × Nat)
  | 0 => []
  | n + 1 =>
    accessed L H f w n ++
      match (flatRun L H f w n).bind Config.opcode with
      | some (op, args) => memoryRanges op args
      | none => []

/-- Step `n` of the run executes `MSIZE` and pushes `v`. -/
def PushesSize (L : Layout) (H : HostOps X) (f : List IRBlock) (w : World X) (n : Nat)
    (v : Word) : Prop :=
  ∃ c c' dst args, flatRun L H f w n = some c ∧ c.rest.head? = some (.opcode dst .MSIZE args) ∧
    flatRun L H f w (n + 1) = some c' ∧ c'.env dst = v

/-- The contract has not written over `memory.size` in the first `n` steps. -/
def Spared (g : SizeGlobal L) (H : HostOps X) (f : List IRBlock) (w : World X) (n : Nat) : Prop :=
  ∀ c, flatRun L H f w n = some c → ∀ a, InRange g.addr 32 a → ¬ InAny c.written a

variable {g : SizeGlobal L} {H : HostOps X} {f : List IRBlock} {w : World X}

/-- Every opcode but `MLOAD` pushes the word that the host's part gives. -/
theorem execShared_value {op : Instruction} {args : List Word} {w' : World X} {v : Word}
    (h : execShared L H op args w = some (v, w')) (hop : op ≠ .MLOAD) :
    ∃ r, H.run op args w = some r ∧ v = r.1 := by
  obtain ⟨⟨v₁, w₁⟩, hhost, h⟩ := Option.bind_eq_some_iff.mp h
  obtain ⟨r, hrun, hhost⟩ := Option.bind_eq_some_iff.mp hhost
  cases hhost
  dsimp only at h
  split at h
  · exact absurd rfl hop
  · obtain ⟨m, -, h⟩ := Option.bind_eq_some_iff.mp h
    cases h
    exact ⟨r, hrun, rfl⟩

/-- `MSIZE` loads the global. -/
theorem execShared_msize {args : List Word} {w' : World X} {v : Word}
    (h : execShared L (withMemorySize g H) .MSIZE args w = some (v, w')) :
    v = readWord w.mem.bytes g.addr := by
  obtain ⟨r, hrun, hv⟩ := execShared_value h nofun
  have hrun' : some (readWord w.mem.bytes g.addr, w.returnData, w.host, w.mem.bytes) =
      some r := hrun
  rw [hv, ← Option.some.inj hrun']

theorem PushesSize.eq_readWord {n : Nat} {v : Word}
    (h : PushesSize L (withMemorySize g H) f w n v) :
    ∃ c, flatRun L (withMemorySize g H) f w n = some c ∧ v = readWord c.world.mem.bytes g.addr := by
  obtain ⟨c, c', dst, args, hrun, hhead, hnext, rfl⟩ := h
  rw [flatRun, hrun] at hnext
  obtain ⟨v, hx, hv⟩ := flatInstr_opcode (flatStep_instr hhead hnext)
  exact ⟨c, hrun, hv.trans (execShared_msize hx)⟩

/-- While the contract spares it, the global is 0. -/
theorem readWord_of_spared {evmCode runtimeCode : List Byte}
    (hinit : InitialMem L evmCode runtimeCode w.mem)
    {n : Nat} {c : Config X} (hrun : flatRun L H f w n = some c) (hspared : Spared g H f w n) :
    readWord c.world.mem.bytes g.addr = 0 := by
  have hzero : ∀ i, InRange g.addr 32 i → c.world.mem.bytes i = (fun _ => 0 : Nat → Byte) i := by
    intro i hi
    refine flatRun_unwritten hinit ?_ hrun (hspared c hrun i hi)
    rintro ⟨r, hr, hin⟩
    exact not_inRange_of_apart (g.apart r hr) hin hi
  have hread : ∀ m : Nat → Byte, (∀ i, InRange g.addr 32 i → m i = 0) → readWord m g.addr = 0 := by
    intro m hm
    rw [readWord_congr (m := fun _ => 0) hm]
    show BitVec.ofNat 256 (Lib.ofLE (Lib.read (fun _ => (0 : Byte)) g.addr 32)) = 0
    have hrep : Lib.read (fun _ => (0 : Byte)) g.addr 32 = List.replicate 32 0 := by
      rw [Lib.read, List.map_const', List.length_range]
    rw [hrep]
    decide
  exact hread _ hzero

/-! ## §3 — a run that accesses nothing writes nothing. -/

/-- The host refuses to copy call data from behind its end, whatever the length. -/
theorem callDataLength_zero {input : List Byte} {srcIdx dest : Nat} {m m' : LinMem}
    (hsrc : srcIdx < 2 ^ 32)
    (h : storeMemory input srcIdx dest (callDataLength input srcIdx 0) m = some m') :
    callDataLength input srcIdx 0 = 0 := by
  unfold storeMemory at h
  split at h
  · rename_i hb
    unfold callDataLength at hb ⊢
    split at hb
    · rw [if_pos ‹_›]
    · rename_i hout
      exfalso
      omega
  · cases h

/-- An opcode that accesses no byte in the EVM writes none here. -/
theorem writeRange_of_no_access {op : Instruction} {args : List Word} {w' : World X} {v : Word}
    (h : execShared L H op args w = some (v, w')) (hno : ∀ r ∈ memoryRanges op args, r.2 = 0)
    {r : Nat × Nat} (hr : writeRange w.input op args = some r) : r.2 = 0 := by
  have hptr : ∀ x : Word, x.toNat = 0 → ptr x = 0 := fun x hx => by rw [ptr, hx, Nat.zero_mod]
  obtain ⟨⟨v₁, w₁⟩, hhost, h⟩ := Option.bind_eq_some_iff.mp h
  obtain ⟨hin, -, -⟩ := hostPart_frame hhost
  unfold writeRange at hr
  split at hr
  -- `MSTORE` and `MSTORE8` always access something
  · exact absurd (hno _ List.mem_cons_self) (by simp)
  · exact absurd (hno _ List.mem_cons_self) (by simp)
  · -- `CALLDATACOPY` writes as many bytes as the host takes the size for
    rename_i dest src size _
    cases hr
    obtain ⟨m', hm', -⟩ := Option.bind_eq_some_iff.mp h
    have hsize := hptr size (hno _ List.mem_cons_self)
    dsimp only
    rw [hsize]
    have hstore : storeMemory w₁.input (ptr src) (ptr dest)
        (callDataLength w₁.input (ptr src) (ptr size)) w₁.mem = some m' := hm'
    rw [hsize, hin] at hstore
    exact callDataLength_zero (Nat.mod_lt _ (by decide)) hstore
  all_goals cases hr
  · exact hptr _ (hno _ List.mem_cons_self)
  · exact hptr _ (hno _ List.mem_cons_self)
  · exact hptr _ (hno _ List.mem_cons_self)
  · exact hptr _ (hno _ (List.mem_cons_of_mem _ List.mem_cons_self))
  · exact hptr _ (hno _ (List.mem_cons_of_mem _ List.mem_cons_self))
  · exact hptr _ (hno _ (List.mem_cons_of_mem _ List.mem_cons_self))
  · exact hptr _ (hno _ (List.mem_cons_of_mem _ List.mem_cons_self))

/-- What an opcode step accesses. -/
theorem accessed_succ_opcode {n : Nat} {c : Config X} {dst : Nat} {op : Instruction}
    {args : List Value} (hrun : flatRun L H f w n = some c)
    (hhead : c.rest.head? = some (.opcode dst op args)) :
    accessed L H f w (n + 1) =
      accessed L H f w n ++ memoryRanges op (args.map (Value.denote c.env)) := by
  have hop : c.opcode = some (op, args.map (Value.denote c.env)) := by
    unfold Config.opcode
    rw [hhead]
  rw [accessed, hrun, Option.bind_some, hop]

theorem accessed_succ (n : Nat) :
    ∃ rs, accessed L H f w (n + 1) = accessed L H f w n ++ rs := ⟨_, rfl⟩

/-- The accesses of a prefix of the run come first. -/
theorem accessed_mono {m n : Nat} (h : m ≤ n) {r : Nat × Nat} (hr : r ∈ accessed L H f w m) :
    r ∈ accessed L H f w n := by
  induction h with
  | refl => exact hr
  | @step k _ ih =>
    obtain ⟨rs, hk⟩ := accessed_succ (L := L) (H := H) (f := f) (w := w) k
    rw [hk]
    exact List.mem_append_left _ ih

/-- A step adds to the written ranges. -/
theorem flatStep_written {c c' : Config X} (h : flatStep L H f c = some c') :
    ∃ rs, c'.written = c.written ++ rs ∧ ∀ r ∈ rs, ∃ dst op args, c.rest.head? =
      some (.opcode dst op args) ∧
      writeRange c.world.input op (args.map (Value.denote c.env)) = some r := by
  unfold flatStep at h
  split at h
  · rename_i i rest hrest
    split at h
    · rename_i env world hi
      cases h
      refine ⟨_, rfl, fun r hr => ?_⟩
      rw [hrest]
      have hr := Option.mem_toList.mp hr
      cases i with
      | opcode dst op args => exact ⟨dst, op, args, rfl, hr⟩
      | _ => cases hr
    · cases h
  · obtain ⟨b, -, h⟩ := Option.bind_eq_some_iff.mp h
    obtain ⟨t, -, h⟩ := Option.bind_eq_some_iff.mp h
    split at h
    · obtain ⟨b', -, h⟩ := Option.bind_eq_some_iff.mp h
      cases h
      exact ⟨[], (List.append_nil _).symm, nofun⟩
    · cases h

/-- What is written stays written. -/
theorem Spared.of_le {m n : Nat} (h : m ≤ n) {c : Config X} (hrun : flatRun L H f w n = some c)
    (hspared : Spared g H f w n) : Spared g H f w m := by
  induction h generalizing c with
  | refl => exact hspared
  | @step k _ ih =>
    obtain ⟨c₀, h₀, hstep⟩ := Option.bind_eq_some_iff.mp hrun
    refine ih h₀ fun d hd a ha => ?_
    obtain ⟨rs, hwritten, -⟩ := flatStep_written hstep
    rintro ⟨r, hr, hin⟩
    rw [h₀] at hd
    cases hd
    refine hspared c hrun a ha ⟨r, ?_, hin⟩
    rw [hwritten]
    exact List.mem_append_left _ hr

/-- **A run that accessed no byte has written none.** By induction on the steps: the range an opcode
writes is empty when those it accesses are. -/
theorem written_of_no_access {n : Nat} : ∀ {c : Config X}, flatRun L H f w n = some c →
    (∀ r ∈ accessed L H f w n, r.2 = 0) → ∀ r ∈ c.written, r.2 = 0 := by
  induction n with
  | zero =>
    intro c hrun _ r hr
    obtain ⟨b, -, hrun⟩ := Option.bind_eq_some_iff.mp hrun
    cases hrun
    cases hr
  | succ n ih =>
    intro c hrun hno r hr
    obtain ⟨c₀, h₀, hstep⟩ := Option.bind_eq_some_iff.mp hrun
    obtain ⟨rs, hwritten, hrs⟩ := flatStep_written hstep
    rw [hwritten] at hr
    rcases List.mem_append.mp hr with hr | hr
    · exact ih h₀ (fun r hr => hno r (accessed_mono (Nat.le_succ n) hr)) r hr
    · obtain ⟨dst, op, args, hhead, hrange⟩ := hrs r hr
      obtain ⟨v, hx, -⟩ := flatInstr_opcode (flatStep_instr hhead hstep)
      refine writeRange_of_no_access hx (fun r hr => hno r ?_) hrange
      rw [accessed_succ_opcode h₀ hhead]
      exact List.mem_append_right _ hr

theorem spared_of_no_access {n : Nat} (hno : ∀ r ∈ accessed L H f w n, r.2 = 0) :
    Spared g H f w n := by
  intro c hrun a _
  rintro ⟨r, hr, h1, h2⟩
  have hlen := written_of_no_access hrun hno r hr
  omega

/-! ## §4 — `MSIZE`. -/

/-- While the contract spares the global, `MSIZE` pushes 0. -/
theorem PushesSize.eq_zero {evmCode runtimeCode : List Byte}
    (hinit : InitialMem L evmCode runtimeCode w.mem)
    {n : Nat} {v : Word} (hspared : Spared g (withMemorySize g H) f w n)
    (h : PushesSize L (withMemorySize g H) f w n v) : v = 0 := by
  obtain ⟨c, hrun, rfl⟩ := h.eq_readWord
  exact readWord_of_spared hinit hrun hspared

/-- **`MSIZE` pushes the active memory size, and never less than before, exactly while nothing has
been accessed.** A contract that has accessed no byte finds 0, which is right; one that has, and has
not written over the global, still finds 0. -/
theorem msize_iff (L : Layout) (g : SizeGlobal L) (H : HostOps X) (env : CompileEnv)
    (code : List Byte) (w : World X) (evmCode runtimeCode : List Byte)
    (hinit : InitialMem L evmCode runtimeCode w.mem) (n : Nat)
    (v : Word) (hv : PushesSize L (withMemorySize g H) (compileMain env code) w n v) :
    ((∀ r ∈ accessed L (withMemorySize g H) (compileMain env code) w n, r.2 = 0) →
      v.toNat = activeSize (accessed L (withMemorySize g H) (compileMain env code) w n) ∧
      ∀ m ≤ n, ∀ u, PushesSize L (withMemorySize g H) (compileMain env code) w m u → u ≤ v) ∧
    (Spared g (withMemorySize g H) (compileMain env code) w n →
      (v.toNat = activeSize (accessed L (withMemorySize g H) (compileMain env code) w n) ↔
        ∀ r ∈ accessed L (withMemorySize g H) (compileMain env code) w n, r.2 = 0) ∧
      ∀ m ≤ n, ∀ u, PushesSize L (withMemorySize g H) (compileMain env code) w m u → u ≤ v) := by
  have hspared : Spared g (withMemorySize g H) (compileMain env code) w n →
      (v.toNat = activeSize (accessed L (withMemorySize g H) (compileMain env code) w n) ↔
        ∀ r ∈ accessed L (withMemorySize g H) (compileMain env code) w n, r.2 = 0) ∧
      ∀ m ≤ n, ∀ u, PushesSize L (withMemorySize g H) (compileMain env code) w m u → u ≤ v := by
    intro hs
    obtain ⟨c, hrun, -⟩ := hv.eq_readWord
    -- nobody else writes the global, so this `MSIZE` and every one before it loads 0
    have hzero : v = 0 := hv.eq_zero hinit hs
    constructor
    · rw [hzero, ← activeSize_eq_zero_iff]
      exact eq_comm
    · intro m hm u hu
      rw [hu.eq_zero hinit (hs.of_le hm hrun), hzero]
      exact BitVec.le_refl _
  constructor
  · intro hno
    obtain ⟨hiff, hmono⟩ := hspared (spared_of_no_access hno)
    exact ⟨hiff.mpr hno, hmono⟩
  · exact hspared

/-- `memory.size` behind the stack of `smallLayout`. -/
def sizeGlobal : SizeGlobal smallLayout where
  addr := 83968
  apart := by decide

/-- A run that executes `MSIZE`, read off its configurations. -/
theorem PushesSize.of_run {n : Nat} {v : Word} (dst : Nat) (args : List Value)
    (hhead : (flatRun L H f w n).bind (fun c => c.rest.head?) = some (.opcode dst .MSIZE args))
    (hv : (flatRun L H f w (n + 1)).map (fun c => c.env dst) = some v) :
    PushesSize L H f w n v := by
  obtain ⟨c, hrun, hhead⟩ := Option.bind_eq_some_iff.mp hhead
  obtain ⟨c', hnext, rfl⟩ := Option.map_eq_some_iff.mp hv
  exact ⟨c, c', dst, args, hrun, hhead, hnext, rfl⟩

/-- `PUSH1 00, PUSH1 00, SHA3, MSIZE, STOP`: the hash of no bytes. -/
def hashNothing : List Byte := [0x60, 0x00, 0x60, 0x00, 0x20, 0x59, 0x00]

theorem hashNothing_msize : PushesSize smallLayout (withMemorySize sizeGlobal quietHost)
    (compileMain (plainEnv hashNothing) hashNothing) emptyWorld 2 0 := by
  apply PushesSize.of_run 2 []
  · decide +kernel
  · decide +kernel

/-- In front of its `MSIZE` it accessed one empty range, and finds 0. -/
theorem msize_iff_hashNothing :
    accessed smallLayout (withMemorySize sizeGlobal quietHost)
      (compileMain (plainEnv hashNothing) hashNothing)
        emptyWorld 2 = [(0, 0)] ∧
      (0 : Word).toNat = activeSize (accessed smallLayout (withMemorySize sizeGlobal quietHost)
        (compileMain (plainEnv hashNothing) hashNothing) emptyWorld 2) := by
  have hacc : accessed smallLayout (withMemorySize sizeGlobal quietHost)
      (compileMain (plainEnv hashNothing) hashNothing) emptyWorld 2 = [(0, 0)] := by
    decide +kernel
  have hsize :=
    msize_iff smallLayout sizeGlobal quietHost (plainEnv hashNothing) hashNothing emptyWorld [] []
      emptyWorld_initial 2 0 hashNothing_msize
  refine ⟨hacc, (hsize.1 ?_).1⟩
  rw [hacc]
  exact List.forall_mem_singleton.mpr rfl

/-- `PUSH1 00, MLOAD, MSIZE, STOP`. -/
def loadThenSize : List Byte := [0x60, 0x00, 0x51, 0x59, 0x00]

/-- **A contract that has loaded a word finds 0 all the same**: its active memory is 32 bytes. -/
theorem loadThenSize_not_active :
    ¬ ∀ n v, PushesSize smallLayout (withMemorySize sizeGlobal quietHost)
    (compileMain (plainEnv loadThenSize) loadThenSize) emptyWorld n v →
      v.toNat = activeSize (accessed smallLayout (withMemorySize sizeGlobal quietHost)
        (compileMain (plainEnv loadThenSize) loadThenSize) emptyWorld n) := by
  intro hall
  have hpush : PushesSize smallLayout (withMemorySize sizeGlobal quietHost)
      (compileMain (plainEnv loadThenSize) loadThenSize) emptyWorld 2 0 := by
    apply PushesSize.of_run 2 []
    · decide +kernel
    · decide +kernel
  have hsize : activeSize (accessed smallLayout (withMemorySize sizeGlobal quietHost)
      (compileMain (plainEnv loadThenSize) loadThenSize) emptyWorld 2) = 32 := by
    decide +kernel
  have h := hall 2 0 hpush
  rw [hsize] at h
  exact absurd h (by decide)

end EvmTrans
