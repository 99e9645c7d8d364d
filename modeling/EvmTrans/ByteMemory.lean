/-
# `EvmTrans.ByteMemory` — `MLOAD`, `MSTORE`, `MSTORE8` and `CODECOPY` against the EVM's memory.

wasm32 stores words little-endian, so the code swaps a word on its way in and on its way out. What
matters is not that the two swaps cancel: accesses of two sizes overlap at any offset, and it is
every BYTE that has to stand where the EVM has it. `memory_refines` says so for every sequence of
accesses that keep clear of the translator's own data.

`CODECOPY` is a byte loop over the string `evmCode`, whose index nothing compares with the length of
the code. `codecopy_iff` says what the loop has to find behind the string for the copy to be padded
with zeros.
-/
import Mathlib.Data.List.GetD
import EvmTrans.Deployment
import EvmTrans.MemoryLayout

namespace EvmTrans

open Lib (leBytes beBytes ofLE ofBE length_leBytes length_beBytes length_read read write
  InRange Apart write_of_not_inRange write_add write_congr read_congr getElem_read)

/-! ## §1 — the emitted code. -/

/-- `MLOAD`. -/
def emitMload (m : LinMem) (addr : Word) : Option Word := do
  let word ← createLoadMem 256 m (ptr addr)
  return emitEndianConvert false word

/-- `MSTORE`; `isConst` says whether the word is a `ConstantInt`. -/
def emitMstore (isConst : Bool) (m : LinMem) (addr word : Word) : Option LinMem := do
  let word ← endianConvert isConst word
  createStoreMem 256 m (ptr addr) word

/-- `MSTORE8`. -/
def emitMstore8 (isConst : Bool) (m : LinMem) (addr word : Word) : Option LinMem := do
  let word ← endianConvert isConst (word.setWidth 8)
  createStoreMem 8 m (ptr addr) word

/-- An access to memory, with its operands. -/
inductive MemOp where
  | MLOAD (addr : Word)
  | MSTORE (addr word : Word)
  | MSTORE8 (addr word : Word)
  deriving DecidableEq, Repr

/-- The code of an access on operands that are not constants: the memory behind it, and the word it
pushes. -/
def emitMemOp (m : LinMem) : MemOp → Option (LinMem × Option Word)
  | .MLOAD addr => (emitMload m addr).map fun v => (m, some v)
  | .MSTORE addr word => (emitMstore false m addr word).map fun m' => (m', none)
  | .MSTORE8 addr word => (emitMstore8 false m addr word).map fun m' => (m', none)

/-- A sequence of accesses: the memory behind it, and the words pushed. -/
def emitMemOps (m : LinMem) : List MemOp → Option (LinMem × List Word)
  | [] => some (m, [])
  | op :: ops => do
    let (m, v) ← emitMemOp m op
    let (m, vs) ← emitMemOps m ops
    return (m, v.toList ++ vs)

/-! ## §2 — the EVM's memory. -/

/-- One access to the EVM's memory. -/
def evmMemOp (mem : Nat → Byte) : MemOp → (Nat → Byte) × Option Word
  | .MLOAD addr => (mem, some (BitVec.ofNat 256 (ofBE (read mem addr.toNat 32))))
  | .MSTORE addr word => (write mem addr.toNat (beBytes 32 word.toNat), none)
  | .MSTORE8 addr word => (write mem addr.toNat [word.setWidth 8], none)

/-- A sequence of them. -/
def evmMemOps (mem : Nat → Byte) : List MemOp → (Nat → Byte) × List Word
  | [] => (mem, [])
  | op :: ops =>
    let (mem, v) := evmMemOp mem op
    let (mem, vs) := evmMemOps mem ops
    (mem, v.toList ++ vs)

/-- The first byte of an access. -/
def MemOp.offset : MemOp → Nat
  | .MLOAD addr | .MSTORE addr _ | .MSTORE8 addr _ => addr.toNat

/-- The bytes of an access. -/
def MemOp.length : MemOp → Nat
  | .MLOAD _ | .MSTORE _ _ => 32
  | .MSTORE8 _ _ => 1

/-- The access stays in the memory, and away from the translator's data. -/
structure MemOp.Clear (L : Layout) (size : Nat) (op : MemOp) : Prop where
  inBounds : op.offset + op.length ≤ size
  apart : ∀ r ∈ L.translator, Apart op.offset op.length r.1 r.2

/-- The linear memory holds the EVM's memory, the translator's data apart. -/
def Represents (L : Layout) (m : LinMem) (mem : Nat → Byte) : Prop :=
  ∀ a, ¬ InAny L.translator a → m.bytes a = mem a

/-! ## §3 — one access. -/

theorem ptr_of_lt {v : Word} (h : v.toNat < 2 ^ 32) : ptr v = v.toNat := Nat.mod_eq_of_lt h

/-- A swapped word in memory is its big-endian bytes. -/
theorem emitMstore_eq (m : LinMem) (addr word : Word) :
    emitMstore false m addr word = m.store (ptr addr) (beBytes 32 word.toNat) := by
  rw [emitMstore, endianConvert_of_not_const word (by decide) (by decide)]
  show createStoreMem 256 m (ptr addr) (byteSwap word) = _
  rw [createStoreMem, if_pos rfl, leBytes_byteSwap word (by decide)]

/-- A swapped byte is the byte. -/
theorem emitMstore8_eq (m : LinMem) (addr word : Word) :
    emitMstore8 false m addr word = m.store (ptr addr) [word.setWidth 8] := by
  rw [emitMstore8, endianConvert_of_not_const _ (by decide) (by decide)]
  show createStoreMem 8 m (ptr addr) (byteSwap (word.setWidth 8)) = _
  rw [createStoreMem, if_pos rfl, leBytes_byteSwap _ (by decide)]
  show m.store (ptr addr) [BitVec.ofNat 8 (word.setWidth 8).toNat] = _
  rw [BitVec.ofNat_toNat, BitVec.setWidth_eq]

/-- The word whose little-endian bytes these are, swapped, is the word whose big-endian bytes they
are. -/
theorem byteSwap_ofLE {bs : List Byte} (h : bs.length = 32) :
    byteSwap (BitVec.ofNat 256 (ofLE bs)) = BitVec.ofNat 256 (ofBE bs) := by
  have hlt := Lib.ofLE_lt bs
  rw [h] at hlt
  have hle : leBytes 32 (BitVec.ofNat 256 (ofLE bs)).toNat = bs := by
    rw [BitVec.toNat_ofNat, Nat.mod_eq_of_lt (by rw [← two_pow_word]; exact hlt)]
    have hback := Lib.leBytes_ofLE bs
    rwa [h] at hback
  show BitVec.ofNat 256 (ofBE (leBytes 32 _)) = _
  rw [hle]

theorem emitMload_eq (m : LinMem) (addr : Word) :
    emitMload m addr = (m.load (ptr addr) 32).map fun bs => BitVec.ofNat 256 (ofBE bs) := by
  unfold emitMload createLoadMem LinMem.load
  split
  · show some (emitEndianConvert false (BitVec.ofNat 256 (ofLE (read m.bytes (ptr addr) 32)))) = _
    rw [emitEndianConvert_eq false _ (by decide) (by decide), byteSwap_ofLE (length_read ..)]
    rfl
  · rfl

/-- One store keeps the two memories together. -/
theorem Represents.store {L : Layout} {m : LinMem} {mem : Nat → Byte}
    (h : Represents L m mem) {a : Nat} {bs : List Byte} (hin : a + bs.length ≤ m.size) :
    ∃ m', m.store a bs = some m' ∧ m'.size = m.size ∧ Represents L m' (write mem a bs) :=
  ⟨{ m with bytes := write m.bytes a bs }, if_pos hin, rfl, fun i hi => write_congr (h i hi)⟩

/-- The bytes of a range that is clear of the translator's data. -/
theorem Represents.read {L : Layout} {m : LinMem} {mem : Nat → Byte} (h : Represents L m mem)
    {a n : Nat} (hap : ∀ r ∈ L.translator, Apart a n r.1 r.2) :
    read m.bytes a n = read mem a n := by
  refine read_congr fun i hi => h i ?_
  rintro ⟨r, hr, h₁, h₂⟩
  obtain ⟨h₃, h₄⟩ := hi
  rcases hap r hr with hap | hap <;> omega

theorem MemOp.length_pos (op : MemOp) : 0 < op.length := by
  cases op <;> exact Nat.succ_pos _

/-- An access in memory is made at the EVM's offset. -/
theorem MemOp.Clear.ptr_eq {L : Layout} {size : Nat} {op : MemOp} (h : op.Clear L size)
    (hsize : size ≤ 2 ^ 32) {addr : Word} (ha : op.offset = addr.toNat) :
    ptr addr = addr.toNat := by
  have hin := h.inBounds
  have hpos := op.length_pos
  exact ptr_of_lt (by omega)

/-- **One access.** The memories stay together, and the word pushed is the EVM's. -/
theorem emitMemOp_refines {L : Layout} {m : LinMem} {mem : Nat → Byte} {op : MemOp}
    (hsize : m.size ≤ 2 ^ 32) (h : Represents L m mem) (hop : op.Clear L m.size) :
    ∃ m', emitMemOp m op = some (m', (evmMemOp mem op).2) ∧ m'.size = m.size ∧
      Represents L m' (evmMemOp mem op).1 := by
  cases op with
  | MLOAD addr =>
    have hload : m.load addr.toNat 32 = some (read m.bytes addr.toNat 32) := if_pos hop.inBounds
    have hread : read m.bytes addr.toNat 32 = read mem addr.toNat 32 := h.read hop.apart
    refine ⟨m, ?_, rfl, h⟩
    rw [emitMemOp, emitMload_eq, hop.ptr_eq hsize rfl, hload, hread]
    rfl
  | MSTORE addr word =>
    have hin : addr.toNat + (beBytes 32 word.toNat).length ≤ m.size := by
      rw [length_beBytes]
      exact hop.inBounds
    obtain ⟨m', hstore, hm', hrep⟩ := h.store hin
    refine ⟨m', ?_, hm', hrep⟩
    rw [emitMemOp, emitMstore_eq, hop.ptr_eq hsize rfl, hstore]
    rfl
  | MSTORE8 addr word =>
    have hin : addr.toNat + [word.setWidth 8].length ≤ m.size := hop.inBounds
    obtain ⟨m', hstore, hm', hrep⟩ := h.store hin
    refine ⟨m', ?_, hm', hrep⟩
    rw [emitMemOp, emitMstore8_eq, hop.ptr_eq hsize rfl, hstore]
    rfl

/-! ## §4 — any sequence of accesses. -/

/-- **The linear memory is the EVM's memory**, byte for byte, behind every sequence of accesses at
any offsets, aligned or not and overlapping or not, and every `MLOAD` of it pushes the EVM's
word. -/
theorem memory_refines (L : Layout) (m : LinMem) (mem : Nat → Byte) (ops : List MemOp)
    (hsize : m.size ≤ 2 ^ 32) (h : Represents L m mem) (hops : ∀ op ∈ ops, op.Clear L m.size) :
    ∃ m', emitMemOps m ops = some (m', (evmMemOps mem ops).2) ∧ m'.size = m.size ∧
      Represents L m' (evmMemOps mem ops).1 := by
  induction ops generalizing m mem with
  | nil => exact ⟨m, rfl, rfl, h⟩
  | cons op ops ih =>
    obtain ⟨m₁, hop, hsize₁, h₁⟩ := emitMemOp_refines hsize h (hops op (List.mem_cons_self ..))
    have hrest : ∀ op ∈ ops, op.Clear L m₁.size := by
      intro o ho
      rw [hsize₁]
      exact hops o (List.mem_cons_of_mem op ho)
    obtain ⟨m₂, hops₂, hsize₂, h₂⟩ := ih m₁ _ (by rw [hsize₁]; exact hsize) h₁ hrest
    refine ⟨m₂, ?_, by rw [hsize₂, hsize₁], h₂⟩
    show ((emitMemOp m op).bind fun r => (emitMemOps r.1 ops).bind fun q => _) = _
    rw [hop, Option.bind_some, hops₂]
    rfl

/-- A word at 31, a byte into the middle of it, and a load across its first bytes. -/
def overlapping : List MemOp :=
  [.MSTORE 31 (BitVec.ofNat 256 (0x0102 * 2 ^ 240)), .MSTORE8 32 0xff07, .MLOAD 1]

theorem overlapping_clear : ∀ op ∈ overlapping, op.Clear smallLayout emptyWorld.mem.size := by
  intro op hop
  have hb : op.offset + op.length ≤ 1024 := by
    have hall : ∀ op ∈ overlapping, op.offset + op.length ≤ 1024 := by decide
    exact hall op hop
  refine ⟨Nat.le_trans hb (by decide), fun r hr => Or.inl (Nat.le_trans hb ?_)⟩
  have hlow : ∀ r ∈ smallLayout.translator, 1024 ≤ r.1 := by decide
  exact hlow r hr

/-- The load sees the first byte of the word, and the byte that replaced the second. -/
theorem memory_refines_overlapping :
    (evmMemOps (fun _ => 0) overlapping).2 = [0x107] ∧
    ∃ m', emitMemOps emptyWorld.mem overlapping =
        some (m', (evmMemOps (fun _ => 0) overlapping).2) ∧
      m'.size = emptyWorld.mem.size ∧
      Represents smallLayout m' (evmMemOps (fun _ => 0) overlapping).1 :=
  ⟨by decide +kernel, memory_refines smallLayout emptyWorld.mem (fun _ => 0) overlapping (by decide)
    (fun _ _ => rfl) overlapping_clear⟩

/-! ## §5 — `CODECOPY`. -/

/-- `CODECOPY`: the index into `evmCode` wraps with the pointer, and is compared with nothing. -/
def emitCodecopy (L : Layout) (m : LinMem) (destMemIdx srcIdx reqBytes : Word) : Option LinMem :=
  memcpy (ptr destMemIdx) ((L.evmCode + ptr srcIdx) % 2 ^ 32) (ptr reqBytes) m

/-- The bytes of `B` from `src` on, with zeros past its end, stand at `dst`; nothing else has
moved. -/
structure CodeCopied (B : List Byte) (m m' : LinMem) (dst src n : Nat) : Prop where
  copied : ∀ j < n, m'.bytes (dst + j) = B.getD (src + j) 0
  frame : ∀ a, ¬ InRange dst n a → m'.bytes a = m.bytes a

/-- The byte that a forward copy of the bytes `want` finds for its round `j`: one that it has put
there itself, if it has been there, else one of the old memory. -/
def found (bytes want : Nat → Byte) (dst src j : Nat) : Byte :=
  if src < dst ∧ dst ≤ src + j then want (src + j - dst) else bytes (src + j)

/-- **What the copy has to find behind the code**: every address that it reads there is in memory,
and the byte found is a zero. -/
def ZerosBehind (L : Layout) (B : List Byte) (m : LinMem) (dst src n : Nat) : Prop :=
  ∀ j < n, B.length ≤ src + j →
    (L.evmCode + src) % 2 ^ 32 + j < m.size ∧
    found m.bytes (fun i => B.getD (src + i) 0) dst ((L.evmCode + src) % 2 ^ 32) j = 0

instance (L : Layout) (B : List Byte) (m : LinMem) (dst src n : Nat) :
    Decidable (ZerosBehind L B m dst src n) :=
  inferInstanceAs (Decidable (∀ j < n, _ → _))

theorem found_zero (bytes want : Nat → Byte) (dst src : Nat) :
    found bytes want dst src 0 = bytes src :=
  if_neg (by omega)

/-- Behind a first round that put the right byte, the copy finds what it finds from the start. -/
theorem found_succ {bytes want : Nat → Byte} {dst src : Nat} (h : bytes src = want 0) (j : Nat) :
    found (write bytes dst [bytes src]) (fun i => want (i + 1)) (dst + 1) (src + 1) j =
      found bytes want dst src (j + 1) := by
  unfold found
  by_cases hself : dst = src + (j + 1)
  · -- the byte that the first round put
    rw [if_neg (by omega), if_pos (by omega), show src + 1 + j =
      dst + 0 by omega, write_add (by simp),
      show src + (j + 1) - dst = 0 by omega]
    exact h
  · have hframe : write bytes dst [bytes src] (src + 1 + j) = bytes (src + (j + 1)) := by
      rw [write_of_not_inRange, show src + 1 + j = src + (j + 1) by omega]
      rintro ⟨h1, h2⟩
      simp only [List.length_singleton] at h2
      omega
    rw [hframe]
    by_cases hin : src < dst ∧ dst ≤ src + (j + 1)
    · rw [if_pos hin, if_pos (by omega)]
      show want (src + 1 + j - (dst + 1) + 1) = want (src + (j + 1) - dst)
      rw [show src + 1 + j - (dst + 1) + 1 = src + (j + 1) - dst by omega]
    · rw [if_neg hin, if_neg (by omega)]

/-- One round of `memcpy`, where the destination is in memory. -/
theorem memcpy_succ {dst src n : Nat} {m : LinMem} (hdst : dst < m.size) :
    memcpy dst src (n + 1) m =
      if src < m.size then
        memcpy (dst + 1) (src + 1) n { m with bytes := write m.bytes dst [m.bytes src] }
      else none := by
  show ((m.load src 1).bind fun value =>
      (m.store dst value).bind fun m => memcpy (dst + 1) (src + 1) n m) = _
  have hstore :
      m.store dst [m.bytes src] = some { m with bytes := write m.bytes dst [m.bytes src] } :=
    if_pos hdst
  by_cases h : src < m.size
  · have hload : m.load src 1 = some [m.bytes src] := if_pos h
    rw [if_pos h, hload, Option.bind_some, hstore, Option.bind_some]
  · have hload : m.load src 1 = none := if_neg h
    rw [if_neg h, hload, Option.bind_none]

/-- The later rounds leave the byte of the first one alone. -/
theorem memcpy_first {dst src n : Nat} {m m' : LinMem}
    (h : memcpy (dst + 1) (src + 1) n { m with bytes := write m.bytes dst [m.bytes src] } =
      some m') :
    m'.bytes dst = m.bytes src := by
  rw [memcpy_within h dst (by rintro ⟨hle, -⟩; omega)]
  show write m.bytes dst [m.bytes src] (dst + 0) = _
  exact write_add Nat.zero_lt_one

/-- **A forward copy puts the bytes `want` at `dst`** exactly when it finds each of them when its
turn comes. -/
theorem memcpy_iff (n : Nat) : ∀ (dst src : Nat) (m : LinMem) (want : Nat → Byte),
    dst + n ≤ m.size →
    ((∃ m', memcpy dst src n m = some m' ∧ ∀ j < n, m'.bytes (dst + j) = want j) ↔
      ∀ j < n, src + j < m.size ∧ found m.bytes want dst src j = want j) := by
  induction n with
  | zero =>
    intro dst src m want _
    constructor
    · intro _ j hj
      omega
    · intro _
      exact ⟨m, rfl, fun j hj => by omega⟩
  | succ n ih =>
    intro dst src m want hdst
    have hrest := ih (dst + 1) (src + 1) { m with bytes := write m.bytes dst [m.bytes src] }
      (fun i => want (i + 1)) (by show dst + 1 + n ≤ m.size; omega)
    rw [memcpy_succ (by omega)]
    constructor
    · rintro ⟨m', hcopy, hbytes⟩
      split at hcopy
      · rename_i hsrc
        have hfirst : m.bytes src = want 0 := by
          rw [← memcpy_first hcopy]
          exact hbytes 0 (by omega)
        have htail := hrest.mp ⟨m', hcopy, fun j hj => by
          rw [show dst + 1 + j = dst + (j + 1) by omega]
          exact hbytes (j + 1) (by omega)⟩
        intro j hj
        cases j with
        | zero => exact ⟨hsrc, by rw [found_zero, hfirst]⟩
        | succ j =>
          obtain ⟨hin, hfound⟩ := htail j (by omega)
          rw [found_succ hfirst] at hfound
          exact ⟨by rw [← Nat.add_assoc, Nat.add_right_comm]; exact hin, hfound⟩
      · cases hcopy
    · intro h
      obtain ⟨hsrc, hfirst⟩ := h 0 (by omega)
      rw [found_zero] at hfirst
      obtain ⟨m', hcopy, hbytes⟩ := hrest.mpr fun j hj => by
        obtain ⟨hin, hfound⟩ := h (j + 1) (by omega)
        rw [found_succ hfirst]
        exact ⟨by show src + 1 + j < m.size; omega, hfound⟩
      refine ⟨m', (if_pos hsrc).trans hcopy, fun j hj => ?_⟩
      cases j with
      | zero => rw [Nat.add_zero, memcpy_first hcopy, hfirst]
      | succ j =>
        rw [show dst + (j + 1) = dst + 1 + j by omega]
        exact hbytes j (by omega)

/-- The memory holds the string `evmCode`: the code, and the terminator. -/
structure HoldsCode (L : Layout) (B : List Byte) (m : LinMem) : Prop where
  size_eq : L.codeSize = B.length + 1
  bytes_eq : read m.bytes L.evmCode L.codeSize = B ++ [0]
  inBounds : L.evmCode + L.codeSize ≤ m.size

theorem HoldsCode.byte {L : Layout} {B : List Byte} {m : LinMem} (h : HoldsCode L B m) {i : Nat}
    (hi : i < B.length) : m.bytes (L.evmCode + i) = B.getD i 0 := by
  have hlen : i < (read m.bytes L.evmCode L.codeSize).length := by
    rw [length_read, h.size_eq]
    omega
  rw [← getElem_read hlen, List.getElem_of_eq h.bytes_eq, List.getElem_append_left hi,
    List.getD_eq_getElem _ _ hi]

/-- Inside the code the copy finds the code. -/
theorem HoldsCode.found {L : Layout} {B : List Byte} {m : LinMem} (h : HoldsCode L B m)
    (hsize : m.size ≤ 2 ^ 32) {want : Nat → Byte} {dst src n j : Nat}
    (hap : Apart dst n L.evmCode L.codeSize) (hj : j < n)
    (hin : src + j < B.length) :
    (L.evmCode + src) % 2 ^ 32 + j < m.size ∧
      found m.bytes want dst ((L.evmCode + src) % 2 ^ 32) j = B.getD (src + j) 0 := by
  have hb := h.inBounds
  have hs := h.size_eq
  rw [Nat.mod_eq_of_lt (by omega)]
  refine ⟨by omega, ?_⟩
  unfold EvmTrans.found
  rw [if_neg (by rcases hap with hap | hap <;> omega), Nat.add_assoc]
  exact h.byte hin

/-- **`CODECOPY` copies the code and pads it with zeros exactly when it finds zeros behind the
code.** -/
theorem codecopy_iff (L : Layout) (B : List Byte) (m : LinMem) (dst src n : Word)
    (hsize : m.size ≤ 2 ^ 32) (hcode : HoldsCode L B m) (hsrc : src.toNat < 2 ^ 32)
    (hn : n.toNat < 2 ^ 32) (hdst : dst.toNat + n.toNat ≤ m.size)
    (hap : ∀ r ∈ L.globals, Apart dst.toNat n.toNat r.1 r.2) :
    (∃ m', emitCodecopy L m dst src n = some m' ∧ CodeCopied B m m' dst.toNat src.toNat n.toNat) ↔
      ZerosBehind L B m dst.toNat src.toNat n.toNat := by
  have hapCode : Apart dst.toNat n.toNat L.evmCode L.codeSize :=
    hap (L.evmCode, L.codeSize) (by simp [Layout.globals])
  have hcopy : emitCodecopy L m dst src n =
      memcpy dst.toNat ((L.evmCode + src.toNat) % 2 ^ 32) n.toNat m := by
    unfold emitCodecopy
    rw [ptr_of_lt hsrc, ptr_of_lt hn]
    rcases Nat.eq_zero_or_pos n.toNat with h0 | hpos
    · rw [h0]
      rfl
    · rw [ptr_of_lt (by omega)]
  have hiff := memcpy_iff n.toNat dst.toNat ((L.evmCode + src.toNat) % 2 ^ 32) m
    (fun i => B.getD (src.toNat + i) 0) hdst
  rw [hcopy]
  constructor
  · rintro ⟨m', hm', hbytes, -⟩ j hj hbehind
    obtain ⟨hin, hfound⟩ := hiff.mp ⟨m', hm', hbytes⟩ j hj
    exact ⟨hin, hfound.trans (List.getD_eq_default _ _ hbehind)⟩
  · intro h
    obtain ⟨m', hm', hbytes⟩ := hiff.mpr fun j hj => by
      rcases Nat.lt_or_ge (src.toNat + j) B.length with hin | hbehind
      · exact hcode.found hsize hapCode hj hin
      · obtain ⟨hmem, hzero⟩ := h j hj hbehind
        exact ⟨hmem, hzero.trans (List.getD_eq_default _ _ hbehind).symm⟩
    exact ⟨m', hm', hbytes, memcpy_within hm'⟩

/-- `PUSH1 40, PUSH1 0c, PUSH1 00, CODECOPY, PUSH1 01, PUSH1 00, RETURN`: 64 bytes from the end of
the code on. The `RETURN`, at 11, is the one that hands out the runtime. -/
def tailCopy : List Byte := [0x60, 0x40, 0x60, 0x0c, 0x60, 0x00, 0x39, 0x60, 0x01, 0x60, 0x00, 0xf3]

/-- The header of a wasm binary. -/
def wasmHeader : List Byte := [0x00, 0x61, 0x73, 0x6d, 0x01, 0x00, 0x00, 0x00]

/-- The creation module, which has the binary as the string `runtimeCode`. -/
def creationEnv : CompileEnv := { plainEnv tailCopy with retPC := 11, rtWasmCode := wasmHeader }

/-- A layout with the string `runtimeCode` right behind `evmCode`. -/
def creationLayout : Layout where
  mstk := 1024
  spPtr := 17408
  target := 17664
  evmCode := 17920
  codeSize := 13
  runtimeCode := 17933
  runtimeSize := 9
  stack := 18176
  stackSize := 65536
  disjoint := by decide

/-- Its memory: both strings with their terminators. -/
def creationMem : LinMem where
  size := 131072
  bytes := write (write (fun _ => 0) 17920 (tailCopy ++ [0])) 17933 (wasmHeader ++ [0])

theorem creationMem_holdsCode : HoldsCode creationLayout tailCopy creationMem where
  size_eq := rfl
  bytes_eq := by decide
  inBounds := by decide

theorem creationMem_initial :
    InitialMem creationLayout (tailCopy ++ [0]) (wasmHeader ++ [0]) creationMem where
  evmCode_eq := ⟨rfl, by decide⟩
  runtimeCode_eq := ⟨rfl, by decide⟩
  zero a hcode hruntime := by
    show write (write (fun _ => 0) 17920 (tailCopy ++ [0])) 17933 (wasmHeader ++ [0]) a = 0
    rw [write_of_not_inRange hruntime, write_of_not_inRange hcode]

/-- Two bytes behind the code are still zeros: the terminator, and the first byte of the binary. -/
theorem codecopy_iff_two_behind :
    ∃ m', emitCodecopy creationLayout creationMem 0 10 4 = some m' ∧
      CodeCopied tailCopy creationMem m' 0 10 4 :=
  (codecopy_iff creationLayout tailCopy creationMem 0 10 4 (by decide) creationMem_holdsCode
    (by decide) (by decide) (by decide) (by decide)).mpr (by decide)

/-- The third is not: `CODECOPY` hands out a byte of the neighbour, which the module has because its
`RETURN` hands out the binary. -/
theorem codecopy_reads_neighbour :
    (∃ b ∈ compileMain creationEnv tailCopy, .finishData wasmHeader ∈ b.code) ∧
    InitialMem creationLayout (tailCopy ++ [0]) (wasmHeader ++ [0]) creationMem ∧
    (∀ r ∈ creationLayout.globals, Apart 0 64 r.1 r.2) ∧
    (emitCodecopy creationLayout creationMem 0 12 64).map (fun m' => m'.bytes 2) = some 0x61 ∧
    ¬ ∃ m', emitCodecopy creationLayout creationMem 0 12 64 = some m' ∧
      CodeCopied tailCopy creationMem m' 0 12 64 := by
  have hbyte : (emitCodecopy creationLayout creationMem 0 12 64).map (fun m' => m'.bytes 2) =
      some 0x61 := by
    decide +kernel
  have hmodule : ∃ b ∈ compileMain creationEnv tailCopy, .finishData wasmHeader ∈ b.code := by
    decide +kernel
  refine ⟨hmodule, creationMem_initial, by decide, hbyte, ?_⟩
  rintro ⟨m', hm', hcopied, -⟩
  rw [hm', Option.map_some, Option.some.injEq] at hbyte
  have hzero : m'.bytes 2 = 0 := hcopied 2 (by decide)
  rw [hbyte] at hzero
  exact absurd hzero (by decide)

end EvmTrans
