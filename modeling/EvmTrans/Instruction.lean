/-
# `EvmTrans.Instruction` — opcodes, the `InstrMap` arities and the push-data decoders.

The translator reads a byte string through `Instruction(*it)`: EVERY byte is an instruction, and the
bytes outside the enumeration reach the `default:` branch of each `switch`. `Instruction.ofByte`
keeps that reading — an unlisted byte becomes `UNDEFINED b`, with the `(0, 0)` entry that
`InstrMap[opcode]` default-constructs.

Two notions of "next instruction" live side by side on purpose. `instrEnd` is the EVM's own rule
(`PUSHn` is followed by `n` data bytes, whether or not the string still holds them);
`skipPushDataAndGetNext` is the translator's, cut off at the end iterator. `Boundary` is the linear
sweep by the EVM rule, and `skipPushDataAndGetNext_eq` says the translator's step is that sweep,
stopped at the end of the code.
-/
import Mathlib.Tactic.Common
import Mathlib.Order.Iterate
import Mathlib.Order.Monotone.Basic
import EvmTrans.Lib.Bytes

namespace EvmTrans

open Lib (ofBE ofLE ofBE_cons)

/-- A byte of code or memory (`using byte = uint8_t`). -/
abbrev Byte := BitVec 8

/-- An EVM word, the translator's `Type::Word = i256`. -/
abbrev Word := BitVec 256

/-! ## §1 — the opcode enumeration. -/

/-- `enum class Instruction : uint8_t`. The families the source folds with `ANY_PUSH`, `ANY_DUP`,
`ANY_SWAP` and `LOG0..LOG4` carry their number; `UNDEFINED` is every byte the enumeration leaves out
(`0xfe` among them). -/
inductive Instruction where
  | STOP | ADD | MUL | SUB | DIV | SDIV | MOD | SMOD | ADDMOD | MULMOD | EXP | SIGNEXTEND
  | LT | GT | SLT | SGT | EQ | ISZERO | AND | OR | XOR | NOT | BYTE | SHL | SHR | SAR
  | SHA3
  | ADDRESS | BALANCE | ORIGIN | CALLER | CALLVALUE | CALLDATALOAD | CALLDATASIZE | CALLDATACOPY
  | CODESIZE | CODECOPY | GASPRICE | EXTCODESIZE | EXTCODECOPY | RETURNDATASIZE | RETURNDATACOPY
  | EXTCODEHASH
  | BLOCKHASH | COINBASE | TIMESTAMP | NUMBER | DIFFICULTY | GASLIMIT | CHAINID | SELFBALANCE
  | BASEFEE
  | POP | MLOAD | MSTORE | MSTORE8 | SLOAD | SSTORE | JUMP | JUMPI | PC | MSIZE | GAS | JUMPDEST
  | PUSH (n : Nat)
  | DUP (n : Nat)
  | SWAP (n : Nat)
  | LOG (n : Nat)
  | CREATE | CALL | CALLCODE | RETURN | DELEGATECALL | CREATE2 | STATICCALL | REVERT | SUICIDE
  | UNDEFINED (b : Byte)
  deriving DecidableEq, Repr

/-- `Instruction(b)`. -/
def Instruction.ofByte (b : Byte) : Instruction :=
  match b.toNat with
  | 0x00 => .STOP | 0x01 => .ADD | 0x02 => .MUL | 0x03 => .SUB | 0x04 => .DIV | 0x05 => .SDIV
  | 0x06 => .MOD | 0x07 => .SMOD | 0x08 => .ADDMOD | 0x09 => .MULMOD | 0x0a => .EXP
  | 0x0b => .SIGNEXTEND
  | 0x10 => .LT | 0x11 => .GT | 0x12 => .SLT | 0x13 => .SGT | 0x14 => .EQ | 0x15 => .ISZERO
  | 0x16 => .AND | 0x17 => .OR | 0x18 => .XOR | 0x19 => .NOT | 0x1a => .BYTE | 0x1b => .SHL
  | 0x1c => .SHR | 0x1d => .SAR
  | 0x20 => .SHA3
  | 0x30 => .ADDRESS | 0x31 => .BALANCE | 0x32 => .ORIGIN | 0x33 => .CALLER | 0x34 => .CALLVALUE
  | 0x35 => .CALLDATALOAD | 0x36 => .CALLDATASIZE | 0x37 => .CALLDATACOPY | 0x38 => .CODESIZE
  | 0x39 => .CODECOPY | 0x3a => .GASPRICE | 0x3b => .EXTCODESIZE | 0x3c => .EXTCODECOPY
  | 0x3d => .RETURNDATASIZE | 0x3e => .RETURNDATACOPY | 0x3f => .EXTCODEHASH
  | 0x40 => .BLOCKHASH | 0x41 => .COINBASE | 0x42 => .TIMESTAMP | 0x43 => .NUMBER
  | 0x44 => .DIFFICULTY | 0x45 => .GASLIMIT | 0x46 => .CHAINID | 0x47 => .SELFBALANCE
  | 0x48 => .BASEFEE
  | 0x50 => .POP | 0x51 => .MLOAD | 0x52 => .MSTORE | 0x53 => .MSTORE8 | 0x54 => .SLOAD
  | 0x55 => .SSTORE | 0x56 => .JUMP | 0x57 => .JUMPI | 0x58 => .PC | 0x59 => .MSIZE | 0x5a => .GAS
  | 0x5b => .JUMPDEST
  | 0xf0 => .CREATE | 0xf1 => .CALL | 0xf2 => .CALLCODE | 0xf3 => .RETURN | 0xf4 => .DELEGATECALL
  | 0xf5 => .CREATE2 | 0xfa => .STATICCALL | 0xfd => .REVERT | 0xff => .SUICIDE
  | n =>
    if 0x60 ≤ n ∧ n ≤ 0x7f then .PUSH (n - 0x5f)
    else if 0x80 ≤ n ∧ n ≤ 0x8f then .DUP (n - 0x7f)
    else if 0x90 ≤ n ∧ n ≤ 0x9f then .SWAP (n - 0x8f)
    else if 0xa0 ≤ n ∧ n ≤ 0xa4 then .LOG (n - 0xa0)
    else .UNDEFINED b

/-- `std::get<1>(InstrMap[opcode])` — the words an instruction takes off the stack. -/
def Instruction.stkOut : Instruction → Nat
  | .STOP | .ADDRESS | .ORIGIN | .CALLER | .CALLVALUE | .CALLDATASIZE | .CODESIZE | .GASPRICE
  | .RETURNDATASIZE | .COINBASE | .TIMESTAMP | .NUMBER | .DIFFICULTY | .GASLIMIT | .CHAINID
  | .SELFBALANCE | .BASEFEE | .PC | .MSIZE | .GAS | .JUMPDEST | .PUSH _ | .UNDEFINED _ => 0
  | .ISZERO | .NOT | .BALANCE | .CALLDATALOAD | .EXTCODESIZE | .EXTCODEHASH | .BLOCKHASH | .POP
  | .MLOAD | .SLOAD | .JUMP | .SUICIDE => 1
  | .ADD | .MUL | .SUB | .DIV | .SDIV | .MOD | .SMOD | .EXP | .SIGNEXTEND | .LT | .GT | .SLT | .SGT
  | .EQ | .AND | .OR | .XOR | .BYTE | .SHL | .SHR | .SAR | .SHA3 | .MSTORE | .MSTORE8 | .SSTORE
  | .JUMPI | .RETURN | .REVERT => 2
  | .ADDMOD | .MULMOD | .CALLDATACOPY | .CODECOPY | .RETURNDATACOPY | .CREATE => 3
  | .EXTCODECOPY | .CREATE2 => 4
  | .DELEGATECALL | .STATICCALL => 6
  | .CALL | .CALLCODE => 7
  | .DUP n => n
  | .SWAP n => n + 1
  | .LOG n => n + 2

/-- `std::get<2>(InstrMap[opcode])` — the words an instruction puts on the stack. -/
def Instruction.stkIn : Instruction → Nat
  | .STOP | .CALLDATACOPY | .CODECOPY | .EXTCODECOPY | .RETURNDATACOPY | .POP | .MSTORE | .MSTORE8
  | .SSTORE | .JUMP | .JUMPI | .JUMPDEST | .LOG _ | .RETURN | .REVERT | .SUICIDE
  | .UNDEFINED _ => 0
  | .DUP n => n + 1
  | .SWAP n => n + 1
  | _ => 1

/-- The instructions after which `createBasicBlocks` declares the code dead. -/
def Instruction.kills : Instruction → Bool
  | .JUMP | .RETURN | .REVERT | .STOP | .SUICIDE => true
  | _ => false

/-- The instructions that close a basic block by themselves. -/
def Instruction.endsBlock (i : Instruction) : Bool := i.kills || i == .JUMPI

/-- Data bytes that follow an instruction in the EVM's reading of the code. -/
def Instruction.pushBytes : Instruction → Nat
  | .PUSH n => n
  | _ => 0

/-! ## §2 — the code and its linear sweep. -/

/-- `*it`, with the zero the EVM reads past the end. -/
def codeAt (code : List Byte) (i : Nat) : Byte := code.getD i 0

/-- `Instruction(*it)`. -/
def instAt (code : List Byte) (i : Nat) : Instruction := Instruction.ofByte (codeAt code i)

/-- One past the last byte of the instruction at `i`, data bytes missing from the code included. -/
def instrEnd (code : List Byte) (i : Nat) : Nat := i + 1 + (instAt code i).pushBytes

/-- **The linear sweep from offset 0**: `i` is the offset of an instruction. -/
def Boundary (code : List Byte) (i : Nat) : Prop :=
  i < code.length ∧ ∃ k, (instrEnd code)^[k] 0 = i

/-- The offsets of the sweep from `i` on; `fuel` bounds the instructions left. -/
def sweepFrom (code : List Byte) : Nat → Nat → List Nat
  | 0, _ => []
  | fuel + 1, i => if i < code.length then i :: sweepFrom code fuel (instrEnd code i) else []

/-- The offsets of all instructions, in order. -/
def sweep (code : List Byte) : List Nat := sweepFrom code code.length 0

/-- A valid jump destination: `JUMPDEST` on an instruction boundary. -/
def isJumpDest (code : List Byte) (d : Nat) : Bool :=
  (sweep code).contains d && instAt code d == .JUMPDEST

theorem lt_instrEnd (code : List Byte) (i : Nat) : i < instrEnd code i := by
  unfold instrEnd; omega

/-- The sweep moves strictly forward, so its positions are ordered as their step counts. -/
theorem iterate_strictMono (code : List Byte) : StrictMono fun k => (instrEnd code)^[k] 0 := by
  refine strictMono_nat_of_lt_succ fun k => ?_
  simp only [Function.iterate_succ_apply']
  exact lt_instrEnd code _

theorem boundary_zero {code : List Byte} (h : code ≠ []) : Boundary code 0 :=
  ⟨List.length_pos_iff.mpr h, 0, rfl⟩

theorem Boundary.next {code : List Byte} {i : Nat} (h : Boundary code i)
    (hlt : instrEnd code i < code.length) : Boundary code (instrEnd code i) := by
  obtain ⟨-, k, rfl⟩ := h
  exact ⟨hlt, k + 1, Function.iterate_succ_apply' _ _ _⟩

/-- No boundary lies strictly inside an instruction. -/
theorem Boundary.instrEnd_le {code : List Byte} {i j : Nat} (hi : Boundary code i)
    (hj : Boundary code j) (h : i < j) : instrEnd code i ≤ j := by
  obtain ⟨-, k, rfl⟩ := hi
  obtain ⟨-, m, rfl⟩ := hj
  have hkm : k < m := (iterate_strictMono code).lt_iff_lt.mp h
  have := (iterate_strictMono code).monotone (Nat.succ_le_of_lt hkm)
  simpa only [Function.iterate_succ_apply'] using this

theorem mem_sweepFrom {code : List Byte} : ∀ {fuel i j : Nat}, code.length ≤ i + fuel →
    (j ∈ sweepFrom code fuel i ↔ j < code.length ∧ ∃ k, (instrEnd code)^[k] i = j) := by
  intro fuel
  induction fuel with
  | zero =>
    intro i j hf
    simp only [sweepFrom, List.not_mem_nil, false_iff, not_and, not_exists]
    rintro hj k rfl
    have : i ≤ (instrEnd code)^[k] i :=
      Function.id_le_iterate_of_id_le (fun x => (lt_instrEnd code x).le) k i
    omega
  | succ fuel ih =>
    intro i j hf
    have hgt := lt_instrEnd code i
    unfold sweepFrom
    split
    · rw [List.mem_cons, ih (by omega)]
      constructor
      · rintro (rfl | ⟨hj, k, hk⟩)
        · exact ⟨‹_›, 0, rfl⟩
        · exact ⟨hj, k + 1, hk⟩
      · rintro ⟨hj, k, hk⟩
        cases k with
        | zero => exact Or.inl hk.symm
        | succ k => exact Or.inr ⟨hj, k, hk⟩
    · simp only [List.not_mem_nil, false_iff, not_and, not_exists]
      rintro hj k rfl
      have : i ≤ (instrEnd code)^[k] i :=
        Function.id_le_iterate_of_id_le (fun x => (lt_instrEnd code x).le) k i
      omega

/-- The list `sweep` enumerates exactly the boundaries. -/
theorem mem_sweep {code : List Byte} {i : Nat} : i ∈ sweep code ↔ Boundary code i :=
  mem_sweepFrom (by omega)

theorem isJumpDest_iff {code : List Byte} {d : Nat} :
    isJumpDest code d = true ↔ Boundary code d ∧ instAt code d = .JUMPDEST := by
  simp [isJumpDest, mem_sweep]

/-! ## §3 — the translator's decoders. -/

/-- `skipPushDataAndGetNext(_curr, _end)`, the free function and the lambda of `createBasicBlocks`
alike: one past the instruction at `curr`, never past `stop`. -/
def skipPushDataAndGetNext (code : List Byte) (curr stop : Nat) : Nat :=
  if 0x60 ≤ (codeAt code curr).toNat ∧ (codeAt code curr).toNat ≤ 0x7f then
    curr + (1 + min ((codeAt code curr).toNat - 0x60 + 1) (stop - curr - 1))
  else curr + 1

/-- The byte loop of `readPushData`: `value <<= 8; value |= b` with `b = 0` once `_curr == _end`. -/
def readPushDataLoop (code : List Byte) (stop : Nat) : Nat → Word → Nat → Word × Nat
  | 0, value, curr => (value, curr)
  | n + 1, value, curr =>
    if curr ≠ stop then
      readPushDataLoop code stop n ((value <<< 8) ||| (codeAt code curr).setWidth 256) (curr + 1)
    else readPushDataLoop code stop n (value <<< 8) curr

/-- `readPushData(_curr, _end)`: the immediate, and `_curr` left on the last real byte read. -/
def readPushData (code : List Byte) (curr stop : Nat) : Word × Nat :=
  let r := readPushDataLoop code stop ((codeAt code curr).toNat - 0x60 + 1) 0 (curr + 1)
  (r.1, r.2 - 1)

/-- The immediate of a `PUSHn` at `i` in the EVM's reading: its `n` data bytes, big-endian, with 0
for the bytes past the end of the code. -/
def pushValue (code : List Byte) (i n : Nat) : Word :=
  BitVec.ofNat 256 (ofBE ((List.range n).map fun j => codeAt code (i + 1 + j)))

theorem pushBytes_ofByte : ∀ b : Byte, (Instruction.ofByte b).pushBytes =
    if 0x60 ≤ b.toNat ∧ b.toNat ≤ 0x7f then b.toNat - 0x60 + 1 else 0 := by
  decide +kernel

theorem ofByte_ne_push_zero : ∀ b : Byte, Instruction.ofByte b ≠ .PUSH 0 := by
  decide +kernel

/-- The `numBytes` of the decoders is the number the opcode carries. -/
theorem instAt_push {code : List Byte} {i n : Nat} (h : instAt code i = .PUSH n) :
    (codeAt code i).toNat - 0x60 + 1 = n := by
  have hb : n = (Instruction.ofByte (codeAt code i)).pushBytes := by
    rw [show Instruction.ofByte (codeAt code i) = .PUSH n from h]; rfl
  rw [pushBytes_ofByte] at hb
  split at hb
  · exact hb.symm
  · subst hb
    exact absurd h (ofByte_ne_push_zero _)

/-- The translator's step is the EVM's, stopped at the end iterator. -/
theorem skipPushDataAndGetNext_eq {code : List Byte} {curr stop : Nat} (h : curr < stop) :
    skipPushDataAndGetNext code curr stop = min (instrEnd code curr) stop := by
  unfold skipPushDataAndGetNext instrEnd instAt
  rw [pushBytes_ofByte]
  split <;> omega

/-- The byte loop ends where the data, or the string, ends. -/
theorem readPushDataLoop_snd {code : List Byte} {stop : Nat} :
    ∀ (n : Nat) (value : Word) (curr : Nat), curr ≤ stop →
      (readPushDataLoop code stop n value curr).2 = min (curr + n) stop := by
  intro n
  induction n with
  | zero => intro value curr h; simp only [readPushDataLoop]; omega
  | succ n ih =>
    intro value curr h
    unfold readPushDataLoop
    split
    · rw [ih _ _ (by omega)]; omega
    · rw [ih _ _ h]; omega

/-- `readPushData` followed by `++it` arrives at the next instruction. -/
theorem readPushData_snd {code : List Byte} {curr stop n : Nat} (h : curr < stop)
    (hp : instAt code curr = .PUSH n) :
    (readPushData code curr stop).2 + 1 = min (instrEnd code curr) stop := by
  have hn := instAt_push hp
  have he : instrEnd code curr = curr + 1 + n := by simp [instrEnd, hp, Instruction.pushBytes]
  simp only [readPushData, hn, readPushDataLoop_snd n 0 (curr + 1) h, he]
  omega

/-- One byte of the loop on numbers: shift left by eight and put the byte in. -/
theorem shiftIn_ofNat (v : Nat) (b : Byte) :
    ((BitVec.ofNat 256 v <<< 8) ||| b.setWidth 256) = BitVec.ofNat 256 (256 * v + b.toNat) := by
  have hdisj : (BitVec.ofNat 256 v <<< 8) &&& b.setWidth 256 = 0#256 := by
    ext i hi
    simp only [BitVec.getElem_and, BitVec.getElem_shiftLeft, BitVec.getElem_setWidth]
    by_cases h8 : i < 8
    · simp [h8]
    · simp [BitVec.getLsbD_of_ge b i (by omega)]
  rw [← BitVec.add_eq_or_of_and_eq_zero _ _ hdisj]
  apply BitVec.eq_of_toNat_eq
  have hb : b.toNat < 256 := b.isLt
  simp only [BitVec.toNat_add, BitVec.toNat_shiftLeft, BitVec.toNat_setWidth, BitVec.toNat_ofNat,
    Nat.shiftLeft_eq]
  omega

/-- The byte loop accumulates the big-endian value of the bytes it reads; the bytes it makes up past
`stop` have to be the zeros of the code there. -/
theorem readPushDataLoop_fst {code : List Byte} {stop : Nat} :
    ∀ (n v curr : Nat), curr ≤ stop → (∀ j, stop ≤ j → j < curr + n → codeAt code j = 0) →
      (readPushDataLoop code stop n (BitVec.ofNat 256 v) curr).1 = BitVec.ofNat 256
        (v * 256 ^ n + ofBE ((List.range n).map fun j => codeAt code (curr + j))) := by
  intro n
  induction n with
  | zero =>
    intro v curr _ _
    simp [readPushDataLoop, ofBE, ofLE]
  | succ n ih =>
    intro v curr hle hz
    have hcons : (List.range (n + 1)).map (fun j => codeAt code (curr + j)) =
        codeAt code curr :: (List.range n).map (fun j => codeAt code (curr + 1 + j)) := by
      rw [List.range_succ_eq_map, List.map_cons, List.map_map]
      refine congrArg₂ _ rfl (List.map_congr_left fun j _ => ?_)
      exact congrArg (codeAt code) (by simp only [Nat.succ_eq_add_one]; omega)
    rw [hcons, ofBE_cons, List.length_map, List.length_range]
    unfold readPushDataLoop
    split
    · rw [shiftIn_ofNat, ih _ _ (by omega) (fun j h1 h2 => hz j h1 (by omega))]
      congr 1
      ring
    · -- past the end of the string: the source feeds zeros without moving `_curr`
      obtain rfl : curr = stop := by omega
      have hshift : (BitVec.ofNat 256 v <<< 8) = BitVec.ofNat 256 (256 * v) := by
        simpa using shiftIn_ofNat v 0
      have hzero : (List.range n).map (fun j => codeAt code (curr + 1 + j)) =
          (List.range n).map fun j => codeAt code (curr + j) := by
        refine List.map_congr_left fun j hj => ?_
        have hj := List.mem_range.mp hj
        rw [hz _ (by omega) (by omega), hz _ (by omega) (by omega)]
      rw [hshift, ih _ _ le_rfl (fun j h1 h2 => hz j h1 (by omega)), hzero,
        hz curr le_rfl (by omega)]
      congr 1
      simp only [BitVec.ofNat_eq_ofNat, BitVec.toNat_ofNat, Nat.zero_mod, Nat.zero_mul,
        Nat.zero_add]
      ring

/-- `readPushData` returns the EVM's immediate, provided the bytes it makes up past `stop` are the
zeros the EVM reads there. -/
theorem readPushData_fst {code : List Byte} {curr stop n : Nat} (h : curr < stop)
    (hp : instAt code curr = .PUSH n)
    (hz : ∀ j, stop ≤ j → j < instrEnd code curr → codeAt code j = 0) :
    (readPushData code curr stop).1 = pushValue code curr n := by
  have he : instrEnd code curr = curr + 1 + n := by simp [instrEnd, hp, Instruction.pushBytes]
  have : (readPushDataLoop code stop n (BitVec.ofNat 256 0) (curr + 1)).1 = _ :=
    readPushDataLoop_fst n 0 (curr + 1) h (fun j h1 h2 => hz j h1 (by omega))
  simp only [readPushData, instAt_push hp, pushValue]
  simpa using this

end EvmTrans
