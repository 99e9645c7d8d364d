/-
# `EvmTrans.WordOpcodes` — the opcodes whose code is written for 256-bit operands.

`ADDMOD` and `MULMOD` go through 512 bits and a `select` on the modulus, `BYTE` and `SIGNEXTEND` cut
their index to five bits in front of a `select` on the index, and the three shifts have no `select`
at all. LLVM leaves a shift by the width or more, an element behind the end of a vector and a
wrapping `nuw` operation undefined: here they are `none`, so a theorem that ends in `some` says that
none of them happens.
-/
import EvmTrans.Endian
import EvmTrans.SDivRem

namespace EvmTrans

open Lib (leBytes beBytes length_leBytes length_beBytes)

/-! ## §1 — the instructions. -/

section Instructions

variable {n : Nat}

/-- `IRB.CreateShl(v, s)`. -/
def createShl (v s : BitVec n) : Option (BitVec n) :=
  if s.toNat < n then some (v <<< s.toNat) else none

/-- `IRB.CreateLShr(v, s)`. -/
def createLShr (v s : BitVec n) : Option (BitVec n) :=
  if s.toNat < n then some (v >>> s.toNat) else none

/-- `IRB.CreateAShr(v, s)`. -/
def createAShr (v s : BitVec n) : Option (BitVec n) :=
  if s.toNat < n then some (v.sshiftRight s.toNat) else none

/-- `a + b` does not wrap. -/
def AddFits (a b : BitVec n) : Prop := a.toNat + b.toNat < 2 ^ n

/-- `a * b` does not wrap. -/
def MulFits (a b : BitVec n) : Prop := a.toNat * b.toNat < 2 ^ n

instance (a b : BitVec n) : Decidable (AddFits a b) := inferInstanceAs (Decidable (_ < _))
instance (a b : BitVec n) : Decidable (MulFits a b) := inferInstanceAs (Decidable (_ < _))

/-- `IRB.CreateNUWAdd(a, b)`. -/
def createNUWAdd (a b : BitVec n) : Option (BitVec n) := if AddFits a b then some (a + b) else none

/-- `IRB.CreateNUWMul(a, b)`. -/
def createNUWMul (a b : BitVec n) : Option (BitVec n) := if MulFits a b then some (a * b) else none

/-- `IRB.CreateExtractElement(v, idx)`. -/
def createExtractElement (v : List Byte) (idx : BitVec 64) : Option Byte := v[idx.toNat]?

end Instructions

/-! ## §2 — `ADDMOD` and `MULMOD`. -/

/-- `getURem512Func`. -/
def urem512 (x y : BitVec 512) : Option (BitVec 512) := (udivrem x y).map Prod.snd

/-- `ADDMOD`, its remainder lowered. -/
def emitAddmod (a b m : Word) : Option Word := do
  let divByZero := m == 0
  let a := a.setWidth 512
  let b := b.setWidth 512
  let m := m.setWidth 512
  let result ← createNUWAdd a b
  let result ← urem512 result m
  return if divByZero then 0 else result.setWidth 256

/-- `MULMOD`, its remainder lowered. -/
def emitMulmod (a b m : Word) : Option Word := do
  let divByZero := m == 0
  let a := a.setWidth 512
  let b := b.setWidth 512
  let m := m.setWidth 512
  let p ← createNUWMul a b
  let p ← urem512 p m
  let p := p.setWidth 256
  return if divByZero then 0 else p

section Widened

variable {w n : Nat}

/-- The sum of two `w`-bit numbers fits in one bit more. -/
theorem addFits_extend (h : w < n) (a b : BitVec w) : AddFits (a.setWidth n) (b.setWidth n) := by
  unfold AddFits
  rw [BitVec.toNat_setWidth_of_le h.le, BitVec.toNat_setWidth_of_le h.le]
  calc a.toNat + b.toNat < 2 ^ w + 2 ^ w := Nat.add_lt_add a.isLt b.isLt
    _ = 2 ^ (w + 1) := by rw [pow_succ, mul_two]
    _ ≤ 2 ^ n := Nat.pow_le_pow_right (by decide) h

/-- Their product fits in twice as many. -/
theorem mulFits_extend (h : w + w ≤ n) (a b : BitVec w) :
    MulFits (a.setWidth n) (b.setWidth n) := by
  unfold MulFits
  rw [BitVec.toNat_setWidth_of_le (by omega), BitVec.toNat_setWidth_of_le (by omega)]
  calc a.toNat * b.toNat < 2 ^ w * 2 ^ w :=
        Nat.mul_lt_mul_of_lt_of_le a.isLt b.isLt.le (Nat.two_pow_pos w)
    _ = 2 ^ (w + w) := (pow_add 2 w w).symm
    _ ≤ 2 ^ n := Nat.pow_le_pow_right (by decide) h

theorem toNat_add_extend (h : w < n) (a b : BitVec w) :
    (a.setWidth n + b.setWidth n).toNat = a.toNat + b.toNat := by
  rw [BitVec.toNat_add, Nat.mod_eq_of_lt (addFits_extend h a b), BitVec.toNat_setWidth_of_le h.le,
    BitVec.toNat_setWidth_of_le h.le]

theorem toNat_mul_extend (h : w + w ≤ n) (a b : BitVec w) :
    (a.setWidth n * b.setWidth n).toNat = a.toNat * b.toNat := by
  rw [BitVec.toNat_mul, Nat.mod_eq_of_lt (mulFits_extend h a b),
    BitVec.toNat_setWidth_of_le (by omega), BitVec.toNat_setWidth_of_le (by omega)]

theorem extend_zero : (0 : BitVec w).setWidth n = 0 := by
  simp

theorem extend_ne_zero (h : w ≤ n) {m : BitVec w} (hm : m ≠ 0) : m.setWidth n ≠ 0 := by
  intro hz
  have hz := congrArg BitVec.toNat hz
  rw [BitVec.toNat_setWidth_of_le h, BitVec.ofNat_eq_ofNat, BitVec.toNat_zero] at hz
  exact absurd hz (toNat_pos_of_ne hm).ne'

/-- The remainder by a `w`-bit number has `w` bits: behind the truncation there is nothing. -/
theorem toNat_rem_extend (h : w ≤ n) (x : BitVec n) {m : BitVec w} (hm : m ≠ 0) :
    (x % m.setWidth n).toNat = x.toNat % m.toNat ∧
      ((x % m.setWidth n).setWidth w).toNat = x.toNat % m.toNat := by
  have hrem : (x % m.setWidth n).toNat = x.toNat % m.toNat := by
    rw [BitVec.toNat_umod, BitVec.toNat_setWidth_of_le h]
  have hlt : x.toNat % m.toNat < 2 ^ w := Nat.lt_trans (Nat.mod_lt _ (toNat_pos_of_ne hm)) m.isLt
  refine ⟨hrem, ?_⟩
  rw [BitVec.toNat_setWidth, hrem, Nat.mod_eq_of_lt hlt]

end Widened

/-- The end of both opcodes, on the 512-bit sum or product. -/
theorem modulo_select (x : BitVec 512) (m : Word) :
    (urem512 x (m.setWidth 512)).map (fun r => if m == 0 then (0 : Word) else r.setWidth 256) =
      some (if m = 0 then 0 else BitVec.ofNat 256 (x.toNat % m.toNat)) := by
  by_cases hm : m = 0
  · -- whatever the loop makes of a zero divisor, it returns, and the `select` does not take it
    have hzero : m.setWidth 512 = 0 := by rw [hm, extend_zero]
    rw [urem512, hzero, udivrem_zero, Option.map_some, Option.map_some, if_pos (beq_iff_eq.mpr hm),
      if_pos hm]
  · have hbeq : (m == 0) = false := beq_eq_false_iff_ne.mpr hm
    obtain ⟨-, htrunc⟩ := toNat_rem_extend (by decide : 256 ≤ 512) x hm
    rw [urem512, udivrem_of_ne_zero x (extend_ne_zero (by decide) hm), Option.map_some,
      Option.map_some, hbeq, if_neg Bool.false_ne_true, if_neg hm]
    refine congrArg some (BitVec.eq_of_toNat_eq ?_)
    have hlt := ((x % m.setWidth 512).setWidth 256).isLt
    rw [htrunc] at hlt
    rw [htrunc, BitVec.toNat_ofNat, Nat.mod_eq_of_lt hlt]

/-- **`ADDMOD` and `MULMOD`** push the exact sum and product modulo `m`, and 0 for a zero modulus.
Neither the sum nor the product wraps at 512 bits, and the remainder that is truncated is a word. -/
theorem addmod_mulmod_exact (a b m : Word) :
    emitAddmod a b m =
      some (if m = 0 then 0 else BitVec.ofNat 256 ((a.toNat + b.toNat) % m.toNat)) ∧
      emitMulmod a b m =
        some (if m = 0 then 0 else BitVec.ofNat 256 (a.toNat * b.toNat % m.toNat)) ∧
      AddFits (a.setWidth 512) (b.setWidth 512) ∧ MulFits (a.setWidth 512) (b.setWidth 512) ∧
      ∀ x : BitVec 512, m = 0 ∨ ∃ r, urem512 x (m.setWidth 512) = some r ∧
        r.toNat = x.toNat % m.toNat ∧ (r.setWidth 256).toNat = r.toNat := by
  have hadd := addFits_extend (by decide : 256 < 512) a b
  have hmul := mulFits_extend (by decide : 256 + 256 ≤ 512) a b
  refine ⟨?_, ?_, hadd, hmul, fun x => ?_⟩
  · have h := modulo_select (a.setWidth 512 + b.setWidth 512) m
    rw [toNat_add_extend (by decide), Option.map_eq_bind] at h
    rw [← h]
    simp only [emitAddmod, createNUWAdd, if_pos hadd]
    rfl
  · have h := modulo_select (a.setWidth 512 * b.setWidth 512) m
    rw [toNat_mul_extend (by decide), Option.map_eq_bind] at h
    rw [← h]
    simp only [emitMulmod, createNUWMul, if_pos hmul]
    rfl
  · by_cases hm : m = 0
    · exact .inl hm
    · obtain ⟨hrem, htrunc⟩ := toNat_rem_extend (by decide : 256 ≤ 512) x hm
      refine .inr ⟨x % m.setWidth 512, ?_, hrem, htrunc.trans hrem.symm⟩
      rw [urem512, udivrem_of_ne_zero x (extend_ne_zero (by decide) hm), Option.map_some]

/-! ## §3 — `BYTE` and `SIGNEXTEND`. -/

/-- `BYTE`. On a little-endian target, element `k` of the vector view of an `i256` is its byte `k`
from the low end. -/
def emitByte (isConst : Bool) (idx value : Word) : Option Word := do
  let value := emitEndianConvert isConst value
  let idxValid := idx.ult 32
  let bytes := leBytes 32 value.toNat
  let safeIdx := (idx.setWidth 5).setWidth 64
  let byte ← createExtractElement bytes safeIdx
  let value := byte.setWidth 256
  return if idxValid then value else 0

/-- `SIGNEXTEND`. -/
def emitSignextend (idx word : Word) : Option Word := do
  let k32 := (idx.setWidth 5).setWidth 64
  let k32x8 := k32 * 8
  -- test for word >> (k * 8 + 7)
  let bitpos := k32x8 + 7
  let bitposEx := bitpos.setWidth 256
  let bitval ← createLShr word bitposEx
  let bittest := bitval.setWidth 1
  let mask ← createShl 1 bitposEx
  let mask := mask - 1
  let negmask := mask ^^^ BitVec.allOnes 256
  let val1 := word ||| negmask
  let val0 := word &&& mask
  let kInRange := idx.ule 30
  return if kInRange then (if bittest = 1 then val1 else val0) else word

/-- Five bits of the index, as a number. -/
theorem toNat_safeIdx (idx : Word) : ((idx.setWidth 5).setWidth 64).toNat = idx.toNat % 32 := by
  rw [BitVec.toNat_setWidth_of_le (by decide), BitVec.toNat_setWidth]

/-- The swapped word, read from its low end, is the word read from its high end. -/
theorem emitByte_eq (isConst : Bool) (i x : Word) : emitByte isConst i x =
    some (if i.toNat < 32 then ((beBytes 32 x.toNat).getD i.toNat 0).setWidth 256 else 0) := by
  have hbytes : leBytes 32 (emitEndianConvert isConst x).toNat = beBytes 32 x.toNat := by
    rw [emitEndianConvert_eq isConst x (by decide) (by decide)]
    exact leBytes_byteSwap x (by decide)
  have hlt : i.toNat % 32 < (beBytes 32 x.toNat).length := by
    rw [length_beBytes]
    exact Nat.mod_lt _ (by decide)
  have hvalid : i.ult 32 = decide (i.toNat < 32) := rfl
  unfold emitByte createExtractElement
  dsimp only
  rw [hbytes, toNat_safeIdx, List.getElem?_eq_getElem hlt, hvalid]
  by_cases hi : i.toNat < 32
  · rw [if_pos hi, decide_eq_true hi, List.getD_eq_getElem?_getD]
    simp only [Nat.mod_eq_of_lt hi] at hlt ⊢
    rw [List.getElem?_eq_getElem hlt]
    rfl
  · rw [if_neg hi, decide_eq_false hi]
    rfl

/-- The position of the sign bit. It is a bit of the word, whatever the index. -/
theorem toNat_bitpos (idx : Word) :
    ((((idx.setWidth 5).setWidth 64 * 8 + 7 : BitVec 64)).setWidth 256).toNat =
      8 * (idx.toNat % 32) + 7 := by
  have hlt : idx.toNat % 32 < 32 := Nat.mod_lt _ (by decide)
  have h7 : (7 : BitVec 64).toNat = 7 := rfl
  have h8 : (8 : BitVec 64).toNat = 8 := rfl
  rw [BitVec.toNat_setWidth_of_le (by decide), BitVec.toNat_add, BitVec.toNat_mul,
    toNat_safeIdx, h7, h8]
  omega

/-- `(1 << p) - 1` has the bits below `p`. -/
theorem getLsbD_shl_sub_one {p j : Nat} (hp : p < 256) (hj : j < 256) :
    ((1 : Word) <<< p - 1).getLsbD j = decide (j < p) := by
  have hpow : 2 ^ p < 2 ^ 256 := Nat.pow_lt_pow_right (by decide) hp
  have hshl : ((1 : Word) <<< p).toNat = 2 ^ p := by
    rw [BitVec.toNat_shiftLeft, Nat.shiftLeft_eq, show (1 : Word).toNat = 1 from rfl, one_mul,
      Nat.mod_eq_of_lt hpow]
  have hones : (1 : Word) <<< p - 1 = ones 256 p := by
    apply BitVec.eq_of_toNat_eq
    rw [toNat_sub_one (by rw [hshl]; exact Nat.two_pow_pos p), hshl, ones, BitVec.toNat_ofNat,
      Nat.mod_eq_of_lt (by omega)]
  rw [hones, getLsbD_ones, decide_eq_true hj, Bool.true_and]

/-- The two values of the inner `select`, bit by bit: above the sign bit they are the sign bit. -/
theorem getLsbD_signSelect (x : Word) {p j : Nat} (hp : p < 256) (hj : j < 256) :
    (if (x >>> p).setWidth 1 = 1 then x ||| ((1 : Word) <<< p - 1) ^^^ BitVec.allOnes 256
      else x &&& ((1 : Word) <<< p - 1)).getLsbD j =
        if p < j then x.getLsbD p else x.getLsbD j := by
  have htest : (x >>> p).setWidth 1 = 1 ↔ x.getLsbD p = true := by
    constructor
    · intro h
      have hbit := congrArg (fun v => BitVec.getLsbD v 0) h
      simpa using hbit
    · intro h
      apply BitVec.eq_of_getLsbD_eq
      intro i hi
      obtain rfl : i = 0 := by omega
      simpa using h
  by_cases hsign : x.getLsbD p = true
  · rw [if_pos (htest.mpr hsign), BitVec.getLsbD_or, BitVec.getLsbD_xor, getLsbD_shl_sub_one hp hj,
      BitVec.getLsbD_allOnes, decide_eq_true hj, Bool.xor_true, hsign]
    rcases Nat.lt_trichotomy j p with hjp | rfl | hjp
    · simp [hjp, show ¬ p < j by omega]
    · simp [hsign]
    · simp [hjp, show ¬ j < p by omega]
  · rw [if_neg fun h => hsign (htest.mp h), BitVec.getLsbD_and, getLsbD_shl_sub_one hp hj]
    rw [Bool.not_eq_true] at hsign
    rcases Nat.lt_trichotomy j p with hjp | rfl | hjp
    · simp [hjp, show ¬ p < j by omega]
    · simp [hsign]
    · simp [hjp, hsign, show ¬ j < p by omega]

/-- `SIGNEXTEND`, on the number that its index stands for. -/
theorem emitSignextend_eq (i x : Word) : emitSignextend i x =
    some (if i.toNat ≤ 30 then
      if (x >>> (8 * (i.toNat % 32) + 7)).setWidth 1 = 1 then
        x ||| ((1 : Word) <<< (8 * (i.toNat % 32) + 7) - 1) ^^^ BitVec.allOnes 256
      else x &&& ((1 : Word) <<< (8 * (i.toNat % 32) + 7) - 1)
    else x) := by
  have hlt : 8 * (i.toNat % 32) + 7 < 256 := by omega
  have hrange : i.ule 30 = decide (i.toNat ≤ 30) := rfl
  unfold emitSignextend createLShr createShl
  dsimp only
  rw [toNat_bitpos, if_pos hlt, if_pos hlt, hrange]
  by_cases hi : i.toNat ≤ 30
  · rw [if_pos hi, decide_eq_true hi]
    rfl
  · rw [if_neg hi, decide_eq_false hi]
    rfl

/-- **`SIGNEXTEND` and `BYTE`.** Both return for every index: no shift amount and no vector index is
out of range. `SIGNEXTEND` repeats bit `8 i + 7` above itself up to `i = 30` and keeps the word
beyond; `BYTE` pushes byte `i` from the high end, and 0 from 32 on. -/
theorem signextend_byte_exact (isConst : Bool) (i x : Word) :
    (∃ r, emitSignextend i x = some r ∧ ∀ j < 256, r.getLsbD j =
        if i.toNat ≤ 30 ∧ 8 * i.toNat + 7 < j then x.getLsbD (8 * i.toNat + 7) else x.getLsbD j) ∧
      emitByte isConst i x =
        some (if i.toNat < 32 then ((beBytes 32 x.toNat).getD i.toNat 0).setWidth 256 else 0) := by
  refine ⟨⟨_, emitSignextend_eq i x, fun j hj => ?_⟩, emitByte_eq isConst i x⟩
  by_cases hi : i.toNat ≤ 30
  · rw [if_pos hi, Nat.mod_eq_of_lt (by omega : i.toNat < 32), getLsbD_signSelect x (by omega) hj]
    simp only [hi, true_and]
  · rw [if_neg hi, if_neg fun h => hi h.1]

/-! ## §4 — the shifts. -/

/-- `SHL`, `SHR` and `SAR`: one instruction each, on the operands as they are. -/
def emitShift : Instruction → (shift value : Word) → Option Word
  | .SHL, shift, value => createShl value shift
  | .SHR, shift, value => createLShr value shift
  | .SAR, shift, value => createAShr value shift
  | _, _, _ => none

/-- The EVM's shifts: multiplication and division by `2 ^ s`, rounded down. -/
def evmShift : Instruction → (s x : Word) → Word
  | .SHL, s, x => BitVec.ofNat 256 (x.toNat * 2 ^ s.toNat)
  | .SHR, s, x => BitVec.ofNat 256 (x.toNat / 2 ^ s.toNat)
  | .SAR, s, x => BitVec.ofInt 256 (x.toInt / 2 ^ s.toNat)
  | _, _, _ => 0

/-- From 256 on, a left or logical shift leaves 0 and an arithmetic one the sign. -/
theorem evmShift_of_ge {s : Word} (hs : 256 ≤ s.toNat) (x : Word) : evmShift .SHL s x = 0 ∧
    evmShift .SHR s x = 0 ∧ evmShift .SAR s x = if x.toInt < 0 then -1 else 0 := by
  have hpow : 2 ^ 256 ≤ 2 ^ s.toNat := Nat.pow_le_pow_right (by decide) hs
  have hx := x.isLt
  refine ⟨?_, ?_, ?_⟩
  · apply BitVec.eq_of_toNat_eq
    rw [evmShift, BitVec.toNat_ofNat]
    exact Nat.mod_eq_zero_of_dvd (Dvd.dvd.mul_left (Nat.pow_dvd_pow 2 hs) _)
  · rw [evmShift, Nat.div_eq_of_lt (Nat.lt_of_lt_of_le hx hpow)]
    rfl
  · have hlow : -(2 ^ s.toNat : Int) ≤ x.toInt := by
      have hle := BitVec.le_toInt x
      have hcast : (2 : Int) ^ 255 ≤ 2 ^ s.toNat := by
        exact_mod_cast Nat.pow_le_pow_right (by decide) (by omega)
      omega
    have hhigh : x.toInt < (2 ^ s.toNat : Int) := by
      have hlt := BitVec.toInt_lt (x := x)
      have hcast : (2 : Int) ^ 255 ≤ 2 ^ s.toNat := by
        exact_mod_cast Nat.pow_le_pow_right (by decide) (by omega)
      omega
    rw [evmShift]
    split
    · rename_i hneg
      rw [show x.toInt / 2 ^ s.toNat = -1 from ?_]
      · rfl
      · exact Int.ediv_eq_neg_one_of_neg_of_le hneg (by omega)
    · rename_i hneg
      rw [Int.ediv_eq_zero_of_lt (by omega) hhigh]
      rfl

/-- Below 256 each instruction is the EVM's shift. -/
theorem emitShift_of_lt {op : Instruction} (hop : op ∈ [Instruction.SHL, .SHR, .SAR]) {s : Word}
    (hs : s.toNat < 256) (x : Word) : emitShift op s x = some (evmShift op s x) := by
  simp only [List.mem_cons, List.not_mem_nil, or_false] at hop
  rcases hop with rfl | rfl | rfl
  · rw [emitShift, createShl, if_pos hs]
    refine congrArg some (BitVec.eq_of_toNat_eq ?_)
    rw [BitVec.toNat_shiftLeft, Nat.shiftLeft_eq, evmShift, BitVec.toNat_ofNat]
  · rw [emitShift, createLShr, if_pos hs]
    refine congrArg some (BitVec.eq_of_toNat_eq ?_)
    have hlt : x.toNat / 2 ^ s.toNat < 2 ^ 256 := Nat.lt_of_le_of_lt (Nat.div_le_self _ _) x.isLt
    rw [BitVec.toNat_ushiftRight, Nat.shiftRight_eq_div_pow, evmShift, BitVec.toNat_ofNat,
      Nat.mod_eq_of_lt hlt]
  · rw [emitShift, createAShr, if_pos hs, BitVec.sshiftRight_eq,
      Int.shiftRight_eq_div_pow, evmShift]
    norm_cast

/-- From 256 on it is undefined. -/
theorem emitShift_of_ge {op : Instruction} (hop : op ∈ [Instruction.SHL, .SHR, .SAR]) {s : Word}
    (hs : ¬ s.toNat < 256) (x : Word) : emitShift op s x = none := by
  simp only [List.mem_cons, List.not_mem_nil, or_false] at hop
  rcases hop with rfl | rfl | rfl
  · exact if_neg hs
  · exact if_neg hs
  · exact if_neg hs

/-- **The shifts.** The emitted shift is executed with an amount that LLVM defines, and pushes the
EVM's word, exactly when the amount is below 256. -/
theorem shift_result_iff (op : Instruction) (hop : op ∈ [Instruction.SHL, .SHR, .SAR])
    (s x : Word) : emitShift op s x = some (evmShift op s x) ↔ s.toNat < 256 := by
  constructor
  · intro h
    by_contra hs
    rw [emitShift_of_ge hop hs] at h
    cases h
  · intro hs
    exact emitShift_of_lt hop hs x

/-- The sign of -256 survives a shift by eight. -/
theorem shift_result_iff_sarByte :
    (8 : Word).toNat < 256 ∧ emitShift .SAR 8 (-256) = some (-1) := by
  refine ⟨by decide, ?_⟩
  rw [(shift_result_iff .SAR (by decide) 8 (-256)).mpr (by decide)]
  decide

/-- A shift by 256 is undefined, where the EVM has 0 or the sign. -/
theorem shift_by_width_undefined : (emitShift .SHL 256 1 = none ∧ evmShift .SHL 256 1 = 0) ∧
    (emitShift .SHR 256 1 = none ∧ evmShift .SHR 256 1 = 0) ∧
    (emitShift .SAR 256 (-1) = none ∧ evmShift .SAR 256 (-1) = -1) := by
  have hge : 256 ≤ (256 : Word).toNat := by decide
  obtain ⟨hshl, hshr, -⟩ := evmShift_of_ge hge 1
  obtain ⟨-, -, hsar⟩ := evmShift_of_ge hge (-1)
  refine ⟨⟨by decide, hshl⟩, ⟨by decide, hshr⟩, ⟨by decide, hsar.trans ?_⟩⟩
  rw [if_pos (by decide)]

end EvmTrans
