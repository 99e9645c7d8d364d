/-
# `EvmTrans.SDivRem` — signed division over the unsigned loop, and the four lowered division
opcodes.

`evm.sdivrem.i256` divides absolute values and puts the signs back. `sdivrem_eq` says that this is
Lean's own `sdiv` and `srem` for every divisor that is not zero; the least integer, which is its own
negation modulo 2^256, needs no case of its own. A zero divisor goes through to `evm.udivrem.i256`,
where nothing stops it.
-/
import EvmTrans.Instruction
import EvmTrans.UDivRem

namespace EvmTrans

/-! ## §1 — the functions. -/

/-- `getSDivRem256Func`. -/
def sdivrem (x y : Word) : Option (Word × Word) := do
  let xIsNeg := x.slt 0
  let xNeg := 0 - x
  let xAbs := if xIsNeg then xNeg else x
  let yIsNeg := y.slt 0
  let yNeg := 0 - y
  let yAbs := if yIsNeg then yNeg else y
  let (qAbs, rAbs) ← udivrem xAbs yAbs
  -- the remainder has the same sign as dividend
  let rNeg := 0 - rAbs
  let r := if xIsNeg then rNeg else rAbs
  let qNeg := 0 - qAbs
  let xyOpposite := xIsNeg ^^ yIsNeg
  let q := if xyOpposite then qNeg else qAbs
  return (q, r)

/-- `getUDiv256Func`, `getURem256Func`, `getSDiv256Func`, `getSRem256Func`: one half of the pair
each. -/
def udiv256 (x y : Word) : Option Word := (udivrem x y).map Prod.fst
def urem256 (x y : Word) : Option Word := (udivrem x y).map Prod.snd
def sdiv256 (x y : Word) : Option Word := (sdivrem x y).map Prod.fst
def srem256 (x y : Word) : Option Word := (sdivrem x y).map Prod.snd

/-- The division opcodes on 256-bit operands: `compileBasicBlock` emits `udiv`, `sdiv`, `urem` or
`srem` without a test of the divisor, and `LowerEVMPass` makes it a call. -/
def loweredDivision : Instruction → Option (Word → Word → Option Word)
  | .DIV => some udiv256
  | .SDIV => some sdiv256
  | .MOD => some urem256
  | .SMOD => some srem256
  | _ => none

/-! ## §2 — signed division. -/

/-- Absolute value and sign, by the top bit. -/
theorem sdivrem_unfold (x y : Word) : sdivrem x y =
    (udivrem (if x.msb then -x else x) (if y.msb then -y else y)).map fun p =>
      (if x.msb ^^ y.msb then -p.1 else p.1, if x.msb then -p.2 else p.2) := by
  have hx : x.slt 0 = x.msb := BitVec.slt_zero_eq_msb
  have hy : y.slt 0 = y.msb := BitVec.slt_zero_eq_msb
  unfold sdivrem
  rw [hx, hy, Option.map_eq_bind]
  simp only [BitVec.ofNat_eq_ofNat, BitVec.zero_sub]
  rfl

theorem abs_ne_zero {y : Word} (hy : y ≠ 0) : (if y.msb then -y else y) ≠ 0 := by
  split
  · intro h
    exact hy (BitVec.neg_eq_zero_iff.mp h)
  · exact hy

/-- **`evm.sdivrem.i256` is signed division.** -/
theorem sdivrem_eq (x : Word) {y : Word} (hy : y ≠ 0) :
    sdivrem x y = some (x.sdiv y, x.srem y) := by
  rw [sdivrem_unfold, udivrem_of_ne_zero _ (abs_ne_zero hy), Option.map_some, BitVec.sdiv_eq,
    BitVec.srem_eq]
  cases hx : x.msb <;> cases hy : y.msb <;> rfl

/-- `sdiv` truncates toward zero. -/
theorem sdiv_eq_ofInt (x y : Word) : x.sdiv y = BitVec.ofInt 256 (x.toInt.tdiv y.toInt) := by
  apply BitVec.eq_of_toInt_eq
  rw [BitVec.toInt_sdiv, BitVec.toInt_ofInt]

theorem srem_eq_ofInt (x y : Word) : x.srem y = BitVec.ofInt 256 (x.toInt.tmod y.toInt) := by
  apply BitVec.eq_of_toInt_eq
  rw [BitVec.toInt_ofInt, ← BitVec.toInt_srem, BitVec.toInt_bmod_cancel]

/-- Quotient and remainder make up the dividend. -/
theorem sdiv_mul_add_srem (x y : Word) : x.sdiv y * y + x.srem y = x := by
  rw [sdiv_eq_ofInt, srem_eq_ofInt]
  calc BitVec.ofInt 256 (x.toInt.tdiv y.toInt) * y + BitVec.ofInt 256 (x.toInt.tmod y.toInt)
      = BitVec.ofInt 256 (x.toInt.tdiv y.toInt) * BitVec.ofInt 256 y.toInt +
          BitVec.ofInt 256 (x.toInt.tmod y.toInt) := by rw [BitVec.ofInt_toInt]
    _ = BitVec.ofInt 256 (x.toInt.tdiv y.toInt * y.toInt + x.toInt.tmod y.toInt) := by
        rw [BitVec.ofInt_add, BitVec.ofInt_mul]
    _ = x := by rw [Int.mul_comm, Int.mul_tdiv_add_tmod, BitVec.ofInt_toInt]

/-- The remainder takes the sign of the dividend. -/
theorem srem_sign (x y : Word) :
    (0 ≤ x.toInt → 0 ≤ (x.srem y).toInt) ∧ (x.toInt ≤ 0 → (x.srem y).toInt ≤ 0) := by
  rw [BitVec.toInt_srem]
  refine ⟨fun h => Int.tmod_nonneg _ h, fun h => ?_⟩
  have hneg := Int.tmod_nonneg y.toInt (a := -x.toInt) (by omega)
  rw [Int.neg_tmod] at hneg
  omega

/-- By the least integer: only itself is large enough. -/
theorem srem_intMin (x : Word) :
    x.srem (BitVec.intMin 256) = if x = BitVec.intMin 256 then 0 else x := by
  have h := sdiv_mul_add_srem x (BitVec.intMin 256)
  rw [BitVec.sdiv_intMin] at h
  split at h
  · rename_i hx
    rw [BitVec.one_mul] at h
    nth_rewrite 2 [hx] at h
    rw [if_pos hx]
    exact BitVec.add_right_eq_self.mp h
  · rename_i hx
    rw [BitVec.zero_mul, BitVec.zero_add] at h
    rw [if_neg hx]
    exact h

/-- **Signed division.** For every divisor that is not zero `evm.sdivrem.i256` returns the quotient
truncated toward zero and the remainder with the dividend's sign, modulo 2^256; together they make
up the dividend. The least integer over -1, and anything over the least integer, are written out. -/
theorem sdivrem_truncates (x y : Word) (hy : y ≠ 0) : ∃ q r, sdivrem x y = some (q, r) ∧
    sdiv256 x y = some q ∧ srem256 x y = some r ∧
    q = BitVec.ofInt 256 (x.toInt.tdiv y.toInt) ∧ r = BitVec.ofInt 256 (x.toInt.tmod y.toInt) ∧
    x = q * y + r ∧ (0 ≤ x.toInt → 0 ≤ r.toInt) ∧ (x.toInt ≤ 0 → r.toInt ≤ 0) ∧
    (x = BitVec.intMin 256 → y = -1 → q = BitVec.intMin 256 ∧ r = 0) ∧
    (y = BitVec.intMin 256 → q = (if x = BitVec.intMin 256 then 1 else 0) ∧
      r = if x = BitVec.intMin 256 then 0 else x) := by
  have heq := sdivrem_eq x hy
  refine ⟨x.sdiv y, x.srem y, heq, ?_, ?_, sdiv_eq_ofInt x y, srem_eq_ofInt x y,
    (sdiv_mul_add_srem x y).symm, (srem_sign x y).1, (srem_sign x y).2, ?_, ?_⟩
  · rw [sdiv256, heq]
    rfl
  · rw [srem256, heq]
    rfl
  · rintro rfl rfl
    exact ⟨BitVec.intMin_sdiv_neg_one, by decide⟩
  · rintro rfl
    exact ⟨BitVec.sdiv_intMin, srem_intMin x⟩

/-- -7 by 2 is -3, and -1 remains. -/
theorem sdivrem_truncates_negative : sdivrem (-7) 2 = some (-3, -1) := by
  obtain ⟨q, r, h, -, -, hq, hr, -⟩ := sdivrem_truncates (-7) 2 (by decide)
  rw [h, hq, hr]
  decide

/-! ## §3 — the zero divisor. -/

/-- What the lowered opcode computes for `x` by 0. -/
def divisionByZero (op : Instruction) (x : Word) : Option Word :=
  (loweredDivision op).bind fun f => f x 0

theorem ones_ne_zero (k : Nat) : ones 256 (k + 1) ≠ 0 := by
  intro h
  have hbit := getLsbD_ones 256 (k + 1) 0
  rw [h] at hbit
  simp at hbit

/-- The signed pair: the quotient's ones carry the sign of the dividend, the remainder is the
dividend. -/
theorem sdivrem_zero (x : Word) : ∃ k, sdivrem x 0 =
    some (if x.msb then -ones 256 (k + 1) else ones 256 (k + 1), x) := by
  refine ⟨(if x.msb then -x else x).toNat.size, ?_⟩
  have hmsb : (0 : Word).msb = false := by decide
  rw [sdivrem_unfold, hmsb, if_neg Bool.false_ne_true, udivrem_zero, Option.map_some]
  cases hx : x.msb
  · simp only [Bool.bne_false, if_neg Bool.false_ne_true]
  · simp only [Bool.bne_false, if_true, BitVec.neg_neg]

/-- The four opcodes, as the halves of the two pairs. -/
theorem divisionByZero_eq (x : Word) : divisionByZero .DIV x = (udivrem x 0).map Prod.fst ∧
    divisionByZero .SDIV x = (sdivrem x 0).map Prod.fst ∧
    divisionByZero .MOD x = (udivrem x 0).map Prod.snd ∧
    divisionByZero .SMOD x = (sdivrem x 0).map Prod.snd := by
  simp only [divisionByZero, loweredDivision, Option.bind_some, udiv256, urem256, sdiv256,
    srem256, and_self]

/-- **Division by zero is not tested for.** `DIV` and `SDIV` by zero never give 0, whatever the
dividend; `MOD` and `SMOD` by zero give the dividend back. -/
theorem zero_divisor_iff (op : Instruction) (hop : op ∈ [Instruction.DIV, .SDIV, .MOD, .SMOD])
    (x : Word) : divisionByZero op x = some 0 ↔ (op = .MOD ∨ op = .SMOD) ∧ x = 0 := by
  obtain ⟨hdiv, hsdiv, hmod, hsmod⟩ := divisionByZero_eq x
  obtain ⟨k, hs⟩ := sdivrem_zero x
  rw [udivrem_zero, Option.map_some] at hdiv hmod
  rw [hs, Option.map_some] at hsdiv hsmod
  simp only [List.mem_cons, List.not_mem_nil, or_false] at hop
  rcases hop with rfl | rfl | rfl | rfl
  · -- a string of ones
    rw [hdiv, Option.some_inj]
    apply iff_of_false (ones_ne_zero _)
    rintro ⟨h | h, -⟩ <;> cases h
  · -- the same, or its negation
    rw [hsdiv, Option.some_inj]
    refine iff_of_false ?_ ?_
    · split
      · exact fun h => ones_ne_zero k (BitVec.neg_eq_zero_iff.mp h)
      · exact ones_ne_zero k
    · rintro ⟨h | h, -⟩ <;> cases h
  · rw [hmod, Option.some_inj]
    exact ⟨fun h => ⟨.inl rfl, h⟩, fun h => h.2⟩
  · rw [hsmod, Option.some_inj]
    exact ⟨fun h => ⟨.inr rfl, h⟩, fun h => h.2⟩

/-- 0 mod 0. -/
theorem zero_divisor_iff_zero : divisionByZero .MOD 0 = some 0 :=
  (zero_divisor_iff .MOD (by decide) 0).mpr ⟨.inl rfl, rfl⟩

/-- 5 divided by zero is 15, and 5 mod 0 is 5. -/
theorem five_by_zero : divisionByZero .DIV 5 = some 15 ∧ divisionByZero .SDIV 5 = some 15 ∧
    divisionByZero .MOD 5 = some 5 ∧ divisionByZero .SMOD 5 = some 5 := by
  decide +kernel

end EvmTrans
