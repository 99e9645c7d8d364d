/-
# `EvmTrans.Exp` — `EXP`, by the emitted loop and by the loop of the compiler.

`Arith256::exp` evaluates the power itself when both operands are constants, and otherwise emits a
call of `evm.exp`. Both are square-and-multiply from the low end of the exponent: `r * b ^ e` modulo
2^256 does not change (`PowInv`), and the exponent loses a digit at every round. The products of
`evm.exp` are 256-bit multiplications, which `LowerEVMPass` replaces by calls of `evm.mul.i256`, so
the product is a parameter of the emitted loop.
-/
import Mathlib.Data.Nat.ModEq
import EvmTrans.Lib.Loop
import EvmTrans.MulHalves
import EvmTrans.UDivRem

namespace EvmTrans

open Lib (whileLoop whileLoop_ends size_half)

/-! ## §1 — the two loops. -/

/-- A block of `evm.exp` on entry: its phis, and the values that are live in it. -/
inductive ExpBlock where
  | entryBB
  | headerBB (r b e : Word)
  | bodyBB (r b e : Word)
  | updateBB (r b e : Word)
  | continueBB (r1 b e : Word)
  | returnBB (r : Word)
  deriving DecidableEq, Repr

/-- One block: its instructions and its branch. -/
def expStep (mul : Word → Word → Word) (base exponent : Word) : ExpBlock → Option ExpBlock
  | .entryBB => some (.headerBB 1 base exponent)
  | .headerBB r b e => some (if e ≠ 0 then .bodyBB r b e else .returnBB r)
  | .bodyBB r b e => some (if e &&& 1 ≠ 0 then .updateBB r b e else .continueBB r b e)
  | .updateBB r b e =>
    let r0 := mul r b
    some (.continueBB r0 b e)
  | .continueBB r1 b e =>
    let b1 := mul b b
    let e1 := e >>> 1
    some (.headerBB r1 b1 e1)
  | .returnBB _ => none

/-- `getExpFunc`. A run passes at most four blocks for each digit of the exponent (`expFunc_eq`). -/
def expFunc (mul : Word → Word → Word) (base exponent : Word) : Option Word :=
  match whileLoop (expStep mul base exponent) (4 * 256 + 2) .entryBB with
  | .returnBB r => some r
  | _ => none

/-- One round of the loop of `Arith256::exp`, on `r`, `b` and `e`. -/
def constExpRound (s : Word × Word × Word) : Option (Word × Word × Word) :=
  let (r, b, e) := s
  if e ≠ 0 then some (if e.getLsbD 0 then r * b else r, b * b, e >>> 1) else none

/-- The branch of `Arith256::exp` for two constants. -/
def constExp (b e : Word) : Option Word :=
  let s := whileLoop constExpRound 256 (1, b, e)
  if s.2.2 = 0 then some s.1 else none

/-- `Arith256::exp(_arg1, _arg2)`; `isConst₁` and `isConst₂` are the two `dyn_cast`s. -/
def arithExp (mul : Word → Word → Word) (isConst₁ isConst₂ : Bool) (arg₁ arg₂ : Word) :
    Option Word :=
  if isConst₁ && isConst₂ then constExp arg₁ arg₂ else expFunc mul arg₁ arg₂

/-! ## §2 — what both loops keep. -/

/-- What is left to multiply, modulo 2^256. -/
def PowInv (base exponent r b e : Word) : Prop :=
  r.toNat * b.toNat ^ e.toNat ≡ base.toNat ^ exponent.toNat [MOD 2 ^ 256]

/-- Half of the exponent pays for the square. -/
theorem pow_mul_half (b e : Nat) : (b * b) ^ (e / 2) * b ^ (e % 2) = b ^ e := by
  rw [← pow_two, ← pow_mul, ← pow_add, Nat.div_add_mod]

theorem odd_iff (e : Word) : e.getLsbD 0 = true ↔ e.toNat % 2 = 1 := by
  rw [BitVec.getLsbD, Nat.testBit_zero, decide_eq_true_eq]

theorem and_one_ne_zero_iff (e : Word) : e &&& 1 ≠ 0 ↔ e.toNat % 2 = 1 := by
  have hand : (e &&& 1).toNat = e.toNat % 2 := by
    rw [BitVec.toNat_and]
    exact Nat.and_one_is_mod _
  rw [ne_eq, ← BitVec.toNat_inj, hand]
  show ¬ e.toNat % 2 = 0 ↔ _
  omega

theorem powInv_start (base exponent : Word) : PowInv base exponent 1 base exponent := by
  show 1 * _ ≡ _ [MOD _]
  rw [one_mul]

/-- A product of words is the product of the numbers, modulo 2^256. -/
theorem mul_modEq (a b : Word) : (a * b).toNat ≡ a.toNat * b.toNat [MOD 2 ^ 256] := by
  rw [BitVec.toNat_mul]
  exact Nat.mod_modEq _ _

/-- **One round**: multiply if the exponent is odd, then square. -/
theorem PowInv.round {base exponent r b e r' : Word} (h : PowInv base exponent r b e)
    (hr : r' = if e.toNat % 2 = 1 then r * b else r) :
    PowInv base exponent r' (b * b) (e >>> 1) := by
  have hr' : r'.toNat ≡ r.toNat * b.toNat ^ (e.toNat % 2) [MOD 2 ^ 256] := by
    rw [hr]
    split
    · rename_i hodd
      rw [hodd, pow_one]
      exact mul_modEq r b
    · rename_i heven
      rw [show e.toNat % 2 = 0 by omega, pow_zero, mul_one]
  have hb : (b * b).toNat ^ (e.toNat / 2) ≡ (b.toNat * b.toNat) ^ (e.toNat / 2) [MOD 2 ^ 256] :=
    (mul_modEq b b).pow _
  have hhalf : (e >>> 1).toNat = e.toNat / 2 := toNat_lshr_one e
  unfold PowInv
  rw [hhalf]
  calc r'.toNat * (b * b).toNat ^ (e.toNat / 2)
      ≡ r.toNat * b.toNat ^ (e.toNat % 2) * (b.toNat * b.toNat) ^ (e.toNat / 2) [MOD 2 ^ 256] :=
        hr'.mul hb
    _ = r.toNat * b.toNat ^ e.toNat := by
        rw [mul_assoc, mul_comm (b.toNat ^ (e.toNat % 2)), pow_mul_half]
    _ ≡ base.toNat ^ exponent.toNat [MOD 2 ^ 256] := h

/-- With no exponent left, `r` is the power. -/
theorem PowInv.result {base exponent r b e : Word} (h : PowInv base exponent r b e) (he : e = 0) :
    r = BitVec.ofNat 256 (base.toNat ^ exponent.toNat) := by
  apply BitVec.eq_of_toNat_eq
  rw [BitVec.toNat_ofNat, ← h, he]
  show _ = r.toNat * b.toNat ^ 0 % _
  rw [pow_zero, mul_one, Nat.mod_eq_of_lt r.isLt]

/-- The exponent loses a digit. -/
theorem size_shr_lt {e : Word} (he : e ≠ 0) : e.toNat.size = (e >>> 1).toNat.size + 1 := by
  rw [toNat_lshr_one]
  exact size_half (toNat_pos_of_ne he)

/-! ## §3 — both loops return the power. -/

/-- What is known at each block of `evm.exp`. Behind the header the exponent is not zero. -/
def ExpInv (base exponent : Word) : ExpBlock → Prop
  | .entryBB => True
  | .headerBB r b e => PowInv base exponent r b e
  | .bodyBB r b e => PowInv base exponent r b e ∧ e ≠ 0
  | .updateBB r b e => PowInv base exponent r b e ∧ e ≠ 0 ∧ e.toNat % 2 = 1
  | .continueBB r1 b e => PowInv base exponent r1 (b * b) (e >>> 1) ∧ e ≠ 0
  | .returnBB r => r = BitVec.ofNat 256 (base.toNat ^ exponent.toNat)

/-- Blocks left to run. -/
def expMeasure : ExpBlock → Nat
  | .entryBB => 4 * 256 + 2
  | .headerBB _ _ e => 4 * e.toNat.size + 1
  | .bodyBB _ _ e => 4 * e.toNat.size
  | .updateBB _ _ e => 4 * e.toNat.size - 1
  | .continueBB _ _ e => 4 * e.toNat.size - 2
  | .returnBB _ => 0

/-- **One block** keeps the invariant, and the run gets shorter. -/
theorem expInv_step {mul : Word → Word → Word} (hmul : ∀ a b, mul a b = a * b)
    {base exponent : Word} {s s' : ExpBlock} (h : ExpInv base exponent s)
    (hs : expStep mul base exponent s = some s') :
    ExpInv base exponent s' ∧ expMeasure s' < expMeasure s := by
  cases s with
  | entryBB =>
    obtain rfl := Option.some.inj hs
    have hsize := size_le exponent
    refine ⟨powInv_start base exponent, ?_⟩
    simp only [expMeasure]
    omega
  | headerBB r b e =>
    obtain rfl := Option.some.inj hs
    split
    · rename_i he
      exact ⟨⟨h, he⟩, Nat.lt_succ_self _⟩
    · rename_i he
      exact ⟨PowInv.result h (not_not.mp he), Nat.succ_pos _⟩
  | bodyBB r b e =>
    obtain rfl := Option.some.inj hs
    obtain ⟨hinv, he⟩ := h
    have hsize := size_shr_lt he
    split
    · rename_i hodd
      refine ⟨⟨hinv, he, (and_one_ne_zero_iff e).mp hodd⟩, ?_⟩
      simp only [expMeasure]
      omega
    · rename_i heven
      have heven : ¬ e.toNat % 2 = 1 := fun hodd => heven ((and_one_ne_zero_iff e).mpr hodd)
      refine ⟨⟨hinv.round (if_neg heven).symm, he⟩, ?_⟩
      simp only [expMeasure]
      omega
  | updateBB r b e =>
    obtain rfl := Option.some.inj hs
    obtain ⟨hinv, he, hodd⟩ := h
    have hsize := size_shr_lt he
    refine ⟨⟨hinv.round ?_, he⟩, ?_⟩
    · rw [hmul, if_pos hodd]
    · simp only [expMeasure]
      omega
  | continueBB r1 b e =>
    obtain rfl := Option.some.inj hs
    obtain ⟨hinv, he⟩ := h
    have hsize := size_shr_lt he
    refine ⟨?_, ?_⟩
    · show PowInv base exponent r1 (mul b b) (e >>> 1)
      rw [hmul]
      exact hinv
    · simp only [expMeasure]
      omega
  | returnBB r => cases hs

/-- **The emitted loop** returns, and it returns the power. -/
theorem expFunc_eq {mul : Word → Word → Word} (hmul : ∀ a b, mul a b = a * b)
    (base exponent : Word) :
    expFunc mul base exponent = some (BitVec.ofNat 256 (base.toNat ^ exponent.toNat)) := by
  obtain ⟨hinv, hexit⟩ := whileLoop_ends (ExpInv base exponent) expMeasure
    (fun _ _ h hs => expInv_step hmul h hs) (s := .entryBB) trivial (le_refl (4 * 256 + 2))
  unfold expFunc
  generalize whileLoop (expStep mul base exponent) (4 * 256 + 2) .entryBB = s at hinv hexit
  cases s with
  | returnBB r => exact congrArg some hinv
  | _ => cases hexit

/-- One round of the compiler's loop. -/
theorem constExpRound_step {base exponent : Word} {s s' : Word × Word × Word}
    (h : PowInv base exponent s.1 s.2.1 s.2.2) (hs : constExpRound s = some s') :
    PowInv base exponent s'.1 s'.2.1 s'.2.2 ∧ s'.2.2.toNat.size < s.2.2.toNat.size := by
  obtain ⟨r, b, e⟩ := s
  unfold constExpRound at hs
  dsimp only at hs
  split at hs
  · rename_i he
    obtain rfl := Option.some.inj hs
    refine ⟨h.round ?_, ?_⟩
    · simp only [odd_iff]
    · show (e >>> 1).toNat.size < e.toNat.size
      rw [size_shr_lt he]
      exact Nat.lt_succ_self _
  · cases hs

/-- **The compiler's loop** ends, with the power. -/
theorem constExp_eq (base exponent : Word) :
    constExp base exponent = some (BitVec.ofNat 256 (base.toNat ^ exponent.toNat)) := by
  obtain ⟨hinv, hexit⟩ := whileLoop_ends (fun s => PowInv base exponent s.1 s.2.1 s.2.2)
    (fun s => s.2.2.toNat.size) (fun _ _ h hs => constExpRound_step h hs) (s := (1, base, exponent))
    (powInv_start base exponent) (size_le exponent)
  unfold constExp
  generalize whileLoop constExpRound 256 (1, base, exponent) = s at hinv hexit
  have hzero : s.2.2 = 0 := by
    unfold constExpRound at hexit
    dsimp only at hexit
    split at hexit
    · cases hexit
    · rename_i he
      exact not_not.mp he
  dsimp only
  rw [if_pos hzero, hinv.result hzero]

/-- **Exponentiation.** The loop of `evm.exp`, over 256-bit products or over calls of
`evm.mul.i256`, returns the power modulo 2^256, and so does the compiler for two constants; 0 to the
0 is 1. -/
theorem exp_eq_pow (b e : Word) :
    (∀ isConst₁ isConst₂, arithExp (· * ·) isConst₁ isConst₂ b e =
        some (BitVec.ofNat 256 (b.toNat ^ e.toNat))) ∧
      expFunc (· * ·) b e = some (BitVec.ofNat 256 (b.toNat ^ e.toNat)) ∧
      expFunc mul256 b e = some (BitVec.ofNat 256 (b.toNat ^ e.toNat)) ∧
      constExp b e = some (BitVec.ofNat 256 (b.toNat ^ e.toNat)) ∧
      expFunc (· * ·) 0 0 = some 1 := by
  have hemitted : ∀ b e, expFunc (· * ·) b e = some (BitVec.ofNat 256 (b.toNat ^ e.toNat)) :=
    expFunc_eq fun _ _ => rfl
  refine ⟨fun isConst₁ isConst₂ => ?_, hemitted b e, expFunc_eq mul256_eq b e, constExp_eq b e,
    hemitted 0 0⟩
  unfold arithExp
  split
  · exact constExp_eq b e
  · exact hemitted b e

example : constExp 3 5 = some 243 := by decide

end EvmTrans
