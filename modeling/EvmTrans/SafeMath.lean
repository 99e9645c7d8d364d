/-
# `EvmTrans.SafeMath` — the helpers that revert where an integer operation leaves 256 bits.

`safeAdd`, `safeSub`, `safeMul` and `safeUDiv` are functions of two `i256`. Each decides from the
wrapped result, or from its operands, whether to go to its block `unreachable`, which calls
`ethereum.revert` and then returns 0. With `ethereum.revert` ending the execution, that 0 is never
returned.

The division is LLVM's, which says nothing of a zero divisor; after lowering it is the loop of
`evm.udivrem.i256`.
-/
import EvmTrans.Instruction
import EvmTrans.UDivRem

namespace EvmTrans

/-! ## §1 — the four functions. -/

/-- How a helper does not return: it has reverted, or an instruction of it is undefined. -/
inductive SafeMathStop where
  | revert
  | undefined
  deriving DecidableEq, Repr

/-- What an activation of a helper does. -/
abbrev SafeMathM := Except SafeMathStop

/-- `call @ethereum.revert(alloca i8, i32 0)`. -/
def ethereumRevert : SafeMathM Unit := .error .revert

/-- `udiv`. -/
def createUDiv (lhs rhs : Word) : SafeMathM Word :=
  if rhs = 0 then .error .undefined else .ok (lhs / rhs)

/-- The block `unreachable` of every helper. -/
def unreachableBB : SafeMathM Word := do
  ethereumRevert
  return 0

/-- `getSafeMathAddFunc`. -/
def safeAdd (lhs rhs : Word) : SafeMathM Word :=
  let res := lhs + rhs
  if res < lhs then unreachableBB else return res

/-- `getSafeMathSubFunc`. -/
def safeSub (lhs rhs : Word) : SafeMathM Word :=
  if rhs > lhs then unreachableBB else return lhs - rhs

/-- `getSafeMathMulFunc`. -/
def safeMul (lhs rhs : Word) : SafeMathM Word :=
  if lhs = 0 then return 0
  else do
    let res := lhs * rhs
    let quotient ← createUDiv res lhs
    if quotient ≠ rhs then unreachableBB else return res

/-- `getSafeMathUDivFunc`. -/
def safeUDiv (lhs rhs : Word) : SafeMathM Word :=
  if rhs = 0 then unreachableBB else createUDiv lhs rhs

/-! ## §2 — the integer operations. -/

/-- The operations that have a helper. -/
inductive SafeOp where
  | add | sub | mul | udiv
  deriving DecidableEq, Repr

/-- The helper of an operation. -/
def SafeOp.helper : SafeOp → Word → Word → SafeMathM Word
  | .add => safeAdd
  | .sub => safeSub
  | .mul => safeMul
  | .udiv => safeUDiv

/-- The operation on integers, where it exists. -/
def SafeOp.exact (op : SafeOp) (a b : Int) : Option Int :=
  match op with
  | .add => some (a + b)
  | .sub => some (a - b)
  | .mul => some (a * b)
  | .udiv => if b = 0 then none else some (a / b)

/-- Return an integer that a word can hold, and revert on everything else. -/
def returnOrRevert : Option Int → SafeMathM Word
  | some z => if 0 ≤ z ∧ z < 2 ^ 256 then .ok (BitVec.ofInt 256 z) else .error .revert
  | none => .error .revert

theorem returnOrRevert_some (z : Int) : returnOrRevert (some z) =
    if 0 ≤ z ∧ z < 2 ^ 256 then .ok (BitVec.ofInt 256 z) else .error .revert := rfl

theorem unreachableBB_eq : unreachableBB = .error .revert := rfl

/-- A word as the integer result that it is. -/
theorem returnOrRevert_ok {z : Int} {w : Word} (h : (w.toNat : Int) = z) :
    returnOrRevert (some z) = .ok w := by
  have hlt : w.toNat < 2 ^ 256 := w.isLt
  subst h
  rw [returnOrRevert_some, if_pos ⟨by omega, by exact_mod_cast hlt⟩, BitVec.ofInt_natCast,
    BitVec.ofNat_toNat, BitVec.setWidth_eq]

theorem returnOrRevert_revert {z : Int} (h : z < 0 ∨ 2 ^ 256 ≤ z) :
    returnOrRevert (some z) = .error .revert :=
  if_neg (by omega)

/-! ## §3 — each test is the right one. -/

/-- `res < lhs` says that the sum has wrapped. -/
theorem add_lt_left_iff (a b : Word) : a + b < a ↔ 2 ^ 256 ≤ a.toNat + b.toNat := by
  rw [BitVec.lt_def, BitVec.toNat_add]
  have ha := a.isLt
  have hb := b.isLt
  constructor
  · intro h
    by_contra hfit
    rw [Nat.mod_eq_of_lt (by omega)] at h
    omega
  · intro h
    rw [Nat.mod_eq_sub_mod h, Nat.mod_eq_of_lt (by omega)]
    omega

/-- **`res / lhs != rhs` says that the product has wrapped.** The quotient of a product that fits is
`rhs`; a wrapped product is below `lhs * rhs` by at least `2 ^ 256`, hence by more than `lhs`, and
its quotient is smaller. -/
theorem mul_udiv_ne_iff {a : Word} (ha : a ≠ 0) (b : Word) : a * b / a ≠ b ↔
    2 ^ 256 ≤ a.toNat * b.toNat := by
  have hpos : 0 < a.toNat := Nat.pos_of_ne_zero fun h => ha (BitVec.eq_of_toNat_eq h)
  have hlt := a.isLt
  rw [Ne, ← BitVec.toNat_inj, BitVec.toNat_udiv, BitVec.toNat_mul]
  constructor
  · intro h
    by_contra hfit
    rw [Nat.mod_eq_of_lt (by omega), Nat.mul_div_cancel_left _ hpos] at h
    exact h rfl
  · intro hwrap heq
    have hmod : a.toNat * b.toNat % 2 ^ 256 + 2 ^ 256 ≤ a.toNat * b.toNat := by
      have hdiv := Nat.mod_add_div (a.toNat * b.toNat) (2 ^ 256)
      have hone : 1 ≤ a.toNat * b.toNat / 2 ^ 256 := (Nat.one_le_div_iff (by decide)).mpr hwrap
      omega
    have hquot : a.toNat * b.toNat ≤ a.toNat * b.toNat % 2 ^ 256 := by
      calc a.toNat * b.toNat = a.toNat * (a.toNat * b.toNat % 2 ^ 256 / a.toNat) := by rw [heq]
        _ ≤ a.toNat * b.toNat % 2 ^ 256 := Nat.mul_div_le _ _
    omega

theorem safeAdd_eq (a b : Word) : safeAdd a b = returnOrRevert (some (a.toNat + b.toNat)) := by
  unfold safeAdd
  by_cases hover : a + b < a
  · have hsum := (add_lt_left_iff a b).mp hover
    rw [if_pos hover, returnOrRevert_revert (by omega), unreachableBB_eq]
  · have hfit : a.toNat + b.toNat < 2 ^ 256 := by
      rw [add_lt_left_iff] at hover
      omega
    have hval : ((a + b).toNat : Int) = a.toNat + b.toNat := by
      rw [BitVec.toNat_add, Nat.mod_eq_of_lt hfit, Nat.cast_add]
    rw [if_neg hover, returnOrRevert_ok hval]
    rfl

theorem safeSub_eq (a b : Word) : safeSub a b = returnOrRevert (some (a.toNat - b.toNat)) := by
  unfold safeSub
  by_cases hunder : b > a
  · have hlt : a.toNat < b.toNat := BitVec.lt_def.mp hunder
    rw [if_pos hunder, returnOrRevert_revert (by omega), unreachableBB_eq]
  · have hle : b.toNat ≤ a.toNat := by
      rw [gt_iff_lt, BitVec.lt_def] at hunder
      omega
    have hval : ((a - b).toNat : Int) = a.toNat - b.toNat := by
      rw [BitVec.toNat_sub_of_le (BitVec.le_def.mpr hle), Nat.cast_sub hle]
    rw [if_neg hunder, returnOrRevert_ok hval]
    rfl

theorem safeMul_eq (a b : Word) : safeMul a b = returnOrRevert (some (a.toNat * b.toNat)) := by
  unfold safeMul
  by_cases hzero : a = 0
  · subst hzero
    rw [if_pos rfl, returnOrRevert_ok (w := 0) (by simp)]
    rfl
  · have hquot : createUDiv (a * b) a = .ok (a * b / a) := if_neg hzero
    have hstep : (createUDiv (a * b) a >>= fun quotient => if quotient ≠ b then unreachableBB
        else pure (a * b)) =
        if a * b / a ≠ b then unreachableBB else pure (a * b) := by rw [hquot]; rfl
    rw [if_neg hzero]
    refine hstep.trans ?_
    by_cases hover : a * b / a ≠ b
    · have hprod : ((2 ^ 256 : Nat) : Int) ≤ ((a.toNat * b.toNat : Nat) : Int) := by
        exact_mod_cast (mul_udiv_ne_iff hzero b).mp hover
      rw [if_pos hover, returnOrRevert_revert (Or.inr (by exact_mod_cast hprod)), unreachableBB_eq]
    · have hfit : a.toNat * b.toNat < 2 ^ 256 := by
        rw [mul_udiv_ne_iff hzero] at hover
        omega
      have hval : ((a * b).toNat : Int) = a.toNat * b.toNat := by
        rw [BitVec.toNat_mul, Nat.mod_eq_of_lt hfit, Nat.cast_mul]
      rw [if_neg hover, returnOrRevert_ok hval]
      rfl

theorem safeUDiv_eq (a b : Word) :
    safeUDiv a b =
      returnOrRevert (if (b.toNat : Int) = 0 then none else some (a.toNat / b.toNat)) := by
  unfold safeUDiv
  by_cases hzero : b = 0
  · subst hzero
    rw [if_pos rfl, if_pos (by simp), unreachableBB_eq]
    rfl
  · have hne : (b.toNat : Int) ≠ 0 := by
      exact_mod_cast fun h => hzero (BitVec.eq_of_toNat_eq h)
    have hval : ((a / b).toNat : Int) = a.toNat / b.toNat := by
      rw [BitVec.toNat_udiv, Int.natCast_ediv]
    rw [if_neg hzero, if_neg hne, returnOrRevert_ok hval, createUDiv, if_neg hzero]

/-- **Each helper returns the integer result where it exists and is a word, and reverts everywhere
else**; the test of `safeMul` sees every overflow and nothing besides. -/
theorem safeMath_exact :
    (∀ (op : SafeOp) (a b : Word), op.helper a b = returnOrRevert (op.exact a.toNat b.toNat)) ∧
      ∀ a b : Word, a ≠ 0 → (a * b / a ≠ b ↔ 2 ^ 256 ≤ a.toNat * b.toNat) := by
  refine ⟨fun op a b => ?_, fun a b ha => mul_udiv_ne_iff ha b⟩
  cases op with
  | add => exact safeAdd_eq a b
  | sub => exact safeSub_eq a b
  | mul => exact safeMul_eq a b
  | udiv => exact safeUDiv_eq a b

/-- No helper divides by zero, and the lowered division is the one it meant. -/
theorem createUDiv_lowered {a b : Word} (hb : b ≠ 0) :
    (udivrem a b).map (fun r => (Except.ok r.1 : SafeMathM Word)) = some (createUDiv a b) := by
  rw [udivrem_of_ne_zero a hb, createUDiv, if_neg hb, Option.map_some]

end EvmTrans
