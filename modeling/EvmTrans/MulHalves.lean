/-
# `EvmTrans.MulHalves` — `evm.mul.i256` and `evm.mul.i128`, products by halves.

`getMulFunc` emits one construction at two widths: split both factors in halves, multiply the low
halves by quarters with carries, and add the cross products to the upper half. At 256 bits the
products of the halves are 128-bit multiplications, which `LowerEVMPass` replaces by calls of
`evm.mul.i128`; there they are native. So the product of halves is a parameter of the construction.
-/
import EvmTrans.Instruction
import EvmTrans.Lib.Schoolbook

namespace EvmTrans

open Lib (two_digits_lt mul_add_lt mul_add_add_lt schoolbook_eq mul_mod_sq)

/-! ## §1 — the construction. -/

/-- The body of `getMulFunc` for the types `IntHiTy` of `w` bits and `IntLoTy` of `h` bits; `q` is
`HalfShift`. -/
def mulHalves (w h q : Nat) (mul : BitVec h → BitVec h → BitVec h) (LHS RHS : BitVec w) :
    BitVec w :=
  let HalfMask := BitVec.ofNat h (2 ^ q - 1)
  let LHS_L := LHS.setWidth h
  let LHS_H := (LHS >>> h).setWidth h
  let RHS_L := RHS.setWidth h
  let RHS_H := (RHS >>> h).setWidth h
  let LHS_LL := LHS_L &&& HalfMask
  let RHS_LL := RHS_L &&& HalfMask
  let T := mul LHS_LL RHS_LL
  let T_L := T &&& HalfMask
  let T_H := T >>> q
  let LHS_LH := LHS_L >>> q
  let RHS_LH := RHS_L >>> q
  let U := mul LHS_LH RHS_LL + T_H
  let U_L := U &&& HalfMask
  let U_H := U >>> q
  let V := mul LHS_LL RHS_LH + U_L
  let V_H := V >>> q
  let W := mul LHS_LH RHS_LH + (U_H + V_H)
  let O_L := (T_L + V <<< q).setWidth w
  let O_H := (W + (mul RHS_H LHS_L + mul RHS_L LHS_H)).setWidth w
  O_L + O_H <<< h

/-- `getMulFunc(_module, BitWidth, …)`. -/
def getMulFunc (bitWidth : Nat)
    (mul : BitVec (bitWidth / 2) → BitVec (bitWidth / 2) → BitVec (bitWidth / 2)) :
    BitVec bitWidth → BitVec bitWidth → BitVec bitWidth :=
  mulHalves bitWidth (bitWidth / 2) (bitWidth / 4) mul

/-- `getMul128Func`, over native 64-bit products. -/
def mul128 : BitVec 128 → BitVec 128 → BitVec 128 := getMulFunc 128 fun a b => a * b

/-- `getMul256Func`, with its 128-bit products lowered. -/
def mul256 : Word → Word → Word := getMulFunc 256 mul128

/-! ## §2 — bits as digits. -/

section Digits

variable {w h q : Nat}

theorem toNat_and_mask (hq : q ≤ h) (x : BitVec h) :
    (x &&& BitVec.ofNat h (2 ^ q - 1)).toNat = x.toNat % 2 ^ q := by
  have hlt : 2 ^ q - 1 < 2 ^ h := Nat.lt_of_lt_of_le (Nat.sub_lt (Nat.two_pow_pos q) Nat.one_pos)
    (Nat.pow_le_pow_right (by decide) hq)
  rw [BitVec.toNat_and, BitVec.toNat_ofNat, Nat.mod_eq_of_lt hlt, Nat.and_two_pow_sub_one_eq_mod]

theorem toNat_lshr (x : BitVec h) (k : Nat) : (x >>> k).toNat = x.toNat / 2 ^ k := by
  rw [BitVec.toNat_ushiftRight, Nat.shiftRight_eq_div_pow]

/-- A sum that fits. -/
theorem toNat_add_of_fits {x y : BitVec h} (hlt : x.toNat + y.toNat < 2 ^ h) :
    (x + y).toNat = x.toNat + y.toNat := by
  rw [BitVec.toNat_add, Nat.mod_eq_of_lt hlt]

/-- A product that fits. -/
theorem toNat_mul_of_fits {x y : BitVec h} (hlt : x.toNat * y.toNat < 2 ^ h) :
    (x * y).toNat = x.toNat * y.toNat := by
  rw [BitVec.toNat_mul, Nat.mod_eq_of_lt hlt]

/-- A product and a carry that fit together. -/
theorem toNat_mul_add_of_fits {x y z : BitVec h} (hlt : x.toNat * y.toNat + z.toNat < 2 ^ h) :
    (x * y + z).toNat = x.toNat * y.toNat + z.toNat := by
  have hmul : (x * y).toNat = x.toNat * y.toNat := toNat_mul_of_fits (Nat.lt_of_add_right_lt hlt)
  rw [toNat_add_of_fits (hmul ▸ hlt), hmul]

/-- Two halves, put together. -/
theorem toNat_join (hw : w = 2 * h) (lo hi : BitVec h) :
    (lo.setWidth w + hi.setWidth w <<< h).toNat = lo.toNat + 2 ^ h * hi.toNat := by
  have hlo := lo.isLt
  have hhi := hi.isLt
  have hpow : 2 ^ w = 2 ^ h * 2 ^ h := by rw [hw, Nat.two_mul, pow_add]
  have hle : 2 ^ h ≤ 2 ^ w := Nat.pow_le_pow_right (by decide) (by omega)
  have hjoin : lo.toNat + 2 ^ h * hi.toNat < 2 ^ w := by
    rw [hpow]
    exact two_digits_lt hlo hhi
  have hshift : (hi.setWidth w <<< h).toNat = 2 ^ h * hi.toNat := by
    have hsmall : hi.toNat < 2 ^ w := Nat.lt_of_lt_of_le hhi hle
    rw [BitVec.toNat_shiftLeft, BitVec.toNat_setWidth, Nat.mod_eq_of_lt hsmall, Nat.shiftLeft_eq,
      Nat.mul_comm, Nat.mod_eq_of_lt (by omega)]
  have hlow : (lo.setWidth w).toNat = lo.toNat := by
    rw [BitVec.toNat_setWidth, Nat.mod_eq_of_lt (by omega)]
  rw [BitVec.toNat_add, hshift, hlow, Nat.mod_eq_of_lt hjoin]

end Digits

/-! ## §3 — the product. -/

section Product

variable {w h q : Nat}

/-- The partial sums of `mulHalves` for the low halves `a` and `b`, in numbers: the low half of
their product and `W`, its upper half. -/
theorem low_product (hh : h = 2 * q) (a b : BitVec h) :
    let mask := BitVec.ofNat h (2 ^ q - 1)
    let T := (a &&& mask) * (b &&& mask)
    let U := (a >>> q) * (b &&& mask) + T >>> q
    let V := (a &&& mask) * (b >>> q) + (U &&& mask)
    let W := (a >>> q) * (b >>> q) + (U >>> q + V >>> q)
    a.toNat * b.toNat = ((T &&& mask) + V <<< q).toNat + 2 ^ h * W.toNat := by
  intro mask T U V W
  have hQ : 2 ^ h = 2 ^ q * 2 ^ q := by rw [hh, Nat.two_mul, pow_add]
  have hqh : q ≤ h := by omega
  have hmask : ∀ x : BitVec h, (x &&& mask).toNat = x.toNat % 2 ^ q := toNat_and_mask hqh
  have hlow : ∀ x : Nat, x % 2 ^ q < 2 ^ q := fun x => Nat.mod_lt x (Nat.two_pow_pos q)
  have hhigh : ∀ x : BitVec h, x.toNat / 2 ^ q < 2 ^ q := by
    intro x
    have hx := x.isLt
    rw [hQ] at hx
    exact Nat.div_lt_of_lt_mul hx
  -- the four digits
  have hT : T.toNat = a.toNat % 2 ^ q * (b.toNat % 2 ^ q) := by
    have hfits := mul_add_lt (hlow a.toNat) (hlow b.toNat) (Nat.two_pow_pos q)
    rw [Nat.add_zero, ← hQ] at hfits
    rw [toNat_mul_of_fits (by rw [hmask, hmask]; exact hfits), hmask, hmask]
  have hU : U.toNat = a.toNat / 2 ^ q * (b.toNat % 2 ^ q) + T.toNat / 2 ^ q := by
    have hfits := mul_add_lt (hhigh a) (hlow b.toNat) (hhigh T)
    rw [← hQ] at hfits
    rw [toNat_mul_add_of_fits (by rw [toNat_lshr, hmask, toNat_lshr]; exact hfits), toNat_lshr,
      hmask, toNat_lshr]
  have hV : V.toNat = a.toNat % 2 ^ q * (b.toNat / 2 ^ q) + U.toNat % 2 ^ q := by
    have hfits := mul_add_lt (hlow a.toNat) (hhigh b) (hlow U.toNat)
    rw [← hQ] at hfits
    rw [toNat_mul_add_of_fits (by rw [hmask, toNat_lshr, hmask]; exact hfits), hmask,
      toNat_lshr, hmask]
  have hW :
      W.toNat = a.toNat / 2 ^ q * (b.toNat / 2 ^ q) + (U.toNat / 2 ^ q + V.toNat / 2 ^ q) := by
    have hfits := mul_add_add_lt (hhigh a) (hhigh b) (hhigh U) (hhigh V)
    rw [← hQ] at hfits
    have hc : (U >>> q + V >>> q).toNat = U.toNat / 2 ^ q + V.toNat / 2 ^ q := by
      rw [toNat_add_of_fits ?_, toNat_lshr, toNat_lshr]
      rw [toNat_lshr, toNat_lshr]
      exact Nat.lt_of_le_of_lt (Nat.le_add_left _ _) hfits
    rw [toNat_mul_add_of_fits (by rw [toNat_lshr, toNat_lshr, hc]; exact hfits), toNat_lshr,
      toNat_lshr, hc]
  -- the low half: one digit from `T`, one from `V`
  have hO : ((T &&& mask) + V <<< q).toNat = T.toNat % 2 ^ q + 2 ^ q * (V.toNat % 2 ^ q) := by
    have hshl : (V <<< q).toNat = 2 ^ q * (V.toNat % 2 ^ q) := by
      rw [BitVec.toNat_shiftLeft, Nat.shiftLeft_eq, hQ, Nat.mul_mod_mul_right, Nat.mul_comm]
    have hfits := two_digits_lt (hlow T.toNat) (hlow V.toNat)
    rw [← hQ] at hfits
    rw [toNat_add_of_fits (by rw [hmask, hshl]; exact hfits), hmask, hshl]
  rw [hO, hW, hQ, ← schoolbook_eq hT hU hV, Nat.mod_add_div, Nat.mod_add_div]

/-- The upper half takes the carry of the low product and the cross products; what overflows it does
not count. -/
theorem upper_half {a b lo W : BitVec h} (a' b' : BitVec h)
    (hlow : a.toNat * b.toNat = lo.toNat + 2 ^ h * W.toNat) :
    lo.toNat + 2 ^ h * (W + (b' * a + b * a')).toNat =
      (a.toNat + 2 ^ h * a'.toNat) * (b.toNat + 2 ^ h * b'.toNat) % (2 ^ h * 2 ^ h) := by
  have hsum : (W + (b' * a + b * a')).toNat =
      (W.toNat + (b'.toNat * a.toNat + b.toNat * a'.toNat)) % 2 ^ h := by
    simp only [BitVec.toNat_add, BitVec.toNat_mul, Nat.add_mod, Nat.mod_mod]
  have hdigits : ∀ X, (lo.toNat + 2 ^ h * X) % (2 ^ h * 2 ^ h) =
      lo.toNat + 2 ^ h * (X % 2 ^ h) := by
    intro X
    rw [Nat.mod_mul, Nat.add_mul_mod_self_left, Nat.add_mul_div_left _ _ (Nat.two_pow_pos h),
      Nat.mod_eq_of_lt lo.isLt, Nat.div_eq_of_lt lo.isLt, Nat.zero_add]
  rw [mul_mod_sq, hlow, Nat.add_assoc, ← Nat.mul_add, hdigits, hsum]

/-- **One construction**: if the products of halves are right, so is the product. -/
theorem mulHalves_eq (hw : w = 2 * h) (hh : h = 2 * q) {mul : BitVec h → BitVec h → BitVec h}
    (hmul : ∀ a b, mul a b = a * b) (LHS RHS : BitVec w) :
    mulHalves w h q mul LHS RHS = LHS * RHS := by
  obtain rfl : mul = fun a b => a * b := funext fun a => funext fun b => hmul a b
  have hH : 2 ^ w = 2 ^ h * 2 ^ h := by rw [hw, Nat.two_mul, pow_add]
  have hlo : ∀ x : BitVec w, (x.setWidth h).toNat = x.toNat % 2 ^ h :=
    fun x => BitVec.toNat_setWidth ..
  have hhi : ∀ x : BitVec w, ((x >>> h).setWidth h).toNat = x.toNat / 2 ^ h := by
    intro x
    have hx := x.isLt
    rw [hH] at hx
    rw [BitVec.toNat_setWidth, toNat_lshr, Nat.mod_eq_of_lt (Nat.div_lt_of_lt_mul hx)]
  apply BitVec.eq_of_toNat_eq
  have hlow := low_product hh (LHS.setWidth h) (RHS.setWidth h)
  have hjoin := upper_half (LHS >>> h |>.setWidth h) (RHS >>> h |>.setWidth h) hlow
  unfold mulHalves
  rw [toNat_join hw, hjoin, hhi, hhi, hlo, hlo, Nat.mod_add_div, Nat.mod_add_div,
    BitVec.toNat_mul, hH]

end Product

theorem getMulFunc_eq {bitWidth : Nat} (h4 : bitWidth % 4 = 0)
    {mul : BitVec (bitWidth / 2) → BitVec (bitWidth / 2) → BitVec (bitWidth / 2)}
    (hmul : ∀ a b, mul a b = a * b) (a b : BitVec bitWidth) :
    getMulFunc bitWidth mul a b = a * b := by
  unfold getMulFunc
  exact mulHalves_eq (by omega) (by omega) hmul a b

theorem mul128_eq (a b : BitVec 128) : mul128 a b = a * b := by
  unfold mul128
  exact getMulFunc_eq (by decide) (fun _ _ => rfl) a b

theorem mul256_eq (a b : Word) : mul256 a b = a * b := by
  unfold mul256
  exact getMulFunc_eq (by decide) mul128_eq a b

/-- **Multiplication by halves.** `evm.mul.i256`, over calls of `evm.mul.i128`, is the product
modulo 2^256, and `evm.mul.i128` is the product modulo 2^128. -/
theorem mul_by_halves : (∀ a b : Word, (mul256 a b).toNat = a.toNat * b.toNat % 2 ^ 256) ∧
    ∀ a b : BitVec 128, (mul128 a b).toNat = a.toNat * b.toNat % 2 ^ 128 := by
  constructor
  · intro a b
    rw [mul256_eq, BitVec.toNat_mul]
  · intro a b
    rw [mul128_eq, BitVec.toNat_mul]

end EvmTrans
