/-
# `EvmTrans.Lib.LongDivision` — the arithmetic of shift-subtract division, on natural numbers.

`Divided x Y r q` is the state of such a division BEFORE a subtraction: `x = q * Y + r` for the
shifted divisor `Y`, with `r` below twice `Y`. `Reduced` is the state after it, with `r` below `Y`.
One lemma says what the subtraction does, one what a shift of the divisor to the right does, and one
where the divisor has to stand at the start: as many binary digits as the dividend.
-/
import Mathlib.Data.Nat.Size
import Mathlib.Tactic.Ring

namespace EvmTrans.Lib

/-- A number is one binary digit longer than its half. -/
theorem size_half {x : Nat} (h : 0 < x) : x.size = (x / 2).size + 1 := by
  have hbit : Nat.bit x.bodd (x / 2) = x := by
    rw [← Nat.div2_val]
    exact Nat.bit_bodd_div2 x
  have hsize := Nat.size_bit (b := x.bodd) (n := x / 2) (by rw [hbit]; omega)
  rwa [hbit] at hsize

/-- Before the subtraction of a digit. -/
structure Divided (x Y r q : Nat) : Prop where
  eq : x = q * Y + r
  lt : r < 2 * Y

/-- After it. -/
structure Reduced (x Y r q : Nat) : Prop where
  eq : x = q * Y + r
  lt : r < Y

variable {x y Y r q : Nat}

/-- The digit is 1. -/
theorem Divided.subtract (h : Divided x Y r q) (hle : Y ≤ r) : Reduced x Y (r - Y) (q + 1) where
  eq := by
    have heq := h.eq
    rw [Nat.add_mul, Nat.one_mul]
    omega
  lt := by
    have hlt := h.lt
    omega

/-- The digit is 0. -/
theorem Divided.keep (h : Divided x Y r q) (hlt : r < Y) : Reduced x Y r q := ⟨h.eq, hlt⟩

/-- The divisor moves down by one digit, the quotient makes room for the next. -/
theorem Reduced.shift (h : Reduced x (2 * Y) r q) : Divided x Y r (2 * q) where
  eq := by
    rw [h.eq]
    ring
  lt := h.lt

/-- While the divisor can move down, the quotient has room for one digit more. -/
theorem Reduced.two_mul_quotient_le (h : Reduced x (2 * Y) r q) : 2 * q ≤ x := by
  have hY : 0 < Y := by
    have hlt := h.lt
    omega
  have hq : 2 * q * 1 ≤ 2 * q * Y := Nat.mul_le_mul_left (2 * q) hY
  have heq := h.shift.eq
  omega

/-- With the divisor back in place, quotient and remainder are exact. -/
theorem Reduced.exact (h : Reduced x Y r q) : q = x / Y ∧ r = x % Y := by
  have hpos : 0 < Y := Nat.lt_of_le_of_lt (Nat.zero_le r) h.lt
  rw [h.eq, Nat.mul_comm q Y, Nat.mul_add_div hpos, Nat.mul_add_mod, Nat.div_eq_of_lt h.lt,
    Nat.mod_eq_of_lt h.lt]
  exact ⟨rfl, rfl⟩

/-- **The first position of the divisor**: shifted until it is as long as the dividend, it starts a
division. -/
theorem divided_align (hy : 0 < y) : Divided x (y * 2 ^ (x.size - y.size)) x 0 where
  eq := by rw [Nat.zero_mul, Nat.zero_add]
  lt := by
    have hpos : 0 < y.size := Nat.size_pos.mpr hy
    have hlow : 2 ^ (y.size - 1) ≤ y := Nat.lt_size.mp (by omega)
    calc x < 2 ^ x.size := Nat.lt_size_self x
      _ ≤ 2 ^ (1 + (y.size - 1) + (x.size - y.size)) := Nat.pow_le_pow_right (by decide) (by omega)
      _ = 2 * (2 ^ (y.size - 1) * 2 ^ (x.size - y.size)) := by
        rw [pow_add, pow_add, pow_one, mul_assoc]
      _ ≤ 2 * (y * 2 ^ (x.size - y.size)) :=
        Nat.mul_le_mul_left 2 (Nat.mul_le_mul_right _ hlow)

/-- Aligned or not yet, the divisor does not leave `n` digits. -/
theorem shifted_lt {n k : Nat} (hx : x < 2 ^ n) (hk : k ≤ x.size - y.size) (hle : y ≤ x) :
    y * 2 ^ k < 2 ^ n := by
  have hsize : x.size ≤ n := Nat.size_le.mpr hx
  have hmono : y.size ≤ x.size := Nat.size_le_size hle
  calc y * 2 ^ k < 2 ^ y.size * 2 ^ k :=
        Nat.mul_lt_mul_of_pos_right (Nat.lt_size_self y) (Nat.two_pow_pos k)
    _ = 2 ^ (y.size + k) := (pow_add 2 _ _).symm
    _ ≤ 2 ^ n := Nat.pow_le_pow_right (by decide) (by omega)

end EvmTrans.Lib
