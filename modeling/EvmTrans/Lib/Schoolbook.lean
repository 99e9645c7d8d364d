/-
# `EvmTrans.Lib.Schoolbook` — products of two-digit numbers, to any base.

`schoolbook_eq` is the identity behind the usual column scheme: three partial sums `t`, `u`, `v`,
each split into a digit and a carry. The bounds say that no partial sum outgrows two digits.
-/
import Mathlib.Tactic.Ring
import Mathlib.Tactic.Linarith

namespace EvmTrans.Lib

variable {Q a b c d : Nat}

/-- Two digits make a number below the square of the base. -/
theorem two_digits_lt (ha : a < Q) (hb : b < Q) : a + Q * b < Q * Q := by
  calc a + Q * b < Q + Q * b := Nat.add_lt_add_right ha _
    _ = Q * (b + 1) := by ring
    _ ≤ Q * Q := Nat.mul_le_mul_left _ hb

/-- A product of digits leaves room for one digit. -/
theorem mul_add_lt (ha : a < Q) (hb : b < Q) (hc : c < Q) : a * b + c < Q * Q := by
  calc a * b + c ≤ Q * a + c :=
    Nat.add_le_add_right (by rw [Nat.mul_comm]; exact Nat.mul_le_mul_right a hb.le) c
    _ = c + Q * a := Nat.add_comm ..
    _ < Q * Q := two_digits_lt hc ha

/-- And even for two. -/
theorem mul_add_add_lt (ha : a < Q) (hb : b < Q) (hc : c < Q) (hd : d < Q) :
    a * b + (c + d) < Q * Q := by
  obtain ⟨k, rfl⟩ : ∃ k, Q = k + 1 := ⟨Q - 1, by omega⟩
  have hab : a * b ≤ k * k := Nat.mul_le_mul (by omega) (by omega)
  calc a * b + (c + d) ≤ k * k + (k + k) := by omega
    _ < (k + 1) * (k + 1) := by
      rw [show (k + 1) * (k + 1) = k * k + (k + k) + 1 by ring]
      exact Nat.lt_succ_self _

/-- **The column scheme.** -/
theorem schoolbook_eq {a₀ a₁ b₀ b₁ t u v : Nat} (ht : t = a₀ * b₀) (hu : u = a₁ * b₀ + t / Q)
    (hv : v = a₀ * b₁ + u % Q) : (a₀ + Q * a₁) * (b₀ + Q * b₁) =
      t % Q + Q * (v % Q) + Q * Q * (a₁ * b₁ + (u / Q + v / Q)) := by
  have ht' := Nat.mod_add_div t Q
  have hu' := Nat.mod_add_div u Q
  have hv' := Nat.mod_add_div v Q
  calc (a₀ + Q * a₁) * (b₀ + Q * b₁)
      = a₀ * b₀ + Q * (a₁ * b₀) + Q * (a₀ * b₁) + Q * Q * (a₁ * b₁) := by ring
    _ = (t % Q + Q * (t / Q)) + Q * (a₁ * b₀) + Q * (a₀ * b₁) + Q * Q * (a₁ * b₁) := by rw [ht', ht]
    _ = t % Q + Q * u + Q * (a₀ * b₁) + Q * Q * (a₁ * b₁) := by rw [hu]; ring
    _ = t % Q + Q * (u % Q + Q * (u / Q)) + Q * (a₀ * b₁) + Q * Q * (a₁ * b₁) := by rw [hu']
    _ = t % Q + Q * v + Q * Q * (a₁ * b₁ + u / Q) := by rw [hv]; ring
    _ = t % Q + Q * (v % Q + Q * (v / Q)) + Q * Q * (a₁ * b₁ + u / Q) := by rw [hv']
    _ = t % Q + Q * (v % Q) + Q * Q * (a₁ * b₁ + (u / Q + v / Q)) := by ring

/-- The two lower columns of a product. -/
theorem mul_mod_sq (H a₀ a₁ b₀ b₁ : Nat) : (a₀ + H * a₁) * (b₀ + H * b₁) % (H * H) =
    (a₀ * b₀ + H * (b₁ * a₀ + b₀ * a₁)) % (H * H) := by
  rw [show (a₀ + H * a₁) * (b₀ + H * b₁) =
    a₀ * b₀ + H * (b₁ * a₀ + b₀ * a₁) + H * H * (a₁ * b₁) by ring, Nat.add_mul_mod_self_left]

end EvmTrans.Lib
