/-
# `EvmTrans.Lib.Heights` — how much a straight-line stack program needs.

An instruction of a stack machine takes so many words and leaves so many. `runHeight` runs a list of
such effects from a height, and fails where a word is missing. `tally` counts in one pass, without
knowing the height, the words that the program takes from below and the words it leaves in their
place. `runHeight_eq` says that the count is exact: the program runs from the heights that cover
what it takes, and only from these.
-/
import Mathlib.Tactic.Common

namespace EvmTrans.Lib

/-- What an instruction takes off the stack, and what it leaves. -/
structure Effect where
  takes : Nat
  leaves : Nat

/-- The height behind a list of instructions. -/
def runHeight : List Effect → Nat → Option Nat
  | [], h => some h
  | e :: es, h => if e.takes ≤ h then runHeight es (h - e.takes + e.leaves) else none

/-- The words taken from below, and the words on top of them. -/
def tally : List Effect → Nat × Nat → Nat × Nat
  | [], s => s
  | e :: es, (prev, curr) =>
    if e.takes ≤ curr then tally es (prev, curr - e.takes + e.leaves)
    else tally es (prev + (e.takes - curr), e.leaves)

theorem le_tally : ∀ (es : List Effect) (prev curr : Nat), prev ≤ (tally es (prev, curr)).1 := by
  intro es
  induction es with
  | nil => exact fun prev curr => Nat.le_refl prev
  | cons e es ih =>
    intro prev curr
    unfold tally
    split
    · exact ih prev _
    · exact Nat.le_trans (Nat.le_add_right prev _) (ih _ _)

/-- From a height `h` of which `prev` words have been taken and replaced by `curr`. By induction on
the instructions left; a word that is missing is one that the count adds to those taken. -/
theorem runHeight_tally : ∀ (es : List Effect) (prev curr h : Nat), prev ≤ h →
    runHeight es (h - prev + curr) =
      if (tally es (prev, curr)).1 ≤ h then some
          (h - (tally es (prev, curr)).1 + (tally es (prev, curr)).2)
      else none := by
  intro es
  induction es with
  | nil => exact fun prev curr h hle => (if_pos hle).symm
  | cons e es ih =>
    intro prev curr h hle
    unfold runHeight tally
    by_cases hcurr : e.takes ≤ curr
    · rw [if_pos hcurr, if_pos (by omega), ← ih prev _ h hle]
      congr 1
      omega
    · rw [if_neg hcurr]
      by_cases hmore : prev + (e.takes - curr) ≤ h
      · rw [if_pos (by omega), ← ih _ _ h hmore]
        congr 1
        omega
      · have hge := le_tally es (prev + (e.takes - curr)) e.leaves
        rw [if_neg (by omega), if_neg (by omega)]

/-- **The count is exact.** -/
theorem runHeight_eq (es : List Effect) (h : Nat) : runHeight es h =
    if (tally es (0, 0)).1 ≤ h then some (h - (tally es (0, 0)).1 + (tally es (0, 0)).2)
        else none :=
  runHeight_tally es 0 0 h (Nat.zero_le h)

theorem runHeight_isSome_iff {es : List Effect} {h : Nat} :
    (runHeight es h).isSome = true ↔ (tally es (0, 0)).1 ≤ h := by
  rw [runHeight_eq]
  split
  · rename_i hle
    exact iff_of_true rfl hle
  · rename_i hlt
    exact iff_of_false Bool.false_ne_true hlt

end EvmTrans.Lib
