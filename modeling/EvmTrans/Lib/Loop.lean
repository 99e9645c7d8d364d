/-
# `EvmTrans.Lib.Loop` — `while` loops over an explicit state, with a fuel that provably suffices.

A loop body is a partial step `σ → Option σ`: `none` says that the loop's own condition failed.
`whileLoop` iterates it on a fuel. Two rules carry every use:

* `whileLoop_inv` — what one step preserves, the loop preserves;
* `whileLoop_exits` — if a measure drops at every step, a fuel that covers it lets the loop leave by
  ITS OWN condition, so the fuel is not part of the meaning (`whileLoop_ends` has both).

`whileLoop_congr` compares two bodies.

`pending` is the part of the measure that worklist loops over `n` numbered nodes share.
-/
import Mathlib.Tactic.Common
import Mathlib.Algebra.BigOperators.Group.Finset.Basic

namespace EvmTrans.Lib

variable {σ : Type*}

/-- `while`: iterate `body` until it answers `none`, at most `fuel` times. -/
def whileLoop (body : σ → Option σ) : Nat → σ → σ
  | 0, s => s
  | fuel + 1, s =>
    match body s with
    | none => s
    | some s' => whileLoop body fuel s'

/-- The invariant rule. -/
theorem whileLoop_inv {body : σ → Option σ} {P : σ → Prop}
    (hstep : ∀ s s', P s → body s = some s' → P s') :
    ∀ (fuel : Nat) (s : σ), P s → P (whileLoop body fuel s) := by
  intro fuel
  induction fuel with
  | zero => intro s hs; exact hs
  | succ fuel ih =>
    intro s hs
    unfold whileLoop
    cases hb : body s with
    | none => exact hs
    | some s' => exact ih s' (hstep s s' hs hb)

/-- The termination rule: the fuel covers the measure, so the loop ended because its condition
failed. -/
theorem whileLoop_exits {body : σ → Option σ} {P : σ → Prop} {measure : σ → Nat}
    (hstep : ∀ s s', P s → body s = some s' → P s' ∧ measure s' < measure s) :
    ∀ (fuel : Nat) (s : σ), P s → measure s ≤ fuel → body (whileLoop body fuel s) = none := by
  intro fuel
  induction fuel with
  | zero =>
    intro s hs hm
    show body s = none
    cases hb : body s with
    | none => rfl
    | some s' => exact absurd (hstep s s' hs hb).2 (by omega)
  | succ fuel ih =>
    intro s hs hm
    unfold whileLoop
    cases hb : body s with
    | none => exact hb
    | some s' =>
      obtain ⟨hs', hlt⟩ := hstep s s' hs hb
      exact ih s' hs' (by omega)

/-- Both rules at once: the loop ends by its own condition, in a state of the invariant. -/
theorem whileLoop_ends {body : σ → Option σ} (P : σ → Prop) (measure : σ → Nat)
    (hstep : ∀ s s', P s → body s = some s' → P s' ∧ measure s' < measure s) {fuel : Nat} {s : σ}
    (hs : P s) (hfuel : measure s ≤ fuel) :
    P (whileLoop body fuel s) ∧ body (whileLoop body fuel s) = none :=
  ⟨whileLoop_inv (fun s s' h hb => (hstep s s' h hb).1) fuel s hs,
    whileLoop_exits hstep fuel s hs hfuel⟩

/-- Two bodies that agree wherever the first takes the loop. -/
theorem whileLoop_congr {body body' : σ → Option σ} {P : σ → Prop}
    (hbody : ∀ s, P s → body s = body' s) (hstep : ∀ s s', P s → body s = some s' → P s') :
    ∀ (fuel : Nat) (s : σ), P s → whileLoop body fuel s = whileLoop body' fuel s := by
  intro fuel
  induction fuel with
  | zero => exact fun _ _ => rfl
  | succ fuel ih =>
    intro s hs
    unfold whileLoop
    rw [← hbody s hs]
    cases hb : body s with
    | none => rfl
    | some s' => exact ih s' (hstep s s' hs hb)

/-- What the nodes `0, …, n - 1` that are not `seen` yet may still push, when node `i` pushes at
most `weight i` entries. -/
def pending (weight : Nat → Nat) (n : Nat) (seen : Nat → Prop) [DecidablePred seen] : Nat :=
  ∑ i ∈ (Finset.range n).filter fun i => ¬ seen i, weight i

/-- Expanding a new node takes its weight away. -/
theorem pending_mark {weight : Nat → Nat} {n p : Nat} {seen seen' : Nat → Prop}
    [DecidablePred seen] [DecidablePred seen'] (hp : p < n) (hnew : ¬ seen p)
    (h : ∀ i, seen' i ↔ i = p ∨ seen i) :
    pending weight n seen = pending weight n seen' + weight p := by
  have hmem : p ∈ (Finset.range n).filter fun i => ¬ seen i := by simp [hp, hnew]
  have herase : (Finset.range n).filter (fun i => ¬ seen' i) =
      ((Finset.range n).filter fun i => ¬ seen i).erase p := by
    ext i
    simp only [Finset.mem_filter, Finset.mem_erase, h, not_or]
    tauto
  rw [pending, pending, herase, Finset.sum_erase_add _ _ hmem]

theorem pending_congr {weight : Nat → Nat} {n : Nat} {seen seen' : Nat → Prop} [DecidablePred seen]
    [DecidablePred seen'] (h : ∀ i, i < n → (seen' i ↔ seen i)) :
    pending weight n seen' = pending weight n seen := by
  rw [pending, pending, Finset.filter_congr fun i hi => not_congr (h i (Finset.mem_range.mp hi))]

theorem pending_none {weight : Nat → Nat} {n : Nat} {seen : Nat → Prop} [DecidablePred seen]
    (h : ∀ i, ¬ seen i) : pending weight n seen = ∑ i ∈ Finset.range n, weight i := by
  rw [pending, Finset.filter_true_of_mem fun i _ => h i]

end EvmTrans.Lib
