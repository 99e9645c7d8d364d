/-
# `EvmTrans.Lib.Pass` — loops over positions, and the positions they visit.

A pass stands at a position with a state. Its body `act` either returns from the loop (`inl`) or
goes on, at a position that it names, with a new state (`inr`). `pass` is the loop, `visits` the
list of the positions at which the body ran. Passes with different states and different ways to find
the next position are compared through `positions`, the walk of one given successor function:

* `pass_eq` — a loop that runs the body as the pass does is the pass;
* `visits_eq` — a body that goes on to the successor visits the walk, up to the first position at
  which it returns;
* `visits_returns` — where the body returns may depend on its state: the walk is visited up to the
  position that the answer names.
  -/
import Mathlib.Data.List.Basic
import Mathlib.Tactic.Common

namespace EvmTrans.Lib

variable {σ ρ : Type*}

/-! ## §1 — the loop. -/

/-- The loop, on a fuel that bounds the positions left. -/
def pass (act : Nat → σ → ρ ⊕ (Nat × σ)) (done : σ → ρ) (stop : Nat) : Nat → Nat → σ → ρ
  | 0, _, s => done s
  | fuel + 1, i, s =>
    if i = stop then done s
    else
      match act i s with
      | .inl r => r
      | .inr (j, s') => pass act done stop fuel j s'

/-- The positions at which the body runs. -/
def visits (act : Nat → σ → ρ ⊕ (Nat × σ)) (stop : Nat) : Nat → Nat → σ → List Nat
  | 0, _, _ => []
  | fuel + 1, i, s =>
    if i = stop then []
    else
      i :: match act i s with
        | .inl _ => []
        | .inr (j, s') => visits act stop fuel j s'

/-- The walk from `i` on. -/
def positions (next : Nat → Nat) (stop : Nat) : Nat → Nat → List Nat
  | 0, _ => []
  | fuel + 1, i => if i = stop then [] else i :: positions next stop fuel (next i)

/-- A list up to its first element with the property, that one included. -/
def upTo (p : Nat → Bool) : List Nat → List Nat
  | [] => []
  | i :: l => i :: if p i then [] else upTo p l

/-! ## §2 — what is visited. -/

variable {act : Nat → σ → ρ ⊕ (Nat × σ)} {done : σ → ρ} {next : Nat → Nat} {stop : Nat}
  {p : Nat → Bool}

/-- **A loop that runs the body where the pass does** is the pass. -/
theorem pass_eq {f : Nat → Nat → σ → ρ} (hzero : ∀ i s, f 0 i s = done s)
    (hstop : ∀ fuel s, f (fuel + 1) stop s = done s)
    (hact : ∀ fuel i s, i ≠ stop →
      f (fuel + 1) i s = Sum.elim id (fun js => f fuel js.1 js.2) (act i s)) :
    ∀ fuel i s, f fuel i s = pass act done stop fuel i s := by
  intro fuel
  induction fuel with
  | zero => exact hzero
  | succ fuel ih =>
    intro i s
    unfold pass
    by_cases hi : i = stop
    · rw [if_pos hi, hi]
      exact hstop fuel s
    · rw [if_neg hi, hact fuel i s hi]
      cases act i s with
      | inl r => rfl
      | inr js => exact ih js.1 js.2

theorem upTo_of_forall {l : List Nat} (h : ∀ i ∈ l, p i = false) : upTo p l = l := by
  induction l with
  | nil => rfl
  | cons i l ih =>
    obtain ⟨hi, hl⟩ := List.forall_mem_cons.mp h
    unfold upTo
    rw [hi, if_neg Bool.false_ne_true, ih hl]

theorem positions_stop (next : Nat → Nat) (stop : Nat) : ∀ fuel, positions next stop fuel stop = []
  | 0 => rfl
  | _ + 1 => if_pos rfl

/-- **The body returns at the positions `p`, or at the last one, and goes on to the successor at the
others**: it visits the walk up to the first of them. `P` is what the walk keeps. By induction on
the fuel. -/
theorem visits_eq {P : Nat → Prop} (hnext : ∀ i, P i → i ≠ stop → next i ≠ stop → P (next i))
    (h : ∀ i s, P i → i ≠ stop → ((p i = true ∨ next i = stop) ∧ ∃ r, act i s = .inl r) ∨
      (p i = false ∧ ∃ s', act i s = .inr (next i, s'))) :
    ∀ fuel i s, (i ≠ stop → P i) →
      visits act stop fuel i s = upTo p (positions next stop fuel i) := by
  intro fuel
  induction fuel with
  | zero => exact fun i s _ => rfl
  | succ fuel ih =>
    intro i s hP
    unfold visits positions
    by_cases hi : i = stop
    · rw [if_pos hi, if_pos hi]
      rfl
    · rw [if_neg hi, if_neg hi]
      unfold upTo
      rcases h i s (hP hi) hi with ⟨hend, r, hr⟩ | ⟨hp, s', hs'⟩
      · rw [hr]
        refine congrArg (i :: ·) ?_
        rcases hend with hp | hend
        · rw [hp, if_pos rfl]
        · rw [hend, positions_stop]
          exact (ite_self []).symm
      · rw [hs', hp, if_neg Bool.false_ne_true]
        exact congrArg (i :: ·) (ih (next i) s' fun hne => hnext i (hP hi) hi hne)

/-- A body that never returns visits the whole walk. -/
theorem visits_all {P : Nat → Prop} (hnext : ∀ i, P i → i ≠ stop → next i ≠ stop → P (next i))
    (h : ∀ i s, P i → i ≠ stop → (next i = stop ∧ ∃ r, act i s = .inl r) ∨
      ∃ s', act i s = .inr (next i, s')) :
    ∀ fuel i s, (i ≠ stop → P i) → visits act stop fuel i s = positions next stop fuel i := by
  intro fuel i s hP
  have hvisits : visits act stop fuel i s = upTo (fun _ => false) (positions next stop fuel i) := by
    refine visits_eq hnext (fun i s hPi hi => ?_) fuel i s hP
    rcases h i s hPi hi with ⟨hend, hr⟩ | hs'
    · exact .inl ⟨.inr hend, hr⟩
    · exact .inr ⟨rfl, hs'⟩
  rwa [upTo_of_forall fun _ _ => rfl] at hvisits

/-- A pass over increasing positions returns from one that is not behind it. -/
theorem le_of_pass {ret : ρ → Option Nat} (hdone : ∀ s, ret (done s) = none)
    (hret : ∀ i s r, act i s = .inl r → ret r = some i)
    (hlt : ∀ i s j s', act i s = .inr (j, s') → i < j) :
    ∀ {fuel i s k}, ret (pass act done stop fuel i s) = some k → i ≤ k := by
  intro fuel
  induction fuel with
  | zero =>
    intro i s k h
    rw [pass, hdone] at h
    cases h
  | succ fuel ih =>
    intro i s k h
    unfold pass at h
    split at h
    · rw [hdone] at h
      cases h
    · split at h
      · rename_i r hr
        rw [hret i s r hr] at h
        exact Nat.le_of_eq (Option.some.inj h)
      · rename_i j s' hs'
        exact Nat.le_of_lt (Nat.lt_of_lt_of_le (hlt i s j s' hs') (ih h))

/-- **The answer names the position at which the body returns**: the walk is visited up to it, and
to its end if the body never returns. -/
theorem visits_returns (ret : ρ → Option Nat) (hdone : ∀ s, ret (done s) = none)
    (hret : ∀ i s r, act i s = .inl r → ret r = some i)
    (hlt : ∀ i s j s', act i s = .inr (j, s') → i < j ∧ j = next i) :
    ∀ fuel i s, visits act stop fuel i s =
      upTo (fun j => some j == ret (pass act done stop fuel i s)) (positions next stop fuel i) := by
  intro fuel
  induction fuel with
  | zero => exact fun i s => rfl
  | succ fuel ih =>
    intro i s
    unfold visits positions pass
    by_cases hi : i = stop
    · rw [if_pos hi, if_pos hi, if_pos hi]
      rfl
    · rw [if_neg hi, if_neg hi, if_neg hi]
      unfold upTo
      refine congrArg (i :: ·) ?_
      cases hact : act i s with
      | inl r =>
        dsimp only
        rw [hret i s r hact, beq_self_eq_true, if_pos rfl]
      | inr js =>
        obtain ⟨j, s'⟩ := js
        obtain ⟨hij, rfl⟩ := hlt i s j s' hact
        dsimp only
        have hne : (some i == ret (pass act done stop fuel (next i) s')) = false := by
          rw [beq_eq_false_iff_ne]
          intro heq
          have := le_of_pass hdone hret (fun i s j s' h => (hlt i s j s' h).1) heq.symm
          omega
        rw [hne, if_neg Bool.false_ne_true]
        exact ih (next i) s'

end EvmTrans.Lib
