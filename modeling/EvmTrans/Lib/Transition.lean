/-
# `EvmTrans.Lib.Transition` — transition systems: what every run keeps, what every run comes to, and
how two deterministic systems end alike.

* `Reachable.invariant` — what one step preserves holds in every state reached;
* `Inevitably` — every run from here makes a final step, and stays inside a region until it does;
* `Simulation.endsAlike` — a forward simulation between deterministic systems transfers the endings
  in BOTH directions, because a run that never ends is followed by runs of every length.
  -/
import Mathlib.Logic.Relation
import Mathlib.Tactic.Common

namespace EvmTrans.Lib

/-! ## §1 — labelled steps. -/

section Labelled

variable {σ ε : Type*} {step : σ → ε → σ → Prop}

/-- The states that steps lead to, whatever their labels. -/
def Reachable (step : σ → ε → σ → Prop) : σ → σ → Prop :=
  Relation.ReflTransGen fun s s' => ∃ e, step s e s'

theorem Reachable.refl (s : σ) : Reachable step s s := Relation.ReflTransGen.refl

theorem Reachable.tail {s s' s'' : σ} {e : ε} (h : Reachable step s s') (hstep : step s' e s'') :
    Reachable step s s'' :=
  Relation.ReflTransGen.tail h ⟨e, hstep⟩

theorem Reachable.head {s s' s'' : σ} {e : ε} (hstep : step s e s') (h : Reachable step s' s'') :
    Reachable step s s'' :=
  Relation.ReflTransGen.head ⟨e, hstep⟩ h

theorem Reachable.trans {s s' s'' : σ} (h : Reachable step s s') (h' : Reachable step s' s'') :
    Reachable step s s'' :=
  Relation.ReflTransGen.trans h h'

/-- The invariant rule. -/
theorem Reachable.invariant {P : σ → Prop} (hstep : ∀ s e s', P s → step s e s' → P s') {s s' : σ}
    (h : Reachable step s s') (hs : P s) : P s' := by
  induction h with
  | refl => exact hs
  | tail _ hlast ih =>
    obtain ⟨e, hlast⟩ := hlast
    exact hstep _ e _ ih hlast

/-- **Every run from here makes a final step after finitely many others**, and every state before it
is one of `during`. -/
inductive Inevitably (step : σ → ε → σ → Prop) (during : σ → Prop) (final : ε → Prop) : σ → Prop
  | intro {s : σ} (hduring : during s) (hnext : ∃ e s', step s e s')
      (hall : ∀ e s', step s e s' → ¬ final e → Inevitably step during final s') :
      Inevitably step during final s

end Labelled

/-! ## §2 — deterministic steps. -/

section Deterministic

variable {σ τ ρ ρ' : Type*} {step : σ → σ ⊕ ρ} {step' : τ → τ ⊕ ρ'}

/-- At most `n` steps of a deterministic system; a step leads on or ends with a result. -/
def runFor (step : σ → σ ⊕ ρ) : Nat → σ → σ ⊕ ρ
  | 0, s => .inl s
  | n + 1, s =>
    match step s with
    | .inl s' => runFor step n s'
    | .inr r => .inr r

/-- The run from `s` ends with `r`. -/
def Ends (step : σ → σ ⊕ ρ) (s : σ) (r : ρ) : Prop := ∃ n, runFor step n s = .inr r

theorem runFor_succ_of_inl {s s' : σ} (h : step s = .inl s') (n : Nat) :
    runFor step (n + 1) s = runFor step n s' := by
  rw [runFor, h]

theorem runFor_succ_of_inr {s : σ} {r : ρ} (h : step s = .inr r) (n : Nat) :
    runFor step (n + 1) s = .inr r := by
  rw [runFor, h]

theorem runFor_add_of_inl {m : Nat} : ∀ {s s' : σ}, runFor step m s = .inl s' → ∀ n,
    runFor step (m + n) s = runFor step n s' := by
  induction m with
  | zero =>
    intro s s' h n
    cases h
    rw [Nat.zero_add]
  | succ m ih =>
    intro s s' h n
    rw [Nat.succ_add]
    cases hs : step s with
    | inl s₁ =>
      rw [runFor_succ_of_inl hs] at h ⊢
      exact ih h n
    | inr r =>
      rw [runFor_succ_of_inr hs] at h
      cases h

theorem runFor_add_of_inr {m : Nat} : ∀ {s : σ} {r : ρ}, runFor step m s = .inr r → ∀ n,
    runFor step (m + n) s = .inr r := by
  induction m with
  | zero =>
    intro s r h
    cases h
  | succ m ih =>
    intro s r h n
    rw [Nat.succ_add]
    cases hs : step s with
    | inl s₁ =>
      rw [runFor_succ_of_inl hs] at h ⊢
      exact ih h n
    | inr r' =>
      rw [runFor_succ_of_inr hs] at h ⊢
      exact h

theorem Ends.unique {s : σ} {r r' : ρ} (h : Ends step s r) (h' : Ends step s r') : r = r' := by
  obtain ⟨m, hm⟩ := h
  obtain ⟨n, hn⟩ := h'
  have hm' := runFor_add_of_inr hm n
  rw [Nat.add_comm, runFor_add_of_inr hn m] at hm'
  exact (Sum.inr.inj hm').symm

/-- A run is as long as the part of it that has not ended. -/
theorem lt_of_runFor {s s' : σ} {r : ρ} {m n : Nat} (hm : runFor step m s = .inl s')
    (hn : runFor step n s = .inr r) : m < n := by
  by_contra hle
  obtain ⟨k, rfl⟩ := Nat.exists_eq_add_of_le (Nat.le_of_not_lt hle)
  rw [runFor_add_of_inr hn] at hm
  cases hm

theorem ends_iff_of_runFor {s s' : σ} {m : Nat} (h : runFor step m s = .inl s') (r : ρ) :
    Ends step s r ↔ Ends step s' r := by
  constructor
  · rintro ⟨n, hn⟩
    obtain ⟨k, rfl⟩ := Nat.exists_eq_add_of_le (Nat.le_of_lt (lt_of_runFor h hn))
    exact ⟨k, (runFor_add_of_inl h k).symm.trans hn⟩
  · rintro ⟨n, hn⟩
    exact ⟨m + n, (runFor_add_of_inl h n).trans hn⟩

theorem Ends.of_step {s : σ} {r : ρ} (h : step s = .inr r) : Ends step s r :=
  ⟨1, runFor_succ_of_inr h 0⟩

/-- Two runs end alike: each ending of the one has a counterpart among the endings of the other. -/
def EndsAlike (Q : ρ → ρ' → Prop) (E : ρ → Prop) (E' : ρ' → Prop) : Prop :=
  (∀ r, E r → ∃ r', E' r' ∧ Q r r') ∧ ∀ r', E' r' → ∃ r, E r ∧ Q r r'

/-- A forward simulation: a step is followed by at least one, and an ending by an ending. -/
structure Simulation (step : σ → σ ⊕ ρ) (step' : τ → τ ⊕ ρ') (R : σ → τ → Prop)
    (Q : ρ → ρ' → Prop) : Prop where
  next : ∀ s t s', R s t → step s = .inl s' → ∃ n t', runFor step' (n + 1) t = .inl t' ∧ R s' t'
  last : ∀ s t r, R s t → step s = .inr r → ∃ r', Ends step' t r' ∧ Q r r'

variable {R : σ → τ → Prop} {Q : ρ → ρ' → Prop}

theorem Simulation.forward (h : Simulation step step' R Q) {n : Nat} :
    ∀ {s : σ} {t : τ} {r : ρ}, R s t →
    runFor step n s = .inr r → ∃ r', Ends step' t r' ∧ Q r r' := by
  induction n with
  | zero =>
    intro s t r hR hn
    cases hn
  | succ n ih =>
    intro s t r hR hn
    cases hs : step s with
    | inl s' =>
      rw [runFor_succ_of_inl hs] at hn
      obtain ⟨m, t', hm, hR'⟩ := h.next s t s' hR hs
      obtain ⟨r', hr', hQ⟩ := ih hR' hn
      exact ⟨r', (ends_iff_of_runFor hm r').mpr hr', hQ⟩
    | inr r₁ =>
      rw [runFor_succ_of_inr hs] at hn
      cases hn
      exact h.last s t r hR hs

/-- The followed run ends too: every step of it is followed by one, so it is not longer. -/
theorem Simulation.backward (h : Simulation step step' R Q) (n : Nat) :
    ∀ {s : σ} {t : τ} {r' : ρ'}, R s t →
    runFor step' n t = .inr r' → ∃ r, Ends step s r ∧ Q r r' := by
  induction n using Nat.strongRecOn with
  | _ n ih =>
    intro s t r' hR hn
    cases hs : step s with
    | inl s' =>
      obtain ⟨m, t', hm, hR'⟩ := h.next s t s' hR hs
      have hlt := lt_of_runFor hm hn
      obtain ⟨k, rfl⟩ := Nat.exists_eq_add_of_le (Nat.le_of_lt hlt)
      rw [runFor_add_of_inl hm k] at hn
      obtain ⟨r, hr, hQ⟩ := ih k (by omega) hR' hn
      have hone : runFor step 1 s = .inl s' := runFor_succ_of_inl hs 0
      exact ⟨r, (ends_iff_of_runFor hone r).mpr hr, hQ⟩
    | inr r =>
      obtain ⟨r'', hr'', hQ⟩ := h.last s t r hR hs
      obtain rfl := hr''.unique ⟨n, hn⟩
      exact ⟨r, .of_step hs, hQ⟩

theorem EndsAlike.symm {Q' : ρ' → ρ → Prop} {E : ρ → Prop} {E' : ρ' → Prop} (h : EndsAlike Q E E')
    (hQ : ∀ r r', Q r r' → Q' r' r) : EndsAlike Q' E' E := by
  constructor
  · intro r' hr'
    obtain ⟨r, hr, hsame⟩ := h.2 r' hr'
    exact ⟨r, hr, hQ r r' hsame⟩
  · intro r hr
    obtain ⟨r', hr', hsame⟩ := h.1 r hr
    exact ⟨r', hr', hQ r r' hsame⟩

theorem EndsAlike.trans {ρ'' : Type*} {Q' : ρ' → ρ'' → Prop} {Q'' : ρ → ρ'' → Prop} {E : ρ → Prop}
    {E' : ρ' → Prop} {E'' : ρ'' → Prop} (h : EndsAlike Q E E') (h' : EndsAlike Q' E' E'')
    (hQ : ∀ r r' r'', Q r r' → Q' r' r'' → Q'' r r'') : EndsAlike Q'' E E'' := by
  constructor
  · intro r hr
    obtain ⟨r', hr', hsame⟩ := h.1 r hr
    obtain ⟨r'', hr'', hsame'⟩ := h'.1 r' hr'
    exact ⟨r'', hr'', hQ r r' r'' hsame hsame'⟩
  · intro r'' hr''
    obtain ⟨r', hr', hsame'⟩ := h'.2 r'' hr''
    obtain ⟨r, hr, hsame⟩ := h.2 r' hr'
    exact ⟨r, hr, hQ r r' r'' hsame hsame'⟩

/-- Where every ending on the right determines the one on the left, the endings on the left are
those. -/
theorem EndsAlike.iff {E : ρ → Prop} {E' : ρ' → Prop} {f : ρ' → ρ}
    (h : EndsAlike (fun r r' => r = f r') E E') (r : ρ) : E r ↔ ∃ r', E' r' ∧ r = f r' := by
  constructor
  · exact h.1 r
  · rintro ⟨r', hr', rfl⟩
    obtain ⟨r, hr, rfl⟩ := h.2 r' hr'
    exact hr

/-- Two runs that end alike, with the same results. -/
theorem EndsAlike.same {E E' : ρ → Prop} (h : EndsAlike (· = ·) E E') (r : ρ) : E r ↔ E' r := by
  constructor
  · intro hr
    obtain ⟨r', hr', rfl⟩ := h.1 r hr
    exact hr'
  · intro hr
    obtain ⟨r', hr', rfl⟩ := h.2 r hr
    exact hr'

/-- **A forward simulation makes two deterministic runs end alike.** -/
theorem Simulation.endsAlike (h : Simulation step step' R Q) {s : σ} {t : τ} (hR : R s t) :
    EndsAlike Q (Ends step s) (Ends step' t) :=
  ⟨fun _ ⟨_, hn⟩ => h.forward hR hn, fun _ ⟨n, hn⟩ => h.backward n hR hn⟩

end Deterministic

end EvmTrans.Lib
