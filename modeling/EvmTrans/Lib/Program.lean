/-
# `EvmTrans.Lib.Program` — programs with a state and exceptions, where a throw undoes nothing.

A `Program ε σ α` starts in a state, returns or throws, and leaves a state EITHER WAY: this is what
a C++ method does to the object it runs on. Two kinds of fact compose along `>>=`:

* `Upholds R E p` — wherever `p` starts, `R` relates that state to the one it leaves, and what it
  throws is in `E`. `R` is a preorder, so nothing has to be known about the values passed on;
* `exec_bind_ok` — a run that returns is a run of the first part that returns and one of the second,
  for facts that do depend on the values.
  -/
import Mathlib.Order.Defs.Unbundled
import Mathlib.Tactic.Common

namespace EvmTrans.Lib

variable {ε σ α β : Type}

/-- A program over the state `σ` that may throw an `ε`. -/
abbrev Program (ε σ α : Type) := ExceptT ε (StateM σ) α

/-- An `if` without an `else`. -/
def Program.when (c : Prop) [Decidable c] (p : Program ε σ PUnit) : Program ε σ PUnit :=
  if c then p else pure ⟨⟩

/-! ## §1 — the run from one state. -/

/-- What the program does from `s`: the value or the exception, and the state left behind. -/
def Program.exec (p : Program ε σ α) (s : σ) : Except ε α × σ := StateT.run (ExceptT.run p) s

/-- The part behind a `>>=`, if it is reached. -/
def Program.andThen (f : α → Program ε σ β) : Except ε α × σ → Except ε β × σ
  | (.ok a, s) => (f a).exec s
  | (.error e, s) => (.error e, s)

@[simp] theorem andThen_ok (f : α → Program ε σ β) (a : α) (s : σ) :
    Program.andThen f (.ok a, s) = (f a).exec s := rfl

@[simp] theorem andThen_error (f : α → Program ε σ β) (e : ε) (s : σ) :
    Program.andThen f (.error e, s) = (.error e, s) := rfl

@[simp] theorem exec_pure (a : α) (s : σ) :
    Program.exec (pure a : Program ε σ α) s = (.ok a, s) := rfl

@[simp] theorem exec_throw (e : ε) (s : σ) :
    Program.exec (throw e : Program ε σ α) s = (.error e, s) := rfl

@[simp] theorem exec_get (s : σ) : Program.exec (get : Program ε σ σ) s = (.ok s, s) := rfl

@[simp] theorem exec_modify (f : σ → σ) (s : σ) :
    Program.exec (modify f : Program ε σ PUnit) s = (.ok ⟨⟩, f s) := rfl

@[simp] theorem exec_bind (p : Program ε σ α) (f : α → Program ε σ β) (s : σ) :
    Program.exec (p >>= f) s = Program.andThen f (p.exec s) := by
  show Program.exec (ExceptT.bind p f) s = _
  unfold Program.exec ExceptT.bind ExceptT.run ExceptT.mk
  show StateT.bind p (ExceptT.bindCont f) s = Program.andThen f (p s)
  unfold StateT.bind
  show (match p s with | (a, s') => ExceptT.bindCont f a s') = _
  rcases p s with ⟨a | a, s'⟩
  · rfl
  · rfl

theorem exec_ite (c : Prop) [Decidable c] (p q : Program ε σ α) (s : σ) :
    Program.exec (if c then p else q) s = if c then p.exec s else q.exec s := by
  split
  · rfl
  · rfl

/-- A run that returns went through both parts. -/
theorem exec_bind_ok {p : Program ε σ α} {f : α → Program ε σ β} {s s'' : σ} {b : β}
    (h : Program.exec (p >>= f) s = (.ok b, s'')) :
    ∃ a s', p.exec s = (.ok a, s') ∧ (f a).exec s' = (.ok b, s'') := by
  rw [exec_bind] at h
  rcases hp : p.exec s with ⟨e | a, s'⟩
  · rw [hp, andThen_error] at h
    cases h
  · rw [hp, andThen_ok] at h
    exact ⟨a, s', rfl, h⟩

/-! ## §2 — what a program does to every state. -/

/-- The state left behind is `R`-related to the one in front, and what is thrown is in `E`. -/
structure Upholds (R : σ → σ → Prop) (E : ε → Prop) (p : Program ε σ α) : Prop where
  state : ∀ s, R s (p.exec s).2
  thrown : ∀ s e, (p.exec s).1 = .error e → E e

section
variable {R : σ → σ → Prop} {E : ε → Prop}

theorem Upholds.of_exec {p : Program ε σ α} {s s' : σ} {r : Except ε α} (h : Upholds R E p)
    (hrun : p.exec s = (r, s')) : R s s' := by
  have hs := h.state s
  rwa [hrun] at hs

theorem Upholds.pure [Std.Refl R] (a : α) : Upholds R E (Pure.pure a : Program ε σ α) :=
  ⟨fun s => refl_of R s, fun s e h => by cases h⟩

theorem Upholds.throw [Std.Refl R] {e : ε} (he : E e) :
    Upholds R E (MonadExcept.throw e : Program ε σ α) :=
  ⟨fun s => refl_of R s, fun s e' h => by cases h; exact he⟩

theorem Upholds.get [Std.Refl R] : Upholds R E (MonadState.get : Program ε σ σ) :=
  ⟨fun s => refl_of R s, fun s e h => by cases h⟩

theorem Upholds.modify {f : σ → σ} (h : ∀ s, R s (f s)) :
    Upholds R E (modify f : Program ε σ PUnit) :=
  ⟨h, fun s e h => by cases h⟩

/-- **Sequencing.** Nothing is assumed of the value that is passed on. -/
theorem Upholds.bind [IsTrans σ R] {p : Program ε σ α} {f : α → Program ε σ β} (hp : Upholds R E p)
    (hf : ∀ a, Upholds R E (f a)) : Upholds R E (p >>= f) := by
  constructor
  · intro s
    rw [exec_bind]
    rcases hrun : p.exec s with ⟨e | a, s'⟩
    · exact hp.of_exec hrun
    · exact trans_of R (hp.of_exec hrun) ((hf a).state s')
  · intro s e h
    rw [exec_bind] at h
    rcases hrun : p.exec s with ⟨e' | a, s'⟩
    · rw [hrun] at h
      cases h
      exact hp.thrown s e (by rw [hrun])
    · rw [hrun] at h
      exact (hf a).thrown s' e h

theorem Upholds.ite {c : Prop} [Decidable c] {p q : Program ε σ α} (hp : c → Upholds R E p)
    (hq : ¬ c → Upholds R E q) : Upholds R E (if c then p else q) := by
  split
  · rename_i h
    exact hp h
  · rename_i h
    exact hq h

theorem Upholds.when [Std.Refl R] {c : Prop} [Decidable c] {p : Program ε σ PUnit}
    (h : c → Upholds R E p) : Upholds R E (Program.when c p) :=
  Upholds.ite h fun _ => Upholds.pure _

/-- A program that makes its whole change behind one check. -/
theorem Upholds.of_checked [Std.Refl R] {p : Program ε σ α} {c : σ → Prop} [DecidablePred c]
    {v : σ → α} {g : σ → σ} {e : ε}
    (hrun : ∀ s, p.exec s = if c s then (.ok (v s), g s) else (.error e, s))
    (hg : ∀ s, c s → R s (g s)) (he : E e) : Upholds R E p := by
  constructor
  · intro s
    rw [hrun s]
    split
    · rename_i h
      exact hg s h
    · exact refl_of R s
  · intro s e' h
    rw [hrun s] at h
    split at h
    · cases h
    · cases h
      exact he

/-- What depends on the state read is shown from each state. -/
theorem Upholds.get_bind [Std.Refl R] [IsTrans σ R] {f : σ → Program ε σ β}
    (hf : ∀ s, Upholds R E (f s)) : Upholds R E (MonadState.get >>= f) :=
  Upholds.bind Upholds.get hf

end

/-! ## §3 — loops. -/

/-- A loop that only reads: each turn gives its value and leaves the state. -/
theorem exec_mapM_read {f : α → Program ε σ β} {g : α → β} {s : σ} : ∀ {l : List α},
    (∀ a ∈ l, (f a).exec s = (.ok (g a), s)) → Program.exec (l.mapM f) s = (.ok (l.map g), s)
  | [], _ => rfl
  | a :: l, h => by
    have hrest := exec_mapM_read fun b hb => h b (List.mem_cons_of_mem a hb)
    rw [List.mapM_cons, exec_bind, h a List.mem_cons_self, andThen_ok, exec_bind, hrest]
    rfl

/-- A loop counted up to `n` passes through the states `t`. -/
theorem exec_forM_range {f : Nat → Program ε σ PUnit} {t : Nat → σ} : ∀ {n : Nat},
    (∀ i < n, (f i).exec (t i) = (.ok ⟨⟩, t (i + 1))) →
    Program.exec (forM (List.range n) f) (t 0) = (.ok ⟨⟩, t n)
  | 0, _ => rfl
  | n + 1, h => by
    have hrest := exec_forM_range fun i hi => h i (Nat.lt_succ_of_lt hi)
    rw [List.range_succ, List.forM_append, exec_bind, hrest, andThen_ok]
    show Program.exec (f n >>= fun _ => (pure PUnit.unit : Program ε σ PUnit)) (t n) = _
    rw [exec_bind, h n (Nat.lt_succ_self n)]
    rfl

end EvmTrans.Lib
