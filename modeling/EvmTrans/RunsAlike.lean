/-
# `EvmTrans.RunsAlike` — the emitted function and the EVM end alike.

The entries of `EvmTrans.StackRefinement` say where a run has come to. Here is how it ends. A code
block of the emitted function is followed by at least one instruction of the EVM, and the last block
by the rest of the EVM's run: a forward simulation between two deterministic machines. So an ending
of either run is an ending of the other, with the outcome that `reported` gives for it, and the one
runs forever when the other does.

`reported` differs from what the EVM does in three places: the `RETURN` at `RetPC` installs the
translated runtime, a run behind the end of the code reverts, and so does a jump to an invalid
destination.
-/
import EvmTrans.StackBound

namespace EvmTrans

open Lib (runFor Ends EndsAlike Simulation runFor_add_of_inl runFor_add_of_inr runFor_succ_of_inl
  runFor_succ_of_inr ends_iff_of_runFor)

variable {W : Type} {ops : Ops W} {env : CompileEnv} {w : W} {e : EvmSt W}

/-! ## §1 — the run of the emitted function, block by block. -/

/-- One code block of a run, or how the run ends in it. -/
def emittedMove (ops : Ops W) (f : List IRBlock) (p : Nat × St W) : (Nat × St W) ⊕ Stop W :=
  match step ops f p.1 p.2 with
  | .ok p' => .inl p'
  | .error x => .inr x

section Emitted

variable {f : List IRBlock} {p p' : Nat × St W} {x : Stop W}

theorem emittedMove_of_ok (h : step ops f p.1 p.2 = .ok p') : emittedMove ops f p = .inl p' := by
  unfold emittedMove
  rw [h]

theorem emittedMove_of_error (h : step ops f p.1 p.2 = .error x) :
    emittedMove ops f p = .inr x := by
  unfold emittedMove
  rw [h]

/-- The entries of a run are its states after so many blocks. -/
theorem entryAt_run (h₀ : entryAt ops f w 0 = .ok p) (k : Nat) :
    (∀ p', entryAt ops f w k = .ok p' → runFor (emittedMove ops f) k p = .inl p') ∧
      ∀ x, entryAt ops f w k = .error x → runFor (emittedMove ops f) k p = .inr x := by
  induction k with
  | zero =>
    rw [h₀]
    exact ⟨fun p' h => congrArg Sum.inl (Except.ok.inj h), fun x h => (by cases h)⟩
  | succ k ih =>
    unfold entryAt
    cases hk : entryAt ops f w k with
    | error x₀ =>
      have hrun := runFor_add_of_inr (ih.2 x₀ hk) 1
      refine ⟨fun p' h => (by cases h), fun x h => ?_⟩
      cases h
      exact hrun
    | ok p₀ =>
      have hrun := runFor_add_of_inl (ih.1 p₀ hk) 1
      constructor
      · intro p' h
        exact hrun.trans (runFor_succ_of_inl (emittedMove_of_ok h) 0)
      · intro x h
        exact hrun.trans (runFor_succ_of_inr (emittedMove_of_error h) 0)

/-- **The run of the emitted function ends** where there is no entry any more. -/
theorem ends_iff_entryAt (h₀ : entryAt ops f w 0 = .ok p) (x : Stop W) :
    Ends (emittedMove ops f) p x ↔ ∃ k, entryAt ops f w k = .error x := by
  refine exists_congr fun k => ⟨fun h => ?_, (entryAt_run h₀ k).2 x⟩
  cases hk : entryAt ops f w k with
  | ok p' =>
    rw [(entryAt_run h₀ k).1 p' hk] at h
    cases h
  | error x' =>
    rw [(entryAt_run h₀ k).2 x' hk] at h
    exact congrArg Except.error (Sum.inr.inj h)

end Emitted

/-! ## §2 — the run of the EVM. -/

section EvmRun

variable {code : List Byte}

theorem EvmReaches.exists_runFor (h : EvmReaches ops code w e) :
    ∃ n, runFor (evmMove ops code) n ⟨0, [], w⟩ = .inl e := by
  induction h with
  | refl => exact ⟨0, rfl⟩
  | tail _ hstep ih =>
    obtain ⟨n, hn⟩ := ih
    exact ⟨n + 1, (runFor_add_of_inl hn 1).trans (runFor_succ_of_inl (evmMove_of_next hstep) 0)⟩

/-- **The EVM's run is over** in a state that it reaches and does not leave. -/
theorem ends_iff_reaches : Ends (evmMove ops code) ⟨0, [], w⟩ e ↔
    EvmReaches ops code w e ∧ ∀ e', evmStep ops code e ≠ .next e' := by
  constructor
  · rintro ⟨n, hn⟩
    -- the last instruction of the run is the one that does not lead on
    induction n with
    | zero => cases hn
    | succ n ih =>
      cases hprev : runFor (evmMove ops code) n ⟨0, [], w⟩ with
      | inr e' =>
        rw [runFor_add_of_inr hprev 1] at hn
        exact ih (hprev.trans hn)
      | inl e' =>
        have hreach : EvmReaches ops code w e' := EvmReaches.of_runFor .refl hprev
        rw [runFor_add_of_inl hprev 1] at hn
        cases hstep : evmStep ops code e' with
        | next e'' =>
          rw [runFor_succ_of_inl (evmMove_of_next hstep)] at hn
          cases hn
        | _ =>
          have hover : ∀ e'', evmStep ops code e' ≠ .next e'' := fun e'' heq => by
            rw [hstep] at heq
            cases heq
          rw [runFor_succ_of_inr (evmMove_of_over hover)] at hn
          cases hn
          exact ⟨hreach, hover⟩
  · rintro ⟨hreach, hover⟩
    obtain ⟨n, hn⟩ := EvmReaches.exists_runFor hreach
    exact (ends_iff_of_runFor hn e).mpr (.of_step (evmMove_of_over hover))

end EvmRun

/-! ## §3 — both. -/

section Alike

variable {code : Bytecode} {calls : List Call}

/-- **The EVM follows the emitted function**, block by block. -/
theorem compiled_simulation (hops : SameOps ops env) (hf : FunctionSpec env code.bytes calls)
    (hlim : WithinLimits ops code.bytes w) (hfit : FitsMstk ops code.bytes w)
    (hwide : ∀ b ∈ compileMain env code.bytes, b.WideDest) :
    Simulation (emittedMove ops (compileMain env code.bytes)) (evmMove ops code.bytes)
      (fun p e => EvmReaches ops code.bytes w e ∧ AtEntry code.bytes calls p.1 p.2 e)
      (fun x e => x = reported ops env code.bytes e) where
  next := by
    intro p e p' ⟨hr, hat⟩ hstep
    cases hat.follows hops hf hlim hfit hr with
    | enters hok hrun hat' =>
      rw [emittedMove_of_ok hok] at hstep
      cases hstep
      exact ⟨_, _, hrun, hr.of_runFor hrun, hat'⟩
    | ends _ herror =>
      rw [emittedMove_of_error herror] at hstep
      cases hstep
    | narrow _ hnarrow =>
      obtain ⟨b, hb, hno⟩ := hnarrow
      exact absurd (hwide b hb) hno
  last := by
    intro p e x ⟨hr, hat⟩ hstep
    cases hat.follows hops hf hlim hfit hr with
    | enters hok _ _ =>
      rw [emittedMove_of_ok hok] at hstep
      cases hstep
    | ends hends herror =>
      rw [emittedMove_of_error herror] at hstep
      exact ⟨_, hends, (Sum.inr.inj hstep).symm⟩
    | narrow _ hnarrow =>
      obtain ⟨b, hb, hno⟩ := hnarrow
      exact absurd (hwide b hb) hno

/-- So they end alike. -/
theorem compiled_endsAlike (hops : SameOps ops env) (hf : FunctionSpec env code.bytes calls)
    (hlim : WithinLimits ops code.bytes w) (hfit : FitsMstk ops code.bytes w)
    (hwide : ∀ b ∈ compileMain env code.bytes, b.WideDest) :
    EndsAlike (fun x e => x = reported ops env code.bytes e)
      (Ends (emittedMove ops (compileMain env code.bytes)) (0, St.init w))
      (Ends (evmMove ops code.bytes) ⟨0, [], w⟩) := by
  have hstart : EvmReaches ops code.bytes w ⟨0, [], w⟩ ∧
      AtEntry code.bytes calls 0 (St.init w) ⟨0, [], w⟩ :=
    ⟨Relation.ReflTransGen.refl, atEntry_init hf⟩
  exact (compiled_simulation hops hf hlim hfit hwide).endsAlike hstart

end Alike

/-- **Two machines that end alike**, in terms of the entries of the one and the states of the other;
`f` is what the final states of the EVM are reported as. -/
theorem runs_of_endsAlike {ops : Ops W} {blocks : List IRBlock} {code : List Byte} {p : Nat × St W}
    {f : EvmSt W → Stop W} (h₀ : entryAt ops blocks w 0 = .ok p)
    (halike : EndsAlike (fun x e => x = f e) (Ends (emittedMove ops blocks) p)
      (Ends (evmMove ops code) ⟨0, [], w⟩)) :
    (∀ x, (∃ k, entryAt ops blocks w k = .error x) ↔
      ∃ e, (EvmReaches ops code w e ∧ ∀ e', evmStep ops code e ≠ .next e') ∧ x = f e) ∧
    ((∀ k, ∃ p, entryAt ops blocks w k = .ok p) ↔
      ∀ e, EvmReaches ops code w e → ∃ e', evmStep ops code e = .next e') := by
  have hends : ∀ x, (∃ k, entryAt ops blocks w k = .error x) ↔
      ∃ e, (EvmReaches ops code w e ∧ ∀ e', evmStep ops code e ≠ .next e') ∧ x = f e := by
    intro x
    rw [← ends_iff_entryAt h₀, halike.iff]
    exact exists_congr fun e => and_congr_left' ends_iff_reaches
  refine ⟨hends, fun hforever e hreach => ?_, fun hforever k => ?_⟩
  · by_contra hover
    obtain ⟨k, hk⟩ := (hends _).mpr ⟨e, ⟨hreach, fun e' h => hover ⟨e', h⟩⟩, rfl⟩
    obtain ⟨p, hp⟩ := hforever k
    rw [hp] at hk
    cases hk
  · cases hk : entryAt ops blocks w k with
    | ok p => exact ⟨p, rfl⟩
    | error x =>
      obtain ⟨e, ⟨hreach, hover⟩, -⟩ := (hends x).mp ⟨k, hk⟩
      obtain ⟨e', he'⟩ := hforever e hreach
      exact absurd he' (hover e')

/-- **The emitted function ends as the EVM does.** Take any bytecode whose run keeps the EVM's
limits and fits `mstk`, give the non-stack opcodes one meaning on both sides, and let no jump have a
constant destination of less than 256 bits. The endings of the emitted function are what `reported`
makes of the states in which the EVM's run is over; and it enters blocks forever exactly when the
EVM runs forever. -/
theorem runs_end_alike (ops : Ops W) (env : CompileEnv) (hops : SameOps ops env)
    (code : Bytecode) (w : W) (hlim : WithinLimits ops code.bytes w)
    (hfit : FitsMstk ops code.bytes w) (hwide : ∀ b ∈ compileMain env code.bytes, b.WideDest) :
    (∀ x, (∃ k, entryAt ops (compileMain env code.bytes) w k = .error x) ↔
      ∃ e, (EvmReaches ops code.bytes w e ∧ ∀ e', evmStep ops code.bytes e ≠ .next e') ∧
        x = reported ops env code.bytes e) ∧
    ((∀ k, ∃ p, entryAt ops (compileMain env code.bytes) w k = .ok p) ↔
      ∀ e, EvmReaches ops code.bytes w e → ∃ e', evmStep ops code.bytes e = .next e') := by
  obtain ⟨calls, hf⟩ := compileMain_spec env code.ne
  have h₀ : entryAt ops (compileMain env code.bytes) w 0 = .ok (0, St.init w) := entryAt_zero hf
  exact runs_of_endsAlike h₀ (compiled_endsAlike hops hf hlim hfit hwide)

theorem runs_end_alike_jumpStop :
    ∃ k, entryAt (trivialOps jumpStop.bytes)
      (compileMain (plainEnv jumpStop.bytes) jumpStop.bytes) () k =
        .error (.outcome (.finish []) ()) := by
  have hstart : EvmReaches (trivialOps jumpStop.bytes) jumpStop.bytes () ⟨0, [], ()⟩ := .refl
  have hpushed : EvmReaches (trivialOps jumpStop.bytes) jumpStop.bytes () ⟨4, [5, 7], ()⟩ :=
    (show EvmReaches _ _ _ ⟨2, [7], ()⟩ from hstart.next rfl).next rfl
  have hreach : EvmReaches (trivialOps jumpStop.bytes) jumpStop.bytes () ⟨6, [7], ()⟩ :=
    (show EvmReaches _ _ _ ⟨5, [7], ()⟩ from hpushed.next rfl).next rfl
  have hover : ∀ e', evmStep (trivialOps jumpStop.bytes) jumpStop.bytes ⟨6, [7], ()⟩ ≠ .next e' :=
    fun e' h => by cases h
  exact ((runs_end_alike (trivialOps jumpStop.bytes) (plainEnv jumpStop.bytes)
    (sameOps_trivial _) jumpStop () jumpStop_withinLimits jumpStop_fitsMstk (by decide +kernel)).1
    _).mpr ⟨_, ⟨hreach, hover⟩, rfl⟩

end EvmTrans
