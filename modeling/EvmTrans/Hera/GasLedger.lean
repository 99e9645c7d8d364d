/-
# `EvmTrans.Hera.GasLedger` — whose gas is whose, over a whole run.

Gas is lent: a caller pays the gas of a message in advance and gets back what is left of it.
`Ledger` follows the loans down the stack. A loan starts with the gas of a message, and what comes
back exceeds it by at most 1600 for each delegate call with an unpaid stipend since then
(`windfall`); a run without such a call creates no gas at all.

Gas is an `int64_t`, and the sum behind a call may wrap. What wraps is below the bound all the same,
but it may be below zero, and it is not where the allowance is in range (`Solvent`).

System contracts run on gas that nobody pays, and nobody gets what is left of it. The interpreter of
`runevm_contract` switches the charges off, so in that mode there is no ledger.
-/
import EvmTrans.Hera.Clients

namespace EvmTrans.Hera

open Lib (Reachable)

variable {W : Type}

/-! ## §1 — the ledger. -/

/-- What an activation has, once `x` that it lent is back. -/
def Phase.held (x : Int) : Phase → Int
  | .engine _ run => run.gas + max x 0
  | .system (.deployment result) => result.gasLeft
  | .system _ => 0
  | .starting => 0

/-- What it may have, when `u` stipends have gone unpaid. -/
def Activation.allowance (a : Activation W) (u : Nat) : Int :=
  a.msg.gas + 1600 * ((u : Int) - a.since)

/-- **The loans**: the top has lent `x`, and each activation below has lent the gas of the message
above it. -/
def Ledger (gas₀ : Int) : Nat → Int → List (Activation W) → Prop
  | u, x, [] => x ≤ gas₀ + 1600 * (u : Int)
  | u, x, a :: rest =>
    a.phase.held x ≤ a.allowance u ∧ a.since ≤ u ∧ 0 ≤ a.msg.gas ∧
    Ledger gas₀ a.since a.msg.gas rest

/-- The same for a whole configuration, and for a result that is not handed over yet. -/
def Config.Ledger (gas₀ : Int) (c : Config W) : Prop :=
  match c.control with
  | .running | .undefined => Hera.Ledger gas₀ c.unpaid 0 c.stack
  | .calling msg => 0 ≤ msg.gas ∧ Hera.Ledger gas₀ c.unpaid msg.gas c.stack
  | .returning r => Hera.Ledger gas₀ c.unpaid r.gasLeft c.stack
  | .finished r =>
    Hera.Ledger gas₀ c.unpaid 0 c.stack ∧
      ∀ a ∈ c.stack.head?, 0 ≤ r.gasLeft ∧ r.gasLeft ≤ a.allowance c.unpaid

section
variable {gas₀ x y : Int} {u v : Nat} {stack rest : List (Activation W)} {a : Activation W}

theorem Activation.allowance_add (a : Activation W) (u v : Nat) :
    a.allowance v = a.allowance u + 1600 * ((v : Int) - u) := by
  unfold Activation.allowance
  omega

/-- What is not lent does not depend on what comes back. -/
theorem Phase.held_add_le {d : Int} (phase : Phase) (hd : 0 ≤ d) (h : y ≤ x + d) :
    phase.held y ≤ phase.held x + d := by
  have hconst (z : Int) : z ≤ z + d := le_add_of_nonneg_right hd
  cases phase with
  | starting => exact hconst _
  | system call => cases call <;> exact hconst _
  | engine place run =>
    show run.gas + max y 0 ≤ run.gas + max x 0 + d
    omega

/-- **A loan comes back**, with at most the windfall of the stipends since. -/
theorem Ledger.settle (h : Ledger gas₀ u x stack) (hle : u ≤ v)
    (hy : y ≤ x + 1600 * ((v : Int) - u)) : Ledger gas₀ v y stack := by
  cases stack with
  | nil =>
    have hx : x ≤ gas₀ + 1600 * (u : Int) := h
    show y ≤ gas₀ + 1600 * (v : Int)
    omega
  | cons a rest =>
    obtain ⟨hheld, hsince, hgas, hrest⟩ := h
    refine ⟨?_, le_trans hsince hle, hgas, hrest⟩
    calc a.phase.held y ≤ a.phase.held x + 1600 * ((v : Int) - u) :=
      a.phase.held_add_le (by omega) hy
      _ ≤ a.allowance u + 1600 * ((v : Int) - u) := Int.add_le_add_right hheld _
      _ = a.allowance v := (a.allowance_add u v).symm

/-- What is lent is not there: without it, the loans below stand. -/
theorem Ledger.drop (h : Ledger gas₀ u x (a :: rest)) : Ledger gas₀ u 0 (a :: rest) := by
  refine ⟨le_trans ?_ h.1, h.2⟩
  cases a.phase with
  | starting => exact le_refl _
  | system call => cases call <;> exact le_refl _
  | engine place run =>
    show run.gas + max 0 0 ≤ run.gas + max x 0
    omega

/-- What an engine has is within the allowance of its activation, at any depth. -/
theorem Ledger.gas_le (h : Ledger gas₀ u x stack) : ∀ a ∈ stack, ∀ place run,
    a.phase = .engine place run → a.since ≤ u ∧ run.gas ≤ a.allowance u := by
  induction stack generalizing u x with
  | nil => intro a ha; cases ha
  | cons b rest ih =>
    obtain ⟨hheld, hsince, hgas, hrest⟩ := h
    refine List.forall_mem_cons.mpr ⟨fun place run hphase => ⟨hsince, ?_⟩,
      fun a ha place run hphase => ?_⟩
    · rw [hphase] at hheld
      have hrun : run.gas + max x 0 ≤ b.allowance u := hheld
      omega
    · obtain ⟨hle, hrun⟩ := ih hrest a ha place run hphase
      have hallow := a.allowance_add b.since u
      exact ⟨le_trans hle hsince, by omega⟩

end

/-! ## §2 — runs. -/

section
variable {client : Client W} {hera : HeraInstance} {gas₀ : Int} {w : W} {u : Nat} {a : Activation W}
  {rest : List (Activation W)} {place : Place} {run run' : Run}

theorem systemMessage_gas (address : Address) (input : List Byte) :
    0 ≤ (systemMessage address input).gas := by
  show (0 : Int) ≤ 2 ^ 63 - 1
  decide

/-- Going on with `hera_execute` keeps to the allowance, the gas of an execution that is over
included. -/
theorem proceed_ledger {Q : List Byte → Prop} {next : Next}
    (hmode : hera.evm1mode ≠ .runevm_contract)
    (h : Outcome hera a.msg (fun r => 0 ≤ r.gasLeft ∧ r.gasLeft ≤ a.allowance u) Q next)
    (hledger : Ledger gas₀ u 0 (a :: rest)) : (proceed w u a rest next).Ledger gas₀ := by
  have hall := hledger
  obtain ⟨-, hsince, hgas, hrest⟩ := hall
  have hallow : a.msg.gas ≤ a.allowance u := by
    unfold Activation.allowance
    omega
  have hresult {r : EvmcResult} (hr : 0 ≤ r.gasLeft ∧ r.gasLeft ≤ a.allowance u) :
      ∀ b ∈ (a :: rest).head?, 0 ≤ r.gasLeft ∧ r.gasLeft ≤ b.allowance u := fun b hb => by
    cases hb
    exact hr
  cases h with
  | failed _ _ => exact ⟨hledger, hresult ⟨le_refl _, le_trans hgas hallow⟩⟩
  | executed hgas _ => exact ⟨hledger, hresult hgas⟩
  | @contract run _ _ hrun _ _ =>
    have hheld : run.gas + max 0 0 ≤ a.allowance u := by
      unfold Run.gas
      omega
    exact ⟨hheld, hsince, hgas, hrest⟩
  | interpreter hinterpreter _ _ _ _ => exact absurd hinterpreter hmode
  | translation _ _ | constructor _ _ _ =>
    exact ⟨systemMessage_gas _ _, le_trans hgas hallow, hsince, hgas, hrest⟩
  | deployment _ _ _ hheld => exact ⟨systemMessage_gas _ _, hheld.2, hsince, hgas, hrest⟩

/-- The engine on top goes on with at most what it had. -/
theorem Ledger.engine {v : Nat} {x y : Int} (h : Ledger gas₀ u x (a :: rest))
    (hphase : a.phase = .engine place run) (hle : u ≤ v)
    (hheld : run'.gas + max y 0 ≤ run.gas + max x 0 + 1600 * ((v : Int) - u)) :
    Ledger gas₀ v y (a.at (.engine place run') :: rest) := by
  obtain ⟨hallow, hsince, hgas, hrest⟩ := h
  rw [hphase] at hallow
  have hrun : run.gas + max x 0 ≤ a.allowance u := hallow
  have hadd := a.allowance_add u v
  refine ⟨?_, le_trans hsince hle, hgas, hrest⟩
  show run'.gas + max y 0 ≤ a.allowance v
  omega

/-- **One step.** -/
theorem Move.ledger (hclient : client.Lawful) (hmode : hera.evm1mode ≠ .runevm_contract)
    {c c' : Config W} {e : Event} (h : Move client hera c e c')
    (hsound : ∀ a ∈ c.stack, a.Sound hera) (hc : c.Ledger gas₀) : c'.Ledger gas₀ := by
  cases h with
  | @inside _ _ u a _ _ run run' _ hphase hspends _ =>
    have hc : Ledger gas₀ u 0 (a :: _) := hc
    have hle := hspends.gas_le
    show Ledger gas₀ u 0 _
    exact hc.engine hphase (le_refl _) (by omega)
  | @hands _ _ u a _ _ run run' msg _ hphase hhands _ =>
    have hc : Ledger gas₀ u 0 (a :: _) := hc
    obtain ⟨hrun, -⟩ := (List.forall_mem_cons.mp hsound).1.running hphase
    have hpaid := hhands.paid (hrun.meter hmode)
    have hmsg := hhands.gas_nonneg (hhands.charged (hrun.meter hmode))
    refine ⟨hmsg, ?_⟩
    show Ledger gas₀ (u + _) msg.gas _
    refine hc.engine hphase (Nat.le_add_right _ _) ?_
    unfold windfall at hpaid
    split at hpaid
    · rename_i hunpaid
      rw [if_pos hunpaid]
      omega
    · rename_i hunpaid
      rw [if_neg hunpaid]
      omega
  | @stops _ _ u a _ place run outcome _ hphase hends _ =>
    have hc : Ledger gas₀ u 0 (a :: _) := hc
    have ha := (List.forall_mem_cons.mp hsound).1
    obtain ⟨-, hrun⟩ := hc.gas_le a List.mem_cons_self place run hphase
    refine proceed_ledger hmode
      (stop_outcome (Q := fun _ => True) ha hphase fun result hr _ hleft => ?_) hc
    exact ⟨hleft, le_trans (hends result hr) hrun⟩
  | @answers _ _ u msg stack r _ h =>
    have hledger : Ledger gas₀ u msg.gas stack := hc.2
    have hgas : 0 ≤ msg.gas := hc.1
    have hle := hclient.answers_gas h hgas
    show Ledger gas₀ u r.gasLeft stack
    exact hledger.settle (le_refl _) (by omega)
  | @enters w w' u msg msg' rev code stack _ h =>
    obtain ⟨hgas, hledger⟩ := hc
    obtain ⟨-, -, -, hsame⟩ := hclient.enters_same h
    rw [← hsame] at hgas hledger
    refine proceed_ledger (Q := fun _ => True) hmode (begin_outcome rev) ⟨?_, le_refl _,
      hgas, hledger⟩
    show 0 ≤ msg'.gas + 1600 * ((u : Int) - u)
    omega
  | @continues _ u a _ _ run run' r _ hphase _ _ hnonneg hgas =>
    have hc : Ledger gas₀ u r.gasLeft (a :: _) := hc
    have hrange := ((List.forall_mem_cons.mp hsound).1.running hphase).1.gas
    have hwrap : int64Add run.gas r.gasLeft ≤ run.gas + r.gasLeft := int64Add_le (by omega)
    show Ledger gas₀ u 0 _
    exact hc.engine hphase (le_refl _) (by omega)
  | @breaks _ u a _ _ _ r _ _ hphase =>
    have hc : Ledger gas₀ u r.gasLeft (a :: _) := hc
    exact proceed_ledger (Q := fun _ => True) hmode
      (stop_outcome (List.forall_mem_cons.mp hsound).1 hphase fun result hr _ _ => by cases hr)
      hc.drop
  | @resumes _ u a _ call r hphase =>
    have hc : Ledger gas₀ u r.gasLeft (a :: _) := hc
    have ha := (List.forall_mem_cons.mp hsound).1
    refine proceed_ledger hmode (resume_outcome (Q := fun _ => True) ha hphase
      (fun result hresult => ?_) fun _ => trivial) hc.drop
    have hheld := hc.1
    rw [hresult] at hheld
    exact ⟨ha.deployment hresult, hheld⟩
  | @leaves _ _ u a rest r r' _ h =>
    obtain ⟨⟨-, hsince, -, hrest⟩, hresult⟩ := hc
    refine hrest.settle hsince (?_ : r'.gasLeft ≤ a.msg.gas + 1600 * ((u : Int) - a.since))
    calc r'.gasLeft ≤ r.gasLeft := hclient.leaves_gas h
      _ ≤ a.allowance u := (hresult a rfl).2

theorem Config.Ledger.loans {c : Config W} (h : c.Ledger gas₀) :
    ∃ x, Hera.Ledger gas₀ c.unpaid x c.stack := by
  unfold Config.Ledger at h
  cases hcontrol : c.control with
  | running | undefined =>
    rw [hcontrol] at h
    exact ⟨_, h⟩
  | calling msg =>
    rw [hcontrol] at h
    exact ⟨_, h.2⟩
  | returning r =>
    rw [hcontrol] at h
    exact ⟨_, h⟩
  | finished r =>
    rw [hcontrol] at h
    exact ⟨_, h.1⟩

/-! ## §3 — the range. -/

/-- The gas that an activation was sent is an `int64_t`, and so is the gas of its engine. -/
def Activation.InInt64 (a : Activation W) : Prop :=
  a.msg.gas < 2 ^ 63 ∧ ∀ place run, a.phase = .engine place run → run.gas < 2 ^ 63

/-- And the gas of the message that the client has. -/
def Config.InInt64 (c : Config W) : Prop :=
  (∀ a ∈ c.stack, a.InInt64) ∧ ∀ msg, c.control = .calling msg → msg.gas < 2 ^ 63

theorem systemMessage_gas_lt (address : Address) (input : List Byte) :
    (systemMessage address input).gas < 2 ^ 63 := by
  show (2 ^ 63 - 1 : Int) < 2 ^ 63
  decide

/-- The engine goes on with an `int64_t`. -/
theorem Activation.InInt64.engine (h : a.InInt64) (hlt : run'.gas < 2 ^ 63) :
    (a.at (.engine place run')).InInt64 :=
  ⟨h.1, fun _ _ hphase => by cases hphase; exact hlt⟩

theorem proceed_inInt64 {P : ExecutionResult → Prop} {Q : List Byte → Prop} {next : Next}
    (h : Outcome hera a.msg P Q next) (ha : a.InInt64) (hrest : ∀ b ∈ rest, b.InInt64) :
    (proceed w u a rest next).InInt64 := by
  cases h with
  | failed _ _ | executed _ _ =>
    exact ⟨List.forall_mem_cons.mpr ⟨ha, hrest⟩, fun m hm => by cases hm⟩
  | contract _ _ hgas _ _ =>
    exact ⟨List.forall_mem_cons.mpr ⟨ha.engine (lt_of_eq_of_lt hgas ha.1), hrest⟩,
      fun m hm => by cases hm⟩
  | @interpreter run _ _ hmsg _ hgas =>
    have hlt : run.gas < 2 ^ 63 := by
      refine lt_of_eq_of_lt hgas ?_
      rw [hmsg]
      exact systemMessage_gas_lt _ _
    exact ⟨List.forall_mem_cons.mpr ⟨ha.engine hlt, hrest⟩, fun m hm => by cases hm⟩
  | translation _ _ | constructor _ _ _ | deployment _ _ _ _ =>
    refine ⟨List.forall_mem_cons.mpr ⟨⟨ha.1, fun _ _ hphase => by cases hphase⟩, hrest⟩,
      fun m hm => ?_⟩
    cases hm
    exact systemMessage_gas_lt _ _

/-- **One step**: only the sum behind a call can leave the range, and that sum wraps. -/
theorem Move.inInt64 (hclient : client.Lawful) {c c' : Config W} {e : Event}
    (h : Move client hera c e c') (hsound : ∀ a ∈ c.stack, a.Sound hera) (hc : c.InInt64) :
    c'.InInt64 := by
  obtain ⟨hstack, hcall⟩ := hc
  cases h with
  | inside hphase hspends _ =>
    obtain ⟨ha, hrest⟩ := List.forall_mem_cons.mp hstack
    refine ⟨List.forall_mem_cons.mpr ⟨ha.engine ?_, hrest⟩, fun m hm => by cases hm⟩
    exact lt_of_le_of_lt hspends.gas_le (ha.2 _ _ hphase)
  | hands hphase hhands _ =>
    obtain ⟨ha, hrest⟩ := List.forall_mem_cons.mp hstack
    have hrun := ha.2 _ _ hphase
    refine ⟨List.forall_mem_cons.mpr ⟨ha.engine (lt_of_le_of_lt hhands.gas_le hrun), hrest⟩,
      fun m hm => ?_⟩
    cases hm
    exact hhands.gas_lt hrun
  | stops hphase _ _ | breaks hphase =>
    obtain ⟨ha, hrest⟩ := List.forall_mem_cons.mp hstack
    exact proceed_inInt64 (stop_outcome (P := fun _ => True) (Q := fun _ => True)
      (List.forall_mem_cons.mp hsound).1 hphase fun _ _ _ _ => trivial) ha hrest
  | answers _ => exact ⟨hstack, fun m hm => by cases hm⟩
  | @enters w w' u msg msg' rev code stack _ h =>
    obtain ⟨-, -, -, hsame⟩ := hclient.enters_same h
    refine proceed_inInt64 (P := fun _ => True) (Q := fun _ => True) (begin_outcome rev)
      ⟨lt_of_eq_of_lt hsame (hcall msg rfl), fun _ _ hphase => by cases hphase⟩ hstack
  | continues hphase _ _ _ hgas =>
    obtain ⟨ha, hrest⟩ := List.forall_mem_cons.mp hstack
    exact ⟨List.forall_mem_cons.mpr ⟨ha.engine (lt_of_eq_of_lt hgas int64Add_lt), hrest⟩,
      fun m hm => by cases hm⟩
  | resumes hphase =>
    obtain ⟨ha, hrest⟩ := List.forall_mem_cons.mp hstack
    exact proceed_inInt64 (resume_outcome (P := fun _ => True) (Q := fun _ => True)
      (List.forall_mem_cons.mp hsound).1 hphase (fun _ _ => trivial) fun _ => trivial) ha hrest
  | leaves _ => exact ⟨(List.forall_mem_cons.mp hstack).2, fun m hm => by cases hm⟩

/-- **Gas is an `int64_t` throughout**: in every state of every run, under every mode, so is the gas
of every engine and of every message. No charge and no stipend leaves the range. -/
theorem gas_inInt64 (hclient : client.Lawful) {msg : EvmcMessage} (hgas : msg.gas < 2 ^ 63)
    {c : Config W} (h : Reachable (Step client hera) (.initial w msg) c) :
    (∀ a ∈ c.stack, ∀ place run, a.phase = .engine place run →
      -2 ^ 63 ≤ run.gas ∧ run.gas < 2 ^ 63) ∧ ∀ m, c.control = .calling m → m.gas < 2 ^ 63 := by
  have hsound := reachable_sound h
  have hinitial : (Config.initial w msg).InInt64 :=
    ⟨(fun a ha => by cases ha), fun m hm => by cases hm; exact hgas⟩
  obtain ⟨hstack, hcall⟩ := (h.invariant (P := fun c => (∀ a ∈ c.stack, a.Sound hera) ∧ c.InInt64)
    (fun _ _ _ hc hstep => ⟨hstep.move.sound hc.1, hstep.move.inInt64 hclient hc.1 hc.2⟩)
    ⟨(fun a ha => by cases ha), hinitial⟩).2
  exact ⟨fun a ha place run hphase => ⟨((hsound a ha).running hphase).1.gas,
    (hstack a ha).2 place run hphase⟩, hcall⟩

/-! ## §4 — no debts. -/

/-- An engine is not below zero, as long as the allowance of its activation is an `int64_t`. -/
def Activation.Solvent (a : Activation W) (u : Nat) : Prop :=
  a.allowance u < 2 ^ 63 → ∀ place run, a.phase = .engine place run → 0 ≤ run.gas

/-- Every activation is solvent. -/
def Config.Solvent (c : Config W) : Prop := ∀ a ∈ c.stack, a.Solvent c.unpaid

/-- An allowance only grows. -/
theorem Activation.Solvent.mono {v : Nat} (h : a.Solvent u) (hle : u ≤ v) :
    a.Solvent v := fun hv => by
  have hadd := a.allowance_add u v
  exact h (by omega)

/-- The engine goes on without debts. -/
theorem Activation.solvent_engine (h : a.allowance u < 2 ^ 63 → 0 ≤ run'.gas) :
    (a.at (.engine place run')).Solvent u := fun hlt _ _ hphase => by
  cases hphase
  exact h hlt

/-- Going on with `hera_execute` leaves no debts. -/
theorem proceed_solvent {P : ExecutionResult → Prop} {Q : List Byte → Prop} {next : Next}
    (h : Outcome hera a.msg P Q next) (hmode : hera.evm1mode ≠ .runevm_contract) (ha : a.Solvent u)
    (hrest : ∀ b ∈ rest, b.Solvent u) : (proceed w u a rest next).Solvent := by
  cases h with
  | failed _ _ | executed _ _ => exact List.forall_mem_cons.mpr ⟨ha, hrest⟩
  | contract _ _ hrun hnonneg _ =>
    exact List.forall_mem_cons.mpr ⟨Activation.solvent_engine fun _ =>
      le_of_le_of_eq hnonneg hrun.symm, hrest⟩
  | interpreter hinterpreter _ _ _ _ => exact absurd hinterpreter hmode
  | translation _ _ | constructor _ _ _ | deployment _ _ _ _ =>
    exact List.forall_mem_cons.mpr ⟨fun _ _ _ hphase => (by cases hphase), hrest⟩

/-- **One step**: only the sum behind a call could wrap, and it is within the allowance. -/
theorem Move.solvent (hmode : hera.evm1mode ≠ .runevm_contract) {c c' : Config W} {e : Event}
    (h : Move client hera c e c') (hsound : ∀ a ∈ c.stack, a.Sound hera) (hledger : c.Ledger gas₀)
    (hc : c.Solvent) : c'.Solvent := by
  cases h with
  | inside hphase hspends _ =>
    obtain ⟨ha, hrest⟩ := List.forall_mem_cons.mp hc
    exact List.forall_mem_cons.mpr ⟨Activation.solvent_engine fun hlt =>
      hspends.gas_min 0 (le_refl 0) (ha hlt _ _ hphase), hrest⟩
  | hands hphase hhands _ =>
    obtain ⟨-, hrest⟩ := List.forall_mem_cons.mp hc
    have hmeter := ((List.forall_mem_cons.mp hsound).1.running hphase).1.meter hmode
    exact List.forall_mem_cons.mpr ⟨Activation.solvent_engine fun _ =>
      hhands.gas_min 0 (le_refl 0) (hhands.charged hmeter),
      fun b hb => (hrest b hb).mono (Nat.le_add_right _ _)⟩
  | stops hphase _ _ | breaks hphase =>
    obtain ⟨ha, hrest⟩ := List.forall_mem_cons.mp hc
    exact proceed_solvent (stop_outcome (P := fun _ => True) (Q := fun _ => True)
      (List.forall_mem_cons.mp hsound).1 hphase fun _ _ _ _ => trivial) hmode ha hrest
  | answers _ => exact hc
  | @enters w w' u msg msg' rev code stack _ h =>
    exact proceed_solvent (P := fun _ => True) (Q := fun _ => True) (begin_outcome rev) hmode
      (fun _ _ _ hphase => by cases hphase) hc
  | @continues _ u a rest _ run run' r _ hphase _ _ hnonneg hgas =>
    obtain ⟨ha, hrest⟩ := List.forall_mem_cons.mp hc
    refine List.forall_mem_cons.mpr ⟨Activation.solvent_engine fun hlt => ?_, hrest⟩
    have hlent : Ledger gas₀ u r.gasLeft (a :: rest) := hledger
    have hheld := hlent.1
    rw [hphase] at hheld
    have hsum : run.gas + max r.gasLeft 0 ≤ a.allowance u := hheld
    have hrun := ha hlt _ _ hphase
    have hlt' : a.allowance u < 2 ^ 63 := hlt
    rw [hgas, int64Add_of_lt (by omega) (by omega)]
    omega
  | resumes hphase =>
    obtain ⟨ha, hrest⟩ := List.forall_mem_cons.mp hc
    exact proceed_solvent (resume_outcome (P := fun _ => True) (Q := fun _ => True)
      (List.forall_mem_cons.mp hsound).1 hphase (fun _ _ => trivial) fun _ =>
        trivial) hmode ha hrest
  | leaves _ => exact (List.forall_mem_cons.mp hc).2

/-- Every run. -/
theorem reachable_ledger (hclient : client.Lawful) (hmode : hera.evm1mode ≠ .runevm_contract)
    {msg : EvmcMessage} (hgas : 0 ≤ msg.gas) {c : Config W}
    (h : Reachable (Step client hera) (.initial w msg) c) :
    c.Ledger msg.gas ∧ c.Solvent := by
  have hinitial : (Config.initial w msg).Ledger msg.gas := by
    refine ⟨hgas, ?_⟩
    show msg.gas ≤ msg.gas + 1600 * ((0 : Nat) : Int)
    omega
  have hsolvent : (Config.initial w msg).Solvent := fun a ha => by cases ha
  exact (h.invariant (P := fun c => (∀ a ∈ c.stack, a.Sound hera) ∧ c.Ledger msg.gas ∧ c.Solvent)
    (fun _ _ _ hc hstep => ⟨hstep.move.sound hc.1, hstep.move.ledger hclient hmode hc.1 hc.2.1,
      hstep.move.solvent hmode hc.1 hc.2.1 hc.2.2⟩)
    ⟨(fun a ha => by cases ha), hinitial, hsolvent⟩).2

end

/-- **Gas is not created**, but for the stipends of delegate calls: in every state of every run an
engine has what its message brought, and at most 1600 more for each delegate call with a value that
was handed out since. A result takes no more than that with it, and the transaction gets back no
more either. As long as that allowance is in the range of an `int64_t`, the gas of the engine is not
below zero; beyond it, the sum behind a call may have wrapped. -/
theorem gas_never_created {client : Client W} {hera : HeraInstance} {w : W} {msg : EvmcMessage}
    {c : Config W} (hclient : client.Lawful) (hmode : hera.evm1mode ≠ .runevm_contract)
    (hgas : 0 ≤ msg.gas) (h : Reachable (Step client hera) (.initial w msg) c) :
    (∀ a ∈ c.stack, ∀ place run, a.phase = .engine place run →
        run.gas ≤ a.msg.gas + 1600 * ((c.unpaid : Int) - a.since) ∧
          (a.msg.gas + 1600 * ((c.unpaid : Int) - a.since) < 2 ^ 63 → 0 ≤ run.gas)) ∧
      (∀ r a rest, c.control = .finished r → c.stack = a :: rest →
        0 ≤ r.gasLeft ∧ r.gasLeft ≤ a.msg.gas + 1600 * ((c.unpaid : Int) - a.since)) ∧
      ∀ r, c.control = .returning r → c.stack = [] →
        r.gasLeft ≤ msg.gas + 1600 * (c.unpaid : Int) := by
  obtain ⟨hledger, hsolvent⟩ := reachable_ledger hclient hmode hgas h
  refine ⟨fun a ha place run hphase => ⟨?_, fun hlt => hsolvent a ha hlt place run hphase⟩,
    fun r a rest hcontrol hstack => ?_, fun r hcontrol hstack => ?_⟩
  · obtain ⟨x, hx⟩ := hledger.loans
    exact (hx.gas_le a ha place run hphase).2
  · unfold Config.Ledger at hledger
    rw [hcontrol] at hledger
    exact hledger.2 a (by rw [hstack]; rfl)
  · unfold Config.Ledger at hledger
    rw [hcontrol] at hledger
    rw [hstack] at hledger
    exact hledger

/-- A call with a value, and its gas. -/
def payingMessage : EvmcMessage :=
  ⟨.EVMC_CALL, 0, 0, 100000, Address.of 1, Address.of 2, [], Bytes32.of 5⟩

theorem gas_never_created_delegate :
    ∃ c run, Reachable (Step countingClient (plainHera .reject false))
    (.initial 7 payingMessage) c ∧
    c.stack = [(counting payingMessage 7 0).at (.engine .contract run)] ∧
      0 ≤ run.gas ∧ run.gas ≤ payingMessage.gas + 1600 * ((c.unpaid : Int) - 0) := by
  have henters : Step countingClient (plainHera .reject false) (.initial 7 payingMessage) _
      ⟨7, 0, .running, [counting payingMessage 7 0]⟩ :=
    countingClient_enters rfl rfl (by decide) (by decide)
  obtain ⟨run, -, hrounds⟩ : ∃ run, _ ∧ Reachable (Step countingClient (plainHera .reject false))
      ⟨7, 0, .running, [counting payingMessage 7 0]⟩ ⟨7, 0 + 2, .running,
        [(counting payingMessage 7 0).at _]⟩ :=
    delegate_rounds 2 rfl ⟨rfl, by decide, by decide, by decide, by decide⟩ (by decide)
      (countingClient_repays 7)
  have hreach := Reachable.head henters hrounds
  obtain ⟨hle, hnonneg⟩ :=
    (gas_never_created (committing_lawful _ _) (fun h => by cases h) (by decide) hreach).1
    _ List.mem_cons_self .contract run rfl
  have hfits : payingMessage.gas + 1600 * (((2 : Nat) : Int) - ((0 : Nat) : Int)) < 2 ^ 63 := by
    decide
  exact ⟨_, run, hreach, rfl, hnonneg hfits, hle⟩

/-- **And the stipends do create it**: a contract that was sent a value and calls an account by
delegation, over and over, has 1600 gas more after every call, up to the largest `int64_t`. The
bound of the ledger is reached after each of them. -/
theorem delegate_stipends_gain {client : Client W} {hera : HeraInstance} {w : W} {msg : EvmcMessage}
    {code runCode : List Byte} {memory : LinMem}
    (henters : client.enters msg w msg .EVMC_BYZANTIUM code w)
    (hrepays : client.Repays w)
    (hcode : (hera.contract_preload_list msg.destination).getD code = runCode)
    (hwasm : hasWasmPreamble runCode = true) (hversion : hasWasmVersion runCode 1 = true)
    (hload : hera.engine.load executeModule runCode = .ok memory) (hmemory : 20 ≤ memory.size)
    (hkind : msg.kind ≠ .EVMC_CREATE) (hflags : msg.flags &&& ~~~EVMC_STATIC = 0)
    (hdepth : msg.depth < 1024) (hvalue : ¬ isZero msg.value) (hgas : 700 ≤ msg.gas) (n : Nat)
    (hfits : msg.gas + 1600 * (n : Int) < 2 ^ 63) :
    ∃ run, run.gas = msg.gas + 1600 * (n : Int) ∧ Reachable (Step client hera) (.initial w msg)
      ⟨w, n, .running, [⟨msg, w, msg, code, .engine .contract run, 0⟩]⟩ := by
  have hentered :
      Step client hera (.initial w msg) _ ⟨w, 0, .running, [⟨msg, w, msg, code, _, 0⟩]⟩ :=
    Step.enters_contract henters hcode (by omega) hwasm hversion hkind hflags hload
  have hrich : (Run.entered msg code memory).Rich := ⟨rfl, hmemory, hgas, hdepth, hvalue⟩
  obtain ⟨run, hgain, hrounds⟩ : ∃ run, _ ∧ Reachable (Step client hera)
      ⟨w, 0, .running, [⟨msg, w, msg, code, .engine .contract (.entered msg code memory), 0⟩]⟩
      ⟨w, 0 + n, .running, [⟨msg, w, msg, code, _, 0⟩]⟩ := delegate_rounds n rfl hrich hfits hrepays
  rw [Nat.zero_add] at hrounds
  exact ⟨run, hgain, Reachable.head hentered hrounds⟩

theorem delegate_stipends_gain_thousand :
    ∃ run : Run, run.gas = payingMessage.gas + 1600 * ((1000 : Nat) : Int) ∧
    Reachable (Step countingClient (plainHera .reject false)) (.initial 7 payingMessage)
      ⟨7, 1000, .running,
        [⟨payingMessage, 7, payingMessage, emptyModule, .engine .contract run, 0⟩]⟩ := by
  have henters :
      countingClient.enters payingMessage 7 payingMessage .EVMC_BYZANTIUM emptyModule 7 :=
    ⟨rfl, rfl, rfl, rfl⟩
  exact delegate_stipends_gain henters (countingClient_repays 7) rfl rfl rfl rfl (by decide)
    (fun h => by cases h) (by decide) (by decide) (by decide) (by decide) 1000 (by decide)

end EvmTrans.Hera
