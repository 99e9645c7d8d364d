/-
# `EvmTrans.Hera.Moves` — what a step can do, said once.

`Outcome` lists what a part of `hera_execute` may end in, and `Move` what a step may do to a
configuration, with all the facts that an invariant could ask for: whose gas becomes whose, which
message is static because of which, what happens to the world. Every invariant of the stack is then
a case analysis over `Move`.
-/
import EvmTrans.Hera.CallStack

namespace EvmTrans.Hera

open Lib (Program Upholds)

variable {W α : Type}

/-! ## §1 — the parts of `hera_execute`. -/

/-- The module is one that can be deployed: version 1, and the engine reads it. -/
def Deployable (hera : HeraInstance) (code : List Byte) : Prop :=
  hasWasmVersion code 1 = true ∧ ∃ memory, hera.engine.load verifyModule code = .ok memory

/-- **What a part may end in**, for the message `msg`. `P` is what is known of an execution that is
over, and `Q` of an output that went through the sentinel. -/
inductive Outcome (hera : HeraInstance) (msg : EvmcMessage) (P : ExecutionResult → Prop)
    (Q : List Byte → Prop) :
    Next → Prop
  | failed {status} (hsuccess : status ≠ .EVMC_SUCCESS) (hrevert : status ≠ .EVMC_REVERT) :
      Outcome hera msg P Q (.done (failed status))
  | executed {result output} (hresult : P result)
      (hdeploy : msg.kind = .EVMC_CREATE → result.isRevert = false → hasWasmPreamble output = true →
        Deployable hera output ∧ (hera.metering = true → Q output)) :
      Outcome hera msg P Q (.done (executed result output))
  | contract {run} (hmsg : run.msg = msg) (hpending : run.pending = none)
      (hgas : run.locals.result.gasLeft = msg.gas) (hnonneg : 0 ≤ msg.gas)
      (hmeter : hera.evm1mode ≠ .runevm_contract → run.meterGas = true) :
      Outcome hera msg P Q (.run .contract run)
  | interpreter {run} (hmode : hera.evm1mode = .runevm_contract) (hnonneg : 0 ≤ msg.gas)
      (hmsg : run.msg = systemMessage runevmAddress []) (hpending : run.pending = none)
      (hgas : run.locals.result.gasLeft = run.msg.gas) :
      Outcome hera msg P Q (.run .runevm run)
  | translation {input} (hmode : hera.evm1mode = .evm2wasm_contract) (hnonneg : 0 ≤ msg.gas) :
      Outcome hera msg P Q (.system (systemMessage evm2wasmAddress input) .translation)
  | constructor {input} (hmetering : hera.metering = true) (hkind : msg.kind = .EVMC_CREATE)
      (hnonneg : 0 ≤ msg.gas) :
      Outcome hera msg P Q (.system (systemMessage sentinelAddress input) .constructor)
  | deployment {input result} (hmetering : hera.metering = true) (hkind : msg.kind = .EVMC_CREATE)
      (hnonneg : 0 ≤ msg.gas) (hresult : P result) :
      Outcome hera msg P Q (.system (systemMessage sentinelAddress input) (.deployment result))

/-- No exception makes a success of an execution. -/
theorem status_fails (e : HeraException) : e.status ≠ .EVMC_SUCCESS ∧ e.status ≠ .EVMC_REVERT := by
  cases e <;> exact ⟨fun h => (by cases h), fun h => (by cases h)⟩

section
variable {hera : HeraInstance} {msg : EvmcMessage} {code : List Byte} {P : ExecutionResult → Prop}
  {Q : List Byte → Prop}

theorem outcome_error (e : HeraException) : Outcome hera msg P Q (caught (.error e)) :=
  .failed (status_fails e).1 (status_fails e).2

/-- Behind a check. -/
theorem outcome_ensure {c : Prop} [Decidable c] {e : HeraException} {p : Except HeraException Next}
    (h : c → Outcome hera msg P Q (caught p)) :
    Outcome hera msg P Q (caught (ensure c e >>= fun _ => p)) := by
  unfold ensure
  split
  · rename_i hc
    exact h hc
  · exact outcome_error e

/-- Behind a part that gives a value. -/
theorem outcome_bind {x : Except HeraException α} {f : α → Except HeraException Next}
    (h : ∀ v, x = .ok v → Outcome hera msg P Q (caught (f v))) :
    Outcome hera msg P Q (caught (x >>= f)) := by
  cases x with
  | error e => exact outcome_error e
  | ok v => exact h v rfl

/-- The locals of a fresh execution have the gas of the message. -/
theorem start_gas {engine : WasmEngine} {runCode : List Byte} {m : EvmcMessage} {locals : Locals}
    (h : engine.start runCode m = .ok locals) : locals.result.gasLeft = m.gas := by
  unfold WasmEngine.start ensure at h
  split at h
  · rcases hload : engine.load executeModule runCode with e | memory
    · rw [hload] at h
      cases h
    · rw [hload] at h
      cases h
      rfl
  · cases h

theorem enter_outcome {runCode : List Byte} {meter : Bool} (hnonneg : 0 ≤ msg.gas)
    (hmeter : hera.evm1mode ≠ .runevm_contract → meter = true) :
    Outcome hera msg P Q (caught (hera.enter msg code runCode meter)) :=
  outcome_bind fun _ h => .contract rfl rfl (start_gas h) hnonneg hmeter

theorem prepare_outcome {runCode : List Byte} {isWasm meter : Bool} (hnonneg : 0 ≤ msg.gas)
    (hmeter : hera.evm1mode ≠ .runevm_contract → meter = true) :
    Outcome hera msg P Q (caught (hera.prepare msg code runCode isWasm meter)) := by
  refine outcome_ensure fun _ => ?_
  split
  · rename_i hcreate
    split
    · rename_i hmetering
      exact .constructor hmetering hcreate.1 hnonneg
    · exact outcome_ensure fun _ => enter_outcome hnonneg hmeter
  · exact enter_outcome hnonneg hmeter

/-- Up to the first wait. -/
theorem begin_outcome (rev : EvmcRevision) :
    Outcome hera msg P Q (caught (hera.begin rev msg code)) := by
  refine outcome_ensure fun _ => outcome_ensure fun hnonneg => ?_
  dsimp only
  split
  · exact prepare_outcome hnonneg fun _ => rfl
  · cases hmode : hera.evm1mode with
    | reject => exact .failed (by decide) (by decide)
    | fallback => exact .failed (by decide) (by decide)
    | evm2wasm_contract => exact .translation hmode hnonneg
    | runevm_contract =>
      exact outcome_bind fun _ h => .interpreter hmode hnonneg rfl rfl (start_gas h)

theorem deploy_outcome {result : ExecutionResult} {output : List Byte} (hresult : P result)
    (hsentinel : hera.metering = true → Q output) :
    Outcome hera msg P Q (caught (hera.deploy result output)) := by
  refine outcome_ensure fun hcheck => outcome_bind fun _ hverify => ?_
  refine .executed hresult fun _ _ _ => ⟨⟨hcheck.2, ?_⟩, hsentinel⟩
  unfold WasmEngine.verifyContract at hverify
  rcases hload : hera.engine.load verifyModule output with e | memory
  · rw [hload] at hverify
    cases hverify
  · exact ⟨memory, rfl⟩

/-- An execution that is over has not overdrawn its gas, or it fails. -/
theorem finish_outcome {result : ExecutionResult} (hnonneg : 0 ≤ msg.gas)
    (hresult : 0 ≤ result.gasLeft → P result) :
    Outcome hera msg P Q (caught (hera.finish msg result)) := by
  refine outcome_ensure fun hleft => ?_
  replace hresult := hresult hleft
  split
  · rename_i hcreate
    refine outcome_ensure fun _ => ?_
    split
    · rename_i hmetering
      exact .deployment hmetering hcreate.1 hnonneg hresult
    · rename_i hmetering
      exact deploy_outcome hresult fun h => absurd h hmetering
  · rename_i hcreate
    exact .executed hresult fun hkind hrevert hwasm => absurd ⟨hkind, hrevert, hwasm⟩ hcreate

/-- Behind the engine. The interpreter runs in its own mode only. -/
theorem afterEngine_outcome {result : ExecutionResult} {place : Place} (hnonneg : 0 ≤ msg.gas)
    (hresult : place = .contract → 0 ≤ result.gasLeft → P result)
    (hmode : place = .runevm → hera.evm1mode = .runevm_contract) :
    Outcome hera msg P Q (caught (hera.afterEngine msg code result place)) := by
  cases place with
  | runevm =>
    refine outcome_bind fun _ _ => outcome_ensure fun _ => prepare_outcome hnonneg fun hne => ?_
    exact absurd (hmode rfl) hne
  | contract => exact finish_outcome hnonneg (hresult rfl)

/-- Behind a system contract. -/
theorem afterSystem_outcome {result : EvmcResult} {call : SystemCall} (hnonneg : 0 ≤ msg.gas)
    (hresult : ∀ execution, call = .deployment execution → P execution)
    (hsentinel : ∀ output, result.statusCode = .EVMC_SUCCESS → output = result.output → Q output) :
    Outcome hera msg P Q (caught (hera.afterSystem msg code result call)) := by
  cases call with
  | translation =>
    exact outcome_bind fun _ _ => outcome_ensure fun _ => prepare_outcome hnonneg fun _ => rfl
  | constructor =>
    exact outcome_bind fun _ _ => outcome_ensure fun _ => enter_outcome hnonneg fun _ => rfl
  | deployment execution =>
    refine outcome_bind fun output houtput => deploy_outcome (hresult execution rfl) fun _ => ?_
    unfold sentinelOutput ensure at houtput
    split at houtput
    · rename_i hstatus
      cases houtput
      exact hsentinel _ hstatus rfl
    · cases houtput

end

/-! ## §2 — steps. -/

/-- The gas of a contract in execution. -/
def Run.gas (run : Run) : Int := run.locals.result.gasLeft

/-- A contract after something it did by itself: gas only goes down, and the rest of what identifies
it stays. -/
structure Run.Spends (run run' : Run) : Prop where
  msg : run'.msg = run.msg
  meter : run'.meterGas = run.meterGas
  gas_le : run'.gas ≤ run.gas
  gas_min : ∀ b ≤ 0, b ≤ run.gas → b ≤ run'.gas

/-- An execution that is over, out of `run`. -/
def EndsWithin (run : Run) (outcome : Except HeraException ExecutionResult) : Prop :=
  ∀ result, outcome = .ok result → result.gasLeft ≤ run.gas

/-- A message that a contract sends, and the contract that waits. -/
structure Run.Hands (run run' : Run) (msg : EvmcMessage) : Prop where
  run_msg : run'.msg = run.msg
  meter : run'.meterGas = run.meterGas
  gas_le : run'.gas ≤ run.gas
  gas_min : ∀ b ≤ 0, b ≤ run.gas → b ≤ run'.gas
  gas_nonneg : 0 ≤ run.gas → 0 ≤ msg.gas
  gas_lt : run.gas < 2 ^ 63 → msg.gas < 2 ^ 63
  charged : run.meterGas = true → 0 ≤ run.gas
  paid : run.meterGas = true → run'.gas + msg.gas ≤ run.gas + windfall msg
  static : run.msg.isStatic → msg.isStatic
  depth : msg.depth = run.msg.depth + 1
  depth_lt : run.msg.depth < 1024
  created : msg.kind = .EVMC_CREATE → ¬ run.msg.isStatic

/-- **What a step may do.** The event matters where a system contract answers. -/
inductive Move (client : Client W) (hera : HeraInstance) : Config W → Event → Config W → Prop
  | inside {w w' u a rest place run run' e} (hphase : a.phase = .engine place run)
      (hspends : run.Spends run') (hworld : run.msg.isStatic → w' = w) :
      Move client hera ⟨w, u, .running, a :: rest⟩ e ⟨w', u, .running,
        a.at (.engine place run') :: rest⟩
  | hands {w w' u a rest place run run' msg e} (hphase : a.phase = .engine place run)
      (hhands : run.Hands run' msg) (hworld : run.msg.isStatic → w' = w) :
      Move client hera ⟨w, u, .running, a :: rest⟩ e
        ⟨w', u + if Unpaid msg then 1 else 0, .calling msg, a.at (.engine place run') :: rest⟩
  | stops {w w' u a rest place run outcome e} (hphase : a.phase = .engine place run)
      (hends : EndsWithin run outcome) (hworld : run.msg.isStatic → w' = w) :
      Move client hera ⟨w, u, .running, a :: rest⟩ e (stop hera u a rest place w' outcome)
  | answers {w w' u msg stack r e} (h : client.answers msg w r w') :
      Move client hera ⟨w, u, .calling msg, stack⟩ e ⟨w', u, .returning r, stack⟩
  | enters {w w' u msg msg' rev code stack e} (h : client.enters msg w msg' rev code w') :
      Move client hera ⟨w, u, .calling msg, stack⟩ e
        (proceed w' u ⟨msg, w, msg', code, .starting, u⟩ stack (caught (hera.begin rev msg' code)))
  | continues {w u a rest place run run' r e} (hphase : a.phase = .engine place run)
      (hmsg : run'.msg = run.msg) (hmeter : run'.meterGas = run.meterGas) (hnonneg : 0 ≤ r.gasLeft)
      (hgas : run'.gas = int64Add run.gas r.gasLeft) :
      Move client hera ⟨w, u, .returning r, a :: rest⟩ e ⟨w, u, .running,
        a.at (.engine place run') :: rest⟩
  | breaks {w u a rest place run r x e} (hphase : a.phase = .engine place run) :
      Move client hera ⟨w, u, .returning r, a :: rest⟩ e (stop hera u a rest place w (.error x))
  | resumes {w u a rest call r} (hphase : a.phase = .system call) :
      Move client hera ⟨w, u, .returning r, a :: rest⟩ (.delivers r)
        (proceed w u a rest (caught (hera.afterSystem a.msg a.code r call)))
  | leaves {w w' u a rest r r' e} (h : client.leaves a.request a.before r w r' w') :
      Move client hera ⟨w, u, .finished r, a :: rest⟩ e ⟨w', u, .returning r', rest⟩

section
variable {client : Client W} {hera : HeraInstance} {w : W} {u : Nat} {a : Activation W}
  {rest : List (Activation W)} {place : Place} {run : Run} {lo n : Nat} {e : Event}

theorem Run.after_spends {s : EeiState W} (h : Kept (run.interface client) lo n (run.state w) s) :
    run.Spends (run.after s) :=
  ⟨rfl, rfl, h.gas_le, h.gas_min⟩

/-- A host function that throws stops the engine: nothing undefined happens. -/
theorem faulted_move {s : EeiState W} {f : Fault} (hphase : a.phase = .engine place run)
    (h : Kept (run.interface client) lo n (run.state w) s) (hf : f ≠ .undefined) :
    Move client hera ⟨w, u, .running, a :: rest⟩ e (faulted hera u a rest place s f) := by
  have herror : ∀ e, EndsWithin run (.error e) := fun e result hr => by cases hr
  cases f with
  | undefined => exact absurd rfl hf
  | exception e =>
    cases e with
    | EndExecution =>
      refine .stops hphase (fun result hr => ?_) h.world
      cases hr
      exact h.gas_le
    | _ => exact .stops hphase (herror _) h.world

/-- A host function that keeps what there is to keep. -/
theorem afterRequest_move {p : Eei W α} (hphase : a.phase = .engine place run)
    (hp : Keeps (run.interface client) lo n p) :
    Move client hera ⟨w, u, .running, a :: rest⟩ e
      (afterRequest hera u a rest place run (p.exec (run.state w))) := by
  have hstate := hp.state (run.state w)
  have hthrown := hp.thrown (run.state w)
  rcases hrun : p.exec (run.state w) with ⟨f | v, s⟩
  · rw [hrun] at hstate hthrown
    exact faulted_move hphase hstate (hthrown f rfl)
  · rw [hrun] at hstate
    exact .inside hphase (Run.after_spends hstate) hstate.world

/-- The first part of a call. -/
theorem afterBegin_move {p : Eei W Outgoing} {resultOffset : Option (BitVec 32)}
    (hphase : a.phase = .engine place run) (hp : Keeps (run.interface client) lo n p)
    (hsends : ∀ msg s, p.exec (run.state w) = (.ok (.call msg), s) →
      Sends (run.interface client) (run.state w) s msg) :
    Move client hera ⟨w, u, .running, a :: rest⟩ e
      (afterBegin hera u a rest place run resultOffset (p.exec (run.state w))) := by
  have hstate := hp.state (run.state w)
  have hthrown := hp.thrown (run.state w)
  rcases hrun : p.exec (run.state w) with ⟨f | out, s⟩
  · rw [hrun] at hstate hthrown
    exact faulted_move hphase hstate (hthrown f rfl)
  · rw [hrun] at hstate
    cases out with
    | refused code => exact .inside hphase (Run.after_spends hstate) hstate.world
    | call msg =>
      have hs := hsends msg s hrun
      exact .hands hphase ⟨rfl, rfl, hstate.gas_le, hstate.gas_min, hs.gas_nonneg, hs.gas_lt,
        hs.charged, hs.paid, hs.static, hs.depth, hs.depth_lt, hs.created⟩ hstate.world

/-- The second part. -/
theorem afterEnd_move {p : Pending} {r : EvmcResult} (hphase : a.phase = .engine place run) :
    Move client hera ⟨w, u, .returning r, a :: rest⟩ e
      (afterRequest hera u a rest place run ((p.end r).exec (run.state w))) := by
  obtain ⟨lo, n, hresumes, hbreaks, hok⟩ : ∃ lo n,
      Resumes r lo n (run.state w) ((p.end r).exec (run.state w)).2 ∧
      Breaks ((p.end r).exec (run.state w)).1 ∧
      ∀ v s, (p.end r).exec (run.state w) = (.ok v, s) → 0 ≤ r.gasLeft := by
    unfold Pending.end
    cases p.resultOffset with
    | none =>
      exact ⟨0, 0, (eeiCallEnd_spec r _).1, (eeiCallEnd_spec r _).2, fun _ _ => eeiCallEnd_ok⟩
    | some o =>
      exact ⟨o.toNat, 20, (eeiCreateEnd_spec o r _).1, (eeiCreateEnd_spec o r _).2,
        fun _ _ => eeiCreateEnd_ok⟩
  rcases hrun : (p.end r).exec (run.state w) with ⟨f | v, s⟩
  · rw [hrun] at hresumes hbreaks
    obtain ⟨e, rfl, he⟩ := hbreaks f rfl
    have hworld : s.world = w := hresumes.world
    have hstop : faulted hera u a rest place s (.exception e) =
        stop hera u a rest place w (.error e) := by
      cases e with
      | EndExecution => exact absurd rfl he
      | _ => exact hworld ▸ rfl
    show Move client hera _ _ (faulted hera u a rest place s (.exception e))
    rw [hstop]
    exact .breaks hphase
  · have hgas := hok v s hrun
    rw [hrun] at hresumes
    have hworld : s.world = w := hresumes.world
    show Move client hera _ e ⟨s.world, u, .running, a.at (.engine place (run.after s)) :: rest⟩
    rw [hworld]
    exact .continues hphase rfl rfl hgas (hresumes.gas_eq hgas)

end

theorem CallRequest.begin_keeps (I : EthereumInterface W) (r : CallRequest) :
    Keeps I 0 0 (r.begin I) := by
  cases r with
  | call kind gas x v d l => exact eeiCallBegin_keeps kind gas x v d l
  | create v d l o => exact eeiCreateBegin_keeps v d l

theorem CallRequest.begin_sends {I : EthereumInterface W} {r : CallRequest} {s s' : EeiState W}
    {msg : EvmcMessage} (h : (r.begin I).exec s = (.ok (.call msg), s')) : Sends I s s' msg := by
  cases r with
  | call kind gas x v d l => exact (eeiCallBegin_sends h).1
  | create v d l o => exact (eeiCreateBegin_sends h).1

/-- **Every step is a move.** -/
theorem Step.move {client : Client W} {hera : HeraInstance} {c c' : Config W} {e : Event}
    (h : Step client hera c e c') : Move client hera c e c' := by
  cases h with
  | computes hphase _ _ => exact .inside hphase ⟨rfl, rfl, le_refl _, fun _ _ => id⟩ fun _ => rfl
  | requests r hphase => exact afterRequest_move hphase (handle_keeps _ r)
  | calls r hphase =>
    exact afterBegin_move hphase (r.begin_keeps _) fun _ _ hrun => CallRequest.begin_sends hrun
  | returns hphase =>
    refine .stops hphase (fun result hr => ?_) fun _ => rfl
    cases hr
    exact le_refl _
  | traps hphase => exact .stops hphase (fun result hr => by cases hr) fun _ => rfl
  | answers h => exact .answers h
  | enters h => exact .enters h
  | delivers hphase _ => exact afterEnd_move hphase
  | resumes hphase => exact .resumes hphase
  | leaves h => exact .leaves h

/-! ## §3 — sound activations. -/

/-- A contract in execution. The interpreter runs under a message of its own. -/
structure Run.Sound (hera : HeraInstance) (msg : EvmcMessage) (place : Place) (run : Run) :
    Prop where
  run_msg : run.msg = match place with
    | .contract => msg
    | .runevm => systemMessage runevmAddress []
  mode : place = .runevm → hera.evm1mode = .runevm_contract
  meter : hera.evm1mode ≠ .runevm_contract → run.meterGas = true
  gas : -2 ^ 63 ≤ run.gas

/-- Where an activation can stand: what it waits for is due, and it has not overdrawn its gas where
it must not. -/
def Phase.Sound (hera : HeraInstance) (msg : EvmcMessage) : Phase → Prop
  | .starting => True
  | .system .translation => hera.evm1mode = .evm2wasm_contract ∧ 0 ≤ msg.gas
  | .system .constructor => hera.metering = true ∧ msg.kind = .EVMC_CREATE ∧ 0 ≤ msg.gas
  | .system (.deployment result) =>
    hera.metering = true ∧ msg.kind = .EVMC_CREATE ∧ 0 ≤ result.gasLeft ∧ 0 ≤ msg.gas
  | .engine place run => run.Sound hera msg place ∧ 0 ≤ msg.gas

/-- An activation that stands there. -/
def Activation.Sound (hera : HeraInstance) (a : Activation W) : Prop := a.phase.Sound hera a.msg

section
variable {client : Client W} {hera : HeraInstance} {w : W} {u : Nat} {a : Activation W}
  {rest : List (Activation W)} {place : Place} {run run' : Run} {P : ExecutionResult → Prop}
  {Q : List Byte → Prop} {next : Next}

theorem Activation.Sound.running (h : a.Sound hera) (hphase : a.phase = .engine place run) :
    run.Sound hera a.msg place ∧ 0 ≤ a.msg.gas := by
  unfold Activation.Sound at h
  rwa [hphase] at h

theorem Activation.Sound.system_gas {call : SystemCall} (h : a.Sound hera)
    (hphase : a.phase = .system call) : 0 ≤ a.msg.gas := by
  unfold Activation.Sound at h
  rw [hphase] at h
  cases call with
  | translation => exact h.2
  | constructor => exact h.2.2
  | deployment result => exact h.2.2.2

theorem Activation.Sound.deployment {result : ExecutionResult} (h : a.Sound hera)
    (hphase : a.phase = .system (.deployment result)) : 0 ≤ result.gasLeft := by
  unfold Activation.Sound at h
  rw [hphase] at h
  exact h.2.2.1

/-- The engine goes on under the same message. -/
theorem Activation.Sound.engine (h : a.Sound hera) (hphase : a.phase = .engine place run)
    (hmsg : run'.msg = run.msg) (hmeter : run'.meterGas = run.meterGas)
    (hgas : -2 ^ 63 ≤ run'.gas) : (a.at (.engine place run')).Sound hera := by
  obtain ⟨hrun, hnonneg⟩ := h.running hphase
  exact ⟨⟨hmsg.trans hrun.run_msg, hrun.mode, fun hmode => hmeter.trans (hrun.meter hmode),
    hgas⟩, hnonneg⟩

/-- What follows when the engine on top stops. -/
theorem stop_outcome {outcome : Except HeraException ExecutionResult} (ha : a.Sound hera)
    (hphase : a.phase = .engine place run)
    (hresult : ∀ result, outcome = .ok result → place = .contract → 0 ≤ result.gasLeft → P result) :
    Outcome hera a.msg P Q
      (caught (outcome >>= fun result => hera.afterEngine a.msg a.code result place)) := by
  obtain ⟨hrun, hnonneg⟩ := ha.running hphase
  exact outcome_bind fun result hr => afterEngine_outcome hnonneg (hresult result hr) hrun.mode

/-- What follows when a system contract has answered. -/
theorem resume_outcome {call : SystemCall} {r : EvmcResult} (ha : a.Sound hera)
    (hphase : a.phase = .system call)
    (hresult : ∀ result, a.phase = .system (.deployment result) → P result)
    (hsentinel : r.statusCode = .EVMC_SUCCESS → Q r.output) :
    Outcome hera a.msg P Q (caught (hera.afterSystem a.msg a.code r call)) := by
  refine afterSystem_outcome (ha.system_gas hphase)
    (fun result hcall => hresult result (hcall ▸ hphase))
    fun output hstatus houtput => ?_
  rw [houtput]
  exact hsentinel hstatus

/-- Whatever a part of `hera_execute` ends in. -/
theorem proceed_sound (h : Outcome hera a.msg P Q next)
    (hP : ∀ result, P result → 0 ≤ result.gasLeft)
    (ha : a.Sound hera) (hrest : ∀ b ∈ rest, b.Sound hera) :
    ∀ b ∈ (proceed w u a rest next).stack, b.Sound hera := by
  cases h with
  | failed _ _ | executed _ _ => exact List.forall_mem_cons.mpr ⟨ha, hrest⟩
  | contract hmsg _ hgas hnonneg hmeter =>
    refine List.forall_mem_cons.mpr ⟨⟨⟨hmsg, fun h => ?_, hmeter, ?_⟩, hnonneg⟩, hrest⟩
    · cases h
    · unfold Run.gas
      omega
  | interpreter hmode hnonneg hmsg _ hgas =>
    refine List.forall_mem_cons.mpr ⟨⟨⟨hmsg, fun _ => hmode, fun hne => absurd hmode hne, ?_⟩,
      hnonneg⟩, hrest⟩
    refine le_of_le_of_eq ?_ hgas.symm
    rw [hmsg]
    decide
  | translation hmode hnonneg => exact List.forall_mem_cons.mpr ⟨⟨hmode, hnonneg⟩, hrest⟩
  | constructor hmetering hkind hnonneg =>
    exact List.forall_mem_cons.mpr ⟨⟨hmetering, hkind, hnonneg⟩, hrest⟩
  | deployment hmetering hkind hnonneg hresult =>
    exact List.forall_mem_cons.mpr ⟨⟨hmetering, hkind, hP _ hresult, hnonneg⟩, hrest⟩

/-- **Every activation stays sound.** -/
theorem Move.sound {c c' : Config W} {e : Event} (h : Move client hera c e c')
    (hc : ∀ a ∈ c.stack, a.Sound hera) : ∀ a ∈ c'.stack, a.Sound hera := by
  cases h with
  | inside hphase hspends _ =>
    obtain ⟨ha, hrest⟩ := List.forall_mem_cons.mp hc
    refine List.forall_mem_cons.mpr ⟨ha.engine hphase hspends.msg hspends.meter ?_, hrest⟩
    exact hspends.gas_min _ (by decide) (ha.running hphase).1.gas
  | hands hphase hhands _ =>
    obtain ⟨ha, hrest⟩ := List.forall_mem_cons.mp hc
    refine List.forall_mem_cons.mpr ⟨ha.engine hphase hhands.run_msg hhands.meter ?_, hrest⟩
    exact hhands.gas_min _ (by decide) (ha.running hphase).1.gas
  | stops hphase _ _ =>
    obtain ⟨ha, hrest⟩ := List.forall_mem_cons.mp hc
    exact proceed_sound (stop_outcome (P := fun r => 0 ≤ r.gasLeft) (Q := fun _ => True) ha hphase
      fun _ _ _ => id) (fun _ => id) ha hrest
  | answers _ => exact hc
  | @enters w w' u msg msg' rev code stack _ h =>
    exact proceed_sound (P := fun _ => False) (Q := fun _ => True) (begin_outcome rev)
      (fun _ h => h.elim) trivial hc
  | continues hphase hmsg hmeter _ hgas =>
    obtain ⟨ha, hrest⟩ := List.forall_mem_cons.mp hc
    exact List.forall_mem_cons.mpr
      ⟨ha.engine hphase hmsg hmeter (le_of_le_of_eq int64Add_min hgas.symm), hrest⟩
  | breaks hphase =>
    obtain ⟨ha, hrest⟩ := List.forall_mem_cons.mp hc
    exact proceed_sound (P := fun _ => False) (Q := fun _ => True) (outcome_error _)
      (fun _ h => h.elim) ha hrest
  | resumes hphase =>
    obtain ⟨ha, hrest⟩ := List.forall_mem_cons.mp hc
    exact proceed_sound (resume_outcome (P := fun r => 0 ≤ r.gasLeft) (Q := fun _ => True) ha hphase
      (fun _ => ha.deployment) fun _ => trivial) (fun _ => id) ha hrest
  | leaves _ => exact (List.forall_mem_cons.mp hc).2

/-- In every run. -/
theorem reachable_sound {msg : EvmcMessage} {c : Config W}
    (h : Lib.Reachable (Step client hera) (.initial w msg) c) : ∀ a ∈ c.stack, a.Sound hera :=
  h.invariant (P := fun c => ∀ a ∈ c.stack, a.Sound hera)
    (fun _ _ _ hc hstep => hstep.move.sound hc) fun a ha => by cases ha

theorem Move.defined {c c' : Config W} {e : Event} (h : Move client hera c e c') :
    c'.control ≠ .undefined := by
  have hproceed (w : W) (u : Nat) (a : Activation W) (rest : List (Activation W)) (next : Next) :
      (proceed w u a rest next).control ≠ .undefined := by
    cases next <;> exact fun h => by cases h
  cases h with
  | inside _ _ _ | hands _ _ _ | answers _ | continues _ _ _ _ _ | leaves _ =>
    exact fun h => by cases h
  | stops _ _ _ | enters _ | breaks _ | resumes _ => exact hproceed _ _ _ _ _

end

end EvmTrans.Hera
