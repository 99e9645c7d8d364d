/-
# `EvmTrans.Hera.Creations` — what `hera_execute` returns, and what becomes of the code that is
deployed.

A result is a failure without gas and output, or an execution that is over. Where the execution is a
creation and its output is wasm, the output has been read against the host functions; with metering
on it is what the sentinel made of the contract's output, and not the contract's output itself.
Either way a later call of it runs at once.
-/
import EvmTrans.Hera.StaticMode

namespace EvmTrans.Hera

open Lib (Reachable)

variable {W : Type}

/-! ## §1 — results. -/

/-- The sentinel has just answered with this code. -/
def Metered (e : Event) (code : List Byte) : Prop :=
  ∃ answer, e = .delivers answer ∧ answer.statusCode = .EVMC_SUCCESS ∧ answer.output = code

/-- **What a result can be**, after the event `e`. -/
inductive Result (hera : HeraInstance) (msg : EvmcMessage) (e : Event) : EvmcResult → Prop
  | failed {status} (hsuccess : status ≠ .EVMC_SUCCESS) (hrevert : status ≠ .EVMC_REVERT) :
      Result hera msg e (failed status)
  | executed {result output} (hgas : 0 ≤ result.gasLeft)
      (hdeploy : msg.kind = .EVMC_CREATE → result.isRevert = false → hasWasmPreamble output = true →
        Deployable hera output ∧ (hera.metering = true → Metered e output)) :
      Result hera msg e (executed result output)

section
variable {client : Client W} {hera : HeraInstance} {w : W} {u : Nat} {a b : Activation W}
  {rest rest' : List (Activation W)} {e : Event} {r : EvmcResult}

theorem proceed_result {next : Next}
    (h : Outcome hera a.msg (fun r => 0 ≤ r.gasLeft) (Metered e) next)
    (hcontrol : (proceed w u a rest next).control = .finished r)
    (hstack : (proceed w u a rest next).stack = b :: rest') : Result hera b.msg e r := by
  cases h with
  | failed hsuccess hrevert =>
    cases hcontrol
    exact .failed hsuccess hrevert
  | executed hgas hdeploy =>
    cases hcontrol
    cases hstack
    exact .executed hgas hdeploy
  | contract _ _ _ _ _ | interpreter _ _ _ _ _ | translation _ _ | constructor _ _ _
  | deployment _ _ _ _ =>
    cases hcontrol

/-- **A step that ends with a result.** -/
theorem Move.result {c c' : Config W} (h : Move client hera c e c')
    (hsound : ∀ a ∈ c.stack, a.Sound hera) (hcontrol : c'.control = .finished r)
    (hstack : c'.stack = a :: rest) : Result hera a.msg e r := by
  cases h with
  | inside _ _ _ | hands _ _ _ | answers _ | continues _ _ _ _ _ | leaves _ => cases hcontrol
  | stops hphase _ _ | breaks hphase =>
    have ha := (List.forall_mem_cons.mp hsound).1
    exact proceed_result (stop_outcome ha hphase fun _ _ _ => id) hcontrol hstack
  | enters _ => exact proceed_result (begin_outcome _) hcontrol hstack
  | resumes hphase =>
    have ha := (List.forall_mem_cons.mp hsound).1
    exact proceed_result (resume_outcome ha hphase (fun _ => ha.deployment) fun hstatus =>
      ⟨_, rfl, hstatus, rfl⟩)
      hcontrol hstack

end

/-! ## §2 — what is returned. -/

/-- **No run accesses what is out of range.** Whatever the contracts ask for, in whatever order and
at whatever depth, no host function reads or writes a byte out of the linear memory, of the call
data, of the code or of the return data. -/
theorem undefined_unreachable {client : Client W} {hera : HeraInstance} {w : W} {msg : EvmcMessage}
    {c : Config W} (h : Reachable (Step client hera) (.initial w msg) c) : c.control ≠ .undefined :=
  h.invariant (P := fun c => c.control ≠ .undefined) (fun _ _ _ _ hstep => hstep.move.defined)
    fun h => by cases h

theorem undefined_unreachable_copy : ∃ c, Reachable (Step countingClient (plainHera .reject false))
    (.initial 7 staticMessage) c ∧ c.stack.length = 1 ∧ c.control ≠ .undefined := by
  have henters : Step countingClient (plainHera .reject false) (.initial 7 staticMessage) _
      ⟨7, 0, .running, [counting staticMessage 7 0]⟩ :=
    countingClient_enters rfl rfl (by decide) (by decide)
  have hcopies : Step countingClient (plainHera .reject false) ⟨7, 0, .running,
      [counting staticMessage 7 0]⟩ _ _ :=
    .requests (.callDataCopy 65535 0 4) rfl
  have hreach := ((Reachable.refl _).tail henters).tail hcopies
  exact ⟨_, hreach, rfl, undefined_unreachable hreach⟩

/-- **A failure keeps nothing**: in every run, what `hera_execute` returns has gas and output only
if it reports a success or a revert; and it never names an address. -/
theorem failure_keeps_nothing {client : Client W} {hera : HeraInstance} {w : W} {msg : EvmcMessage}
    {c c' : Config W} {e : Event} {a : Activation W} {rest : List (Activation W)} {r : EvmcResult}
    (h : Reachable (Step client hera) (.initial w msg) c) (hstep : Step client hera c e c')
    (hcontrol : c'.control = .finished r) (hstack : c'.stack = a :: rest) :
    0 ≤ r.gasLeft ∧ r.createAddress = Address.of 0 ∧
      (r.statusCode ≠ .EVMC_SUCCESS → r.statusCode ≠ .EVMC_REVERT →
        r.gasLeft = 0 ∧ r.output = []) := by
  cases hstep.move.result (reachable_sound h) hcontrol hstack with
  | failed _ _ => exact ⟨le_refl _, rfl, fun _ _ => ⟨rfl, rfl⟩⟩
  | @executed result output hgas _ =>
    refine ⟨hgas, rfl, fun hsuccess hrevert => ?_⟩
    cases hrev : result.isRevert with
    | true => exact absurd (if_pos hrev) hrevert
    | false => exact absurd (if_neg (by rw [hrev]; exact Bool.false_ne_true)) hsuccess

/-! ## §3 — what is deployed. -/

/-- A reader that knows more host functions reads what it read before. -/
theorem load_executeModule {engine : WasmEngine} {code : List Byte} {memory : LinMem}
    (hmono : ∀ m, engine.readBinary verifyModule code = some m →
      engine.readBinary executeModule code = some m)
    (h : engine.load verifyModule code = .ok memory) :
    engine.load executeModule code = .ok memory := by
  unfold WasmEngine.load at h ⊢
  cases hread : engine.readBinary verifyModule code with
  | none =>
    rw [hread] at h
    cases h
  | some m =>
    rw [hread] at h
    rw [hmono m hread]
    exact h

/-- **Code that a creation returns runs when it is called.** In every run: if `hera_execute` reports
that a creation has succeeded and returns wasm, that module is read, has what an execution asks for,
and a call of it starts at its first instruction, with the gas of the message, under every mode.
With metering on it is what the sentinel returned just now. -/
theorem deployed_code_runs {client : Client W} {hera : HeraInstance} {w : W} {msg : EvmcMessage}
    {c c' : Config W} {e : Event} {a : Activation W} {rest : List (Activation W)} {r : EvmcResult}
    (h : Reachable (Step client hera) (.initial w msg) c) (hstep : Step client hera c e c')
    (hcontrol : c'.control = .finished r) (hstack : c'.stack = a :: rest)
    (hkind : a.msg.kind = .EVMC_CREATE) (hstatus : r.statusCode = .EVMC_SUCCESS)
    (hwasm : hasWasmPreamble r.output = true)
    (hmono : ∀ code m, hera.engine.readBinary verifyModule code = some m →
      hera.engine.readBinary executeModule code = some m) :
    (hera.metering = true → Metered e r.output) ∧
      ∃ memory, ∀ called : EvmcMessage, 0 ≤ called.gas → called.kind ≠ .EVMC_CREATE →
        called.flags &&& ~~~EVMC_STATIC = 0 → hera.contract_preload_list called.destination = none →
        hera.begin .EVMC_BYZANTIUM called r.output =
          .ok (.run .contract (.entered called r.output memory)) := by
  cases hstep.move.result (reachable_sound h) hcontrol hstack with
  | failed hsuccess _ => exact absurd hstatus hsuccess
  | @executed result output _ hdeploy =>
    have hrevert : result.isRevert = false := by
      cases hrev : result.isRevert with
      | true => exact absurd ((if_pos hrev).symm.trans hstatus) (fun h => by cases h)
      | false => rfl
    obtain ⟨⟨hversion, memory, hload⟩, hmetered⟩ := hdeploy hkind hrevert hwasm
    refine ⟨hmetered, memory, fun called hgas hcall hflags hnone => ?_⟩
    have hcode : (hera.contract_preload_list called.destination).getD output = output := by
      rw [hnone]; rfl
    exact begin_contract hcode hgas hwasm hversion hcall hflags
      (load_executeModule (hmono output) hload)

/-- A creation. -/
def creationMessage : EvmcMessage :=
  ⟨.EVMC_CREATE, 0, 0, 100000, Address.of 3, Address.of 2, [], Bytes32.of 0⟩

/-- A page that begins with a module. -/
def modulePage : LinMem := ⟨65536, Lib.write (fun _ => 0) 0 emptyModule⟩

/-- It has a sentinel, which adds no charges, and creations run the empty module. -/
def sentinelClient : Client Nat where
  host := countingHost
  answers msg w r w' :=
    msg.destination = sentinelAddress ∧
      r = ⟨.EVMC_SUCCESS, msg.gas, msg.input, Address.of 0⟩ ∧ w' = w
  enters msg w msg' rev code w' :=
    msg.kind = .EVMC_CREATE ∧ msg' = msg ∧ rev = .EVMC_BYZANTIUM ∧ code = emptyModule ∧ w' = w
  leaves _ _ r w r' w' := r' = r ∧ w' = w

/-- What the sentinel answers on the empty module. -/
def sentinelAnswer : EvmcResult := ⟨.EVMC_SUCCESS, 2 ^ 63 - 1, emptyModule, Address.of 0⟩

/-- The creation, before the sentinel, in execution, and behind it. -/
def creating (phase : Phase) : Activation Nat :=
  ⟨creationMessage, 7, creationMessage, emptyModule, phase, 0⟩

/-- With metering on, a creation waits for the sentinel twice: on its own code, and on what it
deploys. -/
theorem deployed_code_runs_metered : ∃ c r, Reachable (Step sentinelClient (plainHera .reject true))
    (.initial 7 creationMessage) c ∧ c.control = .finished r ∧ r.output = emptyModule ∧
      (∃ e, Metered e r.output) ∧
      ∃ memory, (plainHera .reject true).begin .EVMC_BYZANTIUM staticMessage r.output =
        .ok (.run .contract (.entered staticMessage r.output memory)) := by
  have hclient :
      sentinelClient.enters creationMessage 7 creationMessage .EVMC_BYZANTIUM emptyModule 7 :=
    ⟨rfl, rfl, rfl, rfl, rfl⟩
  have hsentinel :
      sentinelClient.answers (systemMessage sentinelAddress emptyModule) 7 sentinelAnswer 7 :=
    ⟨rfl, rfl, rfl⟩
  have henters : Step sentinelClient (plainHera .reject true) (.initial 7 creationMessage)
      (.enters creationMessage emptyModule)
      ⟨7, 0, .calling (systemMessage sentinelAddress emptyModule),
        [creating (.system .constructor)]⟩ :=
    .enters hclient
  have hanswer {phase : Phase} : Step sentinelClient (plainHera .reject true)
      ⟨7, 0, .calling (systemMessage sentinelAddress emptyModule), [creating phase]⟩
      (.answers sentinelAnswer) ⟨7, 0, .returning sentinelAnswer, [creating phase]⟩ :=
    .answers hsentinel
  have hresumes : Step sentinelClient (plainHera .reject true)
      ⟨7, 0, .returning sentinelAnswer, [creating (.system .constructor)]⟩
      (.delivers sentinelAnswer) ⟨7, 0, .running, [creating (.engine .contract
        (.entered creationMessage emptyModule ⟨65536, fun _ => 0⟩))]⟩ :=
    @Step.resumes Nat sentinelClient (plainHera .reject true) 7 0
      (creating (.system .constructor)) [] .constructor sentinelAnswer rfl
  have hcomputes : Step sentinelClient (plainHera .reject true)
      ⟨7, 0, .running,
        [creating (.engine .contract (.entered creationMessage emptyModule ⟨65536, fun _ => 0⟩))]⟩
      .computes ⟨7, 0, .running, [creating (.engine .contract
        (.entered creationMessage emptyModule modulePage))]⟩ :=
    @Step.computes Nat sentinelClient (plainHera .reject true) 7 0 (creating (.engine .contract
      (.entered creationMessage emptyModule ⟨65536, fun _ => 0⟩))) [] .contract
      (.entered creationMessage emptyModule ⟨65536, fun _ => 0⟩) modulePage rfl (le_refl _)
      (by decide)
  have hfinish : Step sentinelClient (plainHera .reject true)
      ⟨7, 0, .running,
        [creating (.engine .contract (.entered creationMessage emptyModule modulePage))]⟩
      (.requests (.finish 0 8)) ⟨7, 0, .calling (systemMessage sentinelAddress emptyModule),
        [creating (.system (.deployment ⟨100000, emptyModule, false⟩))]⟩ :=
    @Step.requests Nat sentinelClient (plainHera .reject true) 7 0 (creating (.engine .contract
      (.entered creationMessage emptyModule modulePage))) [] .contract
      (.entered creationMessage emptyModule modulePage) (.finish 0 8) rfl
  have hdeploys : Step sentinelClient (plainHera .reject true) ⟨7, 0, .returning sentinelAnswer,
      [creating (.system (.deployment ⟨100000, emptyModule, false⟩))]⟩ (.delivers sentinelAnswer)
      ⟨7, 0, .finished (executed ⟨100000, emptyModule, false⟩ emptyModule),
        [creating (.system (.deployment ⟨100000, emptyModule, false⟩))]⟩ :=
    @Step.resumes Nat sentinelClient (plainHera .reject true) 7 0
      (creating (.system (.deployment _))) [] _ sentinelAnswer rfl
  have hreach :=
    (((((Reachable.refl _).tail henters).tail hanswer).tail hresumes).tail hcomputes).tail hfinish
    |>.tail hanswer
  obtain ⟨hmetered, memory, hruns⟩ :=
    deployed_code_runs hreach hdeploys rfl rfl rfl rfl rfl fun _ _ h => h
  exact ⟨_, _, hreach.tail hdeploys, rfl, rfl, ⟨_, hmetered rfl⟩, memory,
    hruns staticMessage (by decide) (fun h => by cases h) rfl rfl⟩

end EvmTrans.Hera
