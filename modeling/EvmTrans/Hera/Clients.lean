/-
# `EvmTrans.Hera.Clients` — a client that commits, and what a contract gets out of it.

`committing` is about the simplest client that is lawful: it runs every message that has code,
commits the world when Hera reports success and takes the old one otherwise, and lets accounts
without code return all their gas. It serves to see that runs of every kind exist, and how far the
bounds of the other modules are reached.
-/
import EvmTrans.Hera.Moves

namespace EvmTrans.Hera

open Lib (Program Reachable exec_bind exec_get exec_pure exec_modify exec_ite andThen_ok)

variable {W : Type}

/-! ## §1 — entering a contract. -/

theorem ensure_of {c : Prop} [Decidable c] (h : c) (e : HeraException) :
    ensure c e = .ok () := if_pos h

/-- The contract that is entered, at its first instruction. -/
def Run.entered (msg : EvmcMessage) (code : List Byte) (memory : LinMem) : Run :=
  ⟨msg, code, true, ⟨⟨msg.gas, [], false⟩, [], memory⟩, none⟩

theorem start_of_load {engine : WasmEngine} {code : List Byte} {msg : EvmcMessage} {memory : LinMem}
    (hflags : msg.flags &&& ~~~EVMC_STATIC = 0)
    (hload : engine.load executeModule code = .ok memory) :
    engine.start code msg = .ok ⟨⟨msg.gas, [], false⟩, [], memory⟩ := by
  unfold WasmEngine.start
  rw [ensure_of hflags, hload]
  rfl

/-- **A call of wasm code that loads runs it at once**, whatever the mode, and whether metering is
on or off. -/
theorem begin_contract {hera : HeraInstance} {msg : EvmcMessage} {code runCode : List Byte}
    {memory : LinMem} (hcode : (hera.contract_preload_list msg.destination).getD code = runCode)
    (hgas : 0 ≤ msg.gas) (hwasm : hasWasmPreamble runCode = true)
    (hversion : hasWasmVersion runCode 1 = true)
    (hkind : msg.kind ≠ .EVMC_CREATE) (hflags : msg.flags &&& ~~~EVMC_STATIC = 0)
    (hload : hera.engine.load executeModule runCode = .ok memory) :
    hera.begin .EVMC_BYZANTIUM msg code = .ok (.run .contract (.entered msg code memory)) := by
  have henter :
      hera.enter msg code runCode true = .ok (.run .contract (.entered msg code memory)) := by
    unfold HeraInstance.enter
    rw [start_of_load hflags hload]
    rfl
  have hprepare : hera.prepare msg code runCode true true =
      .ok (.run .contract (.entered msg code memory)) := by
    unfold HeraInstance.prepare
    rw [ensure_of hversion, if_neg (fun h => hkind h.1)]
    exact henter
  unfold HeraInstance.begin
  rw [ensure_of rfl, ensure_of hgas, hcode]
  exact (if_pos hwasm).trans hprepare

/-- The step of a client that enters a contract. -/
theorem Step.enters_contract {client : Client W} {hera : HeraInstance} {w w' : W} {u : Nat}
    {msg msg' : EvmcMessage} {code runCode : List Byte} {memory : LinMem}
    {stack : List (Activation W)} (h : client.enters msg w msg' .EVMC_BYZANTIUM code w')
    (hcode : (hera.contract_preload_list msg'.destination).getD code = runCode)
    (hgas : 0 ≤ msg'.gas) (hwasm : hasWasmPreamble runCode = true)
    (hversion : hasWasmVersion runCode 1 = true)
    (hkind : msg'.kind ≠ .EVMC_CREATE) (hflags : msg'.flags &&& ~~~EVMC_STATIC = 0)
    (hload : hera.engine.load executeModule runCode = .ok memory) :
    Step client hera ⟨w, u, .calling msg, stack⟩ (.enters msg' code)
      ⟨w', u, .running, ⟨msg, w, msg', code, .engine .contract (.entered msg' code memory), u⟩ ::
        stack⟩ := by
  have hstep : Step client hera ⟨w, u, .calling msg, stack⟩ _ _ := .enters h
  rw [begin_contract hcode hgas hwasm hversion hkind hflags hload] at hstep
  exact hstep

/-! ## §2 — the client. -/

/-- An answer that gives all gas back. -/
def repaid (msg : EvmcMessage) : EvmcResult := ⟨.EVMC_SUCCESS, msg.gas, [], Address.of 0⟩

/-- It knows the code of a message, if there is any. -/
def committing (host : HostContext W) (codeOf : EvmcMessage → Option (List Byte)) : Client W where
  host := host
  answers msg w r w' := codeOf msg = none ∧ r = repaid msg ∧ w' = w
  enters msg w msg' rev code w' :=
    codeOf msg = some code ∧ msg' = msg ∧ rev = .EVMC_BYZANTIUM ∧ w' = w
  leaves _ before r w r' w' := r' = r ∧ w' = if r.statusCode = .EVMC_SUCCESS then w else before

theorem committing_lawful (host : HostContext W) (codeOf : EvmcMessage → Option (List Byte)) :
    (committing host codeOf).Lawful where
  answers_static := fun h _ => h.2.2
  answers_gas := fun h _ => le_of_eq (congrArg EvmcResult.gasLeft h.2.1)
  enters_static := fun h _ => h.2.2.2
  enters_same := fun h => by
    obtain ⟨-, rfl, -, -⟩ := h
    exact ⟨rfl, rfl, rfl, rfl⟩
  leaves_static := fun h _ => by
    rw [h.2]
    split
    · exact .inl rfl
    · exact .inr rfl
  leaves_gas := fun h => le_of_eq (congrArg EvmcResult.gasLeft h.1)

/-! ## §3 — a contract that gains gas. -/

/-- The client answers delegate calls by itself, with all their gas. -/
def Client.Repays (client : Client W) (w : W) : Prop :=
  ∀ msg, msg.kind = .EVMC_DELEGATECALL → client.answers msg w (repaid msg) w

/-- The message of a delegate call without input, to the address in the first bytes of the
memory. -/
def delegateMessage (m : EvmcMessage) (destination : Address) (gas : Int) : EvmcMessage :=
  ⟨.EVMC_DELEGATECALL, m.flags &&& EVMC_STATIC, m.depth + 1, gas, destination, m.sender, [],
    m.value⟩

/-- What is forwarded of `gas`, behind the 700 of the call. -/
def forwarded (requested : BitVec 64) (gas : Int) : Int :=
  min requested.toInt (maxCallGas (gas - 700))

theorem exec_takeInterfaceGas {I : EthereumInterface W} {gas : Int} {s : EeiState W}
    (hm : I.meterGas = true) (hpos : 0 ≤ gas) (hle : gas ≤ s.result.gasLeft) :
    (I.takeInterfaceGas gas).exec s = (.ok (), s.spend gas) := by
  unfold EthereumInterface.takeInterfaceGas heraAssert
  rw [if_neg (not_not_intro hm), exec_bind, exec_ensureCondition_of hpos, andThen_ok, exec_takeGas,
    if_pos hle]
  rfl

theorem maxCallGas_le {gas : Int} (h : 0 ≤ gas) : maxCallGas gas ≤ gas := by
  unfold maxCallGas
  rw [Int.tdiv_eq_ediv_of_nonneg h]
  omega

theorem exec_loadAddress {srcOffset : BitVec 32} {s : EeiState W}
    (h : srcOffset.toNat + 20 ≤ s.memory.size) :
    Program.exec (loadAddress srcOffset : Eei W Address) s =
      (.ok (fixed 20 (bytesAt s.memory srcOffset 20)), s) := by
  unfold loadAddress
  rw [exec_bind, exec_loadMemory (by decide), if_pos h, andThen_ok, exec_pure]

theorem forwarded_nonneg {requested : BitVec 64} {gas : Int} (hrequested : 0 ≤ requested.toInt)
    (hgas : 700 ≤ gas) : 0 ≤ forwarded requested gas := by
  have hmax := (maxCallGas_nonneg (by omega) : 0 ≤ maxCallGas (gas - 700))
  unfold forwarded
  omega

theorem forwarded_le {gas : Int} (requested : BitVec 64) (hgas : 700 ≤ gas) :
    forwarded requested gas ≤ gas - 700 :=
  Int.le_trans (Int.min_le_right _ _) (maxCallGas_le (by omega))

/-- A delegate call by a contract that has 700 gas, out of a message with a value. -/
theorem exec_delegate {I : EthereumInterface W} {requested : BitVec 64} {s : EeiState W}
    (hm : I.meterGas = true) (hrequested : 0 ≤ requested.toInt) (hmemory : 20 ≤ s.memory.size)
    (hgas : 700 ≤ s.result.gasLeft) (hdepth : I.msg.depth < 1024) (hvalue : ¬ isZero I.msg.value) :
    (I.eeiCallBegin .CallDelegate requested 0 0 0 0).exec s =
      (.ok (.call (delegateMessage I.msg (fixed 20 (bytesAt s.memory 0 20))
        (forwarded requested s.result.gasLeft + 2300))),
        (s.spend 700).spend (forwarded requested s.result.gasLeft)) := by
  have hload : Program.exec (loadAddress 0 : Eei W Address) s =
      (.ok (fixed 20 (bytesAt s.memory 0 20)), s) :=
    exec_loadAddress hmemory
  have hinput : Program.exec (loadInput 0 0 : Eei W (List Byte)) s = (.ok [], s) := rfl
  have hcall : (I.takeInterfaceGas GasSchedule.call).exec s = (.ok (), s.spend 700) :=
    exec_takeInterfaceGas hm (by decide) hgas
  have hforward : (I.takeInterfaceGas (forwarded requested s.result.gasLeft)).exec (s.spend 700) =
      (.ok (), (s.spend 700).spend (forwarded requested s.result.gasLeft)) :=
    exec_takeInterfaceGas hm (forwarded_nonneg hrequested hgas) (forwarded_le requested hgas)
  have hmessage : (I.callMessage .CallDelegate 0 0).exec s =
      (.ok ⟨.EVMC_DELEGATECALL, I.msg.flags &&& EVMC_STATIC, I.msg.depth + 1, 0,
        fixed 20 (bytesAt s.memory 0 20), I.msg.sender, [], I.msg.value⟩, s) := by
    unfold EthereumInterface.callMessage
    rw [exec_bind, hload, andThen_ok, exec_pure]
  unfold EthereumInterface.eeiCallBegin
  rw [exec_bind, exec_ensureCondition_of hrequested, andThen_ok, exec_bind, hmessage, andThen_ok,
    exec_bind, hinput, andThen_ok, exec_bind, hcall, andThen_ok, if_neg (not_le_of_gt hdepth)]
  unfold EthereumInterface.chargeTransfer EthereumInterface.forwardGas
  rw [if_neg (fun h => by rcases h.1 with h | h <;> cases h), pure_bind, if_neg (not_not_intro rfl),
    exec_bind, exec_bind, exec_get, andThen_ok]
  show Program.andThen _
      (Program.exec (I.takeInterfaceGas (forwarded requested s.result.gasLeft) >>= _)
    (s.spend 700)) = _
  rw [exec_bind, hforward, andThen_ok, exec_pure, andThen_ok, exec_pure]
  unfold delegateMessage
  rw [if_pos hvalue]
  rfl

/-- Behind a call whose callee has left some gas. -/
theorem exec_eeiCallEnd {result : EvmcResult} (h : 0 ≤ result.gasLeft) (s : EeiState W) :
    Program.exec (eeiCallEnd result : Eei W (BitVec 32)) s =
      (.ok result.statusCode.code,
        { s with
          lastReturnData := result.output, result.gasLeft :=
          int64Add s.result.gasLeft result.gasLeft }) := by
  unfold eeiCallEnd
  rw [exec_bind, exec_modify, andThen_ok, exec_bind, exec_returnGas, if_pos h]
  rfl

section
variable {client : Client W} {hera : HeraInstance} {w : W} {u : Nat} {a : Activation W}
  {rest : List (Activation W)} {place : Place} {run : Run} {requested : BitVec 64}

/-- What it takes to go on: a value, 700 gas, and room for an address in the memory. -/
structure Run.Rich (run : Run) : Prop where
  meter : run.meterGas = true
  memory : 20 ≤ run.locals.memory.size
  gas : 700 ≤ run.gas
  depth : run.msg.depth < 1024
  value : ¬ isZero run.msg.value

/-- The message of its delegate call. -/
def Run.delegated (run : Run) (requested : BitVec 64) : EvmcMessage :=
  delegateMessage run.msg (fixed 20 (bytesAt run.locals.memory 0 20))
    (forwarded requested run.gas + 2300)

/-- The contract behind it, up to the answer. -/
def Run.delegating (run : Run) (w : W) (requested : BitVec 64) : Run :=
  run.waiting (((run.state w).spend 700).spend (forwarded requested run.gas)) ⟨none,
    run.delegated requested⟩

/-- The delegate call. -/
theorem Step.delegates (requested : BitVec 64) (hrequested : 0 ≤ requested.toInt)
    (hphase : a.phase = .engine place run) (h : run.Rich) :
    Step client hera ⟨w, u, .running, a :: rest⟩ (.calls (.call .CallDelegate requested 0 0 0 0))
      ⟨w, u + 1, .calling (run.delegated requested),
        a.at (.engine place (run.delegating w requested)) :: rest⟩ := by
  have hstep : Step client hera ⟨w, u, .running, a :: rest⟩ _ _ :=
    .calls (.call .CallDelegate requested 0 0 0 0) hphase
  have hexec :
      ((CallRequest.call .CallDelegate requested 0 0 0 0).begin (run.interface client)).exec
        (run.state w) =
      (.ok (.call (run.delegated requested)),
        ((run.state w).spend 700).spend (forwarded requested run.gas)) :=
    exec_delegate (I := run.interface client) (s := run.state w) h.meter hrequested h.memory h.gas
      h.depth h.value
  have hunpaid : Unpaid (run.delegated requested) := ⟨rfl, h.value⟩
  rw [hexec, afterBegin_call, if_pos hunpaid] at hstep
  exact hstep

/-- **One round**: the delegate call, and the client gives all of its gas back. -/
theorem delegate_round (requested : BitVec 64) (hrequested : 0 ≤ requested.toInt)
    (hphase : a.phase = .engine place run) (h : run.Rich) (hfits : run.gas + 1600 < 2 ^ 63)
    (hrepays : client.Repays w) :
    ∃ run', run'.Rich ∧ run'.gas = run.gas + 1600 ∧
      Reachable (Step client hera) ⟨w, u, .running, a :: rest⟩
      ⟨w, u + 1, .running, a.at (.engine place run') :: rest⟩ := by
  have hforward : 0 ≤ forwarded requested run.gas := forwarded_nonneg hrequested h.gas
  have hrich := h.gas
  obtain ⟨msg, hmsg⟩ : ∃ msg, msg = run.delegated requested := ⟨_, rfl⟩
  obtain ⟨run₁, hrun₁⟩ : ∃ run₁, run₁ = run.delegating w requested := ⟨_, rfl⟩
  have hkind : msg.kind = .EVMC_DELEGATECALL := by rw [hmsg]; rfl
  have hleft : msg.gas = forwarded requested run.gas + 2300 := by rw [hmsg]; rfl
  have hspent : run₁.gas = run.gas - 700 - forwarded requested run.gas := by rw [hrun₁]; rfl
  -- the three steps of a round
  have hcalls :
      Step client hera ⟨w, u, .running, a :: rest⟩ (.calls (.call .CallDelegate requested 0 0 0 0))
      ⟨w, u + 1, .calling msg, a.at (.engine place run₁) :: rest⟩ := by
    rw [hmsg, hrun₁]
    exact .delegates requested hrequested hphase h
  have hanswer : Step client hera ⟨w, u + 1, .calling msg, a.at (.engine place run₁) :: rest⟩
      (.answers (repaid msg)) ⟨w, u + 1, .returning (repaid msg),
        a.at (.engine place run₁) :: rest⟩ :=
    .answers (hrepays msg hkind)
  have hdelivers :
      Step client hera ⟨w, u + 1, .returning (repaid msg), a.at (.engine place run₁) :: rest⟩
      (.delivers (repaid msg))
      ⟨w, u + 1, .running, a.at (.engine place (run₁.after { run₁.state w with
        lastReturnData := [], result.gasLeft := int64Add run₁.gas msg.gas })) :: rest⟩ := by
    have hstep : Step client hera ⟨w, u + 1, .returning (repaid msg),
        a.at (.engine place run₁) :: rest⟩ _ _ :=
      .delivers (p := ⟨none, msg⟩) rfl (by rw [hrun₁, hmsg]; rfl)
    have hnonneg : 0 ≤ (repaid msg).gasLeft := by
      show 0 ≤ msg.gas
      omega
    unfold Pending.end at hstep
    rw [exec_eeiCallEnd hnonneg, afterRequest_ok] at hstep
    exact hstep
  have hgain : int64Add run₁.gas msg.gas = run.gas + 1600 := by
    rw [int64Add_of_lt (by omega) (by omega)]
    omega
  refine ⟨_, ?_, ?_, (((Reachable.refl _).tail hcalls).tail hanswer).tail hdelivers⟩
  · rw [hrun₁] at hgain ⊢
    refine ⟨h.meter, h.memory, ?_, h.depth, h.value⟩
    show 700 ≤ int64Add _ msg.gas
    omega
  · exact hgain

/-- **Any number of rounds**: the contract gains 1600 gas with each. -/
theorem delegate_rounds (n : Nat) (hphase : a.phase = .engine place run) (h : run.Rich)
    (hfits : run.gas + 1600 * (n : Int) < 2 ^ 63) (hrepays : client.Repays w) :
    ∃ run', run'.gas = run.gas + 1600 * (n : Int) ∧
      Reachable (Step client hera) ⟨w, u, .running, a :: rest⟩
      ⟨w, u + n, .running, a.at (.engine place run') :: rest⟩ := by
  induction n generalizing u a run with
  | zero =>
    refine ⟨run, by omega, ?_⟩
    have hat : a.at (.engine place run) = a := by
      unfold Activation.at
      rw [← hphase]
    rw [hat]
    exact Reachable.refl _
  | succ n ih =>
    obtain ⟨run₁, hrich, hgain, hround⟩ := delegate_round 0 (by decide) hphase h (by omega) hrepays
    obtain ⟨run', htotal, hrounds⟩ :=
      ih (u := u + 1) (a := a.at (.engine place run₁)) rfl hrich (by omega)
    refine ⟨run', by omega, ?_⟩
    have hu : u + 1 + n = u + (n + 1) := by omega
    rw [hu] at hrounds
    exact hround.trans hrounds

end

/-! ## §4 — one client and one engine. -/

/-- A world that counts the effects on it. -/
def countingHost : HostContext Nat where
  accountExists _ _ := true
  getStorage _ _ _ := Bytes32.of 0
  setStorage w _ _ _ := w + 1
  getBalance _ _ := Bytes32.of 0
  getCodeSize _ _ := 0
  copyCode _ _ _ _ := []
  selfdestruct w _ _ := w + 1
  getTxContext := ⟨Bytes32.of 0, Address.of 0, Address.of 0, 0, 0, 0, Bytes32.of 0⟩
  getBlockHash _ _ := Bytes32.of 0
  emitLog w _ _ _ := w + 1

/-- A module is its preamble here, with one page of memory. -/
def pageEngine : WasmEngine where
  readBinary _ code :=
    if hasWasmPreamble code then some ⟨1, true, false, some true, ⟨65536, fun _ => 0⟩⟩ else none

/-- The preamble of version 1. -/
def emptyModule : List Byte := [0, 0x61, 0x73, 0x6d, 1, 0, 0, 0]

/-- Creations, and calls of the account 1, run it; delegate calls find no code. -/
def countingClient : Client Nat :=
  committing countingHost fun msg =>
    if msg.kind = .EVMC_CREATE ∨
        (msg.kind = .EVMC_CALL ∧ msg.destination = Address.of 1) then some emptyModule
    else none

/-- Nothing is preloaded. -/
def plainHera (mode : HeraEvm1Mode) (metering : Bool) : HeraInstance :=
  ⟨pageEngine, mode, metering, fun _ => none⟩

/-- The module in execution. -/
def counting (msg : EvmcMessage) (w u : Nat) : Activation Nat :=
  ⟨msg, w, msg, emptyModule, .engine .contract (.entered msg emptyModule ⟨65536, fun _ => 0⟩), u⟩

theorem countingClient_enters {mode : HeraEvm1Mode} {metering : Bool} {msg : EvmcMessage}
    {w u : Nat} {stack : List (Activation Nat)} (hkind : msg.kind = .EVMC_CALL)
    (hdestination : msg.destination = Address.of 1)
    (hgas : 0 ≤ msg.gas) (hflags : msg.flags &&& ~~~EVMC_STATIC = 0) :
    Step countingClient (plainHera mode metering) ⟨w, u, .calling msg, stack⟩
      (.enters msg emptyModule) ⟨w, u, .running, counting msg w u :: stack⟩ :=
  .enters_contract ⟨if_pos (.inr ⟨hkind, hdestination⟩), rfl, rfl, rfl⟩ rfl hgas rfl rfl
    (fun h => by rw [h] at hkind; cases hkind) hflags rfl

theorem countingClient_repays (w : Nat) : countingClient.Repays w := fun msg hkind => by
  refine ⟨if_neg ?_, rfl, rfl⟩
  rw [hkind]
  rintro (h | ⟨h, -⟩) <;> cases h

end EvmTrans.Hera
