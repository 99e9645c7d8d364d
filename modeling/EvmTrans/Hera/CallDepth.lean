/-
# `EvmTrans.Hera.CallDepth` — how many activations there can be at once.

The depth of a message is bounded by 1024, but the depth is not the height of the stack: a system
contract is called at depth 0. The sentinel is one, and what keeps it from nesting is the STATIC
flag: no creation happens under it, so no second sentinel does. The two modes that translate or
interpret EVM code have no such bound, and are left out.
-/
import EvmTrans.Hera.GasLedger
import EvmTrans.Hera.StaticMode

namespace EvmTrans.Hera

open Lib (Reachable)

variable {W : Type}

/-- **Where a message can be** with `n` activations below it: as high as its depth says, or under a
sentinel. -/
def Level (hera : HeraInstance) (depth₀ : Int) (n : Nat) (msg : EvmcMessage) : Prop :=
  msg.depth ≤ 1024 ∧
    (depth₀ + n ≤ msg.depth ∨
      hera.metering = true ∧ msg.isStatic ∧ msg.kind ≠ .EVMC_CREATE ∧ depth₀ + n ≤ 1025 + msg.depth)

/-- Every activation is where it can be. -/
def Levels (hera : HeraInstance) (depth₀ : Int) : List (Activation W) → Prop
  | [] => True
  | a :: rest => Level hera depth₀ rest.length a.msg ∧ Levels hera depth₀ rest

/-- And so is the message that the client has. -/
structure Config.Levelled (hera : HeraInstance) (depth₀ : Int) (c : Config W) : Prop where
  stack : Levels hera depth₀ c.stack
  calling : ∀ msg, c.control = .calling msg → Level hera depth₀ c.stack.length msg

section
variable {client : Client W} {hera : HeraInstance} {depth₀ : Int} {w : W} {u n : Nat}
  {a : Activation W} {rest : List (Activation W)} {place : Place} {run run' : Run}
  {msg msg' : EvmcMessage}

theorem Level.congr (h : Level hera depth₀ n msg) (hkind : msg'.kind = msg.kind)
    (hflags : msg'.flags = msg.flags) (hdepth : msg'.depth = msg.depth) :
    Level hera depth₀ n msg' := by
  unfold Level EvmcMessage.isStatic at h ⊢
  rwa [hkind, hflags, hdepth]

/-- A call is one deeper and one higher. -/
theorem Level.call (h : Level hera depth₀ n run.msg) (hhands : run.Hands run' msg) :
    Level hera depth₀ (n + 1) msg := by
  have hdepth := hhands.depth
  have hlt := hhands.depth_lt
  obtain ⟨-, hlow | ⟨hmetering, hstatic, -, hhigh⟩⟩ := h
  · exact ⟨by omega, .inl (by omega)⟩
  · refine ⟨by omega, .inr ⟨hmetering, hhands.static hstatic, fun hcreate => ?_, by omega⟩⟩
    exact hhands.created hcreate hstatic

/-- The sentinel is called for a creation only, which is not under a sentinel. -/
theorem Level.sentinel (h : Level hera depth₀ n msg) (hmetering : hera.metering = true)
    (hcreate : msg.kind = .EVMC_CREATE) (input : List Byte) :
    Level hera depth₀ (n + 1) (systemMessage sentinelAddress input) := by
  have hzero : (systemMessage sentinelAddress input).depth = 0 := rfl
  obtain ⟨hle, hlow | ⟨-, -, hkind, -⟩⟩ := h
  · refine ⟨by rw [hzero]; decide, .inr ⟨hmetering, systemMessage_isStatic _ _,
      fun hc => (by cases hc), ?_⟩⟩
    rw [hzero]
    omega
  · exact absurd hcreate hkind

/-- How high that is. -/
theorem Level.height (h : Level hera depth₀ n msg) :
    depth₀ + n ≤ 1024 + if hera.metering = true then 1025 else 0 := by
  obtain ⟨hle, hlow | ⟨hmetering, -, -, hhigh⟩⟩ := h
  · split <;> omega
  · rw [if_pos hmetering]
    omega

/-- Going on with `hera_execute` calls nothing but the sentinel. -/
theorem proceed_levelled {P : ExecutionResult → Prop} {Q : List Byte → Prop} {next : Next}
    (hmode : hera.evm1mode = .reject ∨ hera.evm1mode = .fallback) (h : Outcome hera a.msg P Q next)
    (hstack : Levels hera depth₀ (a :: rest)) : (proceed w u a rest next).Levelled hera depth₀ := by
  cases h with
  | failed _ _ | executed _ _ => exact ⟨hstack, fun _ h => by cases h⟩
  | contract _ _ _ _ _ => exact ⟨hstack, fun _ h => by cases h⟩
  | interpreter hinterpreter _ _ _ _ =>
    rcases hmode with h | h <;> rw [h] at hinterpreter <;> cases hinterpreter
  | translation htranslation _ =>
    rcases hmode with h | h <;> rw [h] at htranslation <;> cases htranslation
  | constructor hmetering hkind _ | deployment hmetering hkind _ _ =>
    refine ⟨hstack, fun msg hmsg => ?_⟩
    cases hmsg
    exact hstack.1.sentinel hmetering hkind _

/-- The engine runs the contract, in these modes. -/
theorem Activation.Sound.run_msg (ha : a.Sound hera)
    (hmode : hera.evm1mode = .reject ∨ hera.evm1mode = .fallback)
    (hphase : a.phase = .engine place run) : run.msg = a.msg := by
  obtain ⟨hrun, -⟩ := ha.running hphase
  cases place with
  | contract => exact hrun.run_msg
  | runevm =>
    have hinterpreter := hrun.mode rfl
    rcases hmode with h | h <;> rw [h] at hinterpreter <;> cases hinterpreter

/-- **One step.** -/
theorem Move.levelled (hclient : client.Lawful)
    (hmode : hera.evm1mode = .reject ∨ hera.evm1mode = .fallback)
    {c c' : Config W} {e : Event} (h : Move client hera c e c')
    (hsound : ∀ a ∈ c.stack, a.Sound hera) (hc : c.Levelled hera depth₀) :
    c'.Levelled hera depth₀ := by
  cases h with
  | inside _ _ _ => exact ⟨hc.stack, fun _ h => by cases h⟩
  | hands hphase hhands _ =>
    refine ⟨hc.stack, fun msg hmsg => ?_⟩
    cases hmsg
    have ha := (List.forall_mem_cons.mp hsound).1
    refine Level.call ?_ hhands
    rw [ha.run_msg hmode hphase]
    exact hc.stack.1
  | stops hphase _ _ =>
    exact proceed_levelled hmode (stop_outcome (P := fun _ => True) (Q := fun _ => True)
      (List.forall_mem_cons.mp hsound).1 hphase fun _ _ _ _ => trivial) hc.stack
  | answers _ => exact ⟨hc.stack, fun _ h => by cases h⟩
  | enters h =>
    obtain ⟨hkind, hflags, hdepth, -⟩ := hclient.enters_same h
    exact proceed_levelled (P := fun _ => True) (Q := fun _ => True) hmode (begin_outcome _)
      ⟨(hc.calling _ rfl).congr hkind hflags hdepth, hc.stack⟩
  | continues _ _ _ _ _ => exact ⟨hc.stack, fun _ h => by cases h⟩
  | breaks hphase =>
    exact proceed_levelled hmode (stop_outcome (P := fun _ => True) (Q := fun _ => True)
      (List.forall_mem_cons.mp hsound).1 hphase fun _ _ _ _ => trivial) hc.stack
  | resumes hphase =>
    exact proceed_levelled hmode (resume_outcome (P := fun _ => True) (Q := fun _ => True)
      (List.forall_mem_cons.mp hsound).1 hphase (fun _ _ => trivial) fun _ => trivial) hc.stack
  | leaves _ => exact ⟨hc.stack.2, fun _ h => by cases h⟩

/-- Every run. -/
theorem reachable_levelled (hclient : client.Lawful)
    (hmode : hera.evm1mode = .reject ∨ hera.evm1mode = .fallback) (hdepth : msg.depth ≤ 1024)
    {c : Config W} (h : Reachable (Step client hera) (.initial w msg) c) :
    c.Levelled hera msg.depth := by
  have hinitial : (Config.initial w msg).Levelled hera msg.depth := by
    refine ⟨trivial, fun msg' hmsg => ?_⟩
    cases hmsg
    exact ⟨hdepth, .inl (by show _ + ((0 : Nat) : Int) ≤ _; omega)⟩
  exact (h.invariant (P := fun c => (∀ a ∈ c.stack, a.Sound hera) ∧ c.Levelled hera msg.depth)
    (fun _ _ _ hc hstep => ⟨hstep.move.sound hc.1, hstep.move.levelled hclient hmode hc.1 hc.2⟩)
    ⟨(fun a ha => by cases ha), hinitial⟩).2

theorem Levels.get {stack : List (Activation W)} (h : Levels hera depth₀ stack) :
    ∀ a ∈ stack, ∃ n, Level hera depth₀ n a.msg := by
  induction stack with
  | nil => intro a ha; cases ha
  | cons a rest ih => exact List.forall_mem_cons.mpr ⟨⟨_, h.1⟩, ih h.2⟩

end

/-- **The stack is bounded**, in every state of every run: 1024 calls below a transaction, and as
many below one sentinel that is at work above them, where metering is on. No message is deeper
than 1024. -/
theorem call_stack_bounded {client : Client W} {hera : HeraInstance} {w : W} {msg : EvmcMessage}
    {c : Config W} (hclient : client.Lawful)
    (hmode : hera.evm1mode = .reject ∨ hera.evm1mode = .fallback)
    (hdepth : msg.depth ≤ 1024) (h : Reachable (Step client hera) (.initial w msg) c) :
    msg.depth + c.stack.length ≤ 1025 + (if hera.metering = true then 1025 else 0) ∧
      (∀ a ∈ c.stack, a.msg.depth ≤ 1024) ∧
      ∀ sent, c.control = .calling sent → sent.depth ≤ 1024 := by
  have hlevelled := reachable_levelled hclient hmode hdepth h
  refine ⟨?_, fun a ha => ?_, fun sent hsent => (hlevelled.calling sent hsent).1⟩
  · have hstack := hlevelled.stack
    cases hlist : c.stack with
    | nil =>
      show msg.depth + ((0 : Nat) : Int) ≤ _
      split <;> omega
    | cons a rest =>
      rw [hlist] at hstack
      have hheight := hstack.1.height
      rw [List.length_cons]
      push_cast
      omega
  · obtain ⟨n, hn⟩ := hlevelled.stack.get a ha
    exact hn.1

/-- Every account has the empty module. -/
def nestingClient : Client Nat := committing countingHost fun _ => some emptyModule

/-- A contract that was called with a value. -/
def nesting (run : Run) : Activation Nat :=
  ⟨payingMessage, 7, payingMessage, emptyModule, .engine .contract run, 0⟩

/-- It calls another by delegation. -/
theorem call_stack_bounded_nested :
    ∃ c, Reachable (Step nestingClient (plainHera .fallback true)) (.initial 7 payingMessage) c ∧
      c.stack.length = 2 ∧ payingMessage.depth + c.stack.length ≤
        1025 + (if (plainHera .fallback true).metering = true then 1025 else 0) := by
  have henters (m : EvmcMessage) : nestingClient.enters m 7 m .EVMC_BYZANTIUM emptyModule 7 :=
    ⟨rfl, rfl, rfl, rfl⟩
  obtain ⟨run, hrun⟩ :
      ∃ run, run = Run.entered payingMessage emptyModule ⟨65536, fun _ => 0⟩ := ⟨_, rfl⟩
  have hentered : Step nestingClient (plainHera .fallback true) (.initial 7 payingMessage)
      (.enters payingMessage emptyModule)
      ⟨7, 0, .running, [nesting run]⟩ := by
    rw [hrun]
    exact .enters_contract (henters _) rfl (by decide) rfl rfl (fun h => by cases h) (by decide) rfl
  have hrich : run.Rich := by
    rw [hrun]
    exact ⟨rfl, by decide, by decide, by decide, by decide⟩
  have hcalls : Step nestingClient (plainHera .fallback true)
      ⟨7, 0, .running, [nesting run]⟩ _
      ⟨7, 1, .calling (run.delegated 1000), [nesting (run.delegating 7 1000)]⟩ :=
    .delegates 1000 (by decide) rfl hrich
  have hnested : Step nestingClient (plainHera .fallback true)
      ⟨7, 1, .calling (run.delegated 1000), [nesting (run.delegating 7 1000)]⟩ _ _ :=
    .enters_contract (henters _) rfl
      (Int.add_nonneg (forwarded_nonneg (by decide) hrich.gas) (by decide))
      rfl rfl (fun h => by cases h) (by rw [hrun]; decide) rfl
  have hreach := ((Reachable.refl _).tail hentered).tail hcalls |>.tail hnested
  exact ⟨_, hreach, rfl,
    (call_stack_bounded (committing_lawful _ _) (.inr rfl) (by decide) hreach).1⟩

/-- **The translator is not bounded**: where its own account has EVM code, `evm2wasm_contract` calls
it to translate itself, at depth 0 each time, and the stack grows over any height. -/
theorem translation_unbounded {client : Client W} {hera : HeraInstance} {w : W} {msg : EvmcMessage}
    (hmode : hera.evm1mode = .evm2wasm_contract) (hgas : 0 ≤ msg.gas)
    (henters : ∀ m, m = msg ∨ (∃ input, m = systemMessage evm2wasmAddress input) → ∃ code,
      client.enters m w m .EVMC_BYZANTIUM code w ∧
        hasWasmPreamble ((hera.contract_preload_list m.destination).getD code) = false) (n : Nat) :
    ∃ c, Reachable (Step client hera) (.initial w msg) c ∧ c.stack.length = n := by
  suffices hcalling : ∃ m stack, (m = msg ∨ ∃ input, m = systemMessage evm2wasmAddress input) ∧
      0 ≤ m.gas ∧ stack.length = n ∧
      Reachable (Step client hera) (.initial w msg) ⟨w, 0, .calling m, stack⟩ by
    obtain ⟨m, stack, -, -, hlength, hreach⟩ := hcalling
    exact ⟨_, hreach, hlength⟩
  induction n with
  | zero => exact ⟨msg, [], .inl rfl, hgas, rfl, Reachable.refl _⟩
  | succ n ih =>
    obtain ⟨m, stack, hm, hnonneg, hlength, hreach⟩ := ih
    obtain ⟨code, henter, hevm⟩ := henters m hm
    have hstep : Step client hera ⟨w, 0, .calling m, stack⟩ _ _ := .enters henter
    have hbegin : hera.begin .EVMC_BYZANTIUM m code = .ok (.system (systemMessage evm2wasmAddress
        ((hera.contract_preload_list m.destination).getD code)) .translation) := by
      unfold HeraInstance.begin
      rw [ensure_of rfl, ensure_of hnonneg, hmode]
      exact if_neg (by rw [hevm]; exact Bool.false_ne_true)
    rw [hbegin] at hstep
    refine ⟨_, _, .inr ⟨_, rfl⟩, systemMessage_gas _ _, ?_, hreach.tail hstep⟩
    rw [List.length_cons, hlength]

/-- Every account has the one instruction `PUSH1`. -/
def evmClient : Client Nat := committing countingHost fun _ => some [0x60]

theorem translation_unbounded_million :
    ∃ c, Reachable (Step evmClient (plainHera .evm2wasm_contract false))
      (.initial 7 staticMessage) c ∧ c.stack.length = 1000000 := by
  have henters (m : EvmcMessage) : evmClient.enters m 7 m .EVMC_BYZANTIUM [0x60] 7 :=
    ⟨rfl, rfl, rfl, rfl⟩
  exact translation_unbounded rfl (by decide) (fun m _ => ⟨[0x60], henters m, rfl⟩) 1000000

end EvmTrans.Hera
