/-
# `EvmTrans.Hera.CallStack` — activations of `hera_execute` that nest through the client.

A contract calls, the client runs Hera again on the message, that contract calls, and so on: at any
time there is a STACK of activations, each waiting for the one above it. `Step` is everything that
may happen next, with

* the contract unrestricted: it changes its own memory and asks for any host function with any
  arguments, at any time;
* the client restricted by `Client.Lawful` alone: it answers a message itself, or enters Hera with
  it, and takes the result back.

Two fields record history and decide nothing: `unpaid` counts the delegate calls handed out so far
whose stipend nobody paid for, and `since` is that count when the activation was entered.
-/
import EvmTrans.Hera.Execute
import EvmTrans.Lib.Transition

namespace EvmTrans.Hera

open Lib (Program Reachable)

/-! ## §1 — the client. -/

/-- What a client does with messages, over its world `W`. -/
structure Client (W : Type) where
  host : HostContext W
  /-- It answers by itself: an account without code, a precompiled contract, another VM. -/
  answers : EvmcMessage → W → EvmcResult → W → Prop
  /-- It enters Hera, with this message and this code, from this world. -/
  enters : EvmcMessage → W → EvmcMessage → EvmcRevision → List Byte → W → Prop
  /-- It makes its answer of Hera's result, given the world from before the message. -/
  leaves : EvmcMessage → W → EvmcResult → W → EvmcResult → W → Prop

/-- **The client's duties**, those of EVMC: a static message leaves its world alone, which the
client commits or rolls back behind Hera; Hera gets the message that was sent, up to the addresses;
and nobody returns more gas than he got. -/
structure Client.Lawful {W : Type} (client : Client W) : Prop where
  answers_static : ∀ {msg w r w'}, client.answers msg w r w' → msg.isStatic → w' = w
  answers_gas : ∀ {msg w r w'}, client.answers msg w r w' → 0 ≤ msg.gas → r.gasLeft ≤ msg.gas
  enters_static : ∀ {msg w msg' rev code w'}, client.enters msg w msg' rev code w' →
  msg.isStatic → w' = w
  enters_same : ∀ {msg w msg' rev code w'}, client.enters msg w msg' rev code w' →
    msg'.kind = msg.kind ∧ msg'.flags = msg.flags ∧ msg'.depth = msg.depth ∧ msg'.gas = msg.gas
  leaves_static : ∀ {msg before r w r' w'}, client.leaves msg before r w r' w' → msg.isStatic →
    w' = w ∨ w' = before
  leaves_gas : ∀ {msg before r w r' w'}, client.leaves msg before r w r' w' → r'.gasLeft ≤ r.gasLeft

/-! ## §2 — configurations. -/

/-- One `hera_execute`: the request of the client and its world before it, the message and the code
it passed on, and where it stands. -/
structure Activation (W : Type) where
  request : EvmcMessage
  before : W
  msg : EvmcMessage
  code : List Byte
  phase : Phase
  since : Nat

/-- Whose turn it is. -/
inductive Control where
  /-- The contract on top. -/
  | running
  /-- The client has a message from the top. -/
  | calling (msg : EvmcMessage)
  /-- The client has a result for the top. -/
  | returning (result : EvmcResult)
  /-- `hera_execute` on top is through. -/
  | finished (result : EvmcResult)
  /-- C++ leaves open what happens. -/
  | undefined

/-- The world, the history, whose turn it is, and the activations, the last one first. -/
structure Config (W : Type) where
  world : W
  unpaid : Nat
  control : Control
  stack : List (Activation W)

/-- A transaction: the client has its message. -/
def Config.initial {W : Type} (world : W) (msg : EvmcMessage) : Config W :=
  ⟨world, 0, .calling msg, []⟩

variable {W : Type}

/-- The activation, further on. -/
def Activation.at (a : Activation W) (phase : Phase) : Activation W := { a with phase := phase }

/-- The object behind the host functions. -/
def Run.interface (run : Run) (client : Client W) : EthereumInterface W :=
  ⟨client.host, run.code, run.msg, run.meterGas⟩

/-- Its state. -/
def Run.state (run : Run) (w : W) : EeiState W := ⟨run.locals, w⟩

/-- The contract behind a host function. -/
def Run.after (run : Run) (s : EeiState W) : Run :=
  { run with locals := s.toLocals, pending := none }

/-- And in the middle of a call. -/
def Run.waiting (run : Run) (s : EeiState W) (p : Pending) : Run :=
  { run with locals := s.toLocals, pending := some p }

/-! ## §3 — what follows. -/

/-- `hera_execute` on top goes on. -/
def proceed (w : W) (u : Nat) (a : Activation W) (rest : List (Activation W)) : Next → Config W
  | .done result => ⟨w, u, .finished result, a :: rest⟩
  | .system msg call => ⟨w, u, .calling msg, a.at (.system call) :: rest⟩
  | .run place run => ⟨w, u, .running, a.at (.engine place run) :: rest⟩

section
variable (hera : HeraInstance) (u : Nat) (a : Activation W) (rest : List (Activation W))
  (place : Place) (run : Run)

/-- The engine on top stops. `EndExecution` counts as a return of `main`. -/
def stop (w : W) (outcome : Except HeraException ExecutionResult) : Config W :=
  proceed w u a rest (caught (outcome >>= fun result => hera.afterEngine a.msg a.code result place))

/-- Behind a host function that threw. -/
def faulted (s : EeiState W) : Fault → Config W
  | .undefined => ⟨s.world, u, .undefined, a :: rest⟩
  | .exception .EndExecution => stop hera u a rest place s.world (.ok s.result)
  | .exception e => stop hera u a rest place s.world (.error e)

/-- Behind a host function. -/
def afterRequest {α : Type} : Except Fault α × EeiState W → Config W
  | (.ok _, s) => ⟨s.world, u, .running, a.at (.engine place (run.after s)) :: rest⟩
  | (.error f, s) => faulted hera u a rest place s f

/-- Behind the first part of a call. -/
def afterBegin (resultOffset : Option (BitVec 32)) : Except Fault Outgoing × EeiState W → Config W
  | (.ok (.refused _), s) => ⟨s.world, u, .running, a.at (.engine place (run.after s)) :: rest⟩
  | (.ok (.call msg), s) =>
    ⟨s.world, u + if Unpaid msg then 1 else 0, .calling msg,
      a.at (.engine place (run.waiting s ⟨resultOffset, msg⟩)) :: rest⟩
  | (.error f, s) => faulted hera u a rest place s f

theorem afterRequest_ok {α : Type} (v : α) (s : EeiState W) :
    afterRequest hera u a rest place run (.ok v, s) =
    ⟨s.world, u, .running, a.at (.engine place (run.after s)) :: rest⟩ := rfl

theorem afterBegin_call (resultOffset : Option (BitVec 32)) (msg : EvmcMessage) (s : EeiState W) :
    afterBegin hera u a rest place run resultOffset (.ok (.call msg), s) =
      ⟨s.world, u + if Unpaid msg then 1 else 0, .calling msg,
        a.at (.engine place (run.waiting s ⟨resultOffset, msg⟩)) :: rest⟩ := rfl

end

/-- The first part of a call. -/
def CallRequest.begin (I : EthereumInterface W) : CallRequest → Eei W Outgoing
  | .call kind gas addressOffset valueOffset dataOffset dataLength =>
    I.eeiCallBegin kind gas addressOffset valueOffset dataOffset dataLength
  | .create valueOffset dataOffset length _ => I.eeiCreateBegin valueOffset dataOffset length

/-- Where a call stores an address. -/
def CallRequest.resultOffset : CallRequest → Option (BitVec 32)
  | .call .. => none
  | .create _ _ _ resultOffset => some resultOffset

/-- The second part of the call that is waited for. -/
def Pending.end (p : Pending) (result : EvmcResult) : Eei W (BitVec 32) :=
  match p.resultOffset with
  | none => eeiCallEnd result
  | some resultOffset => eeiCreateEnd resultOffset result

/-! ## §4 — steps. -/

/-- Who does what. -/
inductive Event where
  | computes
  | requests (r : Request)
  | calls (r : CallRequest)
  | returns
  | traps
  | answers (result : EvmcResult)
  | enters (msg : EvmcMessage) (code : List Byte)
  | delivers (result : EvmcResult)
  | leaves (result : EvmcResult)

/-- **One step.** Wasm memory grows, up to `2 ^ 32` bytes, and never shrinks. -/
inductive Step (client : Client W) (hera : HeraInstance) : Config W → Event → Config W → Prop
  | computes {w u a rest place run} {memory : LinMem} (hphase : a.phase = .engine place run)
      (hgrow : run.locals.memory.size ≤ memory.size) (hmax : memory.size ≤ 2 ^ 32) :
      Step client hera ⟨w, u, .running, a :: rest⟩ .computes
        ⟨w, u, .running, a.at (.engine place { run with locals.memory := memory }) :: rest⟩
  | requests {w u a rest place run} (r : Request) (hphase : a.phase = .engine place run) :
      Step client hera ⟨w, u, .running, a :: rest⟩ (.requests r)
        (afterRequest hera u a rest place run
          (((run.interface client).handle r).exec (run.state w)))
  | calls {w u a rest place run} (r : CallRequest) (hphase : a.phase = .engine place run) :
      Step client hera ⟨w, u, .running, a :: rest⟩ (.calls r)
        (afterBegin hera u a rest place run r.resultOffset
          ((r.begin (run.interface client)).exec (run.state w)))
  | returns {w u a rest place run} (hphase : a.phase = .engine place run) :
      Step client hera ⟨w, u, .running, a :: rest⟩ .returns
        (stop hera u a rest place w (.ok run.locals.result))
  | traps {w u a rest place run} (hphase : a.phase = .engine place run) :
      Step client hera ⟨w, u, .running, a :: rest⟩ .traps
        (stop hera u a rest place w (.error (.VMTrap "The VM invocation had a trap.")))
  | answers {w w' u msg stack r} (h : client.answers msg w r w') :
      Step client hera ⟨w, u, .calling msg, stack⟩ (.answers r) ⟨w', u, .returning r, stack⟩
  | enters {w w' u msg msg' rev code stack} (h : client.enters msg w msg' rev code w') :
      Step client hera ⟨w, u, .calling msg, stack⟩ (.enters msg' code)
        (proceed w' u ⟨msg, w, msg', code, .starting, u⟩ stack (caught (hera.begin rev msg' code)))
  | delivers {w u a rest place run p r} (hphase : a.phase = .engine place run)
      (hpending : run.pending = some p) :
      Step client hera ⟨w, u, .returning r, a :: rest⟩ (.delivers r)
        (afterRequest hera u a rest place run ((p.end r).exec (run.state w)))
  | resumes {w u a rest call r} (hphase : a.phase = .system call) :
      Step client hera ⟨w, u, .returning r, a :: rest⟩ (.delivers r)
        (proceed w u a rest (caught (hera.afterSystem a.msg a.code r call)))
  | leaves {w w' u a rest r r'} (h : client.leaves a.request a.before r w r' w') :
      Step client hera ⟨w, u, .finished r, a :: rest⟩ (.leaves r') ⟨w', u, .returning r', rest⟩

end EvmTrans.Hera
