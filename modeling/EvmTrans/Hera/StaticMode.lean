/-
# `EvmTrans.Hera.StaticMode` — a static call changes nothing, whatever it calls.

The flag is checked where a host function would change the world, and handed down where a message is
made. Between the two lie other contracts, other VMs and the system contracts of Hera itself, so the
property is one of the whole STACK: every activation is a guard over the world, frozen if its
message is static.
-/
import EvmTrans.Hera.Clients
import EvmTrans.Lib.Frozen

namespace EvmTrans.Hera

open Lib (Reachable Guard Frozen)

variable {W : Type}

/-- What an activation promises about the world. -/
def Activation.guard (a : Activation W) : Guard W := ⟨a.msg.isStatic, a.before⟩

/-- The promises of a stack, and that of the transaction below it. -/
def guards (base : Guard W) (stack : List (Activation W)) : List (Guard W) :=
  stack.map Activation.guard ++ [base]

/-- **The invariant.** -/
structure Config.Static (base : Guard W) (c : Config W) : Prop where
  frozen : Frozen (guards base c.stack) c.world
  requests : ∀ a ∈ c.stack, a.msg.isStatic → a.request.isStatic
  calling : ∀ msg, c.control = .calling msg → ∀ g ∈ guards base c.stack, g.frozen → msg.isStatic

theorem systemMessage_isStatic (address : Address) (input : List Byte) :
    (systemMessage address input).isStatic := by
  show EVMC_STATIC &&& EVMC_STATIC ≠ 0
  decide

theorem Run.Sound.isStatic {hera : HeraInstance} {msg : EvmcMessage} {place : Place} {run : Run}
    (h : run.Sound hera msg place) (hstatic : msg.isStatic) : run.msg.isStatic := by
  rw [h.run_msg]
  cases place with
  | contract => exact hstatic
  | runevm => exact systemMessage_isStatic _ _

section
variable {client : Client W} {hera : HeraInstance} {w w' : W} {u : Nat} {a : Activation W}
  {rest : List (Activation W)} {base : Guard W} {place : Place} {run : Run}

/-- Going on with `hera_execute` sends static messages only. -/
theorem proceed_static {P : ExecutionResult → Prop} {Q : List Byte → Prop} {next : Next}
    (h : Outcome hera a.msg P Q next) (hfrozen : Frozen (guards base (a :: rest)) w)
    (hrequests : ∀ b ∈ a :: rest, b.msg.isStatic → b.request.isStatic) :
    (proceed w u a rest next).Static base := by
  have hat : ∀ phase, ∀ b ∈ a.at phase :: rest, b.msg.isStatic → b.request.isStatic := fun _ =>
    List.forall_mem_cons.mpr (List.forall_mem_cons.mp hrequests)
  cases h with
  | failed _ _ | executed _ _ => exact ⟨hfrozen, hrequests, fun _ h => by cases h⟩
  | contract _ _ _ _ _ | interpreter _ _ _ _ _ => exact ⟨hfrozen, hat _, fun _ h => by cases h⟩
  | translation _ _ | constructor _ _ _ | deployment _ _ _ _ =>
    refine ⟨hfrozen, hat _, fun msg hmsg g _ _ => ?_⟩
    cases hmsg
    exact systemMessage_isStatic _ _

/-- The contract on top changes the world: its own message is not static then. -/
theorem Config.Static.change {control : Control} (h : Config.Static base ⟨w, u, control, a :: rest⟩)
    (ha : a.Sound hera) (hphase : a.phase = .engine place run)
    (hworld : run.msg.isStatic → w' = w) : Frozen (guards base (a :: rest)) w' :=
  h.frozen.change fun hstatic => hworld ((ha.running hphase).1.isStatic hstatic)

/-- **One step.** -/
theorem Move.static (hclient : client.Lawful) {c c' : Config W} {e : Event}
    (h : Move client hera c e c')
    (hsound : ∀ a ∈ c.stack, a.Sound hera) (hc : c.Static base) : c'.Static base := by
  cases h with
  | inside hphase _ hworld =>
    obtain ⟨ha, -⟩ := List.forall_mem_cons.mp hsound
    exact ⟨hc.change ha hphase hworld,
      List.forall_mem_cons.mpr (List.forall_mem_cons.mp hc.requests),
      fun _ h => by cases h⟩
  | hands hphase hhands hworld =>
    obtain ⟨ha, -⟩ := List.forall_mem_cons.mp hsound
    have hfrozen := hc.change ha hphase hworld
    refine ⟨hfrozen, List.forall_mem_cons.mpr (List.forall_mem_cons.mp hc.requests),
      fun msg hmsg g hmem hg => ?_⟩
    cases hmsg
    refine hhands.static ((ha.running hphase).1.isStatic ?_)
    -- whoever is frozen below, the top is frozen too
    rcases List.mem_cons.mp hmem with rfl | hbelow
    · exact hg
    · exact (List.pairwise_cons.mp hfrozen.inherited).1 g hbelow hg
  | stops hphase _ hworld =>
    obtain ⟨ha, -⟩ := List.forall_mem_cons.mp hsound
    exact proceed_static (stop_outcome (P := fun _ => True) (Q := fun _ => True) ha hphase
      fun _ _ _ _ => trivial) (hc.change ha hphase hworld) hc.requests
  | answers h =>
    exact ⟨hc.frozen.changeUnder (hc.calling _ rfl) (hclient.answers_static h), hc.requests,
      fun _ h => by cases h⟩
  | @enters w w' u msg msg' rev code stack _ h =>
    have hflags : msg'.isStatic ↔ msg.isStatic := by
      unfold EvmcMessage.isStatic
      rw [(hclient.enters_same h).2.1]
    have hpush : Frozen (guards base (⟨msg, w, msg', code, .starting, u⟩ :: stack)) w :=
      hc.frozen.push fun g hmem hg => hflags.mpr (hc.calling _ rfl g hmem hg)
    refine proceed_static (P := fun _ => True) (Q := fun _ => True) (begin_outcome rev)
      (hpush.change fun hstatic => hclient.enters_static h (hflags.mp hstatic)) ?_
    exact List.forall_mem_cons.mpr ⟨hflags.mp, hc.requests⟩
  | continues hphase _ _ _ _ =>
    exact ⟨hc.frozen, List.forall_mem_cons.mpr (List.forall_mem_cons.mp hc.requests),
      fun _ h => by cases h⟩
  | breaks hphase =>
    obtain ⟨ha, -⟩ := List.forall_mem_cons.mp hsound
    exact proceed_static (stop_outcome (P := fun _ => True) (Q := fun _ => True) ha hphase
      fun _ _ _ _ => trivial) hc.frozen hc.requests
  | resumes hphase =>
    obtain ⟨ha, -⟩ := List.forall_mem_cons.mp hsound
    exact proceed_static (resume_outcome (P := fun _ => True) (Q := fun _ => True) ha hphase
      (fun _ _ => trivial) fun _ => trivial) hc.frozen hc.requests
  | @leaves w w' u a rest r r' _ h =>
    obtain ⟨hrequest, hrequests⟩ := List.forall_mem_cons.mp hc.requests
    refine ⟨(hc.frozen.change fun hstatic => ?_).pop, hrequests, fun _ h => by cases h⟩
    -- rolled back or not, the world is the one from before
    have hbefore : w = a.before := hc.frozen.kept a.guard List.mem_cons_self hstatic
    rcases hclient.leaves_static h (hrequest hstatic) with hw | hw
    · exact hw
    · exact hw.trans hbefore.symm

theorem Config.initial_static (w : W) (msg : EvmcMessage) :
    (Config.initial w msg).Static ⟨msg.isStatic, w⟩ := by
  refine ⟨Frozen.single _, (fun a ha => by cases ha), fun msg' hmsg g hmem hg => ?_⟩
  cases hmsg
  rw [List.mem_singleton.mp hmem] at hg
  exact hg

/-- Every run. -/
theorem reachable_static (hclient : client.Lawful) {msg : EvmcMessage} {c : Config W}
    (h : Reachable (Step client hera) (.initial w msg) c) : c.Static ⟨msg.isStatic, w⟩ :=
  (h.invariant (P := fun c => (∀ a ∈ c.stack, a.Sound hera) ∧ c.Static ⟨msg.isStatic, w⟩)
    (fun _ _ _ hc hstep => ⟨hstep.move.sound hc.1, hstep.move.static hclient hc.1 hc.2⟩)
    ⟨(fun a ha => by cases ha), Config.initial_static w msg⟩).2

end

/-- **A static message leaves the world alone**: that of the transaction does so in every state of
every run, and the message of an activation for as long as it is on the stack, whatever stands above
it and whatever those contracts ask for. All that a static activation calls is static. -/
theorem static_call_changes_nothing {client : Client W} {hera : HeraInstance} {w : W}
    {msg : EvmcMessage} {c : Config W} (hclient : client.Lawful)
    (h : Reachable (Step client hera) (.initial w msg) c) :
    (msg.isStatic → c.world = w) ∧ (∀ a ∈ c.stack, a.msg.isStatic → c.world = a.before) ∧
      (c.stack.Pairwise fun above below => below.msg.isStatic → above.msg.isStatic) ∧
      ∀ sent, c.control = .calling sent → ∀ a ∈ c.stack, a.msg.isStatic → sent.isStatic := by
  have hstatic := reachable_static hclient h
  have hmem : ∀ a ∈ c.stack, a.guard ∈ guards ⟨msg.isStatic, w⟩ c.stack := fun a ha =>
    List.mem_append_left _ (List.mem_map_of_mem ha)
  refine ⟨hstatic.frozen.kept ⟨msg.isStatic, w⟩ (List.mem_append_right _ List.mem_cons_self),
    fun a ha => hstatic.frozen.kept a.guard (hmem a ha), ?_,
    fun sent hsent a ha => hstatic.calling sent hsent a.guard (hmem a ha)⟩
  exact List.pairwise_map.mp (List.pairwise_append.mp hstatic.frozen.inherited).1

/-- A static call of a contract that tries to write. -/
def staticMessage : EvmcMessage :=
  ⟨.EVMC_CALL, EVMC_STATIC, 0, 100000, Address.of 1, Address.of 2, [], Bytes32.of 0⟩

theorem static_call_changes_nothing_write :
    ∃ c, Reachable (Step countingClient (plainHera .reject false)) (.initial 7 staticMessage) c ∧
      c.control = .finished (failed .EVMC_STATIC_MODE_VIOLATION) ∧ c.world = 7 := by
  have henters : Step countingClient (plainHera .reject false) (.initial 7 staticMessage) _
      ⟨7, 0, .running, [counting staticMessage 7 0]⟩ :=
    countingClient_enters rfl rfl (by decide) (by decide)
  have hrequests : Step countingClient (plainHera .reject false) ⟨7, 0, .running,
      [counting staticMessage 7 0]⟩ _ _ :=
    .requests (.storageStore 0 0) rfl
  have hreach := ((Reachable.refl _).tail henters).tail hrequests
  exact ⟨_, hreach, rfl, (static_call_changes_nothing (committing_lawful _ _) hreach).1 (by decide)⟩

end EvmTrans.Hera
