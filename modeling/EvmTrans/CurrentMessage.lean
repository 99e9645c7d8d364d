/-
# `EvmTrans.CurrentMessage` — the message that `execute` keeps track of.

`execute` saves `currentMsg` in `prevMsg`, points it to the message of the request, and puts the old
pointer back behind the call of Hera. The two returns in front of that call, `EVMC_REJECTED` and
`EVMC_INTERNAL_ERROR`, leave the new pointer in place, to a message that the caller owns and may
free. While Hera runs, the host may issue further requests, so a run is a properly nested sequence
of them (`Calls`). `execute_restores_iff` says in which runs every `execute` leaves the pointer as
it found it.

The assertion that the host's function table does not change is left out: it ends the process, so it
takes runs away only. Pointers to messages are numbers.
-/
import EvmTrans.CodeMap

namespace EvmTrans.BTImpl

/-! ## §1 — requests that nest. -/

/-- `BTImpl` with the pointer `currentMsg`; `none` is `nullptr`. -/
structure BTState extends BTImpl where
  currentMsg : Option Nat

/-- A fresh instance. -/
def BTState.init : BTState where
  toBTImpl := BTImpl.init
  currentMsg := none

/-- A request, and where its message is. -/
structure Call where
  request : Request
  msg : Nat

/-- A properly nested sequence: a request, the requests that the host issues if Hera runs it, and
the requests that come behind it. -/
inductive Calls where
  | nil
  | cons (call : Call) (nested rest : Calls)

/-- `BTImpl::compile`, as it stands. -/
def compile (_code : List Byte) : Option (List Byte) := none

/-- `execute`, up to the call of Hera. -/
def BTState.handed (compile : List Byte → Option (List Byte)) (bt : BTState) (c : Call) :
    Handed × BTState :=
  let bt := { bt with currentMsg := some c.msg }
  let (handed, impl) := execute compile bt.toBTImpl c.request
  (handed, { bt with toBTImpl := impl })

/-- `execute`; `hera` is what happens to the instance while Hera runs. -/
def executeMsg (compile : List Byte → Option (List Byte)) (hera : BTState → BTState) (bt : BTState)
    (c : Call) : BTState :=
  let prevMsg := bt.currentMsg
  match bt.handed compile c with
  | (.rejected, bt) => bt
  | (.internalError, bt) => bt
  | (.hera _, bt) => { hera bt with currentMsg := prevMsg }

/-- The instance behind a sequence. -/
def runCalls (compile : List Byte → Option (List Byte)) : Calls → BTState → BTState
  | .nil, bt => bt
  | .cons c nested rest, bt =>
    runCalls compile rest (executeMsg compile (runCalls compile nested) bt c)

/-- An `execute` that has returned: the instance when it was entered, and when it returned. -/
structure Exec where
  entered : BTState
  call : Call
  returned : BTState

/-- Every `execute` of a sequence, those of nested requests included. -/
def execs (compile : List Byte → Option (List Byte)) : Calls → BTState → List Exec
  | .nil, _ => []
  | .cons c nested rest, bt =>
    let returned := executeMsg compile (runCalls compile nested) bt c
    let inner :=
      match bt.handed compile c with
      | (.hera _, bt) => execs compile nested bt
      | _ => []
    inner ++ ⟨bt, c, returned⟩ :: execs compile rest returned

/-! ## §2 — one request. -/

/-- **There is code to run**: the map has an entry for the destination, or this hit is past the
threshold and the code compiles. -/
def Runnable (compile : List Byte → Option (List Byte)) (bt : BTImpl) (r : Request) : Prop :=
  (∃ w, bt.funcOf r.destination = some w) ∨
    bt.hitThreshold < (bt.m_codeMap (makeCodeId r.destination r.rev r.flags)).hits + 1 ∧ ∃ w,
    Compiles compile r.code w

/-- The request can be run, or the pointer is already the one to its message. -/
def KeepsMsg (compile : List Byte → Option (List Byte)) (bt : BTState) (c : Call) : Prop :=
  Runnable compile bt.toBTImpl c.request ∨ bt.currentMsg = some c.msg

variable {compile : List Byte → Option (List Byte)}

/-- Hera is called exactly for the requests that can be run. -/
theorem execute_hera_iff {bt : BTImpl} {r : Request} :
    (∃ w, (execute compile bt r).1 = .hera w) ↔ Runnable compile bt r := by
  have hfunc : (bt.getExecFunc (makeCodeId r.destination r.rev r.flags)).1.func =
      bt.funcOf r.destination := by
    show (bt.m_codeMap _).func = (bt.m_codeMap _).func
    rw [makeCodeId_eq_iff.mpr rfl]
  unfold execute Runnable
  dsimp only
  rw [hfunc]
  cases bt.funcOf r.destination with
  | some w => exact iff_of_true ⟨w, rfl⟩ (.inl ⟨w, rfl⟩)
  | none =>
    have hnone : ¬ ∃ w, (none : Option (List Byte)) = some w := by rintro ⟨w, hw⟩; cases hw
    rw [or_iff_right hnone]
    dsimp only
    split
    · rename_i hle
      refine iff_of_false (by rintro ⟨w, hw⟩; cases hw) fun h => ?_
      exact absurd h.1 (Nat.not_lt.mpr hle)
    · rename_i hlt
      have hlt := Nat.lt_of_not_le hlt
      split
      · rename_i b bs hc
        exact iff_of_true ⟨b :: bs, rfl⟩ ⟨hlt, b :: bs, hc, List.cons_ne_nil b bs⟩
      · rename_i hc
        refine iff_of_false (by rintro ⟨w, hw⟩; cases hw) ?_
        rintro ⟨-, w, hw, hne⟩
        obtain ⟨b, bs, rfl⟩ := List.exists_cons_of_ne_nil hne
        exact hc b bs hw

/-- **One request**, whatever happens while Hera runs: the pointer is as it was exactly under
`KeepsMsg`. -/
theorem executeMsg_keeps_iff (hera : BTState → BTState) (bt : BTState) (c : Call) :
    (executeMsg compile hera bt c).currentMsg = bt.currentMsg ↔ KeepsMsg compile bt c := by
  have hrun : (∃ w, (bt.handed compile c).1 = .hera w) ↔ Runnable compile bt.toBTImpl c.request :=
    execute_hera_iff
  have hmsg : (bt.handed compile c).2.currentMsg = some c.msg := rfl
  unfold executeMsg KeepsMsg
  rw [← hrun]
  generalize bt.handed compile c = h at hmsg ⊢
  obtain ⟨handed, bt'⟩ := h
  have hno : ∀ {p : Prop}, (∀ w, handed ≠ .hera w) → ((∃ w, handed = .hera w) ∨ p ↔ p) := fun hne =>
    or_iff_right fun ⟨w, hw⟩ => hne w hw
  cases handed with
  | hera w => exact iff_of_true rfl (.inl ⟨w, rfl⟩)
  | rejected =>
    rw [hno nofun, ← hmsg]
    exact eq_comm
  | internalError =>
    rw [hno nofun, ← hmsg]
    exact eq_comm

/-! ## §3 — every run. -/

/-- What is recorded is an `execute`. -/
theorem exists_of_mem_execs : ∀ {cs : Calls} {bt : BTState}, ∀ e ∈ execs compile cs bt,
    ∃ hera, e.returned = executeMsg compile hera e.entered e.call := by
  intro cs
  induction cs with
  | nil => exact fun e he => absurd he List.not_mem_nil
  | cons c nested rest ihNested ihRest =>
    intro bt e he
    unfold execs at he
    dsimp only at he
    rcases List.mem_append.mp he with hin | hout
    · split at hin
      · exact ihNested e hin
      · exact absurd hin List.not_mem_nil
    · rcases List.mem_cons.mp hout with rfl | hrest
      · exact ⟨_, rfl⟩
      · exact ihRest e hrest

/-- The pointer is back behind a sequence whose requests all meet the condition. By induction on the
requests left. -/
theorem runCalls_currentMsg : ∀ {cs : Calls} {bt : BTState},
    (∀ e ∈ execs compile cs bt, KeepsMsg compile e.entered e.call) →
    (runCalls compile cs bt).currentMsg = bt.currentMsg := by
  intro cs
  induction cs with
  | nil => exact fun _ => rfl
  | cons c nested rest _ ihRest =>
    intro bt h
    have hfirst : KeepsMsg compile bt c := h ⟨bt, c, _⟩ (List.mem_append_right _ List.mem_cons_self)
    have hrest := ihRest fun e he => h e (List.mem_append_right _ (List.mem_cons_of_mem _ he))
    exact hrest.trans ((executeMsg_keeps_iff _ bt c).mpr hfirst)

/-- **The current message.** In every run, from every instance and with every compiler, all
`execute`s leave `currentMsg` as they found it exactly if each of them was entered with code to run,
or with the pointer to its own message; and then the run leaves it as it was. -/
theorem execute_restores_iff (compile : List Byte → Option (List Byte)) (bt : BTState)
    (cs : Calls) :
    ((∀ e ∈ execs compile cs bt, e.returned.currentMsg = e.entered.currentMsg) ↔
      ∀ e ∈ execs compile cs bt, KeepsMsg compile e.entered e.call) ∧
    ((∀ e ∈ execs compile cs bt, KeepsMsg compile e.entered e.call) →
      (runCalls compile cs bt).currentMsg = bt.currentMsg) := by
  refine ⟨forall₂_congr fun e he => ?_, runCalls_currentMsg⟩
  obtain ⟨hera, heq⟩ := exists_of_mem_execs e he
  rw [heq]
  exact executeMsg_keeps_iff hera e.entered e.call

/-- A call of address 7, its message at 4096. -/
def callAddress7 : Call := ⟨⟨.call, 0, address7, 5, [0x60, 0x01]⟩, 4096⟩

/-- On a fresh instance the request fails to compile, and the instance is left with a pointer to its
message. -/
theorem failed_request_leaves_message :
    (runCalls BTImpl.compile (.cons callAddress7 .nil .nil) BTState.init).currentMsg = some 4096 ∧
      ¬ ∀ e ∈ execs BTImpl.compile (.cons callAddress7 .nil .nil) BTState.init,
        e.returned.currentMsg = e.entered.currentMsg := by
  have hrun : (runCalls BTImpl.compile (.cons callAddress7 .nil .nil) BTState.init).currentMsg =
      some 4096 := by
    decide +kernel
  refine ⟨hrun, fun h => ?_⟩
  have hnone := h ⟨_, callAddress7, _⟩ (List.mem_append_right _ List.mem_cons_self)
  exact absurd (hrun.symm.trans hnone) nofun

end EvmTrans.BTImpl
