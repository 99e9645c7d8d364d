/-
# `EvmTrans.Hera.Calls` — what a call takes from its caller and hands to the client.

`Sends` says what a message looks like that `eeiCall` or `eeiCreate` hands out: static if its sender
is, one deeper, and paid for, up to the STIPEND. The 2300 gas are added to every message with a
value; only `call` and `callCode` charge for the value (9000), so a delegate call out of a message
with a value hands out 1600 gas more than it takes.
-/
import EvmTrans.Hera.Effects

namespace EvmTrans.Hera

open Lib (Program Upholds InRange exec_bind exec_get exec_pure exec_modify exec_ite andThen_ok
  andThen_error exec_bind_ok write_of_not_inRange)

variable {W α : Type} {I : EthereumInterface W} {a n : Nat}

/-! ## §1 — programs that only look. -/

/-- The program changes nothing. -/
abbrev Reads (p : Eei W α) : Prop := Upholds (· = ·) (fun _ => True) p

theorem Reads.eq {p : Eei W α} {s s' : EeiState W} {r : Except Fault α} (h : Reads p)
    (hrun : p.exec s = (r, s')) : s' = s :=
  (h.of_exec hrun).symm

theorem ensureCondition_reads (c : Prop) [Decidable c] (e : HeraException) :
    Reads (ensureCondition c e : Eei W Unit) :=
  Upholds.ite (fun _ => Upholds.pure _) fun _ => Upholds.throw trivial

theorem loadAddress_reads (srcOffset : BitVec 32) : Reads (loadAddress srcOffset : Eei W Address) :=
  Upholds.bind (Upholds.of_checked (exec_loadMemory (by decide)) (fun _ _ => rfl) trivial) fun _ =>
    Upholds.pure _

theorem loadUint128_reads (srcOffset : BitVec 32) : Reads (loadUint128 srcOffset : Eei W Bytes32) :=
  Upholds.bind (Upholds.of_checked (exec_loadMemoryReverse (by decide)) (fun _ _ => rfl) trivial)
    fun _ => Upholds.pure _

theorem loadInput_reads (dataOffset dataLength : BitVec 32) :
    Reads (loadInput dataOffset dataLength : Eei W (List Byte)) := by
  refine Upholds.ite (fun _ => Upholds.pure _) fun _ => ?_
  have hbounds : Reads (ensureSourceMemoryBounds dataOffset dataLength : Eei W Unit) :=
    Upholds.get_bind fun _ => Upholds.bind (ensureCondition_reads _ _) fun _ =>
      ensureCondition_reads _ _
  refine Upholds.bind hbounds fun _ => ?_
  exact Upholds.of_checked
    (exec_loadMemoryBytes (Nat.le_of_lt dataLength.isLt) List.length_replicate)
    (fun _ _ => rfl) trivial

theorem safeLoadUint128_reads (value : Bytes32) :
    Reads (safeLoadUint128 value : Eei W (BitVec 128)) :=
  Upholds.bind (ensureCondition_reads _ _) fun _ => Upholds.pure _

theorem enoughSenderBalanceFor_reads (value : Bytes32) : Reads (I.enoughSenderBalanceFor value) :=
  Upholds.get_bind fun _ => Upholds.bind (safeLoadUint128_reads _) fun _ =>
    Upholds.bind (safeLoadUint128_reads _) fun _ => Upholds.pure _

theorem callMessage_reads (kind : EEICallKind) (addressOffset valueOffset : BitVec 32) :
    Reads (I.callMessage kind addressOffset valueOffset) := by
  refine Upholds.bind (loadAddress_reads _) fun _ => ?_
  cases kind with
  | Call =>
    exact Upholds.bind (loadUint128_reads _) fun _ =>
      Upholds.bind (Upholds.when fun _ => ensureCondition_reads _ _) fun _ => Upholds.pure _
  | CallCode => exact Upholds.bind (loadUint128_reads _) fun _ => Upholds.pure _
  | CallDelegate | CallStatic => exact Upholds.pure _

/-! ## §2 — charges. -/

/-- The state with `gas` less. -/
def EeiState.spend (s : EeiState W) (gas : Int) : EeiState W :=
  { s with result.gasLeft := s.result.gasLeft - gas }

/-- **A charge that goes through**: metered, the gas was there and is gone; unmetered, nothing
happens. -/
theorem takeInterfaceGas_ok {gas : Int} {s s' : EeiState W} {u : Unit}
    (h : (I.takeInterfaceGas gas).exec s = (.ok u, s')) :
    (I.meterGas = true ∧ 0 ≤ gas ∧ gas ≤ s.result.gasLeft ∧ s' = s.spend gas) ∨
    (I.meterGas = false ∧ s' = s) := by
  unfold EthereumInterface.takeInterfaceGas at h
  by_cases hm : I.meterGas = true
  · rw [if_neg (not_not_intro hm)] at h
    obtain ⟨_, s₁, hassert, hcharge⟩ := exec_bind_ok h
    unfold heraAssert at hassert
    rw [exec_ensureCondition] at hassert
    split at hassert
    · rename_i hgas
      cases hassert
      rw [exec_takeGas] at hcharge
      split at hcharge
      · rename_i hle
        cases hcharge
        exact .inl ⟨hm, hgas, hle, rfl⟩
      · cases hcharge
    · cases hassert
  · rw [if_pos hm] at h
    cases h
    exact .inr ⟨Bool.not_eq_true _ ▸ hm, rfl⟩

/-- What a metered charge leaves. -/
theorem takeInterfaceGas_metered {gas : Int} {s s' : EeiState W} {u : Unit} (hm : I.meterGas = true)
    (h : (I.takeInterfaceGas gas).exec s = (.ok u, s')) :
    0 ≤ gas ∧ gas ≤ s.result.gasLeft ∧ s'.result.gasLeft = s.result.gasLeft - gas := by
  rcases takeInterfaceGas_ok h with ⟨-, hpos, hle, rfl⟩ | ⟨hfree, -⟩
  · exact ⟨hpos, hle, rfl⟩
  · rw [hm] at hfree
    cases hfree

/-- A charge reads no world: it leaves all but the gas. -/
theorem Keeps.of_ok {p : Eei W α} {v : α} {s s' : EeiState W} (h : Keeps I a n p)
    (hrun : p.exec s = (.ok v, s')) : Kept I a n s s' :=
  h.of_exec hrun

/-! ## §3 — the parts of `eeiCall`. -/

/-- The kind of the message. -/
def evmcKind : EEICallKind → EvmcCallKind
  | .Call | .CallStatic => .EVMC_CALL
  | .CallCode => .EVMC_CALLCODE
  | .CallDelegate => .EVMC_DELEGATECALL

/-- What the `switch (kind)` puts into the message. -/
structure Addressed (I : EthereumInterface W) (kind : EEICallKind) (msg : EvmcMessage) : Prop where
  kind_eq : msg.kind = evmcKind kind
  depth : msg.depth = I.msg.depth + 1
  flags : msg.flags = if kind = .CallStatic then I.msg.flags &&& EVMC_STATIC ||| EVMC_STATIC
    else I.msg.flags &&& EVMC_STATIC
  delegated : kind = .CallDelegate → msg.sender = I.msg.sender ∧ msg.value = I.msg.value
  direct : kind ≠ .CallDelegate → msg.sender = I.msg.destination
  noValue : kind = .CallStatic ∨ (kind = .Call ∧ I.msg.isStatic) → isZero msg.value

theorem callMessage_ok {kind : EEICallKind} {addressOffset valueOffset : BitVec 32}
    {s s' : EeiState W} {msg : EvmcMessage}
    (h : (I.callMessage kind addressOffset valueOffset).exec s = (.ok msg, s')) :
    Addressed I kind msg := by
  obtain ⟨destination, s₁, -, h⟩ := exec_bind_ok h
  cases kind with
  | Call =>
    obtain ⟨value, s₂, -, h⟩ := exec_bind_ok h
    obtain ⟨_, s₃, hcheck, h⟩ := exec_bind_ok h
    cases h
    refine ⟨rfl, rfl, rfl, (fun h => by cases h), fun _ => rfl, ?_⟩
    rintro (h | ⟨-, hstatic⟩)
    · cases h
    · by_contra hvalue
      unfold Program.when at hcheck
      rw [if_pos hvalue, exec_ensureCondition_of_not (not_not_intro hstatic)] at hcheck
      cases hcheck
  | CallCode =>
    obtain ⟨value, s₂, -, h⟩ := exec_bind_ok h
    cases h
    refine ⟨rfl, rfl, rfl, (fun h => by cases h), fun _ => rfl, ?_⟩
    rintro (h | ⟨h, -⟩) <;> cases h
  | CallDelegate =>
    cases h
    refine ⟨rfl, rfl, rfl, fun _ => ⟨rfl, rfl⟩, fun h => absurd rfl h, ?_⟩
    rintro (h | ⟨h, -⟩) <;> cases h
  | CallStatic =>
    cases h
    exact ⟨rfl, rfl, rfl, (fun h => by cases h), fun _ => rfl, fun _ => rfl⟩

/-- A static call is static, and the flag is inherited otherwise. -/
theorem Addressed.isStatic_iff {kind : EEICallKind} {msg : EvmcMessage} (h : Addressed I kind msg) :
    msg.isStatic ↔ kind = .CallStatic ∨ I.msg.isStatic := by
  unfold EvmcMessage.isStatic
  rw [h.flags]
  have hand : I.msg.flags &&& EVMC_STATIC &&& EVMC_STATIC = I.msg.flags &&& EVMC_STATIC := by
    rw [BitVec.and_assoc, BitVec.and_self]
  split
  · rename_i hkind
    refine iff_of_true (fun hzero => ?_) (.inl hkind)
    have hbit := congrArg (fun v => BitVec.getLsbD v 0) hzero
    simp [EVMC_STATIC] at hbit
  · rename_i hkind
    rw [hand]
    exact ⟨.inr, fun h => h.resolve_left hkind⟩

theorem chargeTransfer_keeps (kind : EEICallKind) (msg : EvmcMessage) :
    Keeps I a n (I.chargeTransfer kind msg) :=
  Upholds.ite
    (fun _ => charge_bind_keeps <| Upholds.bind (enoughSenderBalanceFor_keeps I _) fun _ =>
      Upholds.ite (fun _ => Upholds.pure _) fun _ => Upholds.get_bind fun _ =>
        Upholds.bind (Upholds.when fun _ => takeInterfaceGas_keeps I _) fun _ => Upholds.pure _)
    fun _ => Upholds.pure _

/-- The value is charged for where it is sent. -/
theorem chargeTransfer_metered {kind : EEICallKind} {msg : EvmcMessage} {s s' : EeiState W}
    {b : Bool} (hm : I.meterGas = true)
    (hsent : (kind = .Call ∨ kind = .CallCode) ∧ ¬ isZero msg.value)
    (h : (I.chargeTransfer kind msg).exec s = (.ok b, s')) :
    s'.result.gasLeft + 9000 ≤ s.result.gasLeft := by
  unfold EthereumInterface.chargeTransfer at h
  rw [if_pos hsent] at h
  obtain ⟨_, s₁, hcharge, h⟩ := exec_bind_ok h
  obtain ⟨-, -, hgas⟩ := takeInterfaceGas_metered hm hcharge
  have hrest : Kept I 0 0 s₁ s' := Keeps.of_ok
    (Upholds.bind (enoughSenderBalanceFor_keeps I _) fun _ =>
      Upholds.ite (fun _ => Upholds.pure _) fun _ => Upholds.get_bind fun _ =>
        Upholds.bind (Upholds.when fun _ => takeInterfaceGas_keeps I _) fun _ => Upholds.pure _) h
  have hle := hrest.gas_le
  unfold GasSchedule.valuetransfer at hgas
  omega

/-- The stipend of a message. -/
def stipend (msg : EvmcMessage) : Int := if ¬ isZero msg.value then GasSchedule.valueStipend else 0

theorem stipend_nonneg (msg : EvmcMessage) : 0 ≤ stipend msg := by
  unfold stipend
  split <;> decide

theorem stipend_le (msg : EvmcMessage) : stipend msg ≤ 2300 := by
  unfold stipend
  split <;> decide

theorem maxCallGas_nonneg {gas : Int} (h : 0 ≤ gas) : 0 ≤ maxCallGas gas := by
  unfold maxCallGas
  rw [Int.tdiv_eq_ediv_of_nonneg h]
  omega

/-- The stipend is added to what is forwarded of an `int64_t`: the sum is one. -/
theorem maxCallGas_lt {gas : Int} (h : gas < 2 ^ 63) : maxCallGas gas + 2300 < 2 ^ 63 := by
  unfold maxCallGas
  rcases le_or_gt 0 gas with hpos | hneg
  · rw [Int.tdiv_eq_ediv_of_nonneg hpos]
    omega
  · obtain ⟨n, rfl⟩ : ∃ n : Nat, gas = -(n : Int) := ⟨gas.natAbs, by omega⟩
    rw [Int.neg_tdiv, Int.tdiv_eq_ediv_of_nonneg (Int.natCast_nonneg n)]
    omega

theorem forwardGas_keeps {gas : Int} (msg : EvmcMessage) : Keeps I a n (I.forwardGas gas msg) :=
  Upholds.get_bind fun _ => Upholds.bind (takeInterfaceGas_keeps I _) fun _ => Upholds.pure _

/-- **What is forwarded**: the gas taken, and the stipend on top of it. -/
theorem forwardGas_ok {gas : Int} {msg msg' : EvmcMessage} {s s' : EeiState W}
    (h : (I.forwardGas gas msg).exec s = (.ok msg', s')) :
    ∃ g, msg' = { msg with gas := g } ∧
      (0 ≤ gas → 0 ≤ s.result.gasLeft → 0 ≤ g) ∧
      (s.result.gasLeft < 2 ^ 63 → g < 2 ^ 63) ∧
      (I.meterGas = true → s'.result.gasLeft + g = s.result.gasLeft + stipend msg) := by
  obtain ⟨_, s₁, hget, h⟩ := exec_bind_ok h
  cases hget
  obtain ⟨_, s₂, hcharge, h⟩ := exec_bind_ok h
  cases h
  refine ⟨min gas (maxCallGas s.result.gasLeft) + stipend msg, ?_, ?_, ?_, ?_⟩
  · unfold stipend
    split
    · rfl
    · rw [Int.add_zero]
  · intro hgas hleft
    have hmax := maxCallGas_nonneg hleft
    have hst := stipend_nonneg msg
    omega
  · intro hlt
    have hmax := maxCallGas_lt hlt
    have hst := stipend_le msg
    omega
  · intro hm
    obtain ⟨-, -, hspent⟩ := takeInterfaceGas_metered hm hcharge
    omega

/-! ## §4 — what is handed out. -/

/-- The message is a delegate call that carries a value: nobody has paid for its stipend. -/
def Unpaid (msg : EvmcMessage) : Prop := msg.kind = .EVMC_DELEGATECALL ∧ ¬ isZero msg.value

instance Unpaid.decidable (msg : EvmcMessage) : Decidable (Unpaid msg) :=
  inferInstanceAs (Decidable (_ ∧ _))

/-- What is handed out beyond what is taken: the stipend less the 700 of the call. -/
def windfall (msg : EvmcMessage) : Int := if Unpaid msg then 1600 else 0

/-- **The message, and the state behind it.** -/
structure Sends (I : EthereumInterface W) (s s' : EeiState W) (msg : EvmcMessage) : Prop where
  kept : ∀ a n, Kept I a n s s'
  static : I.msg.isStatic → msg.isStatic
  depth : msg.depth = I.msg.depth + 1
  depth_lt : I.msg.depth < 1024
  created : msg.kind = .EVMC_CREATE → ¬ I.msg.isStatic
  gas_nonneg : 0 ≤ s.result.gasLeft → 0 ≤ msg.gas
  gas_lt : s.result.gasLeft < 2 ^ 63 → msg.gas < 2 ^ 63
  charged : I.meterGas = true → 0 ≤ s.result.gasLeft
  paid : I.meterGas = true → s'.result.gasLeft + msg.gas ≤ s.result.gasLeft + windfall msg

theorem loadInput_keeps (dataOffset dataLength : BitVec 32) :
    Keeps I a n (loadInput dataOffset dataLength : Eei W (List Byte)) :=
  Upholds.ite (fun _ => Upholds.pure _) fun _ => Upholds.bind
    (ensureSourceMemoryBounds_keeps _ _) fun _ =>
    loadMemoryBytes_keeps _ _

theorem callMessage_keeps (kind : EEICallKind) (addressOffset valueOffset : BitVec 32) :
    Keeps I a n (I.callMessage kind addressOffset valueOffset) := by
  refine Upholds.bind (loadAddress_keeps _) fun _ => ?_
  cases kind with
  | Call =>
    exact Upholds.bind (loadUint128_keeps _) fun _ =>
      Upholds.bind (Upholds.when fun _ => ensureCondition_keeps _ _) fun _ => Upholds.pure _
  | CallCode => exact Upholds.bind (loadUint128_keeps _) fun _ => Upholds.pure _
  | CallDelegate | CallStatic => exact Upholds.pure _

/-- Up to `m_host.call`, a call is a function like the others. -/
theorem eeiCallBegin_keeps (kind : EEICallKind) (gas : BitVec 64)
    (addressOffset valueOffset dataOffset dataLength : BitVec 32) :
    Keeps I a n (I.eeiCallBegin kind gas addressOffset valueOffset dataOffset dataLength) :=
  Upholds.bind (ensureCondition_keeps _ _) fun _ => Upholds.bind (callMessage_keeps _ _ _) fun _ =>
    Upholds.bind (loadInput_keeps _ _) fun _ => charge_bind_keeps <|
      Upholds.ite (fun _ => Upholds.pure _) fun _ =>
      Upholds.bind (chargeTransfer_keeps _ _) fun _ => Upholds.ite
        (fun _ => Upholds.pure _) fun _ =>
        Upholds.bind (forwardGas_keeps _) fun _ => Upholds.pure _

theorem eeiCreateBegin_keeps (valueOffset dataOffset length : BitVec 32) :
    Keeps I a n (I.eeiCreateBegin valueOffset dataOffset length) :=
  charge_bind_keeps <| Upholds.bind (ensureCondition_keeps _ _) fun _ => Upholds.bind
    (loadUint128_keeps _) fun _ =>
    Upholds.ite (fun _ => Upholds.pure _) fun _ => Upholds.bind
      (enoughSenderBalanceFor_keeps I _) fun _ =>
      Upholds.ite (fun _ => Upholds.pure _) fun _ => Upholds.bind (loadInput_keeps _ _) fun _ =>
        Upholds.get_bind fun _ => charge_bind_keeps (Upholds.pure _)

/-- A call charges 700, and 9000 for a value that it sends. -/
theorem stipend_le_windfall {kind : EEICallKind} {msg : EvmcMessage} (h : Addressed I kind msg)
    (hsent : ¬ ((kind = .Call ∨ kind = .CallCode) ∧ ¬ isZero msg.value)) :
    stipend msg ≤ 700 + windfall msg := by
  unfold stipend windfall
  by_cases hvalue : isZero msg.value
  · rw [if_neg (not_not_intro hvalue)]
    split <;> decide
  · have hdelegate : kind = .CallDelegate := by
      cases kind with
      | Call => exact absurd ⟨.inl rfl, hvalue⟩ hsent
      | CallCode => exact absurd ⟨.inr rfl, hvalue⟩ hsent
      | CallDelegate => rfl
      | CallStatic => exact absurd (h.noValue (.inl rfl)) hvalue
    have hunpaid : Unpaid msg := ⟨by rw [h.kind_eq, hdelegate]; rfl, hvalue⟩
    rw [if_pos hvalue, if_pos hunpaid]
    decide

/-- **`eeiCall`** hands out what `Sends` says. -/
theorem eeiCallBegin_sends {kind : EEICallKind} {gas : BitVec 64}
    {addressOffset valueOffset dataOffset dataLength : BitVec 32} {s s' : EeiState W}
    {msg : EvmcMessage}
    (h : (I.eeiCallBegin kind gas addressOffset valueOffset dataOffset dataLength).exec s =
      (.ok (.call msg), s')) :
    Sends I s s' msg ∧ msg.kind = evmcKind kind := by
  have hkept : ∀ a n, Kept I a n s s' := fun a n => Keeps.of_ok (eeiCallBegin_keeps ..) h
  obtain ⟨_, s₁, hcheck, h₁⟩ := exec_bind_ok h
  obtain rfl := (ensureCondition_reads _ _).eq hcheck
  have hgas : 0 ≤ gas.toInt := by
    by_contra hneg
    rw [exec_ensureCondition_of_not hneg] at hcheck
    cases hcheck
  obtain ⟨msg₀, s₂, hmsg, h₂⟩ := exec_bind_ok h₁
  have haddr := callMessage_ok hmsg
  obtain rfl := (callMessage_reads _ _ _).eq hmsg
  obtain ⟨input, s₃, hinput, h₃⟩ := exec_bind_ok h₂
  obtain rfl := (loadInput_reads _ _).eq hinput
  obtain ⟨_, s₄, hcall, h₄⟩ := exec_bind_ok h₃
  have hkept₄ : Kept I 0 0 s₃ s₄ := Keeps.of_ok (takeInterfaceGas_keeps I _) hcall
  rw [exec_ite] at h₄
  split at h₄
  · cases h₄
  rename_i hdepth
  obtain ⟨enough, s₅, htransfer, h₅⟩ := exec_bind_ok h₄
  have hkept₅ : Kept I 0 0 s₄ s₅ := Keeps.of_ok (chargeTransfer_keeps kind msg₀) htransfer
  rw [exec_ite] at h₅
  split at h₅
  · cases h₅
  obtain ⟨msg', s₆, hforward, h₆⟩ := exec_bind_ok h₅
  cases h₆
  obtain ⟨g, rfl, hnonneg, hrange, hpaid⟩ := forwardGas_ok hforward
  refine ⟨⟨hkept, fun hs => ?_, haddr.depth, lt_of_not_ge hdepth, fun hk => ?_, fun hs => ?_,
    fun hlt => ?_, fun hm => ?_, fun hm => ?_⟩, haddr.kind_eq⟩
  · exact haddr.isStatic_iff.mpr (.inr hs)
  · have hkind : evmcKind kind = .EVMC_CREATE := haddr.kind_eq.symm.trans hk
    cases kind <;> cases hkind
  · exact hnonneg hgas (hkept₅.gas_nonneg (hkept₄.gas_nonneg hs))
  · exact hrange (Int.lt_of_le_of_lt (Int.le_trans hkept₅.gas_le hkept₄.gas_le) hlt)
  · obtain ⟨hpos, hle, -⟩ := takeInterfaceGas_metered hm hcall
    exact Int.le_trans hpos hle
  · obtain ⟨-, -, hspent⟩ := takeInterfaceGas_metered hm hcall
    have hleft := hpaid hm
    have hstipend : stipend { msg₀ with input := input } = stipend msg₀ := rfl
    have hwindfall : windfall { msg₀ with gas := g, input := input } = windfall msg₀ := rfl
    have hle := hkept₅.gas_le
    unfold GasSchedule.call at hspent
    rw [hstipend] at hleft
    show _ + g ≤ _ + windfall { msg₀ with gas := g, input := input }
    rw [hwindfall]
    by_cases hsent : (kind = .Call ∨ kind = .CallCode) ∧ ¬ isZero msg₀.value
    · have hvalue := chargeTransfer_metered hm hsent htransfer
      have hst : stipend msg₀ = 2300 := if_pos hsent.2
      have hw : 0 ≤ windfall msg₀ := by
        unfold windfall
        split <;> decide
      omega
    · have hst := stipend_le_windfall haddr hsent
      omega

/-- **`eeiCreate`** too, out of a message that is not static. -/
theorem eeiCreateBegin_sends {valueOffset dataOffset length : BitVec 32} {s s' : EeiState W}
    {msg : EvmcMessage}
    (h : (I.eeiCreateBegin valueOffset dataOffset length).exec s = (.ok (.call msg), s')) :
    Sends I s s' msg ∧ msg.kind = .EVMC_CREATE := by
  have hkept : ∀ a n, Kept I a n s s' := fun a n => Keeps.of_ok (eeiCreateBegin_keeps ..) h
  obtain ⟨_, s₁, hcharge, h₁⟩ := exec_bind_ok h
  have hkept₁ : Kept I 0 0 s s₁ := Keeps.of_ok (takeInterfaceGas_keeps I _) hcharge
  obtain ⟨_, s₂, hcheck, h₂⟩ := exec_bind_ok h₁
  have hstatic : ¬ I.msg.isStatic := by
    intro hs
    rw [exec_ensureCondition_of_not (not_not_intro hs)] at hcheck
    cases hcheck
  obtain rfl := (ensureCondition_reads _ _).eq hcheck
  obtain ⟨value, s₃, hvalue, h₃⟩ := exec_bind_ok h₂
  obtain rfl := (loadUint128_reads _).eq hvalue
  rw [exec_ite] at h₃
  split at h₃
  · cases h₃
  rename_i hdepth
  obtain ⟨enough, s₄, henough, h₄⟩ := exec_bind_ok h₃
  obtain rfl := (enoughSenderBalanceFor_reads _).eq henough
  rw [exec_ite] at h₄
  split at h₄
  · cases h₄
  obtain ⟨input, s₅, hinput, h₅⟩ := exec_bind_ok h₄
  obtain rfl := (loadInput_reads _ _).eq hinput
  obtain ⟨_, s₆, hget, h₆⟩ := exec_bind_ok h₅
  cases hget
  obtain ⟨_, s₇, htake, h₇⟩ := exec_bind_ok h₆
  cases h₇
  refine ⟨⟨hkept, fun hs => absurd hs hstatic, rfl, lt_of_not_ge hdepth, fun _ => hstatic,
    fun hs => ?_, fun hlt => ?_, fun hm => ?_, fun hm => ?_⟩, rfl⟩
  · exact maxCallGas_nonneg (hkept₁.gas_nonneg hs)
  · have hmax := maxCallGas_lt (Int.lt_of_le_of_lt hkept₁.gas_le hlt)
    show maxCallGas s₅.result.gasLeft < 2 ^ 63
    omega
  · obtain ⟨hpos, hle, -⟩ := takeInterfaceGas_metered hm hcharge
    exact Int.le_trans hpos hle
  · obtain ⟨-, -, hspent⟩ := takeInterfaceGas_metered hm htake
    have hle := hkept₁.gas_le
    have hw :
        windfall ⟨.EVMC_CREATE, 0, I.msg.depth + 1, maxCallGas s₅.result.gasLeft, Address.of 0,
        I.msg.destination, input, value⟩ = 0 := if_neg (fun h => by cases h.1)
    rw [hw]
    show s'.result.gasLeft + maxCallGas s₅.result.gasLeft ≤ s.result.gasLeft + 0
    omega

/-! ## §5 — what comes back. -/

/-- The state behind the part of a call that takes the client's result. -/
structure Resumes (result : EvmcResult) (a n : Nat) (s s' : EeiState W) : Prop where
  gas_eq : 0 ≤ result.gasLeft → s'.result.gasLeft = int64Add s.result.gasLeft result.gasLeft
  size : s'.memory.size = s.memory.size
  bytes : ∀ i, ¬ InRange a n i → s'.memory.bytes i = s.memory.bytes i
  world : s'.world = s.world

theorem exec_returnGas (result : EvmcResult) (s : EeiState W) :
    Program.exec (returnGas result : Eei W Unit) s =
      if 0 ≤ result.gasLeft then (.ok (),
          { s with result.gasLeft := int64Add s.result.gasLeft result.gasLeft })
      else (.error (.exception (.InternalErrorException "EVMC returned negative gas left")),
        s) := by
  unfold returnGas heraAssert
  rw [exec_bind, exec_ensureCondition]
  split
  · rfl
  · rfl

/-- What is thrown, if anything, is an exception that does not end the execution well. -/
def Breaks (r : Except Fault α) : Prop :=
  ∀ f, r = .error f → ∃ e, f = .exception e ∧ e ≠ .EndExecution

theorem Breaks.ok (v : α) : Breaks (.ok v : Except Fault α) := fun f h => by cases h

theorem Breaks.error {e : HeraException} (he : e ≠ .EndExecution) :
    Breaks (.error (.exception e) : Except Fault α) := fun f h => by cases h; exact ⟨e, rfl, he⟩

/-- Behind `eeiCall`: it throws for a negative gas only. -/
theorem eeiCallEnd_spec (result : EvmcResult) (s : EeiState W) :
    Resumes result 0 0 s (Program.exec (eeiCallEnd result : Eei W (BitVec 32)) s).2 ∧
      Breaks (Program.exec (eeiCallEnd result : Eei W (BitVec 32)) s).1 := by
  unfold eeiCallEnd
  rw [exec_bind, exec_modify, andThen_ok, exec_bind, exec_returnGas]
  split
  · rename_i hgas
    rw [andThen_ok, exec_pure]
    exact ⟨⟨fun _ => rfl, rfl, fun _ _ => rfl, rfl⟩, Breaks.ok _⟩
  · rename_i hgas
    rw [andThen_error]
    exact ⟨⟨fun h => absurd h hgas, rfl, fun _ _ => rfl, rfl⟩, Breaks.error (fun h => by cases h)⟩

/-- The state behind an operation that may only store bytes of the result area, whatever the return
data are. -/
theorem storeCreated_spec (resultOffset : BitVec 32) (result : EvmcResult) (s : EeiState W) :
    Breaks (Program.exec (storeCreated resultOffset result : Eei W Unit) s).1 ∧
      ∃ bs l, (Program.exec (storeCreated resultOffset result : Eei W Unit) s).2 =
        { s.writing resultOffset.toNat bs with lastReturnData := l } ∧ bs.length ≤ 20 := by
  have hlen := result.createAddress.length_eq
  unfold storeCreated
  split
  · unfold storeAddress
    rw [exec_bind, exec_storeMemory (by rw [hlen]; decide)]
    split
    · rw [andThen_ok, exec_modify]
      refine ⟨Breaks.ok _, _, [], rfl, ?_⟩
      exact Nat.le_trans (List.length_take_le _ _) (by decide)
    · rw [andThen_error]
      refine ⟨Breaks.error (fun h => by cases h), [], s.lastReturnData, ?_, Nat.zero_le _⟩
      rw [writing_nil]
  · rw [exec_modify]
    refine ⟨Breaks.ok _, [], result.output, ?_, Nat.zero_le _⟩
    rw [writing_nil]

/-- Behind `eeiCreate`: the address is all that is stored. -/
theorem eeiCreateEnd_spec (resultOffset : BitVec 32) (result : EvmcResult) (s : EeiState W) :
    Resumes result resultOffset.toNat 20 s
        (Program.exec (eeiCreateEnd resultOffset result : Eei W (BitVec 32)) s).2 ∧
      Breaks (Program.exec (eeiCreateEnd resultOffset result : Eei W (BitVec 32)) s).1 := by
  unfold eeiCreateEnd
  rw [exec_bind, exec_returnGas]
  split
  · rename_i hgas
    rw [andThen_ok, exec_bind]
    obtain ⟨hbreaks, bs, l, hstate, hlen⟩ := storeCreated_spec resultOffset result
      { s with result.gasLeft := int64Add s.result.gasLeft result.gasLeft }
    rcases hrun : Program.exec (storeCreated resultOffset result : Eei W Unit)
      { s with result.gasLeft := int64Add s.result.gasLeft result.gasLeft } with ⟨r, s'⟩
    rw [hrun] at hbreaks hstate
    have hresumes : Resumes result resultOffset.toNat 20 s s' := by
      obtain rfl := hstate
      refine ⟨fun _ => rfl, rfl, fun i hi => ?_, rfl⟩
      exact write_of_not_inRange fun h => hi ⟨h.1, by have := h.2; omega⟩
    rcases r with f | u
    · refine ⟨hresumes, fun g hg => ?_⟩
      cases hg
      exact hbreaks f rfl
    · exact ⟨hresumes, Breaks.ok _⟩
  · rename_i hgas
    rw [andThen_error]
    exact ⟨⟨fun h => absurd h hgas, rfl, fun _ _ => rfl, rfl⟩, Breaks.error (fun h => by cases h)⟩

/-- A call goes on only where the client has not returned less than nothing. -/
theorem returnGas_ok {result : EvmcResult} {s s' : EeiState W} {u : Unit}
    (h : Program.exec (returnGas result : Eei W Unit) s = (.ok u, s')) : 0 ≤ result.gasLeft := by
  rw [exec_returnGas] at h
  split at h
  · assumption
  · cases h

theorem eeiCallEnd_ok {result : EvmcResult} {s s' : EeiState W} {v : BitVec 32}
    (h : Program.exec (eeiCallEnd result : Eei W (BitVec 32)) s = (.ok v, s')) :
    0 ≤ result.gasLeft := by
  obtain ⟨_, s₁, -, h₁⟩ := exec_bind_ok h
  obtain ⟨_, s₂, hreturn, -⟩ := exec_bind_ok h₁
  exact returnGas_ok hreturn

theorem eeiCreateEnd_ok {resultOffset : BitVec 32} {result : EvmcResult} {s s' : EeiState W}
    {v : BitVec 32}
    (h : Program.exec (eeiCreateEnd resultOffset result : Eei W (BitVec 32)) s = (.ok v, s')) :
    0 ≤ result.gasLeft := by
  obtain ⟨_, s₁, hreturn, -⟩ := exec_bind_ok h
  exact returnGas_ok hreturn

end EvmTrans.Hera
