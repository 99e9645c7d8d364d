/-
# `EvmTrans.Hera.Boundary` — the host of the contract's side is this host, without the charges.

The code that a contract is compiled to was related to host functions in a model of their own, one
that has no gas to charge and no texts to throw: a function either answers or does not. `view` turns
the object of this model into that one, and each function, uncharged, does what its counterpart
does: it throws where that gives none, and leaves the same bytes and the same answer where that
gives some.
-/
import EvmTrans.Hera.GasLedger
import EvmTrans.WordBoundary

namespace EvmTrans.Hera

open Lib (Program read write ofBE ofBE_cons ofBE_lt exec_bind exec_get exec_pure exec_modify
  exec_ite andThen_ok andThen_error length_read)

variable {W α : Type}

/-! ## §1 — answers. -/

/-- The program gives what `o` gives, and throws an exception of its own where `o` gives none; the
state is left as `after` says. -/
def Mirrors (o : Option α) (after : α → EeiState W) {β : Type} (answer : α → β) (s : EeiState W)
    (out : Except Fault β × EeiState W) : Prop :=
  match o with
  | some v => out = (.ok (answer v), after v)
  | none => ∃ e, e ≠ .EndExecution ∧ out = (.error (.exception e), s)

/-- The state with another memory. -/
def EeiState.withMemory (s : EeiState W) (m : LinMem) : EeiState W := { s with memory := m }

/-- Charges that are off. -/
theorem takeInterfaceGas_off {I : EthereumInterface W} (h : I.meterGas = false) (gas : Int) :
    I.takeInterfaceGas gas = pure () := by
  unfold EthereumInterface.takeInterfaceGas
  rw [if_pos (by rw [h]; exact Bool.false_ne_true)]

/-! ## §2 — loads and stores. -/

theorem fixed_of_length {n : Nat} {bs : List Byte} (h : bs.length = n) : fixed n bs = ⟨bs, h⟩ := by
  refine FixedBytes.ext ?_
  show (bs ++ List.replicate n 0).take n = bs
  rw [← h, List.take_left]

/-- `loadMemory` into a fixed number of bytes. -/
theorem loadFixed_mirrors {n : Nat} (hn : n ≤ 2 ^ 32) {s : EeiState W}
    (hsize : s.memory.size ≤ 2 ^ 32) (srcOffset : BitVec 32) :
    Mirrors (EvmTrans.loadFixed n s.memory srcOffset.toNat) (fun _ => s) id s
      (Program.exec (do return fixed n (← loadMemory srcOffset n) : Eei W (FixedBytes n)) s) := by
  unfold EvmTrans.loadFixed
  rw [exec_bind, exec_loadMemory hn]
  split
  · rename_i h
    rw [andThen_ok, exec_pure, bytesAt_eq_read hsize h, fixed_of_length (length_read ..)]
    rfl
  · rw [andThen_error]
    exact ⟨_, (fun h => by cases h), rfl⟩

/-- `storeMemory` out of a fixed number of bytes. -/
theorem storeFixed_mirrors {n : Nat} (hn : n < 2 ^ 32) (src : FixedBytes n) (dstOffset : BitVec 32)
    (s : EeiState W) :
    Mirrors (EvmTrans.storeFixed src dstOffset.toNat s.memory) s.withMemory (fun _ => ()) s
      (Program.exec (storeMemory src.bytes dstOffset (BitVec.ofNat 32 n) : Eei W Unit) s) := by
  have hlen : (BitVec.ofNat 32 n).toNat = n := by rw [BitVec.toNat_ofNat, Nat.mod_eq_of_lt hn]
  rw [exec_storeMemory (by rw [hlen, src.length_eq]), hlen]
  unfold EvmTrans.storeFixed LinMem.store
  by_cases hwrap : dstOffset.toNat + n < 2 ^ 32
  · rw [if_pos hwrap, src.length_eq]
    by_cases hin : dstOffset.toNat + n ≤ s.memory.size
    · rw [if_pos hin, if_pos ⟨hwrap, hin⟩, List.take_of_length_le (Nat.le_of_eq src.length_eq)]
      rfl
    · rw [if_neg hin, if_neg (fun h => hin h.2)]
      exact ⟨_, (fun h => by cases h), rfl⟩
  · rw [if_neg hwrap, if_neg (fun h => hwrap h.1)]
    exact ⟨_, (fun h => by cases h), rfl⟩

/-- `storeMemory` out of a view. -/
theorem storeMemoryView_mirrors (src : List Byte) (srcOffset dstOffset length : BitVec 32)
    (s : EeiState W) :
    Mirrors (EvmTrans.storeMemory src srcOffset.toNat dstOffset.toNat length.toNat s.memory)
      s.withMemory (fun _ => ()) s
      (Program.exec (storeMemoryView src srcOffset dstOffset length : Eei W Unit) s) := by
  rw [exec_storeMemoryView]
  unfold EvmTrans.storeMemory LinMem.store
  by_cases hsrc : srcOffset.toNat + length.toNat < 2 ^ 32 ∧
    srcOffset.toNat + length.toNat ≤ src.length
  · have hlen : ((src.drop srcOffset.toNat).take length.toNat).length = length.toNat := by
      rw [List.length_take, List.length_drop]
      omega
    rw [if_pos hsrc, hlen]
    by_cases hwrap : dstOffset.toNat + length.toNat < 2 ^ 32
    · rw [if_pos ⟨hsrc.1, hsrc.2, hwrap⟩]
      by_cases hin : dstOffset.toNat + length.toNat ≤ s.memory.size
      · rw [if_pos hin, if_pos ⟨hwrap, hin⟩]
        rfl
      · rw [if_neg hin, if_neg (fun h => hin h.2)]
        exact ⟨_, (fun h => by cases h), rfl⟩
    · rw [if_neg (fun h => hwrap h.2.2), if_neg (fun h => hwrap h.1)]
      exact ⟨_, (fun h => by cases h), rfl⟩
  · rw [if_neg hsrc, if_neg (fun h => hsrc ⟨h.1, h.2.1⟩)]
    exact ⟨_, (fun h => by cases h), rfl⟩

/-! ## §3 — copies. -/

section
variable {I : EthereumInterface W} (s : EeiState W)

theorem safeChargeDataCopy_off (hfree : I.meterGas = false) (length : BitVec 32) (baseCost : Int) :
    I.safeChargeDataCopy length baseCost = pure () := by
  unfold EthereumInterface.safeChargeDataCopy
  rw [takeInterfaceGas_off hfree, takeInterfaceGas_off hfree]
  rfl

theorem eeiCallDataCopy_mirrors (hfree : I.meterGas = false)
    (resultOffset dataOffset length : BitVec 32) :
    Mirrors (EvmTrans.eeiCallDataCopy I.msg.input resultOffset.toNat dataOffset.toNat
      length.toNat s.memory) s.withMemory (fun _ => ()) s (Program.exec
      (I.eeiCallDataCopy resultOffset dataOffset length) s) := by
  unfold EthereumInterface.eeiCallDataCopy EvmTrans.eeiCallDataCopy callDataLength
  rw [safeChargeDataCopy_off hfree, pure_bind, BitVec.toNat_add]
  split
  · exact storeMemoryView_mirrors _ _ _ _ s
  · have hcut : (BitVec.ofNat 32 I.msg.input.length - dataOffset).toNat =
        (I.msg.input.length + 2 ^ 32 - dataOffset.toNat) % 2 ^ 32 := by
      have hlt := dataOffset.isLt
      rw [BitVec.toNat_sub, BitVec.toNat_ofNat]
      omega
    rw [← hcut]
    exact storeMemoryView_mirrors _ _ _ _ s

theorem eeiReturnDataCopy_mirrors (hfree : I.meterGas = false)
    (dataOffset offset size : BitVec 32) :
    Mirrors (EvmTrans.eeiReturnDataCopy s.lastReturnData dataOffset.toNat offset.toNat
      size.toNat s.memory) s.withMemory (fun _ => ()) s (Program.exec
      (I.eeiReturnDataCopy dataOffset offset size) s) := by
  unfold EthereumInterface.eeiReturnDataCopy EvmTrans.eeiReturnDataCopy
  rw [safeChargeDataCopy_off hfree, pure_bind, exec_bind, exec_get, andThen_ok]
  exact storeMemoryView_mirrors _ _ _ _ s

end

/-! ## §4 — numbers of 128 bits. -/

/-- One byte more. -/
theorem toNat_shift_or (v : BitVec 128) (b : Byte) :
    (v <<< 8 ||| b.setWidth 128).toNat = (v.toNat * 256 + b.toNat) % 2 ^ 128 := by
  have hdisjoint : v <<< 8 &&& b.setWidth 128 = 0 := by
    ext i hi
    simp only [BitVec.getElem_and, BitVec.getElem_shiftLeft, BitVec.getElem_setWidth]
    by_cases h : i < 8
    · simp [h]
    · have : b.getLsbD i = false := BitVec.getLsbD_of_ge b i (by omega)
      simp [this]
  rw [← BitVec.add_eq_or_of_and_eq_zero _ _ hdisjoint, BitVec.toNat_add, BitVec.toNat_shiftLeft,
    BitVec.toNat_setWidth, Nat.shiftLeft_eq]
  omega

/-- The loop of `safeLoadUint128`. -/
theorem toNat_foldl_bytes (bs : List Byte) : ∀ v : BitVec 128,
    (bs.foldl (fun (ret : BitVec 128) b => ret <<< 8 ||| b.setWidth 128) v).toNat =
      (v.toNat * 256 ^ bs.length + ofBE bs) % 2 ^ 128 := by
  induction bs with
  | nil =>
    intro v
    show v.toNat = (v.toNat * 1 + 0) % 2 ^ 128
    have hlt := v.isLt
    omega
  | cons b bs ih =>
    intro v
    rw [List.foldl_cons, ih, toNat_shift_or, ofBE_cons, List.length_cons]
    have hsum : v.toNat * 256 ^ (bs.length + 1) + (b.toNat * 256 ^ bs.length + ofBE bs) =
        (v.toNat * 256 + b.toNat) * 256 ^ bs.length + ofBE bs := by ring
    rw [hsum]
    exact Nat.ModEq.add_right _ ((Nat.mod_modEq _ _).mul_right _)

theorem ofBE_eq_zero_iff (bs : List Byte) : ofBE bs = 0 ↔ ∀ b ∈ bs, b = 0 := by
  induction bs with
  | nil => exact iff_of_true rfl fun b hb => by cases hb
  | cons b bs ih =>
    have hpos : 0 < 256 ^ bs.length := Nat.pow_pos (by decide)
    have hb : b.toNat = 0 ↔ b = 0 := by
      rw [← BitVec.toNat_inj]
      rfl
    rw [ofBE_cons, Nat.add_eq_zero_iff, Nat.mul_eq_zero, List.forall_mem_cons, ih, hb]
    constructor
    · rintro ⟨h | h, hrest⟩
      · exact ⟨h, hrest⟩
      · exact absurd h (Nat.ne_of_gt hpos)
    · rintro ⟨h, hrest⟩
      exact ⟨.inl h, hrest⟩

/-- The two halves of a `uint256be`. -/
theorem ofBE_halves (v : Bytes32) :
    ofBE v.bytes = ofBE (v.bytes.take 16) * 2 ^ 128 + ofBE (v.bytes.drop 16) := by
  have hlen : (v.bytes.drop 16).length = 16 := by rw [List.length_drop, v.length_eq]
  have happend (as bs : List Byte) : ofBE (as ++ bs) = ofBE as * 256 ^ bs.length + ofBE bs := by
    unfold ofBE
    rw [List.reverse_append, Lib.ofLE_append, List.length_reverse]
    ring
  conv_lhs => rw [← List.take_append_drop 16 v.bytes, happend, hlen]
  rfl

theorem exceedsUint128_iff (v : Bytes32) : exceedsUint128 v ↔ 2 ^ 128 ≤ ofBE v.bytes := by
  have hlow : ofBE (v.bytes.drop 16) < 2 ^ 128 := by
    have h := ofBE_lt (v.bytes.drop 16)
    rwa [List.length_drop, v.length_eq] at h
  have hzero := ofBE_eq_zero_iff (v.bytes.take 16)
  have hhalves := ofBE_halves v
  unfold exceedsUint128
  constructor
  · rintro ⟨b, hb, hne⟩
    have hpos : ofBE (v.bytes.take 16) ≠ 0 := fun h => hne (hzero.mp h b hb)
    omega
  · intro h
    by_contra hnone
    have hhigh : ofBE (v.bytes.take 16) = 0 := hzero.mpr fun b hb => by
      by_contra hne
      exact hnone ⟨b, hb, hne⟩
    omega

/-- What `safeLoadUint128` makes of its argument. -/
def low128 (v : Bytes32) : BitVec 128 :=
  (v.bytes.drop 16).foldl (fun ret b => ret <<< 8 ||| b.setWidth 128) 0

theorem toNat_low128 {v : Bytes32} (h : ¬ exceedsUint128 v) : (low128 v).toNat = ofBE v.bytes := by
  have hhigh : ofBE (v.bytes.take 16) = 0 := (ofBE_eq_zero_iff _).mpr fun b hb => by
    by_contra hne
    exact h ⟨b, hb, hne⟩
  have hlt := Nat.lt_of_not_le (mt (exceedsUint128_iff v).mpr h)
  have hhalves := ofBE_halves v
  have hfold := toNat_foldl_bytes (v.bytes.drop 16) 0
  rw [show (0 : BitVec 128).toNat = 0 from rfl, Nat.zero_mul, Nat.zero_add,
    Nat.mod_eq_of_lt (by omega)] at hfold
  unfold low128
  omega

theorem exec_safeLoadUint128 (v : Bytes32) (s : EeiState W) :
    Program.exec (safeLoadUint128 v : Eei W (BitVec 128)) s = if exceedsUint128 v then
      (.error (.exception
        (.ArgumentOutOfRange "Account balance (or transaction value) exceeds 128 bits.")), s)
      else (.ok (low128 v), s) := by
  unfold safeLoadUint128
  rw [exec_bind, exec_ensureCondition]
  by_cases h : exceedsUint128 v
  · rw [if_neg (not_not_intro h), if_pos h, andThen_error]
  · rw [if_pos h, if_neg h, andThen_ok]
    rfl

/-! ## §5 — calls. -/

/-- The kind of a message. A message in execution is asked for everything but its kind. -/
def EvmcCallKind.view : EvmcCallKind → EvmTrans.EvmcCallKind
  | .EVMC_CALL | .EVMC_CREATE | .EVMC_CREATE2 => .EVMC_CALL
  | .EVMC_CALLCODE => .EVMC_CALLCODE
  | .EVMC_DELEGATECALL => .EVMC_DELEGATECALL

/-- The message in execution. -/
def EvmcMessage.view (m : EvmcMessage) : EvmTrans.EvmcMessage :=
  ⟨m.kind.view, decide m.isStatic, m.depth.toNat, m.gas, m.destination, m.sender, m.input, m.value⟩

/-- A message that is sent, back. -/
def sentKind : EvmTrans.EvmcCallKind → EvmcCallKind
  | .EVMC_CALL => .EVMC_CALL
  | .EVMC_CALLCODE => .EVMC_CALLCODE
  | .EVMC_DELEGATECALL => .EVMC_DELEGATECALL

def sentFlags (isStatic : Bool) : BitVec 32 := if isStatic then EVMC_STATIC else 0

def sentMessage (m : EvmTrans.EvmcMessage) : EvmcMessage :=
  ⟨sentKind m.kind, sentFlags m.isStatic, m.depth, m.gas, m.destination, m.sender, m.input, m.value⟩

/-- The contract's side tells no two failures apart. -/
def EvmcStatus.view : EvmcStatus → EvmTrans.EvmcStatus
  | .EVMC_SUCCESS => .EVMC_SUCCESS
  | .EVMC_REVERT => .EVMC_REVERT
  | _ => .EVMC_FAILURE

def EvmcResult.view (r : EvmcResult) : EvmTrans.EvmcResult := ⟨r.statusCode.view, r.output⟩

/-- **The object, as the contract's side has it**, in the state `s`, over a client that answers at
once. -/
def EthereumInterface.view (I : EthereumInterface W) (call : EvmcMessage → W → EvmcResult × W)
    (s : EeiState W) : EvmTrans.EthereumInterface :=
  ⟨I.msg.view, s.result.gasLeft, s.lastReturnData, I.host.getBalance s.world,
    fun m => (call (sentMessage m) s.world).1.view⟩

section
variable {I : EthereumInterface W} {call : EvmcMessage → W → EvmcResult × W} {s : EeiState W}
  {β γ : Type}

/-- **Sequencing**, behind a part that changes nothing. -/
theorem Mirrors.bind {δ : Type} {o : Option α} {f : α → β} {p : Eei W β} {o' : α → Option δ}
    {after : δ → EeiState W} {g : δ → γ} {k : β → Eei W γ}
    (h : Mirrors o (fun _ => s) f s (p.exec s))
    (hk : ∀ v, Mirrors (o' v) after g s (Program.exec (k (f v)) s)) :
    Mirrors (o >>= o') after g s (Program.exec (p >>= k) s) := by
  cases o with
  | none =>
    obtain ⟨e, he, hp⟩ : ∃ e : HeraException, e ≠ .EndExecution ∧
        p.exec s = (.error (.exception e), s) := h
    exact ⟨e, he, by rw [exec_bind, hp, andThen_error]⟩
  | some v =>
    have hp : p.exec s = (.ok (f v), s) := h
    rw [exec_bind, hp, andThen_ok]
    exact hk v

/-- A value is given, and nothing happens. -/
theorem Mirrors.pure {v : α} {f : α → β} {b : β} (h : f v = b) :
    Mirrors (some v) (fun _ => s) f s (Program.exec (Pure.pure b : Eei W β) s) := by
  rw [exec_pure, ← h]
  rfl

theorem and_static (flags : BitVec 32) :
    flags &&& EVMC_STATIC = sentFlags (decide (flags &&& EVMC_STATIC ≠ 0)) := by
  have hmod : (flags &&& EVMC_STATIC).toNat = flags.toNat % 2 := by
    rw [BitVec.toNat_and]
    exact Nat.and_one_is_mod _
  unfold sentFlags
  by_cases h : flags &&& EVMC_STATIC = 0
  · rw [h]
    rfl
  · rw [if_pos (decide_eq_true h)]
    have hne : (flags &&& EVMC_STATIC).toNat ≠ 0 := fun h0 => h (BitVec.eq_of_toNat_eq h0)
    refine BitVec.eq_of_toNat_eq ?_
    show _ = 1
    omega

theorem loadUint128_mirrors (hsize : s.memory.size ≤ 2 ^ 32) (srcOffset : BitVec 32) :
    Mirrors (EvmTrans.loadUint128 s.memory srcOffset.toNat) (fun _ => s) id s
      (Program.exec (loadUint128 srcOffset : Eei W Bytes32) s) := by
  unfold EvmTrans.loadUint128 loadUint128
  rw [exec_bind, exec_loadMemoryReverse (by decide)]
  split
  · rename_i h
    rw [andThen_ok, exec_pure, bytesAt_eq_read hsize h, fixed_of_length (by simp)]
    rfl
  · rw [andThen_error]
    exact ⟨_, (fun h => by cases h), rfl⟩

/-- `loadInput`. -/
theorem loadInput_mirrors (hsize : s.memory.size ≤ 2 ^ 32) (dataOffset dataLength : BitVec 32) :
    Mirrors (callInput s.memory dataOffset.toNat dataLength.toNat) (fun _ => s) id s
      (Program.exec (loadInput dataOffset dataLength : Eei W (List Byte)) s) := by
  unfold callInput loadInput LinMem.load
  by_cases hzero : dataLength = 0
  · rw [if_pos hzero, if_pos (by rw [hzero]; rfl)]
    rfl
  · have hnat : dataLength.toNat ≠ 0 := fun h => hzero (BitVec.eq_of_toNat_eq h)
    rw [if_neg hzero, if_neg hnat, exec_ensureSourceMemoryBounds_bind]
    by_cases hwrap : dataOffset.toNat + dataLength.toNat < 2 ^ 32
    · rw [if_pos hwrap]
      by_cases hin : dataOffset.toNat + dataLength.toNat ≤ s.memory.size
      · rw [if_pos hin, if_pos ⟨hwrap, hin⟩, exec_loadMemoryBytes (Nat.le_of_lt dataLength.isLt)
          (by simp), if_pos hin, bytesAt_eq_read hsize hin]
        rfl
      · rw [if_neg hin, if_neg (fun h => hin h.2)]
        exact ⟨_, (fun h => by cases h), rfl⟩
    · rw [if_neg hwrap, if_neg (fun h => hwrap h.1)]
      exact ⟨_, (fun h => by cases h), rfl⟩

/-- `enoughSenderBalanceFor`. -/
theorem enoughSenderBalanceFor_mirrors (value : Bytes32) :
    Mirrors ((I.view call s).enoughSenderBalanceFor value) (fun _ => s) id s
      (Program.exec (I.enoughSenderBalanceFor value) s) := by
  unfold EthereumInterface.enoughSenderBalanceFor EvmTrans.EthereumInterface.enoughSenderBalanceFor
  show Mirrors (if _ ∨ _ then none else some (decide (ofBE value.bytes ≤ ofBE _))) _ _ _ _
  rw [exec_bind, exec_get, andThen_ok, exec_bind, exec_safeLoadUint128]
  by_cases hbalance : exceedsUint128 (I.host.getBalance s.world I.msg.destination)
  · rw [if_pos hbalance, if_pos (.inl ((exceedsUint128_iff _).mp hbalance)), andThen_error]
    exact ⟨_, (fun h => by cases h), rfl⟩
  · rw [if_neg hbalance, andThen_ok, exec_bind, exec_safeLoadUint128]
    by_cases hvalue : exceedsUint128 value
    · rw [if_pos hvalue, if_pos (.inr ((exceedsUint128_iff _).mp hvalue)), andThen_error]
      exact ⟨_, (fun h => by cases h), rfl⟩
    · rw [if_neg hvalue, if_neg (fun h => h.elim (fun h => hbalance ((exceedsUint128_iff _).mpr h))
        fun h => hvalue ((exceedsUint128_iff _).mpr h)), andThen_ok, exec_pure]
      have hle : low128 value ≤ low128 (I.host.getBalance s.world I.msg.destination) ↔
          ofBE value.bytes ≤ ofBE (I.host.getBalance s.world I.msg.destination).bytes := by
        rw [BitVec.le_def, toNat_low128 hvalue, toNat_low128 hbalance]
      exact congrArg (fun b => (Except.ok b, s)) (decide_eq_decide.mpr hle)

/-- The `switch (kind)`, behind the address. -/
theorem callMessage_mirrors (hsize : s.memory.size ≤ 2 ^ 32) (kind : EEICallKind)
    (addressOffset valueOffset : BitVec 32) :
    Mirrors (do
        let destination ← EvmTrans.loadAddress s.memory addressOffset.toNat
        let fields ← (I.view call s).callFields s.memory valueOffset.toNat kind
        return (destination, fields)) (fun _ => s)
      (fun x => ⟨sentKind x.2.1, sentFlags x.2.2.1, I.msg.depth + 1, 0, x.1, x.2.2.2.1, [],
        x.2.2.2.2⟩) s
      (Program.exec (I.callMessage kind addressOffset valueOffset) s) := by
  have hflags : I.msg.flags &&& EVMC_STATIC = sentFlags (I.view call s).msg.isStatic := and_static _
  refine Mirrors.bind (loadFixed_mirrors (by decide) hsize addressOffset) fun destination => ?_
  have hvalue := loadUint128_mirrors hsize valueOffset
  dsimp only
  rw [hflags]
  cases kind with
  | CallDelegate => exact Mirrors.pure rfl
  | CallStatic =>
    refine Mirrors.pure ?_
    cases (I.view call s).msg.isStatic <;> rfl
  | CallCode =>
    show Mirrors ((do let value ← _; _) >>= _) _ _ _ _
    rw [bind_assoc]
    exact Mirrors.bind hvalue fun value => Mirrors.pure rfl
  | Call =>
    show Mirrors ((do let value ← _; _) >>= _) _ _ _ _
    rw [bind_assoc]
    refine Mirrors.bind hvalue fun value => ?_
    have hstatic : (I.view call s).msg.isStatic = true ↔ I.msg.isStatic := decide_eq_true_iff
    dsimp only [id]
    by_cases hzero : isZero value
    · rw [if_neg (fun h => h.1 hzero)]
      show Mirrors _ _ _ _ (Program.exec (Program.when _ _ >>= _) s)
      unfold Program.when
      rw [if_neg (not_not_intro hzero)]
      exact Mirrors.pure rfl
    · show Mirrors _ _ _ _ (Program.exec (Program.when _ _ >>= _) s)
      unfold Program.when
      rw [if_pos hzero]
      by_cases hmsg : I.msg.isStatic
      · rw [if_pos ⟨hzero, hstatic.mpr hmsg⟩, exec_bind,
          exec_ensureCondition_of_not (not_not_intro hmsg), andThen_error]
        exact ⟨_, (fun h => by cases h), rfl⟩
      · rw [if_neg (fun h => hmsg (hstatic.mp h.2)), exec_bind, exec_ensureCondition_of hmsg,
          andThen_ok]
        exact Mirrors.pure rfl

/-- What the contract gets of a call that was made. -/
theorem view_code (r : EvmcResult) :
    BitVec.ofNat 32 (CallOutcome.answered r.view).code = r.statusCode.code := by
  unfold EvmcResult.view CallOutcome.code EvmcStatus.code EvmcStatus.view
  cases r.statusCode <;> rfl

end

/-- What `eeiCall` does when the contract's side comes to `o`. -/
def Answers (o : Option CallOutcome) (s : EeiState W)
    (out : Except Fault (BitVec 32) × EeiState W) : Prop :=
  match o with
  | none => ∃ e : HeraException, e ≠ .EndExecution ∧ out = (.error (.exception e), s)
  | some outcome => ∃ s', out = (.ok (BitVec.ofNat 32 outcome.code), s') ∧ s'.memory = s.memory ∧
      s'.lastReturnData = outcome.returnData s.lastReturnData

theorem Mirrors.answers {s : EeiState W} {β : Type} {o : Option α} {f : α → β} {p : Eei W β}
    {o' : α → Option CallOutcome} {k : β → Eei W (BitVec 32)}
    (h : Mirrors o (fun _ => s) f s (p.exec s))
    (hk : ∀ v, Answers (o' v) s (Program.exec (k (f v)) s)) :
    Answers (o >>= o') s (Program.exec (p >>= k) s) := by
  cases o with
  | none =>
    obtain ⟨e, he, hp⟩ : ∃ e : HeraException, e ≠ .EndExecution ∧
        p.exec s = (.error (.exception e), s) := h
    exact ⟨e, he, by rw [exec_bind, hp, andThen_error]⟩
  | some v =>
    have hp : p.exec s = (.ok (f v), s) := h
    rw [exec_bind, hp, andThen_ok]
    exact hk v

/-- `eeiCall` of the contract's side, behind the address and the `switch (kind)`. -/
def callRest (J : EvmTrans.EthereumInterface) (kind : EEICallKind) (gas : BitVec 64) (m : LinMem)
    (dataOffset dataLength : Nat) (x : Address × EvmTrans.EvmcCallKind × Bool × Address × Bytes32) :
    Option CallOutcome := do
  let input ← callInput m dataOffset dataLength
  if 1024 ≤ J.msg.depth then return .refused
  let enough ← (if (kind = .Call ∨ kind = .CallCode) ∧ x.2.2.2.2 ≠ Bytes32.of 0 then
      J.enoughSenderBalanceFor x.2.2.2.2 else some true : Option Bool)
  if ¬ enough then return .refused
  let gas := min gas.toInt (maxCallGas J.gasLeft)
  return .answered (J.call ⟨x.2.1, x.2.2.1, J.msg.depth + 1,
    if x.2.2.2.2 ≠ Bytes32.of 0 then gas + 2300 else gas, x.1, x.2.2.2.1, input, x.2.2.2.2⟩)

theorem eeiCall_eq_callRest (J : EvmTrans.EthereumInterface) (kind : EEICallKind) (gas : BitVec 64)
    (m : LinMem) (addressOffset valueOffset dataOffset dataLength : Nat) :
    J.eeiCall kind gas m addressOffset valueOffset dataOffset dataLength =
      (guard (0 ≤ gas.toInt) : Option Unit) >>= fun _ => (do
        let destination ← EvmTrans.loadAddress m addressOffset
        let fields ← J.callFields m valueOffset kind
        return (destination, fields)) >>= callRest J kind gas m dataOffset dataLength := by
  unfold EvmTrans.EthereumInterface.eeiCall callRest
  simp only [bind_assoc, pure_bind]
  refine congrArg _ (funext fun _ => congrArg _ (funext fun _ => congrArg _ (funext fun fields =>
    congrArg _ (funext fun input => ?_))))
  split
  · rfl
  · split
    · rfl
    · rfl

section
variable {I : EthereumInterface W} {call : EvmcMessage → W → EvmcResult × W} {s : EeiState W}

/-- The charges for a value are off, and whether the sender has it is asked for all the same. -/
theorem chargeTransfer_mirrors (call : EvmcMessage → W → EvmcResult × W)
    (hfree : I.meterGas = false) (kind : EEICallKind) (msg : EvmcMessage) :
    Mirrors (if (kind = .Call ∨ kind = .CallCode) ∧ msg.value ≠ Bytes32.of 0 then
        (I.view call s).enoughSenderBalanceFor msg.value else some true) (fun _ => s) id s
      (Program.exec (I.chargeTransfer kind msg) s) := by
  unfold EthereumInterface.chargeTransfer
  by_cases h : (kind = .Call ∨ kind = .CallCode) ∧ ¬ isZero msg.value
  · rw [if_pos h, if_pos (show _ ∧ msg.value ≠ Bytes32.of 0 from h), takeInterfaceGas_off hfree,
      pure_bind]
    rw [← bind_pure ((I.view call s).enoughSenderBalanceFor msg.value)]
    refine Mirrors.bind (enoughSenderBalanceFor_mirrors msg.value) fun enough => ?_
    cases enough with
    | false => exact Mirrors.pure rfl
    | true =>
      rw [if_neg (fun h => h rfl), exec_bind, exec_get, andThen_ok, takeInterfaceGas_off hfree]
      show Mirrors _ _ _ _ (Program.exec (Program.when _ _ >>= _) s)
      unfold Program.when
      rw [ite_self, pure_bind]
      exact Mirrors.pure rfl
  · rw [if_neg h, if_neg (show ¬ (_ ∧ msg.value ≠ Bytes32.of 0) from h)]
    exact Mirrors.pure rfl

theorem forwardGas_off (hfree : I.meterGas = false) (gas : Int) (msg : EvmcMessage) :
    Program.exec (I.forwardGas gas msg) s =
      (.ok { msg with
        gas := if msg.value ≠ Bytes32.of 0 then min gas (maxCallGas s.result.gasLeft) + 2300
          else min gas (maxCallGas s.result.gasLeft) }, s) := by
  unfold EthereumInterface.forwardGas
  rw [exec_bind, exec_get, andThen_ok]
  show Program.exec (I.takeInterfaceGas _ >>= _) s = _
  rw [takeInterfaceGas_off hfree]
  rfl

/-- The client answers. -/
theorem hostCall_answers (I : EthereumInterface W) (m : EvmTrans.EvmcMessage)
    (hgas : 0 ≤ (call (sentMessage m) s.world).1.gasLeft) :
    Answers (some (.answered ((I.view call s).call m))) s
      (Program.exec (hostCall call (sentMessage m) >>= fun result => eeiCallEnd result) s) := by
  have hhost : Program.exec (hostCall call (sentMessage m)) s =
      (.ok (call (sentMessage m) s.world).1,
        { s with world := (call (sentMessage m) s.world).2 }) := rfl
  rw [exec_bind, hhost, andThen_ok, exec_eeiCallEnd hgas, ← view_code]
  exact ⟨_, rfl, rfl, rfl⟩

end

/-- **The calls of the contract's side are the calls of this host.** Uncharged, and over a client
that answers at once and never returns less gas than nothing, `eeiCall` throws exactly where the
other gives nothing, changing nothing then; otherwise it returns the same code, keeps the same
return data, and leaves the memory as it was. -/
theorem eeiCall_mirrors {I : EthereumInterface W} {call : EvmcMessage → W → EvmcResult × W}
    {s : EeiState W} (hfree : I.meterGas = false) (hdepth : 0 ≤ I.msg.depth)
    (hsize : s.memory.size ≤ 2 ^ 32) (hgas : ∀ m w, 0 ≤ (call m w).1.gasLeft) (kind : EEICallKind)
    (gas : BitVec 64) (addressOffset valueOffset dataOffset dataLength : BitVec 32) :
    Answers ((I.view call s).eeiCall kind gas s.memory addressOffset.toNat valueOffset.toNat
        dataOffset.toNat dataLength.toNat) s
      ((I.eeiCall call kind gas addressOffset valueOffset dataOffset dataLength).exec s) := by
  have hguard : Mirrors (guard (0 ≤ gas.toInt) : Option Unit) (fun _ => s) id s
      (Program.exec (ensureCondition (0 ≤ gas.toInt)
        (.ArgumentOutOfRange "Negative gas supplied.") : Eei W Unit) s) := by
    by_cases h : 0 ≤ gas.toInt
    · rw [exec_ensureCondition_of h]
      show Mirrors (if _ then _ else _) _ _ _ _
      rw [if_pos h]
      rfl
    · rw [exec_ensureCondition_of_not h]
      show Mirrors (if _ then _ else _) _ _ _ _
      rw [if_neg h]
      exact ⟨_, (fun h => by cases h), rfl⟩
  rw [eeiCall_eq_callRest]
  unfold EthereumInterface.eeiCall EthereumInterface.eeiCallBegin
  conv => arg 3; rw [bind_assoc]
  refine hguard.answers fun _ => ?_
  conv => arg 3; rw [bind_assoc]
  refine (callMessage_mirrors hsize kind addressOffset valueOffset).answers fun x => ?_
  conv => arg 3; rw [bind_assoc]
  refine (loadInput_mirrors hsize dataOffset dataLength).answers fun input => ?_
  conv => arg 3; rw [bind_assoc, takeInterfaceGas_off hfree, pure_bind]
  by_cases hdeep : 1024 ≤ I.msg.depth
  · have hview : 1024 ≤ (I.view call s).msg.depth := Int.toNat_le_toNat hdeep
    rw [if_pos hdeep, if_pos hview, pure_bind]
    exact ⟨s, rfl, rfl, rfl⟩
  · have hview : ¬ 1024 ≤ (I.view call s).msg.depth := by
      show ¬ 1024 ≤ I.msg.depth.toNat
      omega
    rw [if_neg hdeep, if_neg hview]
    conv => arg 3; rw [bind_assoc]
    refine (chargeTransfer_mirrors call hfree kind ⟨sentKind x.2.1, sentFlags x.2.2.1,
      I.msg.depth + 1, 0, x.1, x.2.2.2.1, [], x.2.2.2.2⟩).answers fun enough => ?_
    cases enough with
    | false => exact ⟨s, rfl, rfl, rfl⟩
    | true =>
      conv => arg 3; rw [if_neg (fun h => h rfl), bind_assoc, exec_bind, forwardGas_off hfree,
        andThen_ok, pure_bind]
      have hdeeper : ((I.view call s).msg.depth + 1 : Nat) = I.msg.depth + 1 := by
        show ((I.msg.depth.toNat + 1 : Nat) : Int) = I.msg.depth + 1
        omega
      have hanswer := hostCall_answers (s := s) I ⟨x.2.1, x.2.2.1, (I.view call s).msg.depth + 1,
        if x.2.2.2.2 ≠ Bytes32.of 0 then min gas.toInt (maxCallGas s.result.gasLeft) + 2300
          else min gas.toInt (maxCallGas s.result.gasLeft), x.1, x.2.2.2.1, input,
            x.2.2.2.2⟩ (hgas _ _)
      unfold sentMessage at hanswer
      rw [hdeeper] at hanswer
      exact hanswer

/-- A host without charges, and a client that has three bytes for everyone. -/
def freeInterface : EthereumInterface Nat := ⟨countingHost, [], payingMessage, false⟩

def threeBytes : EvmcMessage → Nat →
    EvmcResult × Nat := fun _ w => (⟨.EVMC_SUCCESS, 0, [1, 2, 3], Address.of 0⟩, w)

theorem eeiCall_mirrors_static : ∃ s : EeiState Nat, s.memory.size = 65536 ∧
    Answers ((freeInterface.view threeBytes s).eeiCall .CallStatic 1000 s.memory
        (0 : BitVec 32).toNat (0 : BitVec 32).toNat (64 : BitVec 32).toNat (8 : BitVec 32).toNat) s
      ((freeInterface.eeiCall threeBytes .CallStatic 1000 0 0 64 8).exec s) := by
  refine ⟨⟨⟨⟨5000, [], false⟩, [], ⟨65536, fun _ => 0⟩⟩, 7⟩, rfl, ?_⟩
  exact eeiCall_mirrors rfl (by decide) (by decide) (fun _ _ => le_refl (0 : Int))
    .CallStatic 1000 0 0 64 8

end EvmTrans.Hera
