/-
# `EvmTrans.Hera.Effects` — what a host function does to the gas, the memory and the world.

`Kept` is what no host function but the two calls ever breaks, whether it returns or throws: gas
only goes down, and no further than to zero; the memory keeps its size, and every byte out of the
result area; a static message leaves the world alone. Each function is a chain of primitives that
keep it, so each proof follows the text of the function.
-/
import EvmTrans.Hera.Methods
import EvmTrans.Hera.MemoryOps

namespace EvmTrans.Hera

open Lib (Program Upholds read write InRange exec_bind exec_get exec_pure exec_modify andThen_ok
  andThen_error write_of_not_inRange)

variable {W α β : Type}

/-! ## §1 — the relation. -/

/-- What a function with the result area of `n` bytes at `a` keeps. -/
structure Kept (I : EthereumInterface W) (a n : Nat) (s s' : EeiState W) : Prop where
  gas_le : s'.result.gasLeft ≤ s.result.gasLeft
  gas_min : ∀ b ≤ 0, b ≤ s.result.gasLeft → b ≤ s'.result.gasLeft
  size : s'.memory.size = s.memory.size
  bytes : ∀ i, ¬ InRange a n i → s'.memory.bytes i = s.memory.bytes i
  world : I.msg.isStatic → s'.world = s.world
  lastReturnData : s'.lastReturnData = s.lastReturnData

variable {I : EthereumInterface W} {a n : Nat}

theorem Kept.refl (s : EeiState W) : Kept I a n s s :=
  ⟨le_refl _, fun _ _ => id, rfl, fun _ _ => rfl, fun _ => rfl, rfl⟩

theorem Kept.trans {s s' s'' : EeiState W} (h : Kept I a n s s') (h' : Kept I a n s' s'') :
    Kept I a n s s'' where
  gas_le := le_trans h'.gas_le h.gas_le
  gas_min := fun b hb hs => h'.gas_min b hb (h.gas_min b hb hs)
  size := h'.size.trans h.size
  bytes := fun i hi => (h'.bytes i hi).trans (h.bytes i hi)
  world := fun hs => (h'.world hs).trans (h.world hs)
  lastReturnData := h'.lastReturnData.trans h.lastReturnData

theorem Kept.gas_nonneg {s s' : EeiState W} (h : Kept I a n s s') : 0 ≤ s.result.gasLeft →
    0 ≤ s'.result.gasLeft :=
  h.gas_min 0 (le_refl 0)

instance Kept.instRefl : Std.Refl (Kept I a n) := ⟨Kept.refl⟩

instance Kept.instTrans : IsTrans (EeiState W) (Kept I a n) := ⟨fun _ _ _ => Kept.trans⟩

/-- A program that keeps it and does nothing undefined. -/
abbrev Keeps (I : EthereumInterface W) (a n : Nat) (p : Eei W α) : Prop :=
  Upholds (Kept I a n) (· ≠ .undefined) p

/-! ## §2 — the primitives. -/

theorem raise_keeps (e : HeraException) : Keeps I a n (raise e : Eei W α) :=
  Upholds.throw (fun h => by cases h)

theorem ensureCondition_keeps (c : Prop) [Decidable c] (e : HeraException) :
    Keeps I a n (ensureCondition c e : Eei W Unit) :=
  Upholds.ite (fun _ => Upholds.pure _) fun _ => raise_keeps e

/-- What stands behind a check may assume it. -/
theorem ensureCondition_bind_keeps {c : Prop} [Decidable c] {e : HeraException} {p : Eei W α}
    (h : c → Keeps I a n p) : Keeps I a n (ensureCondition c e >>= fun _ => p) := by
  by_cases hc : c
  · exact Upholds.bind (ensureCondition_keeps c e) fun _ => h hc
  · constructor
    · intro s
      rw [exec_bind, exec_ensureCondition_of_not hc, andThen_error]
      exact Kept.refl s
    · intro s f hf
      rw [exec_bind, exec_ensureCondition_of_not hc, andThen_error] at hf
      cases hf
      intro h
      cases h

theorem exec_takeGas (gas : Int) (s : EeiState W) :
    Program.exec (takeGas gas : Eei W Unit) s =
      if gas ≤ s.result.gasLeft then (.ok (), { s with result.gasLeft := s.result.gasLeft - gas })
      else (.error (.exception (.OutOfGas "Out of gas.")), s) := by
  unfold takeGas
  rw [exec_bind, exec_get, andThen_ok, exec_bind, exec_ensureCondition]
  split
  · rfl
  · rfl

theorem takeGas_keeps {gas : Int} (hgas : 0 ≤ gas) : Keeps I a n (takeGas gas : Eei W Unit) := by
  refine Upholds.of_checked (exec_takeGas gas) (fun s hs => ?_) (fun h => by cases h)
  exact ⟨by show s.result.gasLeft - gas ≤ s.result.gasLeft; omega,
    fun b hb _ => by show b ≤ s.result.gasLeft - gas; omega, rfl, fun _ _ => rfl, fun _ => rfl, rfl⟩

theorem takeInterfaceGas_keeps (J : EthereumInterface W) (gas : Int) :
    Keeps I a n (J.takeInterfaceGas gas) :=
  Upholds.ite (fun _ => Upholds.pure _) fun _ => ensureCondition_bind_keeps takeGas_keeps

theorem safeChargeDataCopy_keeps (J : EthereumInterface W) (length : BitVec 32) (baseCost : Int) :
    Keeps I a n (J.safeChargeDataCopy length baseCost) :=
  Upholds.bind (takeInterfaceGas_keeps J _) fun _ => takeInterfaceGas_keeps J _

theorem ensureSourceMemoryBounds_keeps (offset length : BitVec 32) :
    Keeps I a n (ensureSourceMemoryBounds offset length : Eei W Unit) :=
  Upholds.get_bind fun _ => Upholds.bind (ensureCondition_keeps _ _) fun _ =>
    ensureCondition_keeps _ _

theorem outOfSource_ne : outOfSource ≠ .undefined := fun h => by cases h

theorem outOfDestination_ne : outOfDestination ≠ .undefined := fun h => by cases h

/-! ## §3 — loads and stores. -/

theorem loadMemory_keeps (srcOffset : BitVec 32) {length : Nat} (hlen : length ≤ 2 ^ 32) :
    Keeps I a n (loadMemory srcOffset length : Eei W (List Byte)) :=
  Upholds.of_checked (exec_loadMemory hlen) (fun s _ => Kept.refl s) outOfSource_ne

theorem loadMemoryReverse_keeps (srcOffset : BitVec 32) {length : Nat} (hlen : length ≤ 2 ^ 32) :
    Keeps I a n (loadMemoryReverse srcOffset length : Eei W (List Byte)) :=
  Upholds.of_checked (exec_loadMemoryReverse hlen) (fun s _ => Kept.refl s) outOfSource_ne

/-- Into the buffer the callers make. -/
theorem loadMemoryBytes_keeps (srcOffset length : BitVec 32) :
    Keeps I a n (loadMemoryBytes srcOffset (List.replicate length.toNat 0) length.toNat :
      Eei W (List Byte)) :=
  Upholds.of_checked (exec_loadMemoryBytes (Nat.le_of_lt length.isLt) List.length_replicate)
    (fun s _ => Kept.refl s) outOfSource_ne

theorem Kept.writing {s : EeiState W} {b : Nat} {bs : List Byte}
    (h : ∀ i, InRange b bs.length i → InRange a n i) : Kept I a n s (s.writing b bs) where
  gas_le := le_refl _
  gas_min := fun _ _ => id
  size := rfl
  bytes := fun i hi => write_of_not_inRange fun hb => hi (h i hb)
  world := fun _ => rfl
  lastReturnData := rfl

theorem storeMemory_keeps {src : List Byte} {dstOffset length : BitVec 32}
    (hsrc : length.toNat ≤ src.length) :
    Keeps I dstOffset.toNat length.toNat (storeMemory src dstOffset length : Eei W Unit) := by
  refine Upholds.of_checked (exec_storeMemory hsrc) (fun s _ => Kept.writing fun i hi => ?_)
    outOfDestination_ne
  rwa [List.length_take_of_le hsrc] at hi

theorem storeMemoryReverse_keeps {src : List Byte} {dstOffset length : BitVec 32}
    (hsrc : length.toNat ≤ src.length) :
    Keeps I dstOffset.toNat length.toNat
      (storeMemoryReverse src dstOffset length : Eei W Unit) := by
  refine Upholds.of_checked (exec_storeMemoryReverse hsrc) (fun s _ => Kept.writing fun i hi => ?_)
    outOfDestination_ne
  rwa [List.length_reverse, List.length_take_of_le hsrc] at hi

/-- A view is copied into the result area, provided that no more is copied than fits, where the copy
is made. -/
theorem storeMemoryView_keeps {src : List Byte} {srcOffset dstOffset length : BitVec 32}
    (hfits : srcOffset.toNat + length.toNat < 2 ^ 32 → srcOffset.toNat + length.toNat ≤ src.length →
      length.toNat ≤ n) :
    Keeps I dstOffset.toNat n (storeMemoryView src srcOffset dstOffset length : Eei W Unit) := by
  constructor
  · intro s
    rw [exec_storeMemoryView]
    split
    · rename_i hsrc
      split
      · refine Kept.writing fun i hi => ?_
        have hlen := List.length_take_le length.toNat (src.drop srcOffset.toNat)
        have hle := hfits hsrc.1 hsrc.2
        exact ⟨hi.1, by have := hi.2; omega⟩
      · exact Kept.refl s
    · exact Kept.refl s
  · intro s f hf
    rw [exec_storeMemoryView] at hf
    split at hf
    · split at hf
      · cases hf
      · cases hf
        exact outOfDestination_ne
    · cases hf
      exact outOfSource_ne

theorem loadBytes32_keeps (srcOffset : BitVec 32) :
    Keeps I a n (loadBytes32 srcOffset : Eei W Bytes32) :=
  Upholds.bind (loadMemory_keeps srcOffset (by decide)) fun _ => Upholds.pure _

theorem loadAddress_keeps (srcOffset : BitVec 32) :
    Keeps I a n (loadAddress srcOffset : Eei W Address) :=
  Upholds.bind (loadMemory_keeps srcOffset (by decide)) fun _ => Upholds.pure _

theorem loadUint128_keeps (srcOffset : BitVec 32) :
    Keeps I a n (loadUint128 srcOffset : Eei W Bytes32) :=
  Upholds.bind (loadMemoryReverse_keeps srcOffset (by decide)) fun _ => Upholds.pure _

theorem storeBytes32_keeps (src : Bytes32) (dstOffset : BitVec 32) :
    Keeps I dstOffset.toNat 32 (storeBytes32 src dstOffset : Eei W Unit) :=
  @storeMemory_keeps W I src.bytes dstOffset 32 (Nat.le_of_eq src.length_eq.symm)

theorem storeUint256_keeps (src : Bytes32) (dstOffset : BitVec 32) :
    Keeps I dstOffset.toNat 32 (storeUint256 src dstOffset : Eei W Unit) :=
  @storeMemoryReverse_keeps W I src.bytes dstOffset 32 (Nat.le_of_eq src.length_eq.symm)

theorem storeAddress_keeps (src : Address) (dstOffset : BitVec 32) :
    Keeps I dstOffset.toNat 20 (storeAddress src dstOffset : Eei W Unit) :=
  @storeMemory_keeps W I src.bytes dstOffset 20 (Nat.le_of_eq src.length_eq.symm)

theorem storeUint128_keeps (src : Bytes32) (dstOffset : BitVec 32) :
    Keeps I dstOffset.toNat 16 (storeUint128 src dstOffset : Eei W Unit) :=
  Upholds.bind (ensureCondition_keeps _ _) fun _ =>
    @storeMemoryReverse_keeps W I (src.bytes.drop 16) dstOffset 16
      (by rw [List.length_drop, src.length_eq]; decide)

theorem safeLoadUint128_keeps (value : Bytes32) :
    Keeps I a n (safeLoadUint128 value : Eei W (BitVec 128)) :=
  Upholds.bind (ensureCondition_keeps _ _) fun _ => Upholds.pure _

theorem enoughSenderBalanceFor_keeps (J : EthereumInterface W) (value : Bytes32) :
    Keeps I a n (J.enoughSenderBalanceFor value) :=
  Upholds.get_bind fun _ => Upholds.bind (safeLoadUint128_keeps _) fun _ =>
    Upholds.bind (safeLoadUint128_keeps _) fun _ => Upholds.pure _

/-- The world changes only under a message that is not static. -/
theorem modify_world_keeps {f : EeiState W → W} (h : ¬ I.msg.isStatic) :
    Keeps I a n (modify fun s => { s with world := f s } : Eei W PUnit) :=
  Upholds.modify fun _ => ⟨le_refl _, fun _ _ => id, rfl, fun _ _ => rfl,
    fun hs => absurd hs h, rfl⟩

/-- The return value is not part of what is kept. -/
theorem modify_result_keeps {f : EeiState W → ExecutionResult}
    (h : ∀ s, (f s).gasLeft = s.result.gasLeft) :
    Keeps I a n (modify fun s => { s with result := f s } : Eei W PUnit) :=
  Upholds.modify fun s => ⟨le_of_eq (h s), fun _ _ hs => le_of_le_of_eq hs (h s).symm, rfl,
    fun _ _ => rfl, fun _ => rfl, rfl⟩

/-! ## §4 — the functions. -/

/-- A charge, and a rest that keeps. -/
theorem charge_bind_keeps {gas : Int} {p : Eei W α} (h : Keeps I a n p) :
    Keeps I a n (I.takeInterfaceGas gas >>= fun _ => p) :=
  Upholds.bind (takeInterfaceGas_keeps I gas) fun _ => h

theorem chargeCopy_bind_keeps {length : BitVec 32} {baseCost : Int} {p : Eei W α}
    (h : Keeps I a n p) : Keeps I a n (I.safeChargeDataCopy length baseCost >>= fun _ => p) :=
  Upholds.bind (safeChargeDataCopy_keeps I length baseCost) fun _ => h

theorem eeiUseGas_keeps (gas : BitVec 64) :
    Keeps I a n (EthereumInterface.eeiUseGas gas : Eei W Unit) :=
  ensureCondition_bind_keeps takeGas_keeps

theorem eeiGetExternalBalance_keeps (addressOffset resultOffset : BitVec 32) :
    Keeps I resultOffset.toNat 16 (I.eeiGetExternalBalance addressOffset resultOffset) :=
  charge_bind_keeps <| Upholds.bind (loadAddress_keeps _) fun _ => Upholds.get_bind fun _ =>
    storeUint128_keeps _ _

theorem eeiGetBlockHash_keeps (number : BitVec 64) (resultOffset : BitVec 32) :
    Keeps I resultOffset.toNat 32 (I.eeiGetBlockHash number resultOffset) :=
  charge_bind_keeps <| Upholds.get_bind fun _ => Upholds.ite (fun _ => Upholds.pure _) fun _ =>
    Upholds.bind (storeBytes32_keeps _ _) fun _ => Upholds.pure _

/-- The cut copy fits: what is left of the data is less than was asked for, or the copy is not
made. -/
theorem eeiCallDataCopy_keeps (resultOffset dataOffset length : BitVec 32) :
    Keeps I resultOffset.toNat length.toNat (I.eeiCallDataCopy resultOffset dataOffset length) := by
  refine chargeCopy_bind_keeps (Upholds.ite (fun _ => ?_) fun hend => ?_)
  · exact storeMemoryView_keeps fun _ _ => le_refl _
  · refine storeMemoryView_keeps fun hwrap _ => ?_
    have hd := dataOffset.isLt
    have hl := length.isLt
    rw [BitVec.toNat_add] at hend
    rw [BitVec.toNat_sub, BitVec.toNat_ofNat] at hwrap ⊢
    omega

theorem eeiCodeCopy_keeps (resultOffset codeOffset length : BitVec 32) :
    Keeps I resultOffset.toNat length.toNat (I.eeiCodeCopy resultOffset codeOffset length) :=
  chargeCopy_bind_keeps (storeMemoryView_keeps fun _ _ => le_refl _)

theorem eeiExternalCodeCopy_keeps (addressOffset resultOffset codeOffset length : BitVec 32) :
    Keeps I resultOffset.toNat length.toNat
      (I.eeiExternalCodeCopy addressOffset resultOffset codeOffset length) :=
  chargeCopy_bind_keeps <| Upholds.bind (loadAddress_keeps _) fun _ => Upholds.get_bind fun _ =>
    Upholds.bind (ensureCondition_keeps _ _) fun _ => storeMemoryView_keeps fun _ _ => le_refl _

theorem eeiReturnDataCopy_keeps (dataOffset offset size : BitVec 32) :
    Keeps I dataOffset.toNat size.toNat (I.eeiReturnDataCopy dataOffset offset size) :=
  chargeCopy_bind_keeps <| Upholds.get_bind fun _ => storeMemoryView_keeps fun _ _ => le_refl _

theorem loadTopic_keeps (there : Prop) [Decidable there] (topic : BitVec 32) :
    Keeps I a n (EthereumInterface.loadTopic there topic : Eei W Bytes32) :=
  Upholds.ite (fun _ => loadBytes32_keeps _) fun _ => Upholds.pure _

theorem loadTopics_keeps (numberOfTopics topic1 topic2 topic3 topic4 : BitVec 32) :
    Keeps I a n (EthereumInterface.loadTopics numberOfTopics topic1 topic2 topic3 topic4 :
      Eei W (List Bytes32)) :=
  Upholds.bind (loadTopic_keeps _ _) fun _ => Upholds.bind (loadTopic_keeps _ _) fun _ =>
    Upholds.bind (loadTopic_keeps _ _) fun _ => Upholds.bind (loadTopic_keeps _ _) fun _ =>
      Upholds.pure _

theorem eeiLog_keeps (dataOffset length numberOfTopics topic1 topic2 topic3 topic4 : BitVec 32) :
    Keeps I a n (I.eeiLog dataOffset length numberOfTopics topic1 topic2 topic3 topic4) :=
  charge_bind_keeps <| ensureCondition_bind_keeps fun hstatic =>
    Upholds.bind (ensureCondition_keeps _ _) fun _ => Upholds.bind
      (loadTopics_keeps _ _ _ _ _) fun _ =>
      Upholds.bind (ensureSourceMemoryBounds_keeps _ _) fun _ =>
        Upholds.bind (loadMemoryBytes_keeps _ _) fun _ => modify_world_keeps hstatic

theorem eeiStorageStore_keeps (pathOffset valueOffset : BitVec 32) :
    Keeps I a n (I.eeiStorageStore pathOffset valueOffset) :=
  charge_bind_keeps <| ensureCondition_bind_keeps fun hstatic =>
    Upholds.bind (loadBytes32_keeps _) fun _ => Upholds.bind (loadBytes32_keeps _) fun _ =>
      Upholds.get_bind fun _ => Upholds.bind (Upholds.when fun _ => takeInterfaceGas_keeps I _)
        fun _ => modify_world_keeps hstatic

theorem eeiStorageLoad_keeps (pathOffset resultOffset : BitVec 32) :
    Keeps I resultOffset.toNat 32 (I.eeiStorageLoad pathOffset resultOffset) :=
  charge_bind_keeps <| Upholds.bind (loadBytes32_keeps _) fun _ => Upholds.get_bind fun _ =>
    storeBytes32_keeps _ _

theorem eeiSelfDestruct_keeps (addressOffset : BitVec 32) :
    Keeps I a n (I.eeiSelfDestruct addressOffset) :=
  charge_bind_keeps <| ensureCondition_bind_keeps fun hstatic =>
    Upholds.bind (loadAddress_keeps _) fun _ => Upholds.get_bind fun _ =>
      Upholds.bind (Upholds.when fun _ => takeInterfaceGas_keeps I _) fun _ =>
        Upholds.bind (modify_world_keeps hstatic) fun _ => raise_keeps _

theorem eeiRevertOrFinish_keeps (revert : Bool) (offset size : BitVec 32) :
    Keeps I a n (eeiRevertOrFinish revert offset size : Eei W Unit) :=
  Upholds.bind (ensureSourceMemoryBounds_keeps _ _) fun _ =>
    Upholds.bind (modify_result_keeps fun _ => rfl) fun _ =>
      Upholds.bind (loadMemoryBytes_keeps _ _) fun _ =>
        Upholds.bind (modify_result_keeps fun _ => rfl) fun _ => raise_keeps _

/-! ## §5 — all of them. -/

/-- The result area of a function: where it begins, and its length. -/
def Request.area : Request → Nat × Nat
  | .getAddress resultOffset | .getCaller resultOffset | .getBlockCoinbase resultOffset
  | .getTxOrigin resultOffset => (resultOffset.toNat, 20)
  | .getExternalBalance _ resultOffset | .getCallValue resultOffset | .getTxGasPrice resultOffset =>
    (resultOffset.toNat, 16)
  | .getBlockHash _ resultOffset | .getBlockDifficulty resultOffset | .storageLoad _ resultOffset =>
    (resultOffset.toNat, 32)
  | .callDataCopy resultOffset _ length | .codeCopy resultOffset _ length
  | .externalCodeCopy _ resultOffset _ length | .returnDataCopy resultOffset _ length =>
    (resultOffset.toNat, length.toNat)
  | .useGas _ | .getGasLeft | .getCallDataSize | .getCodeSize | .getExternalCodeSize
      _ | .getBlockGasLimit
  | .log .. | .getBlockNumber | .getBlockTimestamp | .storageStore .. | .finish .. | .revert ..
  | .getReturnDataSize | .selfDestruct _ => (0, 0)

/-- Handing the answer over changes nothing. -/
theorem answer_keeps {p : Eei W α} {f : α → Answer} (h : Keeps I a n p) :
    Keeps I a n (p >>= fun v => pure (f v)) :=
  Upholds.bind h fun _ => Upholds.pure _

theorem getter_keeps {gas : Int} {f : EeiState W → α} :
    Keeps I a n (I.takeInterfaceGas gas >>= fun _ => (get : Eei W _) >>= fun s => pure (f s)) :=
  charge_bind_keeps <| Upholds.get_bind fun _ => Upholds.pure _

/-- **Every function of the host**, from every state and whether it returns or throws, keeps what
there is to keep around its own result area, and does nothing undefined. -/
theorem handle_keeps (I : EthereumInterface W) (r : Request) :
    Keeps I r.area.1 r.area.2 (I.handle r) := by
  cases r with
  | useGas gas => exact answer_keeps (eeiUseGas_keeps gas)
  | getGasLeft => exact answer_keeps getter_keeps
  | getAddress r => exact answer_keeps (charge_bind_keeps (storeAddress_keeps _ r))
  | getExternalBalance x r => exact answer_keeps (eeiGetExternalBalance_keeps x r)
  | getBlockHash x r => exact answer_keeps (eeiGetBlockHash_keeps x r)
  | getCallDataSize => exact answer_keeps (charge_bind_keeps (Upholds.pure _))
  | callDataCopy r x l => exact answer_keeps (eeiCallDataCopy_keeps r x l)
  | getCaller r => exact answer_keeps (charge_bind_keeps (storeAddress_keeps _ r))
  | getCallValue r => exact answer_keeps (charge_bind_keeps (storeUint128_keeps _ r))
  | codeCopy r x l => exact answer_keeps (eeiCodeCopy_keeps r x l)
  | getCodeSize => exact answer_keeps (charge_bind_keeps (Upholds.pure _))
  | externalCodeCopy x r y l => exact answer_keeps (eeiExternalCodeCopy_keeps x r y l)
  | getExternalCodeSize x =>
    exact answer_keeps <| charge_bind_keeps <| Upholds.bind (loadAddress_keeps x) fun _ =>
      Upholds.get_bind fun _ => Upholds.pure _
  | getBlockCoinbase r => exact answer_keeps (charge_bind_keeps (storeAddress_keeps _ r))
  | getBlockDifficulty r => exact answer_keeps (charge_bind_keeps (storeUint256_keeps _ r))
  | getBlockGasLimit => exact answer_keeps (charge_bind_keeps (Upholds.pure _))
  | getTxGasPrice r => exact answer_keeps (charge_bind_keeps (storeUint128_keeps _ r))
  | log d l n t₁ t₂ t₃ t₄ => exact answer_keeps (eeiLog_keeps d l n t₁ t₂ t₃ t₄)
  | getBlockNumber => exact answer_keeps (charge_bind_keeps (Upholds.pure _))
  | getBlockTimestamp => exact answer_keeps (charge_bind_keeps (Upholds.pure _))
  | getTxOrigin r => exact answer_keeps (charge_bind_keeps (storeAddress_keeps _ r))
  | storageStore x y => exact answer_keeps (eeiStorageStore_keeps x y)
  | storageLoad x r => exact answer_keeps (eeiStorageLoad_keeps x r)
  | finish x l => exact answer_keeps (eeiRevertOrFinish_keeps false x l)
  | revert x l => exact answer_keeps (eeiRevertOrFinish_keeps true x l)
  | getReturnDataSize => exact answer_keeps getter_keeps
  | returnDataCopy r x l => exact answer_keeps (eeiReturnDataCopy_keeps r x l)
  | selfDestruct x => exact answer_keeps (eeiSelfDestruct_keeps x)

/-- **A host function stays within its result area**, for every function, every argument and every
state, whether it returns or throws: no access is out of bounds, the memory keeps its size and every
byte out of the area, gas is not gained and not overdrawn, the return data stay, and under a static
message so does the world. -/
theorem host_function_frame (I : EthereumInterface W) (r : Request) (s : EeiState W) :
    ((I.handle r).exec s).1 ≠ .error .undefined ∧
      ((I.handle r).exec s).2.memory.size = s.memory.size ∧
      (∀ i, ¬ InRange r.area.1 r.area.2 i →
        ((I.handle r).exec s).2.memory.bytes i = s.memory.bytes i) ∧
      ((I.handle r).exec s).2.result.gasLeft ≤ s.result.gasLeft ∧
      (0 ≤ s.result.gasLeft → 0 ≤ ((I.handle r).exec s).2.result.gasLeft) ∧
      ((I.handle r).exec s).2.lastReturnData = s.lastReturnData ∧
      (I.msg.isStatic → ((I.handle r).exec s).2.world = s.world) := by
  have hkept := (handle_keeps I r).state s
  refine ⟨fun h => (handle_keeps I r).thrown s _ h rfl, hkept.size, hkept.bytes, hkept.gas_le,
    hkept.gas_nonneg, hkept.lastReturnData, hkept.world⟩

end EvmTrans.Hera
