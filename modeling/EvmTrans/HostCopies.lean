/-
# `EvmTrans.HostCopies` — call data in, return data out.

The host moves bytes for the contract with one function, `storeMemory`, which throws when the source
does not have all the bytes that were asked for. The EVM never ends an execution there: it pads call
data with zeros, and copies of the return data what there is.

`eeiCallDataCopy` cuts a request that runs past the end to what is left, and writes NOTHING over the
rest. `calldata_padded_iff` says what has to stand in memory for the result to be the EVM's. The
four calls ask for `outSize` bytes of whatever the callee returned, and `call_output_iff` says that
the callee has to return as many.
-/
import EvmTrans.AddressBoundary
import EvmTrans.ByteMemory

namespace EvmTrans

open Lib (leBytes beBytes ofLE ofBE length_leBytes length_beBytes length_read read write
  InRange Apart write_of_not_inRange write_add write_nil eq_write_iff getElem_read)

/-! ## §1 — `CALLDATALOAD` and `CALLDATACOPY`. -/

/-- `eeiCallDataCopy`. -/
def eeiCallDataCopy (input : List Byte) (resultOffset dataOffset length : Nat) (m : LinMem) :
    Option LinMem :=
  storeMemory input dataOffset resultOffset (callDataLength input dataOffset length) m

/-- `CALLDATALOAD`: the word, and the memory with the bytes of the call data in the slot `dest`. -/
def emitCalldataload (input : List Byte) (m : LinMem) (dest : Nat) (idx : Word) :
    Option (Word × LinMem) := do
  let m ← eeiCallDataCopy input dest (ptr idx) 32 m
  let value ← createLoadMem 256 m dest
  return (emitEndianConvert false value, m)

/-- `CALLDATACOPY`. -/
def emitCalldatacopy (input : List Byte) (m : LinMem) (destMemIdx srcIdx reqBytes : Word) :
    Option LinMem :=
  eeiCallDataCopy input (ptr destMemIdx) (ptr srcIdx) (ptr reqBytes) m

/-- **What the padding rests on**, for `n` bytes from offset `i` on to the address `p`: the offset,
as 32 bits have it, is no further than the end of the call data; neither end of the copy wraps;
where the call data is over, a zero stands already; and an offset that 32 bits do not hold lands on
zeros. -/
structure Padded (input : List Byte) (m : LinMem) (p i n : Nat) : Prop where
  inData : i % 2 ^ 32 ≤ input.length
  srcNoWrap : i % 2 ^ 32 + n < 2 ^ 32
  dstNoWrap : p + min n (input.length - i % 2 ^ 32) < 2 ^ 32
  stale : ∀ j < n, input.length ≤ i % 2 ^ 32 + j → m.bytes (p + j) = 0
  high : 2 ^ 32 ≤ i → ∀ j < n, input.getD (i % 2 ^ 32 + j) 0 = 0

/-! ## §2 — the copy of the host. -/

/-- Where neither throws, the cut is to what is left. -/
theorem callDataLength_eq {input : List Byte} {o n : Nat} (ho : o ≤ input.length)
    (hin : input.length < 2 ^ 32) (hn : o + n < 2 ^ 32) :
    callDataLength input o n = min n (input.length - o) := by
  unfold callDataLength
  rw [Nat.mod_eq_of_lt hn]
  split
  · omega
  · omega

/-- **`eeiCallDataCopy`** copies what the call data has, or throws. A source range that wraps throws
as well: the wrapped end is below the offset. -/
theorem eeiCallDataCopy_eq {input : List Byte} {m : LinMem} {p o n : Nat}
    (hin : input.length < 2 ^ 32) (ho : o < 2 ^ 32) (hn : n < 2 ^ 32) (hp : p + n ≤ m.size) :
    eeiCallDataCopy input p o n m =
      if o ≤ input.length ∧ o + n < 2 ^ 32 ∧ p + min n (input.length - o) < 2 ^ 32 then
        some { m with bytes := write m.bytes p ((input.drop o).take n) }
      else none := by
  unfold eeiCallDataCopy storeMemory
  by_cases hok : o ≤ input.length ∧ o + n < 2 ^ 32
  · obtain ⟨hle, hwrap⟩ := hok
    rw [callDataLength_eq hle hin hwrap]
    have htake : (input.drop o).take (min n (input.length - o)) = (input.drop o).take n := by
      rw [← List.length_drop, List.take_eq_take_iff]
      omega
    by_cases hdst : p + min n (input.length - o) < 2 ^ 32
    · rw [if_pos ⟨by omega, by omega, hdst⟩, if_pos ⟨hle, hwrap, hdst⟩, htake]
      exact if_pos (by rw [List.length_take, List.length_drop]; omega)
    · rw [if_neg (fun h => hdst h.2.2), if_neg (fun h => hdst h.2.2)]
  · have hthrow :
        ¬ (o + callDataLength input o n < 2 ^ 32 ∧ o + callDataLength input o n ≤ input.length ∧
        p + callDataLength input o n < 2 ^ 32) := by
      rintro ⟨hsrc, hlen, -⟩
      unfold callDataLength at hsrc hlen
      split at hsrc
      · rename_i hend
        rw [if_pos hend] at hlen
        exact hok ⟨by omega, hsrc⟩
      · rename_i hend
        rw [if_neg hend] at hlen
        omega
    rw [if_neg hthrow, if_neg (fun h => hok ⟨h.1, h.2.1⟩)]

/-- The bytes at the destination behind it: those of the call data, then the old ones. -/
theorem write_callData {input : List Byte} {bytes : Nat → Byte} {p o n j : Nat} (hj : j < n) :
    write bytes p ((input.drop o).take n) (p + j) =
      if o + j < input.length then input.getD (o + j) 0 else bytes (p + j) := by
  split
  · rename_i h
    have hlen : j < ((input.drop o).take n).length := by
      rw [List.length_take, List.length_drop]
      omega
    rw [write_add hlen, List.getElem_take, List.getElem_drop, List.getD_eq_getElem _ _ h]
  · rename_i h
    apply write_of_not_inRange
    rw [List.length_take, List.length_drop]
    rintro ⟨-, hlt⟩
    omega

/-- The EVM's byte, at an offset of any size. -/
theorem getD_of_offset {input : List Byte} (hin : input.length < 2 ^ 32) (i j : Nat) :
    input.getD (i + j) 0 = if 2 ^ 32 ≤ i then 0 else input.getD (i % 2 ^ 32 + j) 0 := by
  split
  · exact List.getD_eq_default _ _ (by omega)
  · rw [Nat.mod_eq_of_lt (by omega)]

/-- **The bytes are the EVM's** exactly when zeros stand where the copy leaves off, and where it
should not have begun. -/
theorem callData_bytes_iff {input : List Byte} (hin : input.length < 2 ^ 32) {bytes : Nat → Byte}
    {p i n : Nat} :
    (∀ j < n, write bytes p ((input.drop (i % 2 ^ 32)).take n) (p + j) = input.getD (i + j) 0) ↔
      (∀ j < n, input.length ≤ i % 2 ^ 32 + j → bytes (p + j) = 0) ∧
        (2 ^ 32 ≤ i → ∀ j < n, input.getD (i % 2 ^ 32 + j) 0 = 0) := by
  constructor
  · intro h
    refine ⟨fun j hj hend => ?_, fun hhigh j hj => ?_⟩
    · have hbyte := h j hj
      rw [write_callData hj, if_neg (by omega), getD_of_offset hin i j,
        List.getD_eq_default input _ hend, ite_self] at hbyte
      exact hbyte
    · have hbyte := h j hj
      rw [write_callData hj, getD_of_offset hin i j, if_pos hhigh] at hbyte
      split at hbyte
      · exact hbyte
      · rename_i hend
        exact List.getD_eq_default _ _ (by omega)
  · rintro ⟨hstale, hhigh⟩ j hj
    rw [write_callData hj, getD_of_offset hin i j]
    by_cases hi : 2 ^ 32 ≤ i
    · rw [if_pos hi]
      split
      · exact hhigh hi j hj
      · rename_i hend
        exact hstale j hj (by omega)
    · rw [if_neg hi]
      split
      · rfl
      · rename_i hend
        rw [hstale j hj (by omega), List.getD_eq_default _ _ (by omega)]

/-- A copy that writes the EVM's bytes is one that is padded. -/
theorem eeiCallDataCopy_iff {input : List Byte} (hin : input.length < 2 ^ 32) {m : LinMem}
    {p i n : Nat} (hn : n < 2 ^ 32) (hp : p + n ≤ m.size) :
    (∃ m', eeiCallDataCopy input p (i % 2 ^ 32) n m = some m' ∧
        ∀ j < n, m'.bytes (p + j) = input.getD (i + j) 0) ↔ Padded input m p i n := by
  rw [eeiCallDataCopy_eq hin (Nat.mod_lt _ (by decide)) hn hp]
  constructor
  · rintro ⟨m', hm', hbytes⟩
    split at hm'
    · rename_i hok
      cases hm'
      obtain ⟨hstale, hhigh⟩ := (callData_bytes_iff hin).mp hbytes
      exact ⟨hok.1, hok.2.1, hok.2.2, hstale, hhigh⟩
    · cases hm'
  · intro h
    rw [if_pos ⟨h.inData, h.srcNoWrap, h.dstNoWrap⟩]
    exact ⟨_, rfl, (callData_bytes_iff hin).mpr ⟨h.stale, h.high⟩⟩

/-- And it moves nothing but its destination. -/
theorem eeiCallDataCopy_within {input : List Byte} {m m' : LinMem} {p o n : Nat}
    (hin : input.length < 2 ^ 32) (ho : o < 2 ^ 32) (hn : n < 2 ^ 32) (hp : p + n ≤ m.size)
    (h : eeiCallDataCopy input p o n m = some m') : m'.size = m.size ∧ Within m m' p n := by
  rw [eeiCallDataCopy_eq hin ho hn hp] at h
  split at h
  · cases h
    refine ⟨rfl, fun a ha => write_of_not_inRange ?_⟩
    rw [List.length_take]
    rintro ⟨h1, h2⟩
    exact ha ⟨h1, by omega⟩
  · cases h

/-! ## §3 — the two opcodes. -/

theorem length_slice (bs : List Byte) (off n : Nat) : (slice bs off n).length = n := by
  simp [slice]

theorem getElem_slice {bs : List Byte} {off n j : Nat} (h : j < (slice bs off n).length) :
    (slice bs off n)[j] = bs.getD (off + j) 0 := by
  simp [slice]

/-- Words are told apart by their bytes. -/
theorem ofBE_word_inj {as bs : List Byte} (ha : as.length = 32) (hb : bs.length = 32) :
    BitVec.ofNat 256 (ofBE as) = BitVec.ofNat 256 (ofBE bs) ↔ as = bs := by
  have hlt : ∀ cs : List Byte, cs.length = 32 → ofBE cs < 2 ^ 256 := by
    intro cs hcs
    have h := Lib.ofBE_lt cs
    rwa [hcs, two_pow_word] at h
  constructor
  · intro h
    have hval := congrArg BitVec.toNat h
    rw [BitVec.toNat_ofNat, BitVec.toNat_ofNat, Nat.mod_eq_of_lt (hlt as ha),
      Nat.mod_eq_of_lt (hlt bs hb)] at hval
    rw [← Lib.beBytes_ofBE as, ← Lib.beBytes_ofBE bs, ha, hb, hval]
  · rintro rfl
    rfl

theorem read_eq_slice_iff {bytes : Nat → Byte} {input : List Byte} {p i n : Nat} :
    read bytes p n = slice input i n ↔ ∀ j < n, bytes (p + j) = input.getD (i + j) 0 := by
  constructor
  · intro h j hj
    rw [← getElem_read (m := bytes) (a := p) (n := n) (by rwa [length_read]), List.getElem_of_eq h,
      getElem_slice]
  · intro h
    refine List.ext_getElem (by rw [length_read, length_slice]) fun j h₁ h₂ => ?_
    rw [getElem_read, getElem_slice]
    exact h j (by rwa [length_read] at h₁)

/-- The load behind the copy gives the big-endian word of the slot. -/
theorem emitCalldataload_eq {input : List Byte} {m : LinMem} {p : Nat} (hslot : Slot m p 32)
    (hin : input.length < 2 ^ 32) (i : Word) :
    emitCalldataload input m p i = (eeiCallDataCopy input p (ptr i) 32 m).map fun m' =>
      (BitVec.ofNat 256 (ofBE (read m'.bytes p 32)), m') := by
  unfold emitCalldataload
  cases hcopy : eeiCallDataCopy input p (ptr i) 32 m with
  | none => rfl
  | some m' =>
    have hsize :=
      (eeiCallDataCopy_within hin (Nat.mod_lt _ (by decide)) (by decide) hslot.inBounds hcopy).1
    have hslot' : Slot m' p (256 / 8) := ⟨by rw [hsize]; exact hslot.inBounds, hslot.noWrap⟩
    show ((createLoadMem 256 m' p).bind fun value => some (emitEndianConvert false value, m')) = _
    rw [createLoadMem_of_slot hslot', Option.bind_some,
      emitEndianConvert_eq false _ (by decide) (by decide),
      byteSwap_ofLE (length_read ..)]
    rfl

theorem emitCalldataload_iff {input : List Byte} (hin : input.length < 2 ^ 32)
    {m : LinMem} {p : Nat} (hslot : Slot m p 32) (i : Word) :
    (∃ m', emitCalldataload input m p i =
      some (BitVec.ofNat 256 (ofBE (slice input i.toNat 32)), m')) ↔
      Padded input m p i.toNat 32 := by
  rw [← eeiCallDataCopy_iff hin (by decide) hslot.inBounds, emitCalldataload_eq hslot hin]
  refine exists_congr fun m' => ?_
  rw [Option.map_eq_some_iff]
  constructor
  · rintro ⟨m₁, hcopy, hword⟩
    obtain ⟨hval, rfl⟩ := Prod.mk.inj hword
    have hread := (ofBE_word_inj (length_read ..) (length_slice ..)).mp hval
    exact ⟨hcopy, read_eq_slice_iff.mp hread⟩
  · rintro ⟨hcopy, hbytes⟩
    exact ⟨m', hcopy, by rw [read_eq_slice_iff.mpr hbytes]⟩

theorem emitCalldatacopy_iff {input : List Byte} (hin : input.length < 2 ^ 32) {m : LinMem}
    {dst n : Word} (hsize : m.size ≤ 2 ^ 32) (hn : n.toNat < 2 ^ 32)
    (hdst : dst.toNat + n.toNat ≤ m.size) (i : Word) :
    (∃ m', emitCalldatacopy input m dst i n = some m' ∧
        m'.bytes = write m.bytes dst.toNat (slice input i.toNat n.toNat)) ↔
      Padded input m (ptr dst) i.toNat n.toNat := by
  -- a destination at 2^32 is one of no bytes
  have hptr : 0 < n.toNat → ptr dst = dst.toNat := fun hpos => ptr_of_lt (by omega)
  have hle : ptr dst + n.toNat ≤ m.size :=
    Nat.le_trans (Nat.add_le_add_right (Nat.mod_le ..) _) hdst
  rw [← eeiCallDataCopy_iff hin hn hle, emitCalldatacopy, ptr_of_lt hn]
  refine exists_congr fun m' => and_congr_right fun hcopy => ?_
  have hwithin := (eeiCallDataCopy_within hin (Nat.mod_lt _ (by decide)) hn hle hcopy).2
  have hframe : ∀ a, ¬ InRange dst.toNat (slice input i.toNat n.toNat).length a →
      m'.bytes a = m.bytes a := by
    intro a ha
    refine hwithin a fun h => ha ?_
    have hpos : 0 < n.toNat := by
      obtain ⟨h1, h2⟩ := h
      omega
    rw [hptr hpos] at h
    rw [length_slice]
    exact h
  rw [eq_write_iff hframe]
  constructor
  · intro h j hj
    rw [hptr (by omega), h j (by rwa [length_slice]), getElem_slice]
  · intro h j hj
    rw [length_slice] at hj
    rw [getElem_slice, ← h j hj, hptr (by omega)]

/-- **`CALLDATALOAD` and `CALLDATACOPY` give the EVM's zero-padded bytes**, and do not throw,
exactly when the copy is `Padded`: by what stands in the slot of the one and at the destination of
the other. -/
theorem calldata_padded_iff (input : List Byte) (m : LinMem) (i : Word)
    (hin : input.length < 2 ^ 32) (hsize : m.size ≤ 2 ^ 32) :
    (∀ p, Slot m p 32 →
      ((∃ m', emitCalldataload input m p i =
        some (BitVec.ofNat 256 (ofBE (slice input i.toNat 32)), m')) ↔
        Padded input m p i.toNat 32)) ∧
    ∀ dst n : Word, n.toNat < 2 ^ 32 → dst.toNat + n.toNat ≤ m.size →
      ((∃ m', emitCalldatacopy input m dst i n = some m' ∧
          m'.bytes = write m.bytes dst.toNat (slice input i.toNat n.toNat)) ↔
        Padded input m (ptr dst) i.toNat n.toNat) :=
  ⟨fun _ hslot => emitCalldataload_iff hin hslot i,
    fun _ _ hn hdst => emitCalldatacopy_iff hin hsize hn hdst i⟩

theorem emptyPage_padded {i : Nat} (hi : i ≤ 3) (p n : Nat) (hp : p < 65536) (hn : n < 65536) :
    Padded [1, 2, 3] emptyPage p i n where
  inData := by rw [Nat.mod_eq_of_lt (by omega)]; exact hi
  srcNoWrap := by omega
  dstNoWrap := by omega
  stale := fun _ _ _ => rfl
  high := fun h => absurd h (by omega)

/-- From a memory of zeros, three bytes of call data are padded. -/
theorem calldata_padded_iff_short :
    (∃ m', emitCalldataload [1, 2, 3] emptyPage 1024 1 =
      some (BitVec.ofNat 256 (ofBE (slice [1, 2, 3] 1 32)), m')) ∧
    ∃ m', emitCalldatacopy [1, 2, 3] emptyPage 64 1 5 = some m' ∧
      m'.bytes = write emptyPage.bytes 64 [2, 3, 0, 0, 0] :=
  have h := calldata_padded_iff [1, 2, 3] emptyPage 1 (by decide) (by decide)
  ⟨(h.1 1024 ⟨by decide, by decide⟩).mpr (emptyPage_padded (by decide) 1024 32 (by decide)
    (by decide)), (h.2 64 5 (by decide)
    (by decide)).mpr (emptyPage_padded (by decide) 64 5 (by decide) (by decide))⟩

/-- A page that is not empty. -/
def dirtyPage : LinMem := ⟨65536, fun _ => 0xff⟩

/-- One byte past the end the host throws, where the EVM gives zeros; and from a slot that was used
before, `CALLDATALOAD` gives what it finds there. -/
theorem calldata_not_padded :
    emitCalldataload [1, 2, 3] emptyPage 1024 4 = none ∧
    emitCalldatacopy [1, 2, 3] emptyPage 64 4 32 = none ∧
    (emitCalldataload [1, 2, 3] dirtyPage 1024 0).map Prod.fst ≠
      some (BitVec.ofNat 256 (ofBE (slice [1, 2, 3] 0 32))) := by
  refine ⟨rfl, rfl, ?_⟩
  decide +kernel

/-! ## §4 — `eeiCall`. -/

/-- `EthereumInterface::EEICallKind`. -/
inductive EEICallKind where
  | Call
  | CallCode
  | CallDelegate
  | CallStatic
  deriving DecidableEq, Repr

/-- `evmc_call_kind`, as far as a call goes. -/
inductive EvmcCallKind where
  | EVMC_CALL
  | EVMC_CALLCODE
  | EVMC_DELEGATECALL
  deriving DecidableEq, Repr

/-- `evmc_status_code`; the host tells no two failures apart. -/
inductive EvmcStatus where
  | EVMC_SUCCESS
  | EVMC_REVERT
  | EVMC_FAILURE
  deriving DecidableEq, Repr

/-- `evmc_message`; `isStatic` is the one flag there is. -/
structure EvmcMessage where
  kind : EvmcCallKind
  isStatic : Bool
  depth : Nat
  gas : Int
  destination : Address
  sender : Address
  input : List Byte
  value : Bytes32

/-- `evmc_result`; no output is the empty output. -/
structure EvmcResult where
  status : EvmcStatus
  output : List Byte
  deriving DecidableEq

/-- `EthereumInterface`: the message in execution, its gas, `m_lastReturnData`, and what `m_host`
answers. -/
structure EthereumInterface where
  msg : EvmcMessage
  gasLeft : Int
  lastReturnData : List Byte
  getBalance : Address → Bytes32
  call : EvmcMessage → EvmcResult

/-- `loadUint128`: sixteen little-endian bytes, as the low half of a `uint256be`. -/
def loadUint128 (m : LinMem) (srcOffset : Nat) : Option Bytes32 :=
  if srcOffset + 16 ≤ m.size then
    some ⟨List.replicate 16 0 ++ (read m.bytes srcOffset 16).reverse, by simp⟩
  else none

/-- `enoughSenderBalanceFor`; `safeLoadUint128` throws beyond 128 bits. -/
def EthereumInterface.enoughSenderBalanceFor (I : EthereumInterface) (value : Bytes32) :
    Option Bool :=
  let balance := ofBE (I.getBalance I.msg.destination).bytes
  if 2 ^ 128 ≤ balance ∨ 2 ^ 128 ≤ ofBE value.bytes then none else some (ofBE value.bytes ≤ balance)

/-- The `switch (kind)` of `eeiCall`: kind, flag, sender and value of the message. A static call
sends no value. -/
def EthereumInterface.callFields (I : EthereumInterface) (m : LinMem) (valueOffset : Nat) :
    EEICallKind → Option (EvmcCallKind × Bool × Address × Bytes32)
  | .Call => do
    let value ← loadUint128 m valueOffset
    if value ≠ Bytes32.of 0 ∧ I.msg.isStatic then none
    else return (.EVMC_CALL, I.msg.isStatic, I.msg.destination, value)
  | .CallCode => do
    let value ← loadUint128 m valueOffset
    return (.EVMC_CALLCODE, I.msg.isStatic, I.msg.destination, value)
  | .CallDelegate => some (.EVMC_DELEGATECALL, I.msg.isStatic, I.msg.sender, I.msg.value)
  | .CallStatic => some (.EVMC_CALL, true, I.msg.destination, Bytes32.of 0)

/-- The input of the message; `ensureSourceMemoryBounds` is not asked about an empty one. -/
def callInput (m : LinMem) (dataOffset dataLength : Nat) : Option (List Byte) :=
  if dataLength = 0 then some []
  else if dataOffset + dataLength < 2 ^ 32 then m.load dataOffset dataLength
  else none

/-- How a call ends that does not throw: without having been made, or with the callee's result. -/
inductive CallOutcome where
  | refused
  | answered (result : EvmcResult)
  deriving DecidableEq

/-- What `eeiCall` returns. -/
def CallOutcome.code : CallOutcome → Nat
  | .refused => 1
  | .answered result =>
    match result.status with
    | .EVMC_SUCCESS => 0
    | .EVMC_REVERT => 2
    | .EVMC_FAILURE => 1

/-- `m_lastReturnData` behind it: a call that was not made leaves the old one. -/
def CallOutcome.returnData (last : List Byte) : CallOutcome → List Byte
  | .refused => last
  | .answered result => result.output

/-- `eeiCall`. -/
def EthereumInterface.eeiCall (I : EthereumInterface) (kind : EEICallKind) (gas : BitVec 64)
    (m : LinMem) (addressOffset valueOffset dataOffset dataLength : Nat) : Option CallOutcome := do
  guard (0 ≤ gas.toInt)
  let destination ← loadAddress m addressOffset
  let (evmcKind, isStatic, sender, value) ← I.callFields m valueOffset kind
  let input ← callInput m dataOffset dataLength
  if 1024 ≤ I.msg.depth then
    return .refused
  let transfers := (kind = .Call ∨ kind = .CallCode) ∧ value ≠ Bytes32.of 0
  let enough ← if transfers then I.enoughSenderBalanceFor value else some true
  if ¬ enough then
    return .refused
  let gas := min gas.toInt (I.gasLeft - I.gasLeft.tdiv 64)
  let gas := if value ≠ Bytes32.of 0 then gas + 2300 else gas
  return .answered (I.call
    ⟨evmcKind, isStatic, I.msg.depth + 1, gas, destination, sender, input, value⟩)

/-- `eeiReturnDataCopy`. -/
def eeiReturnDataCopy (lastReturnData : List Byte) (dataOffset offset size : Nat) (m : LinMem) :
    Option LinMem :=
  storeMemory lastReturnData offset dataOffset size m

/-! ## §5 — `CALL`, `CALLCODE`, `DELEGATECALL` and `STATICCALL`. -/

/-- The four opcodes, with the operand that two of them have. -/
inductive CallOpcode where
  | CALL (value : StackReg)
  | CALLCODE (value : StackReg)
  | DELEGATECALL
  | STATICCALL

/-- The function of the host that an opcode calls. -/
def CallOpcode.kind : CallOpcode → EEICallKind
  | .CALL _ => .Call
  | .CALLCODE _ => .CallCode
  | .DELEGATECALL => .CallDelegate
  | .STATICCALL => .CallStatic

/-- `ValuePtr`, filled. -/
def CallOpcode.storeValue (m : LinMem) (valPtr : Nat) : CallOpcode → Option LinMem
  | .CALL value | .CALLCODE value => do
    let value ← truncOrBitCast 128 value.toReg
    createStoreMem 128 m valPtr value
  | .DELEGATECALL | .STATICCALL => some m

/-- The code up to the host's answer. -/
def emitCallHost (isConst : Bool) (I : EthereumInterface) (m : LinMem) (fr : Frame m)
    (op : CallOpcode) (callGas address inOff inSize : StackReg) :
    Option (LinMem × CallOutcome) := do
  let gas ← truncOrBitCast 64 callGas.toReg
  let m ← storeOperand true isConst m fr.addressPtr address.toReg
  let m ← op.storeValue m fr.valPtr
  let size ← truncOrBitCast 32 inSize.toReg
  let outcome ← I.eeiCall op.kind gas m fr.addressPtr fr.valPtr (intToPtr inOff.toReg) size.toNat
  return (m, outcome)

/-- The code of a call: the word pushed, and the memory behind it. `outSize` bytes of the return
data are asked for, whatever its length. -/
def emitCallOpcode (isConst : Bool) (I : EthereumInterface) (m : LinMem) (fr : Frame m)
    (op : CallOpcode) (callGas address inOff inSize outOff outSize : StackReg) :
    Option (Word × LinMem) := do
  let (m, outcome) ← emitCallHost isConst I m fr op callGas address inOff inSize
  let size ← truncOrBitCast 32 outSize.toReg
  let m ← eeiReturnDataCopy (outcome.returnData I.lastReturnData) (intToPtr outOff.toReg) 0
    size.toNat m
  return (if outcome.code = 0 then 1 else 0, m)

/-- **What the EVM leaves behind a call** with output area `(outOff, outSize)`: the truth of its
success on the stack, the output in the area as far as both go, and all other bytes as they were,
the two stack slots apart. -/
structure CallDone {m : LinMem} (fr : Frame m) (r : EvmcResult) (outOff outSize : Nat)
    (pushed : Word) (m' : LinMem) : Prop where
  pushed_eq : pushed = if r.status = .EVMC_SUCCESS then 1 else 0
  copied : ∀ j < min outSize r.output.length, m'.bytes (outOff + j) = r.output.getD j 0
  frame : ∀ a, ¬ InRange outOff (min outSize r.output.length) a → ¬ InRange fr.addressPtr 20 a →
    ¬ InRange fr.valPtr 16 a → m'.bytes a = m.bytes a

/-- **When the host serves the request** from the memory `m₁`: the callee has returned as many bytes
as were asked for, and the area does not end at the very end of the address space. An area that IS
the address space is asked for as one of no bytes. -/
def OutputServed (m₁ : LinMem) (r : EvmcResult) (outOff outSize : Nat) : Prop :=
  (outSize < 2 ^ 32 ∧ outSize ≤ r.output.length ∧ outOff % 2 ^ 32 + outSize < 2 ^ 32) ∨
    (outSize = 2 ^ 32 ∧
      ∀ j < min outSize r.output.length, m₁.bytes (outOff + j) = r.output.getD j 0)

/-! ## §6 — the code up to the answer. -/

theorem createStoreMem_within {ty n p : Nat} {m m' : LinMem} {v : BitVec n}
    (h : createStoreMem ty m p v = some m') : m'.size = m.size ∧ Within m m' p (ty / 8) := by
  unfold createStoreMem at h
  split at h
  · rename_i hty
    have hwithin := LinMem.store_within h
    rw [length_leBytes, hty] at hwithin
    exact ⟨LinMem.store_size h, hwithin⟩
  · cases h

theorem storeOperand_within {convert isConst : Bool} {m m' : LinMem} {p : Nat} {address : Reg}
    (h : storeOperand convert isConst m p address = some m') :
    m'.size = m.size ∧ Within m m' p 20 := by
  obtain ⟨a, -, h⟩ := Option.bind_eq_some_iff.mp h
  exact createStoreMem_within h

theorem CallOpcode.storeValue_within {op : CallOpcode} {m m' : LinMem} {p : Nat}
    (h : op.storeValue m p = some m') : m'.size = m.size ∧ Within m m' p 16 := by
  cases op with
  | CALL value | CALLCODE value =>
    obtain ⟨v, -, h⟩ := Option.bind_eq_some_iff.mp h
    exact createStoreMem_within h
  | DELEGATECALL | STATICCALL =>
    cases h
    exact ⟨rfl, fun _ _ => rfl⟩

/-- Up to the answer, a call moves its two stack slots and nothing else. -/
theorem emitCallHost_within {isConst : Bool} {I : EthereumInterface} {m m' : LinMem} {fr : Frame m}
    {op : CallOpcode} {callGas address inOff inSize : StackReg} {o : CallOutcome}
    (h : emitCallHost isConst I m fr op callGas address inOff inSize = some (m', o)) :
    m'.size = m.size ∧
      ∀ a, ¬ InRange fr.addressPtr 20 a → ¬ InRange fr.valPtr 16 a → m'.bytes a = m.bytes a := by
  obtain ⟨gas, -, h⟩ := Option.bind_eq_some_iff.mp h
  obtain ⟨m₁, haddress, h⟩ := Option.bind_eq_some_iff.mp h
  obtain ⟨m₂, hvalue, h⟩ := Option.bind_eq_some_iff.mp h
  obtain ⟨size, -, h⟩ := Option.bind_eq_some_iff.mp h
  obtain ⟨outcome, -, h⟩ := Option.bind_eq_some_iff.mp h
  cases h
  obtain ⟨hsize₁, hwithin₁⟩ := storeOperand_within haddress
  obtain ⟨hsize₂, hwithin₂⟩ := CallOpcode.storeValue_within hvalue
  refine ⟨by rw [hsize₂, hsize₁], fun a ha hv => ?_⟩
  rw [hwithin₂ a hv, hwithin₁ a ha]

/-! ## §7 — the output area. -/

/-- 1 is pushed for the code 0, which is success. -/
theorem CallOutcome.pushed_answered (r : EvmcResult) :
    (if (CallOutcome.answered r).code = 0 then (1 : Word) else 0) = if r.status =
      .EVMC_SUCCESS then 1 else 0 := by
  obtain ⟨status, output⟩ := r
  cases status <;> rfl

/-- As a pointer a register is the pointer of its word. -/
theorem intToPtr_eq (r : Reg) : intToPtr r = ptr r.denote := by
  have hle : r.width.bits ≤ 256 := by cases r.width <;> decide
  rw [intToPtr, ptr, Reg.denote, BitVec.toNat_setWidth_of_le hle]

/-- Behind an answer, the opcode is one `storeMemory` away from its end. -/
theorem emitCallOpcode_answered {isConst : Bool} {I : EthereumInterface} {m m₁ : LinMem}
    {fr : Frame m} {op : CallOpcode} {callGas address inOff inSize : StackReg} {r : EvmcResult}
    (h : emitCallHost isConst I m fr op callGas address inOff inSize = some (m₁, .answered r))
    (outOff outSize : StackReg) :
    emitCallOpcode isConst I m fr op callGas address inOff inSize outOff outSize =
      (storeMemory r.output 0 (ptr outOff.denote) (ptr outSize.denote) m₁).map fun m' =>
        (if r.status = .EVMC_SUCCESS then 1 else 0, m') := by
  have hsize : truncOrBitCast 32 outSize.toReg = some (outSize.denote.setWidth 32) :=
    truncOrBitCast_of_le (Width.bits_iff outSize.ne_i1).1 (by decide)
  unfold emitCallOpcode
  rw [h, Option.bind_eq_bind, Option.bind_some]
  show ((truncOrBitCast 32 outSize.toReg).bind fun size =>
    (eeiReturnDataCopy r.output (intToPtr outOff.toReg) 0 size.toNat m₁).bind fun m' =>
      some (if (CallOutcome.answered r).code = 0 then 1 else 0, m')) = _
  rw [hsize, Option.bind_some, intToPtr_eq, BitVec.toNat_setWidth, CallOutcome.pushed_answered]
  exact (Option.map_eq_bind ..).symm

/-- The copy, when the host makes it: the first `n` bytes of the source. -/
theorem storeMemory_zero_iff {src : List Byte} {p n : Nat} {m m' : LinMem} (hp : p + n ≤ m.size) :
    storeMemory src 0 p n m = some m' ↔
      (n ≤ src.length ∧ p + n < 2 ^ 32) ∧
      m' = { m with bytes := write m.bytes p (src.take n) } := by
  unfold storeMemory LinMem.store
  rw [Nat.zero_add, List.drop_zero]
  by_cases h : n ≤ src.length ∧ p + n < 2 ^ 32
  · rw [if_pos ⟨by omega, h.1, h.2⟩, List.length_take, Nat.min_eq_left h.1, if_pos hp,
      Option.some.injEq]
    exact ⟨fun e => ⟨h, e.symm⟩, fun e => e.2.symm⟩
  · rw [if_neg (fun hn => h hn.2)]
    exact iff_of_false nofun (fun e => h e.1)

section
variable {m m₁ : LinMem} {fr : Frame m} {r : EvmcResult} {outOff outSize : Word}

/-- The end of the opcode and the EVM's, for an area whose size 32 bits hold. -/
theorem callDone_iff_of_lt (hsize : m.size ≤ 2 ^ 32) (hsize₁ : m₁.size = m.size)
    (hframe₁ : ∀ a, ¬ InRange fr.addressPtr 20 a → ¬ InRange fr.valPtr 16 a →
      m₁.bytes a = m.bytes a)
    (hout : outOff.toNat + outSize.toNat ≤ m.size) (hlt : outSize.toNat < 2 ^ 32) :
    (∃ m', storeMemory r.output 0 (ptr outOff) (ptr outSize) m₁ = some m' ∧
      CallDone fr r outOff.toNat outSize.toNat (if r.status = .EVMC_SUCCESS then 1 else 0) m') ↔
      outSize.toNat ≤ r.output.length ∧ outOff.toNat % 2 ^ 32 + outSize.toNat < 2 ^ 32 := by
  have hptr : 0 < outSize.toNat → ptr outOff = outOff.toNat := fun hpos => ptr_of_lt (by omega)
  have hle : ptr outOff + outSize.toNat ≤ m₁.size := by
    rw [hsize₁]
    exact Nat.le_trans (Nat.add_le_add_right (Nat.mod_le ..) _) hout
  rw [ptr_of_lt hlt]
  constructor
  · rintro ⟨m', hcopy, -⟩
    exact ((storeMemory_zero_iff hle).mp hcopy).1
  · intro hserved
    refine ⟨_, (storeMemory_zero_iff hle).mpr ⟨hserved, rfl⟩, rfl, ?_, ?_⟩
    · intro j hj
      have hlen : j < (r.output.take outSize.toNat).length := by rwa [List.length_take]
      show write m₁.bytes (ptr outOff) _ (outOff.toNat + j) = _
      rw [hptr (by omega), write_add hlen, List.getElem_take, List.getD_eq_getElem]
    · intro a ha hslot hval
      show write m₁.bytes (ptr outOff) _ a = m.bytes a
      rw [write_of_not_inRange, hframe₁ a hslot hval]
      rw [List.length_take]
      intro h
      have hpos : 0 < outSize.toNat := by
        obtain ⟨h1, h2⟩ := h
        omega
      rw [hptr hpos] at h
      exact ha h

/-- And for an area of `2^32` bytes, whose size truncates to 0: nothing is copied. -/
theorem callDone_iff_of_whole
    (hframe₁ : ∀ a, ¬ InRange fr.addressPtr 20 a → ¬ InRange fr.valPtr 16 a →
      m₁.bytes a = m.bytes a)
    (hoff : outOff.toNat = 0) (heq : outSize.toNat = 2 ^ 32) :
    (∃ m', storeMemory r.output 0 (ptr outOff) (ptr outSize) m₁ = some m' ∧
      CallDone fr r outOff.toNat outSize.toNat (if r.status = .EVMC_SUCCESS then 1 else 0) m') ↔
      ∀ j < min outSize.toNat r.output.length, m₁.bytes (outOff.toNat + j) = r.output.getD j 0 := by
  have hcopy : ∀ m', storeMemory r.output 0 (ptr outOff) (ptr outSize) m₁ = some m' ↔ m' = m₁ := by
    intro m'
    rw [show ptr outSize =
      0 by rw [ptr, heq, Nat.mod_self], show ptr outOff = 0 by rw [ptr, hoff]; rfl,
      storeMemory_zero_iff (Nat.zero_le _), List.take_zero, write_nil]
    exact and_iff_right ⟨Nat.zero_le _, by decide⟩
  constructor
  · rintro ⟨m', hm', hdone⟩
    rw [(hcopy m').mp hm'] at hdone
    exact hdone.copied
  · intro h
    exact ⟨m₁, (hcopy m₁).mpr rfl, rfl, h, fun a _ hslot hval => hframe₁ a hslot hval⟩

end

/-- **A call does to the output area what the EVM does** exactly when the host serves the
request. -/
theorem call_output_iff (isConst : Bool) (I : EthereumInterface) (m m₁ : LinMem) (fr : Frame m)
    (op : CallOpcode) (callGas address inOff inSize outOff outSize : StackReg) (r : EvmcResult)
    (hsize : m.size ≤ 2 ^ 32)
    (hanswer : emitCallHost isConst I m fr op callGas address inOff inSize = some (m₁, .answered r))
    (hout : outOff.denote.toNat + outSize.denote.toNat ≤ m.size) :
    (∃ pushed m', emitCallOpcode isConst I m fr op callGas address inOff inSize outOff outSize =
      some (pushed, m') ∧ CallDone fr r outOff.denote.toNat outSize.denote.toNat pushed m') ↔
      OutputServed m₁ r outOff.denote.toNat outSize.denote.toNat := by
  obtain ⟨hsize₁, hframe₁⟩ := emitCallHost_within hanswer
  have hend :
      (∃ pushed m', emitCallOpcode isConst I m fr op callGas address inOff inSize outOff outSize =
        some (pushed, m') ∧ CallDone fr r outOff.denote.toNat outSize.denote.toNat pushed m') ↔
      ∃ m', storeMemory r.output 0 (ptr outOff.denote) (ptr outSize.denote) m₁ = some m' ∧
        CallDone fr r outOff.denote.toNat outSize.denote.toNat (if r.status =
          .EVMC_SUCCESS then 1 else 0) m' := by
    rw [emitCallOpcode_answered hanswer]
    constructor
    · rintro ⟨pushed, m', hm', hdone⟩
      obtain ⟨m'', hcopy, hpair⟩ := Option.map_eq_some_iff.mp hm'
      obtain ⟨rfl, rfl⟩ := Prod.mk.inj hpair
      exact ⟨m'', hcopy, hdone⟩
    · rintro ⟨m', hcopy, hdone⟩
      exact ⟨_, m', Option.map_eq_some_iff.mpr ⟨m', hcopy, rfl⟩, hdone⟩
  rw [hend, OutputServed]
  rcases Nat.lt_or_ge outSize.denote.toNat (2 ^ 32) with hlt | hge
  · rw [callDone_iff_of_lt hsize hsize₁ hframe₁ hout hlt, and_iff_right hlt,
      or_iff_left (fun h => by omega)]
  · have heq : outSize.denote.toNat = 2 ^ 32 := by omega
    rw [callDone_iff_of_whole hframe₁ (by omega) heq, and_iff_right heq,
      or_iff_right (fun h => by omega)]

/-- A host on which every call succeeds with the same output. -/
def answering (output : List Byte) : EthereumInterface where
  msg := ⟨.EVMC_CALL, false, 0, 100000, Address.of 1, Address.of 2, [], Bytes32.of 0⟩
  gasLeft := 100000
  lastReturnData := []
  getBalance := fun _ => Bytes32.of 0
  call := fun _ => ⟨.EVMC_SUCCESS, output⟩

/-- A word as an operand. -/
def wordReg (v : Word) : StackReg := ⟨⟨.i256, v⟩, nofun⟩

theorem answering_answers (op : CallOpcode) (hop : op = .CALL (wordReg 0) ∨ op = .STATICCALL)
    (output : List Byte) :
    ∃ m₁, emitCallHost false (answering output) emptyPage emptyPageFrame op (wordReg 50000)
      (wordReg 3) (wordReg 0) (wordReg 0) = some (m₁, .answered ⟨.EVMC_SUCCESS, output⟩) := by
  rcases hop with rfl | rfl
  · exact ⟨_, rfl⟩
  · exact ⟨_, rfl⟩

/-- A `STATICCALL` that asks for two bytes and gets three. -/
theorem call_output_iff_long_answer :
    ∃ pushed m', emitCallOpcode false (answering [7, 8, 9]) emptyPage emptyPageFrame .STATICCALL
        (wordReg 50000) (wordReg 3) (wordReg 0) (wordReg 0) (wordReg 64) (wordReg 2) =
          some (pushed, m') ∧
      CallDone emptyPageFrame ⟨.EVMC_SUCCESS, [7, 8, 9]⟩ 64 2 pushed m' := by
  obtain ⟨m₁, h⟩ := answering_answers .STATICCALL (.inr rfl) [7, 8, 9]
  exact (call_output_iff false (answering [7, 8, 9]) emptyPage m₁ emptyPageFrame .STATICCALL
    (wordReg 50000) (wordReg 3) (wordReg 0) (wordReg 0) (wordReg 64)
    (wordReg 2) ⟨.EVMC_SUCCESS, [7, 8, 9]⟩ (by decide) h
    (by decide)).mpr (.inl (by decide))

/-- A `CALL` that asks for a word of a callee that succeeds and returns nothing, as a plain account
does: the host throws, and the execution is over. -/
theorem call_short_answer_throws :
    (emitCallHost false (answering []) emptyPage emptyPageFrame (.CALL (wordReg 0)) (wordReg 50000)
      (wordReg 3) (wordReg 0) (wordReg 0)).map Prod.snd = some (.answered ⟨.EVMC_SUCCESS, []⟩) ∧
    emitCallOpcode false (answering []) emptyPage emptyPageFrame (.CALL (wordReg 0)) (wordReg 50000)
      (wordReg 3) (wordReg 0) (wordReg 0) (wordReg 64) (wordReg 32) = none := by
  obtain ⟨m₁, h⟩ := answering_answers (.CALL (wordReg 0)) (.inl rfl) []
  refine ⟨by rw [h]; rfl, ?_⟩
  rw [emitCallOpcode_answered h]
  rfl

end EvmTrans
