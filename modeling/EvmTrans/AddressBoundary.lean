/-
# `EvmTrans.AddressBoundary` — fourteen opcodes move a 160-bit address to or from the host.

Each repeats the `alloca`, the store or load and the swap by hand, and not all of them swap. With a
host that copies the twenty big-endian bytes verbatim, `address_boundary_iff` says for each opcode
exactly when the address arrives: without the swap only a byte palindrome does; an operand narrower
than 160 bits makes the module one that `verifyModule` rejects; and `SELFDESTRUCT`, which passes its
operand AS the pointer, hands over whatever twenty bytes of memory lie there.
-/
import EvmTrans.Eei

namespace EvmTrans

open Lib (leBytes beBytes read write Apart length_leBytes read_write_self read_write_apart)

/-! ## §1 — the emitted code. -/

/-- The stack slots of one opcode: `AddressPtr`, an `i160`, and `ValPtr`, an `i128`. -/
structure Frame (m : LinMem) where
  addressPtr : Nat
  valPtr : Nat
  address_slot : Slot m addressPtr 20
  val_slot : Slot m valPtr 16
  apart : Apart valPtr 16 addressPtr 20

/-- A register on the operand stack: `i1` never gets there. -/
structure StackReg extends Reg where
  ne_i1 : width ≠ .i1

/-- The shape of `ADDRESS`, `CALLER`, `ORIGIN` and `COINBASE`, and the end of `CREATE`: the host
stores `src`, the code loads it, swaps it or does not, and extends it. -/
def pushAddress (convert : Bool) (m : LinMem) (p : Nat) (src : Address) : Option Word := do
  let m ← storeAddress src p m
  let value ← createLoadMem 160 m p
  let value := if convert then emitEndianConvert false value else value
  return value.setWidth 256

def emitAddress : LinMem → Nat → Address → Option Word := pushAddress false
def emitCaller : LinMem → Nat → Address → Option Word := pushAddress true
def emitOrigin : LinMem → Nat → Address → Option Word := pushAddress true
def emitCoinbase : LinMem → Nat → Address → Option Word := pushAddress false

/-- `CREATE`, when the host reports the new address `created`. -/
def emitCreate (m : LinMem) (fr : Frame m) (created : Address) (endowment initSize : Reg) :
    Option Word := do
  let value ← truncOrBitCast 128 endowment
  let m ← createStoreMem 128 m fr.valPtr value
  let _ ← truncOrBitCast 32 initSize
  pushAddress false m fr.addressPtr created

/-- `AddressPtr` filled from an operand, swapped or not. `isConst` says whether the operand is a
`ConstantInt`, and so is its truncation. -/
def storeOperand (convert isConst : Bool) (m : LinMem) (p : Nat) (address : Reg) :
    Option LinMem := do
  let address ← truncOrBitCast 160 address
  createStoreMem 160 m p (if convert then emitEndianConvert isConst address else address)

/-- The shape of `BALANCE`, `EXTCODESIZE` and `EXTCODEHASH`: what the host loads. The host module of
hera exports no `getExternalCodeHash`: that it would load the address as the other two do is the
convention assumed here. -/
def passAddress (convert isConst : Bool) (m : LinMem) (p : Nat) (address : Reg) :
    Option Address := do
  let m ← storeOperand convert isConst m p address
  loadAddress m p

def emitBalance : Bool → LinMem → Nat → Reg → Option Address := passAddress false
def emitExtcodesize : Bool → LinMem → Nat → Reg → Option Address := passAddress true
def emitExtcodehash : Bool → LinMem → Nat → Reg → Option Address := passAddress false

/-- `EXTCODECOPY` truncates its source index and length as well. -/
def emitExtcodecopy (isConst : Bool) (m : LinMem) (p : Nat) (addr srcIdx reqBytes : Reg) :
    Option Address := do
  let m ← storeOperand false isConst m p addr
  let _ ← truncOrBitCast 32 srcIdx
  let _ ← truncOrBitCast 32 reqBytes
  loadAddress m p

/-- The start of `eeiCall`: `ensureCondition(gas >= 0, …)`, then the address. -/
def eeiCall (gas : BitVec 64) (m : LinMem) (addressOffset : Nat) : Option Address :=
  if gas.toInt < 0 then none else loadAddress m addressOffset

/-- `CALL` and `CALLCODE`. -/
def emitCall (isConst : Bool) (m : LinMem) (fr : Frame m)
    (callGas address value inSize outSize : Reg) : Option Address := do
  let gas ← truncOrBitCast 64 callGas
  let m ← storeOperand true isConst m fr.addressPtr address
  let value ← truncOrBitCast 128 value
  let m ← createStoreMem 128 m fr.valPtr value
  let _ ← truncOrBitCast 32 inSize
  let _ ← truncOrBitCast 32 outSize
  eeiCall gas m fr.addressPtr

/-- `DELEGATECALL` and `STATICCALL`. -/
def emitDelegatecall (isConst : Bool) (m : LinMem) (p : Nat)
    (callGas address inSize outSize : Reg) : Option Address := do
  let gas ← truncOrBitCast 64 callGas
  let m ← storeOperand true isConst m p address
  let _ ← truncOrBitCast 32 inSize
  let _ ← truncOrBitCast 32 outSize
  eeiCall gas m p

/-- `SUICIDE`: `IRB.CreateIntToPtr(dest, Type::Int32PtrTy)` is the pointer. -/
def emitSuicide (m : LinMem) (dest : Reg) : Option Address := loadAddress m (intToPtr dest)

/-! ## §2 — widths of stack registers. -/

theorem Width.bits_iff {w : Width} (h : w ≠ .i1) : 32 ≤ w.bits ∧ (64 ≤ w.bits ↔ w ≠ .i32) ∧
    (128 ≤ w.bits ↔ w ≠ .i32) ∧ (160 ≤ w.bits ↔ w = .i256) := by
  cases w
  · exact absurd rfl h
  all_goals decide

/-- Truncation to 32 bits always succeeds. -/
theorem StackReg.trunc32 (r : StackReg) : ∃ v, truncOrBitCast 32 r.toReg = some v :=
  ⟨_, if_pos (Width.bits_iff r.ne_i1).1⟩

/-! ## §3 — the two directions. -/

/-- Of two addresses, the words tell them apart. -/
theorem setWidth_word_inj {B C : BitVec 160} : B.setWidth 256 = C.setWidth 256 ↔ B = C := by
  constructor
  · intro h
    have h := congrArg (BitVec.setWidth 160) h
    rwa [BitVec.setWidth_setWidth_of_le _ (by decide), BitVec.setWidth_setWidth_of_le _ (by decide),
      BitVec.setWidth_eq, BitVec.setWidth_eq] at h
  · rintro rfl
    rfl

theorem storeOperand_eq_none (convert isConst : Bool) {address : Reg}
    (hw : ¬ 160 ≤ address.width.bits) : storeOperand convert isConst m p address = none := by
  rw [storeOperand, truncOrBitCast_eq_none hw]
  rfl

/-- Handing over the address or its swap. -/
theorem addressOf_iff (convert : Bool) (A : BitVec 160) :
    Address.of (if convert then A else byteSwap A) = Address.of A ↔
    convert = true ∨ BytePalindrome A := by
  have hinj : ∀ B C : BitVec 160, Address.of B = Address.of C ↔ B = C := fun B C =>
    ofNat_bytes_inj ⟨20, rfl⟩
  rw [hinj]
  cases convert with
  | true => exact iff_of_true rfl (.inl rfl)
  | false =>
    constructor
    · exact .inr
    · rintro (h | h)
      · cases h
      · exact h

/-- The gas operand of a call is accepted: it has 64 bits to truncate to, and the host, which reads
them as a signed number, does not throw. -/
def GasAccepted (callGas : Reg) : Prop := callGas.width ≠ .i32 ∧ callGas.denote.getLsbD 63 = false

theorem eeiCall_iff {gas : BitVec 64} {m : LinMem} {p : Nat} {a : Address} :
    eeiCall gas m p = some a ↔ gas.msb = false ∧ loadAddress m p = some a := by
  rw [eeiCall, BitVec.msb_eq_toInt]
  by_cases h : gas.toInt < 0
  · rw [if_pos h, decide_eq_true h]
    exact iff_of_false nofun nofun
  · rw [if_neg h, decide_eq_false h, and_iff_right rfl]

/-- Both kinds of call truncate the gas, prepare the slots and call `eeiCall`. -/
theorem call_iff (callGas : StackReg) (prepare : Option LinMem) (p : Nat) (a : Address) :
    (truncOrBitCast 64 callGas.toReg).bind (fun gas => prepare.bind (eeiCall gas · p)) = some a ↔
      GasAccepted callGas.toReg ∧ prepare.bind (loadAddress · p) = some a := by
  rw [GasAccepted, ← (Width.bits_iff callGas.ne_i1).2.1]
  by_cases hw : 64 ≤ callGas.width.bits
  · have hmsb : (callGas.denote.setWidth 64).msb = callGas.denote.getLsbD 63 := by
      rw [BitVec.msb_eq_getLsbD_last, BitVec.getLsbD_setWidth]
      rfl
    rw [truncOrBitCast_of_le hw (by decide), Option.bind_some, and_iff_right hw]
    cases prepare with
    | none => exact iff_of_false nofun fun h => nomatch h.2
    | some m' =>
      rw [Option.bind_some, Option.bind_some, eeiCall_iff, hmsb]
  · rw [truncOrBitCast_eq_none hw]
    exact iff_of_false nofun fun h => hw h.1.1

section Boundary

variable {m : LinMem} {p : Nat} (hp : Slot m p 20) (A : BitVec 160)

include hp

theorem pushAddress_eq (convert : Bool) : pushAddress convert m p (Address.of A) =
    some ((if convert then A else byteSwap A).setWidth 256) := by
  have hload : (storeAddress (Address.of A) p m).bind (createLoadMem 160 · p) = some (byteSwap A) :=
    createLoadMem_storeFixed ⟨20, rfl⟩ A hp
  obtain ⟨m', hm', hload⟩ := Option.bind_eq_some_iff.mp hload
  show (storeAddress (Address.of A) p m).bind _ = _
  rw [hm', Option.bind_some]
  show (createLoadMem 160 m' p).bind _ = _
  rw [hload, Option.bind_some]
  cases convert with
  | false => rfl
  | true =>
    show some ((emitEndianConvert false (byteSwap A)).setWidth 256) = _
    rw [emitEndianConvert_eq _ _ ⟨20, rfl⟩ (by decide), byteSwap_byteSwap A ⟨20, rfl⟩]
    rfl

theorem pushAddress_iff (convert : Bool) :
    pushAddress convert m p (Address.of A) = some (A.setWidth 256) ↔
    convert = true ∨ BytePalindrome A := by
  rw [pushAddress_eq hp, Option.some_inj, setWidth_word_inj, ← addressOf_iff]
  exact (ofNat_bytes_inj ⟨20, rfl⟩).symm

/-- The bytes in `AddressPtr` once an operand of at least 160 bits is stored: those of its low 160
bits, or of their swap. -/
theorem storeOperand_eq (convert isConst : Bool) {address : Reg} (hw : 160 ≤ address.width.bits)
    (hA : address.denote.setWidth 160 = A) : storeOperand convert isConst m p address =
      some { m with bytes := write m.bytes p (Address.of
        (if convert then A else byteSwap A)).bytes } := by
  subst hA
  rw [storeOperand, truncOrBitCast_of_le hw (by decide), Option.bind_eq_bind, Option.bind_some,
    createStoreMem_of_slot _ hp, emitEndianConvert_eq _ _ ⟨20, rfl⟩ (by decide)]
  congr 3
  cases convert with
  | true => exact leBytes_byteSwap _ ⟨20, rfl⟩
  | false => exact leBytes_eq_beBytes_byteSwap _ ⟨20, rfl⟩

/-- What the host loads after the operand is stored. -/
theorem loadAddress_write (B : BitVec 160) :
    loadAddress { m with bytes := write m.bytes p (Address.of B).bytes } p =
      some (Address.of B) := by
  rw [loadAddress, loadFixed_of_slot (hp.write _)]
  congr 1
  apply FixedBytes.ext
  have hread := read_write_self m.bytes p (Address.of B).bytes
  rwa [(Address.of B).length_eq] at hread

theorem passAddress_iff (convert isConst : Bool) (address : StackReg)
    (hA : address.denote.setWidth 160 = A) :
    passAddress convert isConst m p address.toReg = some (Address.of A) ↔
      address.width = .i256 ∧ (convert = true ∨ BytePalindrome A) := by
  rw [← (Width.bits_iff address.ne_i1).2.2.2, passAddress]
  by_cases hw : 160 ≤ address.width.bits
  · rw [storeOperand_eq hp A convert isConst hw hA, Option.bind_eq_bind, Option.bind_some,
      loadAddress_write hp, Option.some_inj, addressOf_iff]
    exact (and_iff_right hw).symm
  · rw [storeOperand_eq_none convert isConst hw]
    exact iff_of_false nofun fun h => hw h.1

theorem emitExtcodecopy_iff (isConst : Bool) (addr srcIdx reqBytes : StackReg)
    (hA : addr.denote.setWidth 160 = A) :
    emitExtcodecopy isConst m p addr.toReg srcIdx.toReg reqBytes.toReg = some (Address.of A) ↔
      addr.width = .i256 ∧ BytePalindrome A := by
  obtain ⟨src, hsrc⟩ := srcIdx.trunc32
  obtain ⟨req, hreq⟩ := reqBytes.trunc32
  have hpass := passAddress_iff hp A false isConst addr hA
  rw [emitExtcodecopy, hsrc, hreq]
  simpa [passAddress] using hpass

theorem emitDelegatecall_iff (isConst : Bool) (callGas address inSize outSize : StackReg)
    (hA : address.denote.setWidth 160 = A) :
    emitDelegatecall isConst m p callGas.toReg address.toReg inSize.toReg outSize.toReg =
        some (Address.of A) ↔ GasAccepted callGas.toReg ∧ address.width = .i256 := by
  obtain ⟨ins, hins⟩ := inSize.trunc32
  obtain ⟨outs, houts⟩ := outSize.trunc32
  have hpass := passAddress_iff hp A true isConst address hA
  rw [emitDelegatecall, hins, houts]
  have hcall := call_iff callGas (storeOperand true isConst m p address.toReg) p (Address.of A)
  refine hcall.trans (and_congr_right fun _ => ?_)
  rw [show (storeOperand true isConst m p address.toReg).bind (loadAddress · p) =
    passAddress true isConst m p address.toReg from rfl, hpass, and_iff_left (.inl rfl)]

end Boundary

/-- `AddressPtr`, then `ValPtr`: a value stored in a slot apart does not disturb the address. -/
theorem storeCall_iff {m : LinMem} (fr : Frame m) (A : BitVec 160) (isConst : Bool)
    (address value : StackReg) (hA : address.denote.setWidth 160 = A) :
    ((storeOperand true isConst m fr.addressPtr address.toReg).bind fun m' =>
        (truncOrBitCast 128 value.toReg).bind (createStoreMem 128 m' fr.valPtr ·)).bind
          (loadAddress · fr.addressPtr) = some (Address.of A) ↔
      address.width = .i256 ∧ value.width ≠ .i32 := by
  rw [← (Width.bits_iff address.ne_i1).2.2.2, ← (Width.bits_iff value.ne_i1).2.2.1]
  by_cases hw : 160 ≤ address.width.bits
  · rw [storeOperand_eq fr.address_slot A true isConst hw hA, Option.bind_some, and_iff_right hw]
    by_cases hv : 128 ≤ value.width.bits
    · refine iff_of_true ?_ hv
      rw [truncOrBitCast_of_le hv (by decide), Option.bind_some,
        createStoreMem_of_slot _ (fr.val_slot.write _), Option.bind_some, loadAddress,
        loadFixed_of_slot ((fr.address_slot.write _).write _)]
      have hload := loadAddress_write fr.address_slot A
      rw [loadAddress, loadFixed_of_slot (fr.address_slot.write _)] at hload
      rw [← hload]
      congr 1
      apply FixedBytes.ext
      apply read_write_apart
      rw [length_leBytes]
      exact fr.apart
    · rw [truncOrBitCast_eq_none hv]
      exact iff_of_false nofun hv
  · rw [storeOperand_eq_none true isConst hw]
    exact iff_of_false nofun fun h => hw h.1

theorem emitCall_iff {m : LinMem} (fr : Frame m) (A : BitVec 160) (isConst : Bool)
    (callGas address value inSize outSize : StackReg) (hA : address.denote.setWidth 160 = A) :
    emitCall isConst m fr callGas.toReg address.toReg value.toReg inSize.toReg outSize.toReg =
        some (Address.of A) ↔
      GasAccepted callGas.toReg ∧ address.width = .i256 ∧ value.width ≠ .i32 := by
  obtain ⟨ins, hins⟩ := inSize.trunc32
  obtain ⟨outs, houts⟩ := outSize.trunc32
  rw [← storeCall_iff fr A isConst address value hA, ← call_iff, emitCall, hins, houts]
  simp only [Option.bind_eq_bind, Option.bind_some, Option.bind_assoc]

theorem emitCreate_iff {m : LinMem} (fr : Frame m) (A : BitVec 160)
    (endowment initSize : StackReg) :
    emitCreate m fr (Address.of A) endowment.toReg initSize.toReg = some (A.setWidth 256) ↔
      endowment.width ≠ .i32 ∧ BytePalindrome A := by
  obtain ⟨ins, hins⟩ := initSize.trunc32
  rw [emitCreate, hins, ← (Width.bits_iff endowment.ne_i1).2.2.1]
  by_cases hv : 128 ≤ endowment.width.bits
  · rw [truncOrBitCast_of_le hv (by decide), and_iff_right hv]
    simp only [Option.bind_eq_bind, Option.bind_some]
    rw [createStoreMem_of_slot _ fr.val_slot, Option.bind_some,
      pushAddress_iff (fr.address_slot.write _)]
    exact or_iff_right nofun
  · rw [truncOrBitCast_eq_none hv]
    exact iff_of_false nofun fun h => hv h.1

/-- `SUICIDE` hands over the bytes of memory at its operand. -/
theorem emitSuicide_iff (m : LinMem) (A : BitVec 160) (dest : Reg) :
    emitSuicide m dest = some (Address.of A) ↔
      intToPtr dest + 20 ≤ m.size ∧ read m.bytes (intToPtr dest) 20 = beBytes 20 A.toNat := by
  rw [emitSuicide, loadAddress, loadFixed]
  by_cases h : intToPtr dest + 20 ≤ m.size
  · rw [if_pos h, and_iff_right h, Option.some_inj]
    exact ⟨congrArg FixedBytes.bytes, fun hb => FixedBytes.ext hb⟩
  · rw [if_neg h]
    exact iff_of_false nofun fun hc => h hc.1

/-! ## §4 — every opcode. -/

/-- The two directions for one opcode after the other. `A` is the host's address on the way in, and
the low 160 bits of the operand on the way out. -/
theorem address_boundary_iff (m : LinMem) (fr : Frame m) (A : BitVec 160) :
    -- the host's address reaches the stack
    ((emitAddress m fr.addressPtr (Address.of A) = some (A.setWidth 256) ↔ BytePalindrome A) ∧
      emitCaller m fr.addressPtr (Address.of A) = some (A.setWidth 256) ∧
      emitOrigin m fr.addressPtr (Address.of A) = some (A.setWidth 256) ∧
      (emitCoinbase m fr.addressPtr (Address.of A) = some (A.setWidth 256) ↔ BytePalindrome A) ∧
      ∀ endowment initSize : StackReg,
        (emitCreate m fr (Address.of A) endowment.toReg initSize.toReg = some (A.setWidth 256) ↔
          endowment.width ≠ .i32 ∧ BytePalindrome A)) ∧
    -- the operand's address reaches the host
    (∀ (isConst : Bool) (address : StackReg), address.denote.setWidth 160 = A →
      (emitBalance isConst m fr.addressPtr address.toReg = some (Address.of A) ↔
        address.width = .i256 ∧ BytePalindrome A) ∧
      (emitExtcodesize isConst m fr.addressPtr address.toReg = some (Address.of A) ↔
        address.width = .i256) ∧
      (emitExtcodehash isConst m fr.addressPtr address.toReg = some (Address.of A) ↔
        address.width = .i256 ∧ BytePalindrome A) ∧
      (∀ srcIdx reqBytes : StackReg,
        (emitExtcodecopy isConst m fr.addressPtr address.toReg srcIdx.toReg reqBytes.toReg =
          some (Address.of A) ↔ address.width = .i256 ∧ BytePalindrome A)) ∧
      (∀ callGas value inSize outSize : StackReg,
        (emitCall isConst m fr callGas.toReg address.toReg value.toReg inSize.toReg outSize.toReg =
          some (Address.of A) ↔
            GasAccepted callGas.toReg ∧ address.width = .i256 ∧ value.width ≠ .i32)) ∧
      (∀ callGas inSize outSize : StackReg,
        (emitDelegatecall isConst m fr.addressPtr callGas.toReg address.toReg inSize.toReg
          outSize.toReg = some (Address.of A) ↔
          GasAccepted callGas.toReg ∧ address.width = .i256)) ∧
      (emitSuicide m address.toReg = some (Address.of A) ↔ intToPtr address.toReg + 20 ≤ m.size ∧
        read m.bytes (intToPtr address.toReg) 20 = beBytes 20 A.toNat)) ∧
    -- `CALLER` then `BALANCE`, and `ADDRESS` beside `CALLER` in a self-call
    (((emitCaller m fr.addressPtr (Address.of A)).bind fun w =>
        emitBalance false m fr.addressPtr ⟨.i256, w⟩) = some (Address.of A) ↔ BytePalindrome A) ∧
    (emitAddress m fr.addressPtr (Address.of A) = emitCaller m fr.addressPtr (Address.of A) ↔
      BytePalindrome A) := by
  have hp := fr.address_slot
  have hcaller : emitCaller m fr.addressPtr (Address.of A) = some (A.setWidth 256) :=
    (pushAddress_iff hp A true).mpr (.inl rfl)
  have haddress := (pushAddress_iff hp A false).trans (or_iff_right nofun)
  refine ⟨⟨haddress, hcaller, hcaller, haddress, fun e i => emitCreate_iff fr A e i⟩, ?_, ?_, ?_⟩
  · intro isConst address hA
    have hfalse := (passAddress_iff hp A false isConst address hA).trans
      (and_congr_right fun _ => or_iff_right nofun)
    refine ⟨hfalse, ?_, hfalse, ?_, ?_, ?_, emitSuicide_iff m A address.toReg⟩
    · exact (passAddress_iff hp A true isConst address hA).trans (and_iff_left (.inl rfl))
    · exact fun s r => emitExtcodecopy_iff hp A isConst address s r hA
    · exact fun g v i o => emitCall_iff fr A isConst g address v i o hA
    · exact fun g i o => emitDelegatecall_iff hp A isConst g address i o hA
  · rw [hcaller, Option.bind_some]
    have hA : Reg.denote ⟨.i256, A.setWidth 256⟩ = A.setWidth 256 := denote_word _
    have hpass := passAddress_iff hp A false false ⟨⟨.i256, A.setWidth 256⟩, nofun⟩ (by
      show (Reg.denote ⟨.i256, A.setWidth 256⟩).setWidth 160 = A
      rw [hA, BitVec.setWidth_setWidth_of_le _ (by decide), BitVec.setWidth_eq])
    exact hpass.trans ((and_iff_right rfl).trans (or_iff_right nofun))
  · rw [hcaller]
    exact haddress

/-- An empty page of memory, with two slots. -/
def emptyPage : LinMem := ⟨65536, fun _ => 0⟩

def emptyPageFrame : Frame emptyPage where
  addressPtr := 1024
  valPtr := 1056
  address_slot := ⟨by decide, by decide⟩
  val_slot := ⟨by decide, by decide⟩
  apart := .inr (by decide)

/-- `EXTCODESIZE` of address 1, an operand of 256 bits, asks for address 1. -/
theorem address_boundary_iff_extcodesize :
    emitExtcodesize false emptyPage 1024 ⟨.i256, 1#256⟩ = some (Address.of 1) :=
  have h :=
    (address_boundary_iff emptyPage emptyPageFrame 1).2.1 false ⟨⟨.i256, 1#256⟩, nofun⟩ (by decide)
  h.2.1.mpr rfl

/-- At address 1 `ADDRESS` pushes `2^152`, and `CALLER` followed by `BALANCE` asks for that
address. -/
theorem address_one_reversed :
    emitAddress emptyPage 1024 (Address.of 1) = some (BitVec.ofNat 256 (2 ^ 152)) ∧
      emitCaller emptyPage 1024 (Address.of 1) = some 1 ∧
      emitBalance false emptyPage 1024 ⟨.i256, 1#256⟩ =
        some (Address.of (BitVec.ofNat 160 (2 ^ 152))) ∧
      Address.of (BitVec.ofNat 160 (2 ^ 152)) ≠ Address.of 1 := by
  decide +kernel

end EvmTrans
