/-
# `EvmTrans.Eei` — linear memory, the IR's loads and stores, and the host's copies.

Emitted code and host meet in linear memory: the code stores an integer in a stack slot (`alloca`),
or reserves one for a result, and passes the pointer; the host copies bytes out of it or into it.
wasm32 is little-endian, so an `iN` in memory is `leBytes`, while `evmc::address` and
`evmc::bytes32` are big-endian byte strings that `loadAddress`, `storeAddress`, `loadBytes32` and
`storeBytes32` move VERBATIM. All the swapping is up to the emitted code.

An operation is `none` where it does not happen: an access out of bounds (the host throws, wasm
traps) or IR that `verifyModule` rejects. Gas metering and the static-mode checks of the host are
left out.
-/
import EvmTrans.Arith
import EvmTrans.Endian
import EvmTrans.Lib.LinearMemory

namespace EvmTrans

open Lib (leBytes beBytes ofLE ofBE length_leBytes length_beBytes ofLE_leBytes read write
  InRange Apart length_read read_write_self read_write_apart)

/-! ## §1 — linear memory. -/

/-- The memory of the module: `memorySize()` and its bytes. -/
structure LinMem where
  size : Nat
  bytes : Nat → Byte

/-- `n` bytes at `off`, when the memory has them. -/
def LinMem.load (m : LinMem) (off n : Nat) : Option (List Byte) :=
  if off + n ≤ m.size then some (read m.bytes off n) else none

/-- The memory with `bs` at `off`. -/
def LinMem.store (m : LinMem) (off : Nat) (bs : List Byte) : Option LinMem :=
  if off + bs.length ≤ m.size then some { m with bytes := write m.bytes off bs } else none

/-- The `n` bytes at `p` lie in the memory, and not at the very end of the address space. A stack
slot is such a place. -/
structure Slot (m : LinMem) (p n : Nat) : Prop where
  inBounds : p + n ≤ m.size
  noWrap : p + n < 2 ^ 32

theorem Slot.load {m : LinMem} {p n : Nat} (h : Slot m p n) :
    m.load p n = some (read m.bytes p n) :=
  if_pos h.inBounds

theorem Slot.store {m : LinMem} {p : Nat} {bs : List Byte} (h : Slot m p bs.length) :
    m.store p bs = some { m with bytes := write m.bytes p bs } :=
  if_pos h.inBounds

/-- Writing moves no bound. -/
theorem Slot.write {m : LinMem} {p n : Nat} (h : Slot m p n) (f : Nat → Byte) :
    Slot { m with bytes := f } p n :=
  ⟨h.inBounds, h.noWrap⟩

/-! ## §2 — the IR's side. -/

/-- `IRB.CreateStore(v, p)` through a pointer to `i<ty>`; a value of another type is not LLVM IR. -/
def createStoreMem (ty : Nat) (m : LinMem) (p : Nat) {n : Nat} (v : BitVec n) : Option LinMem :=
  if n = ty then m.store p (leBytes (n / 8) v.toNat) else none

/-- `IRB.CreateLoad(p)` through a pointer to `i<ty>`. -/
def createLoadMem (ty : Nat) (m : LinMem) (p : Nat) : Option (BitVec ty) :=
  (m.load p (ty / 8)).map fun bs => BitVec.ofNat ty (ofLE bs)

/-- `IRB.CreateTruncOrBitCast(v, i<n>)`; there is no `trunc` to a wider type. -/
def truncOrBitCast (n : Nat) (r : Reg) : Option (BitVec n) :=
  if n ≤ r.width.bits then some (r.val.setWidth n) else none

/-- `IRB.CreateIntToPtr(v, …)`: pointers have 32 bits. -/
def intToPtr (r : Reg) : Nat := r.val.toNat % 2 ^ 32

theorem createStoreMem_of_slot {ty : Nat} {m : LinMem} {p : Nat} (v : BitVec ty)
    (h : Slot m p (ty / 8)) :
    createStoreMem ty m p v =
      some { m with bytes := write m.bytes p (leBytes (ty / 8) v.toNat) } := by
  rw [createStoreMem, if_pos rfl]
  have hlen : Slot m p (leBytes (ty / 8) v.toNat).length := by rwa [length_leBytes]
  exact hlen.store

theorem createLoadMem_of_slot {ty : Nat} {m : LinMem} {p : Nat} (h : Slot m p (ty / 8)) :
    createLoadMem ty m p = some (BitVec.ofNat ty (ofLE (read m.bytes p (ty / 8)))) := by
  rw [createLoadMem, h.load, Option.map_some]

/-- A truncated register keeps the low bits of the word it denotes. -/
theorem truncOrBitCast_of_le {n : Nat} {r : Reg} (h : n ≤ r.width.bits) (hn : n ≤ 256) :
    truncOrBitCast n r = some (r.denote.setWidth n) := by
  rw [truncOrBitCast, if_pos h, Reg.denote]
  congr 1
  apply BitVec.eq_of_getLsbD_eq
  intro i hi
  simp only [BitVec.getLsbD_setWidth, decide_eq_true hi, Bool.true_and,
    decide_eq_true (by omega : i < 256)]

theorem truncOrBitCast_eq_none {n : Nat} {r : Reg} (h : ¬ n ≤ r.width.bits) :
    truncOrBitCast n r = none :=
  if_neg h

/-! ## §3 — the host's side. -/

/-- `evmc::address` and `evmc::bytes32`: a fixed number of bytes. -/
structure FixedBytes (n : Nat) where
  bytes : List Byte
  length_eq : bytes.length = n
  deriving DecidableEq

/-- `evmc::address`. -/
abbrev Address := FixedBytes 20

/-- `evmc::bytes32` and `evmc::uint256be`. -/
abbrev Bytes32 := FixedBytes 32

@[ext] theorem FixedBytes.ext {n : Nat} {a b : FixedBytes n} (h : a.bytes = b.bytes) : a = b := by
  cases a
  cases b
  cases h
  rfl

/-- The big-endian bytes of a number. -/
def FixedBytes.ofNat (n v : Nat) : FixedBytes n := ⟨beBytes n v, length_beBytes n v⟩

/-- The bytes of the 160-bit address `A`. -/
def Address.of (A : BitVec 160) : Address := FixedBytes.ofNat 20 A.toNat

/-- The bytes of the word `w`. -/
def Bytes32.of (w : Word) : Bytes32 := FixedBytes.ofNat 32 w.toNat

/-- `loadMemory(srcOffset, dst.bytes, n)` of a wrapper: out of bounds the host throws. -/
def loadFixed (n : Nat) (m : LinMem) (srcOffset : Nat) : Option (FixedBytes n) :=
  if srcOffset + n ≤ m.size then some ⟨read m.bytes srcOffset n, length_read ..⟩ else none

/-- `storeMemory(src.bytes, dstOffset, n)`; `(dstOffset + length) >= dstOffset` is a 32-bit test. -/
def storeFixed {n : Nat} (src : FixedBytes n) (dstOffset : Nat) (m : LinMem) : Option LinMem :=
  if dstOffset + n < 2 ^ 32 then m.store dstOffset src.bytes else none

def loadAddress : LinMem → Nat → Option Address := loadFixed 20
def storeAddress : Address → Nat → LinMem → Option LinMem := storeFixed
def loadBytes32 : LinMem → Nat → Option Bytes32 := loadFixed 32
def storeBytes32 : Bytes32 → Nat → LinMem → Option LinMem := storeFixed

theorem loadFixed_of_slot {n : Nat} {m : LinMem} {p : Nat} (h : Slot m p n) :
    loadFixed n m p = some ⟨read m.bytes p n, length_read ..⟩ :=
  if_pos h.inBounds

theorem storeFixed_of_slot {n : Nat} {m : LinMem} {p : Nat} (src : FixedBytes n) (h : Slot m p n) :
    storeFixed src p m = some { m with bytes := write m.bytes p src.bytes } := by
  rw [storeFixed, if_pos h.noWrap]
  have hlen : Slot m p src.bytes.length := by rwa [src.length_eq]
  exact hlen.store

/-! ## §4 — across the boundary. -/

/-- The value reads the same from either end. -/
def BytePalindrome {n : Nat} (v : BitVec n) : Prop := byteSwap v = v

instance {n : Nat} (v : BitVec n) : Decidable (BytePalindrome v) :=
  inferInstanceAs (Decidable (_ = _))

/-- Numbers of the width are told apart by their bytes. -/
theorem ofNat_bytes_inj {n : Nat} (hn : 8 ∣ n) {v w : BitVec n} :
    FixedBytes.ofNat (n / 8) v.toNat = FixedBytes.ofNat (n / 8) w.toNat ↔ v = w := by
  obtain ⟨k, rfl⟩ := hn
  have hk : (256 : Nat) ^ (8 * k / 8) = 2 ^ (8 * k) := by
    rw [Nat.mul_div_cancel_left _ (by decide : 0 < 8), Nat.pow_mul]
  constructor
  · intro h
    apply BitVec.eq_of_toNat_eq
    exact Lib.beBytes_inj (by rw [hk]; exact v.isLt) (by rw [hk]; exact w.isLt)
      (congrArg FixedBytes.bytes h)
  · rintro rfl
    rfl

/-- The little-endian image of a value is the big-endian image of its swap. -/
theorem leBytes_eq_beBytes_byteSwap {n : Nat} (v : BitVec n) (hn : 8 ∣ n) :
    leBytes (n / 8) v.toNat = beBytes (n / 8) (byteSwap v).toNat := by
  rw [← leBytes_byteSwap _ hn, byteSwap_byteSwap v hn]

/-- **What the code loads** from a slot where the host wrote the bytes of `v`: the SWAPPED value. -/
theorem createLoadMem_storeFixed {n : Nat} (hn : 8 ∣ n) {m : LinMem} {p : Nat} (v : BitVec n)
    (h : Slot m p (n / 8)) :
    (storeFixed (FixedBytes.ofNat (n / 8) v.toNat) p m).bind (createLoadMem n · p) =
      some (byteSwap v) := by
  rw [storeFixed_of_slot _ h, Option.bind_some, createLoadMem_of_slot (h.write _)]
  have hread := read_write_self m.bytes p (beBytes (n / 8) v.toNat)
  rw [length_beBytes] at hread
  show some (BitVec.ofNat n (ofLE (read (write m.bytes p (beBytes (n / 8) v.toNat)) p (n / 8)))) = _
  rw [hread, ← leBytes_byteSwap v hn, ofLE_leBytes]
  congr 1
  apply BitVec.eq_of_toNat_eq
  obtain ⟨k, rfl⟩ := hn
  rw [BitVec.toNat_ofNat, Nat.mul_div_cancel_left _ (by decide : 0 < 8),
    show (256 : Nat) ^ k = 2 ^ (8 * k) by
      rw [Nat.pow_mul], Nat.mod_mod, Nat.mod_eq_of_lt (byteSwap v).isLt]

end EvmTrans
