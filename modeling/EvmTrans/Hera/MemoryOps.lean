/-
# `EvmTrans.Hera.MemoryOps` — the byte loops of the host, as block reads and block writes.

Every load and every store of the host is a check and a loop of single accesses. Here each is ONE
equation: it throws `InvalidMemoryAccess` and changes nothing, or it reads or writes a whole block.
No access of a loop is out of bounds behind the checks, whatever the size of the memory, although
the checks of the loads are of 64 bits and the indices of the loops of 32.
-/
import EvmTrans.Hera.Interface

namespace EvmTrans.Hera

open Lib (Program read write InRange exec_bind exec_get exec_pure exec_throw exec_modify exec_ite
  andThen_ok andThen_error exec_mapM_read exec_forM_range length_read write_of_not_inRange
  write_add)

variable {W α : Type}

/-! ## §1 — the primitives, run. -/

@[simp] theorem exec_raise (e : HeraException) (s : EeiState W) :
    Program.exec (raise e : Eei W α) s = (.error (.exception e), s) := rfl

theorem exec_ensureCondition (c : Prop) [Decidable c] (e : HeraException) (s : EeiState W) :
    Program.exec (ensureCondition c e : Eei W Unit) s =
      if c then (.ok (), s) else (.error (.exception e), s) := by
  unfold ensureCondition
  rw [exec_ite]
  rfl

theorem exec_ensureCondition_of {c : Prop} [Decidable c] (h : c) (e : HeraException)
    (s : EeiState W) :
    Program.exec (ensureCondition c e : Eei W Unit) s = (.ok (), s) := by
  rw [exec_ensureCondition, if_pos h]

theorem exec_ensureCondition_of_not {c : Prop} [Decidable c] (h : ¬ c) (e : HeraException)
    (s : EeiState W) :
    Program.exec (ensureCondition c e : Eei W Unit) s = (.error (.exception e), s) := by
  rw [exec_ensureCondition, if_neg h]

theorem exec_memoryGet {offset : Nat} {s : EeiState W} (h : offset < s.memory.size) :
    Program.exec (memoryGet offset : Eei W Byte) s = (.ok (s.memory.bytes offset), s) := by
  show Program.exec (if offset < s.memory.size then pure _ else throw _) s = _
  rw [exec_ite, if_pos h]
  rfl

/-- The state with the bytes `bs` at `a`. -/
def EeiState.writing (s : EeiState W) (a : Nat) (bs : List Byte) : EeiState W :=
  { s with memory.bytes := write s.memory.bytes a bs }

theorem exec_memorySet {offset : Nat} {s : EeiState W} (h : offset < s.memory.size) (value : Byte) :
    Program.exec (memorySet offset value : Eei W Unit) s = (.ok (), s.writing offset [value]) := by
  show Program.exec (if offset < s.memory.size then modify _ else throw _) s = _
  rw [exec_ite, if_pos h]
  rfl

theorem byteAt_of_lt {src : List Byte} {i : Nat} (h : i < src.length) :
    (byteAt src i : Eei W Byte) = pure src[i] := by
  unfold byteAt
  rw [List.getElem?_eq_getElem h]

/-! ## §2 — the loops. -/

/-- A loop of reads behind the check. An index that wraps would be below the offset. -/
theorem exec_memoryGetLoop {srcOffset : BitVec 32} {length : Nat} {s : EeiState W}
    (h : srcOffset.toNat + length ≤ s.memory.size) :
    Program.exec (memoryGetLoop srcOffset length : Eei W (List Byte)) s =
      (.ok ((List.range length).map fun i => s.memory.bytes (srcOffset + BitVec.ofNat 32 i).toNat),
        s) := by
  refine exec_mapM_read fun i hi => exec_memoryGet ?_
  have hlt := List.mem_range.mp hi
  have hmod : (srcOffset.toNat + i % 2 ^ 32) % 2 ^ 32 ≤ srcOffset.toNat + i % 2 ^ 32 :=
    Nat.mod_le ..
  have hle : i % 2 ^ 32 ≤ i := Nat.mod_le ..
  rw [BitVec.toNat_add, BitVec.toNat_ofNat]
  omega

/-- Where the sums do not wrap, it is a block. -/
theorem map_bytes_eq_read {srcOffset : BitVec 32} {length : Nat} {bytes : Nat → Byte}
    (h : srcOffset.toNat + length ≤ 2 ^ 32) :
    ((List.range length).map fun i => bytes (srcOffset + BitVec.ofNat 32 i).toNat) =
      read bytes srcOffset.toNat length := by
  refine List.map_congr_left fun i hi => ?_
  have hlt := List.mem_range.mp hi
  rw [BitVec.toNat_add, BitVec.toNat_ofNat, Nat.mod_eq_of_lt (by omega : i < 2 ^ 32),
    Nat.mod_eq_of_lt (by omega)]

theorem writing_nil (s : EeiState W) (a : Nat) : s.writing a [] = s := by
  simp only [EeiState.writing, Lib.write_nil]

/-- One more byte at the end of what is written. -/
theorem writing_take_succ {s : EeiState W} {a n : Nat} {bs : List Byte} (h : n < bs.length) :
    (s.writing a (bs.take n)).writing (a + n) [bs[n]] = s.writing a (bs.take (n + 1)) := by
  have hlen : (bs.take n).length = n := List.length_take_of_le (Nat.le_of_lt h)
  have hbytes : write (write s.memory.bytes a (bs.take n)) (a + n) [bs[n]] =
      write s.memory.bytes a (bs.take (n + 1)) := by
    rw [List.take_succ_eq_append_getElem h, Lib.write_append, hlen]
  simp only [EeiState.writing, hbytes]

/-- And one more in front of it. -/
theorem writing_reverse_succ {s : EeiState W} {a n : Nat} {bs : List Byte} (h : n < bs.length) :
    (s.writing (a + 1) (bs.take n).reverse).writing a [bs[n]] =
      s.writing a (bs.take (n + 1)).reverse := by
  have hbytes : write (write s.memory.bytes (a + 1) (bs.take n).reverse) a [bs[n]] =
      write s.memory.bytes a (bs.take (n + 1)).reverse := by
    rw [List.take_succ_eq_append_getElem h, List.reverse_append, Lib.write_append]
    exact Lib.write_comm (.inr (Nat.le_refl _))
  simp only [EeiState.writing, hbytes]

/-- A loop of stores that goes up. -/
theorem exec_memorySetLoop_up {src : List Byte} {srcIndex : Nat → Nat}
    {dstOffset length : BitVec 32} {k : Nat} {s : EeiState W}
    (hidx : ∀ i < length.toNat, srcIndex i = k + i) (hsrc : k + length.toNat ≤ src.length)
    (hwrap : dstOffset.toNat + length.toNat < 2 ^ 32)
    (hdst : dstOffset.toNat + length.toNat ≤ s.memory.size) :
    Program.exec (memorySetLoop (fun i => dstOffset + BitVec.ofNat 32 i) src srcIndex length :
      Eei W Unit) s = (.ok (), s.writing dstOffset.toNat ((src.drop k).take length.toNat)) := by
  refine (congrArg _ (writing_nil s dstOffset.toNat).symm).trans
    (exec_forM_range (t := fun n => s.writing dstOffset.toNat ((src.drop k).take n)) fun i hi => ?_)
  have haddr : (dstOffset + BitVec.ofNat 32 i).toNat = dstOffset.toNat + i := by
    rw [BitVec.toNat_add, BitVec.toNat_ofNat, Nat.mod_eq_of_lt (by omega : i < 2 ^ 32),
      Nat.mod_eq_of_lt (by omega)]
  have hlen : i < (src.drop k).length := by rw [List.length_drop]; omega
  have hin : srcIndex i < src.length := by rw [hidx i hi]; omega
  have hbyte : src[srcIndex i] = (src.drop k)[i] := by
    simp only [hidx i hi, List.getElem_drop]
  rw [byteAt_of_lt hin, pure_bind, haddr, exec_memorySet, hbyte, writing_take_succ hlen]
  exact Nat.lt_of_lt_of_le (Nat.add_lt_add_left hi _) hdst

/-- A loop of stores that goes down. -/
theorem exec_memorySetLoop_down {src : List Byte} {dstOffset length : BitVec 32} {s : EeiState W}
    (hsrc : length.toNat ≤ src.length) (hwrap : dstOffset.toNat + length.toNat < 2 ^ 32)
    (hdst : dstOffset.toNat + length.toNat ≤ s.memory.size) :
    Program.exec
      (memorySetLoop (fun i => dstOffset + length - BitVec.ofNat 32 (i + 1)) src id length :
        Eei W Unit) s =
      (.ok (), s.writing dstOffset.toNat (src.take length.toNat).reverse) := by
  have hend : s.writing dstOffset.toNat (src.take length.toNat).reverse =
      s.writing (dstOffset.toNat + (length.toNat - length.toNat))
        (src.take length.toNat).reverse := by
    rw [Nat.sub_self, Nat.add_zero]
  rw [hend]
  refine (congrArg _ (writing_nil s (dstOffset.toNat + (length.toNat - 0))).symm).trans
    (exec_forM_range (t := fun n => s.writing (dstOffset.toNat + (length.toNat - n))
      (src.take n).reverse) fun i hi => ?_)
  have haddr : (dstOffset + length - BitVec.ofNat 32 (i + 1)).toNat =
      dstOffset.toNat + (length.toNat - (i + 1)) := by
    have hlt := length.isLt
    rw [BitVec.toNat_sub, BitVec.toNat_add, BitVec.toNat_ofNat,
      Nat.mod_eq_of_lt (by omega : i + 1 < 2 ^ 32), Nat.mod_eq_of_lt hwrap]
    omega
  have hnext : dstOffset.toNat + (length.toNat - i) =
      dstOffset.toNat + (length.toNat - (i + 1)) + 1 := by omega
  have hlen : i < src.length := Nat.lt_of_lt_of_le hi hsrc
  show Program.exec (byteAt src i >>= fun b => memorySet _ b) _ = _
  rw [byteAt_of_lt hlen, pure_bind, haddr, exec_memorySet, hnext, writing_reverse_succ hlen]
  show dstOffset.toNat + (length.toNat - (i + 1)) < s.memory.size
  omega

/-! ## §3 — the checks. -/

/-- `InvalidMemoryAccess`, with the text for a source. -/
def outOfSource : Fault := .exception (.InvalidMemoryAccess "Out of bounds (source) memory copy.")

/-- And for a destination. -/
def outOfDestination : Fault :=
  .exception (.InvalidMemoryAccess "Out of bounds (destination) memory copy.")

/-- A sum of 32 bits is not below its first term exactly when it does not wrap. -/
theorem le_add_iff {a b : BitVec 32} : a ≤ a + b ↔ a.toNat + b.toNat < 2 ^ 32 := by
  have ha := a.isLt
  have hb := b.isLt
  rw [BitVec.le_def, BitVec.toNat_add]
  omega

/-- Two checks on 32-bit sums with one exception are one. -/
theorem exec_two_checks {a b : BitVec 32} {size : Nat} {e : HeraException} {p : Eei W α}
    {s : EeiState W} :
    Program.exec (ensureCondition (a ≤ a + b) e >>= fun _ =>
        ensureCondition ((a + b).toNat ≤ size) e >>= fun _ => p) s =
      if a.toNat + b.toNat < 2 ^ 32 ∧ a.toNat + b.toNat ≤ size then p.exec s
      else (.error (.exception e), s) := by
  rw [exec_bind, exec_ensureCondition]
  by_cases hwrap : a.toNat + b.toNat < 2 ^ 32
  · rw [if_pos (le_add_iff.mpr hwrap), andThen_ok, exec_bind, exec_ensureCondition,
      BitVec.toNat_add, Nat.mod_eq_of_lt hwrap]
    by_cases hsize : a.toNat + b.toNat ≤ size
    · rw [if_pos hsize, if_pos ⟨hwrap, hsize⟩, andThen_ok]
    · rw [if_neg hsize, if_neg (fun h => hsize h.2), andThen_error]
  · rw [if_neg (fun h => hwrap (le_add_iff.mp h)), if_neg (fun h => hwrap h.1), andThen_error]

theorem exec_ensureSourceMemoryBounds_bind {offset length : BitVec 32} {p : Eei W α}
    {s : EeiState W} :
    Program.exec (ensureSourceMemoryBounds offset length >>= fun _ => p) s =
      if offset.toNat + length.toNat < 2 ^ 32 ∧
          offset.toNat + length.toNat ≤ s.memory.size then p.exec s
      else (.error outOfSource, s) := by
  unfold ensureSourceMemoryBounds
  rw [bind_assoc, exec_bind, exec_get, andThen_ok, bind_assoc]
  exact exec_two_checks

theorem exec_ensureStore_bind {dstOffset length : BitVec 32} {p : Eei W α} {s : EeiState W} :
    Program.exec (ensureStore dstOffset length >>= fun _ => p) s =
      if dstOffset.toNat + length.toNat < 2 ^ 32 ∧
          dstOffset.toNat + length.toNat ≤ s.memory.size then p.exec s
      else (.error outOfDestination, s) := by
  unfold ensureStore
  rw [bind_assoc, exec_bind, exec_get, andThen_ok, bind_assoc]
  exact exec_two_checks

/-- The checks of a load: sums of 64 bits do not wrap. -/
theorem exec_ensureLoad_bind {srcOffset : BitVec 32} {length : Nat} (hlen : length ≤ 2 ^ 32)
    {p : Eei W α} {s : EeiState W} :
    Program.exec (ensureLoad srcOffset length >>= fun _ => p) s =
      if srcOffset.toNat + length ≤ s.memory.size then p.exec s else (.error outOfSource, s) := by
  have hlt := srcOffset.isLt
  unfold ensureLoad
  rw [bind_assoc, exec_bind, exec_get, andThen_ok, bind_assoc, exec_bind,
    Nat.mod_eq_of_lt (by omega : srcOffset.toNat + length < 2 ^ 64),
    exec_ensureCondition_of (Nat.le_add_right ..), andThen_ok, exec_bind, exec_ensureCondition]
  split
  · rfl
  · rfl

/-! ## §4 — loads and stores. -/

/-- The bytes a loop of reads gives, from any memory. -/
def bytesAt (m : LinMem) (srcOffset : BitVec 32) (length : Nat) : List Byte :=
  (List.range length).map fun i => m.bytes (srcOffset + BitVec.ofNat 32 i).toNat

@[simp] theorem length_bytesAt (m : LinMem) (srcOffset : BitVec 32) (length : Nat) :
    (bytesAt m srcOffset length).length = length := by
  simp [bytesAt]

/-- In a memory of wasm, they are a block. -/
theorem bytesAt_eq_read {m : LinMem} {srcOffset : BitVec 32} {length : Nat}
    (hsize : m.size ≤ 2 ^ 32) (h : srcOffset.toNat + length ≤ m.size) :
    bytesAt m srcOffset length = read m.bytes srcOffset.toNat length :=
  map_bytes_eq_read (Nat.le_trans h hsize)

theorem exec_loadMemory {srcOffset : BitVec 32} {length : Nat} (hlen : length ≤ 2 ^ 32)
    (s : EeiState W) :
    Program.exec (loadMemory srcOffset length : Eei W (List Byte)) s =
      if srcOffset.toNat + length ≤ s.memory.size then (.ok (bytesAt s.memory srcOffset length), s)
      else (.error outOfSource, s) := by
  unfold loadMemory
  rw [exec_ensureLoad_bind hlen]
  split
  · rename_i h
    exact exec_memoryGetLoop h
  · rfl

theorem exec_loadMemoryReverse {srcOffset : BitVec 32} {length : Nat} (hlen : length ≤ 2 ^ 32)
    (s : EeiState W) :
    Program.exec (loadMemoryReverse srcOffset length : Eei W (List Byte)) s =
      if srcOffset.toNat + length ≤ s.memory.size then
        (.ok (bytesAt s.memory srcOffset length).reverse, s)
      else (.error outOfSource, s) := by
  unfold loadMemoryReverse
  rw [exec_ensureLoad_bind hlen]
  split
  · rename_i h
    rw [exec_bind, exec_memoryGetLoop h]
    rfl
  · rfl

/-- Into a buffer of just that length. -/
theorem exec_loadMemoryBytes {srcOffset : BitVec 32} {dst : List Byte} {length : Nat}
    (hlen : length ≤ 2 ^ 32) (hdst : dst.length = length) (s : EeiState W) :
    Program.exec (loadMemoryBytes srcOffset dst length : Eei W (List Byte)) s =
      if srcOffset.toNat + length ≤ s.memory.size then (.ok (bytesAt s.memory srcOffset length), s)
      else (.error outOfSource, s) := by
  unfold loadMemoryBytes
  rw [exec_ensureLoad_bind hlen]
  split
  · rename_i h
    rw [exec_bind, exec_ensureCondition_of (Nat.le_of_eq hdst.symm), andThen_ok, exec_bind,
      exec_memoryGetLoop h, andThen_ok, List.drop_eq_nil_of_le (Nat.le_of_eq hdst), List.append_nil]
    rfl
  · rfl

theorem exec_storeMemory {src : List Byte} {dstOffset length : BitVec 32}
    (hsrc : length.toNat ≤ src.length) (s : EeiState W) :
    Program.exec (storeMemory src dstOffset length : Eei W Unit) s =
      if dstOffset.toNat + length.toNat < 2 ^ 32 ∧
          dstOffset.toNat + length.toNat ≤ s.memory.size then
        (.ok (), s.writing dstOffset.toNat (src.take length.toNat))
      else (.error outOfDestination, s) := by
  unfold storeMemory
  rw [exec_ensureStore_bind]
  split
  · rename_i h
    exact exec_memorySetLoop_up (k := 0) (fun i _ => (Nat.zero_add i).symm)
      (by rwa [Nat.zero_add]) h.1 h.2
  · rfl

theorem exec_storeMemoryReverse {src : List Byte} {dstOffset length : BitVec 32}
    (hsrc : length.toNat ≤ src.length) (s : EeiState W) :
    Program.exec (storeMemoryReverse src dstOffset length : Eei W Unit) s =
      if dstOffset.toNat + length.toNat < 2 ^ 32 ∧
          dstOffset.toNat + length.toNat ≤ s.memory.size then
        (.ok (), s.writing dstOffset.toNat (src.take length.toNat).reverse)
      else (.error outOfDestination, s) := by
  unfold storeMemoryReverse
  rw [exec_ensureStore_bind]
  split
  · rename_i h
    exact exec_memorySetLoop_down hsrc h.1 h.2
  · rfl

/-- `storeMemory` from a view: the source is checked first. -/
theorem exec_storeMemoryView {src : List Byte} {srcOffset dstOffset length : BitVec 32}
    (s : EeiState W) :
    Program.exec (storeMemoryView src srcOffset dstOffset length : Eei W Unit) s =
      if srcOffset.toNat + length.toNat < 2 ^ 32 ∧ srcOffset.toNat + length.toNat ≤ src.length then
        if dstOffset.toNat + length.toNat < 2 ^ 32 ∧
            dstOffset.toNat + length.toNat ≤ s.memory.size then
          (.ok (), s.writing dstOffset.toNat ((src.drop srcOffset.toNat).take length.toNat))
        else (.error outOfDestination, s)
      else (.error outOfSource, s) := by
  unfold storeMemoryView
  rw [exec_two_checks]
  split
  · rename_i hsrc
    rw [exec_ensureStore_bind]
    split
    · rename_i hdst
      refine exec_memorySetLoop_up (fun i hi => ?_) hsrc.2 hdst.1 hdst.2
      rw [BitVec.toNat_add, BitVec.toNat_ofNat, Nat.mod_eq_of_lt (by omega : i < 2 ^ 32),
        Nat.mod_eq_of_lt (by omega)]
    · rfl
  · rfl

end EvmTrans.Hera
