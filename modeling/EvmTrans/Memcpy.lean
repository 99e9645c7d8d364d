/-
# `EvmTrans.Memcpy` — `solidity.memcpy`, block by block.

`initMemcpy` emits a loop over two pointers and a length that counts down; the length is tested in
front of the loop and again behind each round. The pointers and the length are 32-bit, so the phis
of the last round may wrap, behind the last byte. `CODECOPY` calls it. `EvmTrans.MemoryLayout` has
the same copy as a recursion on the bytes left; §2 shows that the loop ends and computes that
recursion, overlapping ranges included, and §3 what it comes to when the ranges are apart.
-/
import EvmTrans.ByteMemory
import EvmTrans.Lib.Loop

namespace EvmTrans

open Lib (whileLoop whileLoop_exits InRange Apart length_read)

/-! ## §1 — the blocks. -/

/-- A block of `solidity.memcpy` on entry, with its phis. `trapped` is where an access outside the
memory ends. -/
inductive MemcpyBlock where
  | entry
  | loop (SrcPHI DstPHI LengthPHI : BitVec 32)
  | ret
  | trapped
  deriving DecidableEq, Repr

/-- One block: its instructions and its branch. -/
def memcpyStep (dst src length : BitVec 32) : MemcpyBlock × LinMem → Option (MemcpyBlock × LinMem)
  | (.entry, m) => some (if length ≠ 0 then .loop src dst length else .ret, m)
  | (.loop SrcPHI DstPHI LengthPHI, m) =>
    match m.load SrcPHI.toNat 1 with
    | none => some (.trapped, m)
    | some value =>
      match m.store DstPHI.toNat value with
      | none => some (.trapped, m)
      | some m =>
        let src2 := SrcPHI + 1
        let dst2 := DstPHI + 1
        let length2 := LengthPHI - 1
        some (if length2 ≠ 0 then .loop src2 dst2 length2 else .ret, m)
  | (.ret, _) => none
  | (.trapped, _) => none

/-- The memory that a finished run leaves. -/
def memcpyResult : MemcpyBlock × LinMem → Option LinMem
  | (.ret, m) => some m
  | _ => none

/-- `solidity.memcpy(dst, src, length)`. A run passes one block for each byte, and `entry`
(`memcpyFunc_ends`). -/
def memcpyFunc (dst src length : BitVec 32) (m : LinMem) : Option LinMem :=
  memcpyResult (whileLoop (memcpyStep dst src length) (length.toNat + 1) (.entry, m))

/-! ## §2 — the loop ends, and it is `memcpy`. -/

/-- Blocks left to run. -/
def memcpyMeasure (length : BitVec 32) : MemcpyBlock × LinMem → Nat
  | (.entry, _) => length.toNat + 1
  | (.loop _ _ LengthPHI, _) => LengthPHI.toNat
  | _ => 0

/-- In the loop there is a byte left. -/
def MemcpyInv : MemcpyBlock × LinMem → Prop
  | (.loop _ _ LengthPHI, _) => LengthPHI ≠ 0
  | _ => True

theorem toNat_pred_add_one {l : BitVec 32} (hl : l ≠ 0) : (l - 1).toNat + 1 = l.toNat := by
  have hpos : l.toNat ≠ 0 := fun h0 => hl (BitVec.eq_of_toNat_eq h0)
  have hlt := l.isLt
  rw [BitVec.toNat_sub]
  show (2 ^ 32 - 1 + l.toNat) % 2 ^ 32 + 1 = l.toNat
  omega

/-- **One block**: the length that is left goes down by one, and is not zero where the loop goes
on. -/
theorem memcpyInv_step {dst src length : BitVec 32} {s s' : MemcpyBlock × LinMem} (h : MemcpyInv s)
    (hs : memcpyStep dst src length s = some s') :
    MemcpyInv s' ∧ memcpyMeasure length s' < memcpyMeasure length s := by
  obtain ⟨b, m⟩ := s
  cases b with
  | entry =>
    obtain rfl := Option.some.inj hs
    split
    · rename_i hne
      exact ⟨hne, Nat.lt_succ_self _⟩
    · exact ⟨trivial, Nat.succ_pos _⟩
  | loop SrcPHI DstPHI LengthPHI =>
    have hlen := toNat_pred_add_one h
    have hpos : 0 < LengthPHI.toNat := by omega
    simp only [memcpyStep] at hs
    split at hs
    · obtain rfl := Option.some.inj hs
      exact ⟨trivial, hpos⟩
    · split at hs
      · obtain rfl := Option.some.inj hs
        exact ⟨trivial, hpos⟩
      · obtain rfl := Option.some.inj hs
        split
        · rename_i hne
          refine ⟨hne, ?_⟩
          simp only [memcpyMeasure]
          omega
        · exact ⟨trivial, hpos⟩
  | ret => cases hs
  | trapped => cases hs

/-- **Every run ends**, for all operands. -/
theorem memcpyFunc_ends (dst src length : BitVec 32) (m : LinMem) {fuel : Nat}
    (hfuel : length.toNat + 1 ≤ fuel) :
    memcpyStep dst src length (whileLoop (memcpyStep dst src length) fuel (.entry, m)) = none := by
  have hstep : ∀ s s', MemcpyInv s → memcpyStep dst src length s = some s' →
      MemcpyInv s' ∧ memcpyMeasure length s' < memcpyMeasure length s := fun _ _ => memcpyInv_step
  exact whileLoop_exits hstep fuel (.entry, m) trivial hfuel

/-- A pointer that is not at the end of the address space does not wrap. -/
theorem toNat_add_one {p : BitVec 32} (h : p.toNat + 1 < 2 ^ 32) : (p + 1).toNat = p.toNat + 1 := by
  rw [BitVec.toNat_add]
  exact Nat.mod_eq_of_lt h

/-- **The loop is the recursion**, by induction on the bytes left. The phis may wrap behind the last
byte, and only there. -/
theorem memcpyResult_loop {dst src length : BitVec 32} :
    ∀ (fuel : Nat) (s d l : BitVec 32) (m : LinMem), l ≠ 0 →
    l.toNat ≤ fuel → s.toNat + l.toNat ≤ 2 ^ 32 → d.toNat + l.toNat ≤ 2 ^ 32 →
    memcpyResult (whileLoop (memcpyStep dst src length) fuel (.loop s d l, m)) =
      memcpy d.toNat s.toNat l.toNat m := by
  intro fuel
  induction fuel with
  | zero =>
    intro s d l m hl hfuel _ _
    exact absurd (BitVec.eq_of_toNat_eq (Nat.le_zero.mp hfuel)) hl
  | succ fuel ih =>
    intro s d l m hl hfuel hs hd
    have hlen := toNat_pred_add_one hl
    rw [← hlen]
    unfold memcpy whileLoop
    simp only [memcpyStep]
    cases hload : m.load s.toNat 1 with
    | none => cases fuel <;> rfl
    | some value =>
      simp only [Option.bind_eq_bind, Option.bind_some]
      cases hstore : m.store d.toNat value with
      | none => cases fuel <;> rfl
      | some m' =>
        simp only [Option.bind_some]
        by_cases hmore : l - 1 = 0
        · rw [if_neg (not_not.mpr hmore), hmore]
          cases fuel <;> rfl
        · have hmore' : (l - 1).toNat ≠ 0 := fun h0 => hmore (BitVec.eq_of_toNat_eq h0)
          rw [if_pos hmore, ih (s + 1) (d + 1) (l - 1) m' hmore (by omega)]
          · rw [toNat_add_one (by omega), toNat_add_one (by omega)]
          · rw [toNat_add_one (by omega)]
            omega
          · rw [toNat_add_one (by omega)]
            omega

/-- **The emitted function is `memcpy`**, where the ranges do not wrap. -/
theorem memcpyFunc_eq {dst src length : BitVec 32} (m : LinMem)
    (hdst : dst.toNat + length.toNat ≤ 2 ^ 32) (hsrc : src.toNat + length.toNat ≤ 2 ^ 32) :
    memcpyFunc dst src length m = memcpy dst.toNat src.toNat length.toNat m := by
  unfold memcpyFunc whileLoop
  simp only [memcpyStep]
  by_cases hl : length = 0
  · rw [if_neg (not_not.mpr hl), hl]
    rfl
  · rw [if_pos hl]
    exact memcpyResult_loop length.toNat src dst length m hl le_rfl hsrc hdst

/-- `CODECOPY` runs the emitted function. -/
theorem emitCodecopy_eq_memcpyFunc {L : Layout} {m : LinMem} {destMemIdx srcIdx reqBytes : Word}
    (hdst : ptr destMemIdx + ptr reqBytes ≤ 2 ^ 32)
    (hsrc : (L.evmCode + ptr srcIdx) % 2 ^ 32 + ptr reqBytes ≤ 2 ^ 32) :
    emitCodecopy L m destMemIdx srcIdx reqBytes =
      memcpyFunc (destMemIdx.setWidth 32) (BitVec.ofNat 32 L.evmCode + srcIdx.setWidth 32)
        (reqBytes.setWidth 32) m := by
  have hpStr : (BitVec.ofNat 32 L.evmCode + srcIdx.setWidth 32).toNat =
      (L.evmCode + ptr srcIdx) % 2 ^ 32 := by
    rw [BitVec.toNat_add, BitVec.toNat_ofNat, BitVec.toNat_setWidth, ptr, ← Nat.add_mod,
      Nat.add_mod_mod]
  rw [memcpyFunc_eq, hpStr, BitVec.toNat_setWidth, BitVec.toNat_setWidth]
  · rfl
  · rw [BitVec.toNat_setWidth, BitVec.toNat_setWidth]
    exact hdst
  · rw [hpStr, BitVec.toNat_setWidth]
    exact hsrc

/-! ## §3 — the copy. -/

theorem memcpy_size {n : Nat} : ∀ {dst src : Nat} {m m' : LinMem}, memcpy dst src n m = some m' →
    m'.size = m.size := by
  induction n with
  | zero =>
    intro dst src m m' h
    cases h
    rfl
  | succ n ih =>
    intro dst src m m' h
    obtain ⟨value, -, h⟩ := Option.bind_eq_some_iff.mp h
    obtain ⟨m₁, hstore, h⟩ := Option.bind_eq_some_iff.mp h
    rw [ih h, LinMem.store_size hstore]

/-- The copy runs exactly where both ranges are in memory. -/
theorem memcpy_isSome_iff {n : Nat} :
    ∀ {dst src : Nat} {m : LinMem}, (memcpy dst src n m).isSome = true ↔
    n = 0 ∨ dst + n ≤ m.size ∧ src + n ≤ m.size := by
  induction n with
  | zero => exact fun {_ _ _} => iff_of_true rfl (.inl rfl)
  | succ n ih =>
    intro dst src m
    by_cases hdst : dst < m.size
    · rw [memcpy_succ hdst]
      by_cases hsrc : src < m.size
      · rw [if_pos hsrc, ih]
        show n = 0 ∨ dst + 1 + n ≤ m.size ∧ src + 1 + n ≤ m.size ↔ _
        omega
      · rw [if_neg hsrc]
        refine iff_of_false Bool.false_ne_true ?_
        omega
    · refine iff_of_false ?_ (by omega)
      intro h
      obtain ⟨m', h⟩ := Option.isSome_iff_exists.mp h
      obtain ⟨value, hload, h⟩ := Option.bind_eq_some_iff.mp h
      obtain ⟨m₁, hstore, -⟩ := Option.bind_eq_some_iff.mp h
      unfold LinMem.load at hload
      unfold LinMem.store at hstore
      split at hload
      · cases hload
        split at hstore
        · rename_i hle
          rw [length_read] at hle
          omega
        · cases hstore
      · cases hload

/-- Ranges apart: the copy finds the old bytes. -/
theorem memcpy_copies {dst src n : Nat} {m m' : LinMem} (hap : Apart dst n src n)
    (h : memcpy dst src n m = some m') : ∀ j < n, m'.bytes (dst + j) = m.bytes (src + j) := by
  intro j hj
  have hin : n = 0 ∨ dst + n ≤ m.size ∧ src + n ≤ m.size := memcpy_isSome_iff.mp (by rw [h]; rfl)
  have hiff := memcpy_iff n dst src m (fun j => m.bytes (src + j)) (by omega)
  obtain ⟨m'', h'', hbytes⟩ := hiff.mpr fun j hj => by
    refine ⟨by omega, if_neg ?_⟩
    rcases hap with hap | hap <;> omega
  rw [h] at h''
  cases h''
  exact hbytes j hj

/-- **The emitted `memcpy`.** For all operands the run ends. If the ranges do not wrap and do not
overlap, it returns exactly when they are in memory, or empty; and then every destination byte is
the source byte, no other byte has changed, and for length 0 nothing has. -/
theorem memcpyFunc_copies (m : LinMem) (dst src length : BitVec 32)
    (hdst : dst.toNat + length.toNat ≤ 2 ^ 32)
    (hsrc : src.toNat + length.toNat ≤ 2 ^ 32)
    (hap : Apart dst.toNat length.toNat src.toNat length.toNat) :
    (∀ fuel, length.toNat + 1 ≤ fuel →
      memcpyStep dst src length (whileLoop (memcpyStep dst src length) fuel (.entry, m)) = none) ∧
    ((memcpyFunc dst src length m).isSome = true ↔
      length = 0 ∨ dst.toNat + length.toNat ≤ m.size ∧ src.toNat + length.toNat ≤ m.size) ∧
    ∀ m', memcpyFunc dst src length m = some m' →
      (∀ j < length.toNat, m'.bytes (dst.toNat + j) = m.bytes (src.toNat + j)) ∧
      (∀ a, ¬ InRange dst.toNat length.toNat a → m'.bytes a = m.bytes a) ∧
      m'.size = m.size ∧ (length = 0 → m' = m) := by
  have hfunc := memcpyFunc_eq m hdst hsrc
  refine ⟨fun fuel hfuel => memcpyFunc_ends dst src length m hfuel, ?_, fun m' hm' => ?_⟩
  · have hzero : length = 0 ↔ length.toNat = 0 := (BitVec.toNat_inj (y := 0)).symm
    rw [hfunc, memcpy_isSome_iff, hzero]
  · rw [hfunc] at hm'
    refine ⟨memcpy_copies hap hm', memcpy_within hm', memcpy_size hm', ?_⟩
    rintro rfl
    exact (Option.some.inj hm').symm

/-- Two bytes to the very end of the address space, where the pointer wraps behind the second. -/
theorem memcpyFunc_copies_end :
    (memcpyFunc 0xfffffffe 0 2 ⟨2 ^ 32, fun a => BitVec.ofNat 8 (a + 1)⟩).isSome = true :=
  (memcpyFunc_copies ⟨2 ^ 32, fun a => BitVec.ofNat 8 (a + 1)⟩ 0xfffffffe 0 2 (by decide)
    (by decide) (by decide)).2.1.mpr (.inr (by decide))

end EvmTrans
