/-
# `EvmTrans.Endian` — `emitEndianConvert` reverses the bytes, by either of its paths.

A `ConstantInt` is swapped at compile time. Any other value is extended to 256 bits, shifted to the
top and sent through `solidity.bswapi256`, whose body is thirty-two shifts, thirty masks and
thirty-one ORs. `emitEndianConvert_eq` says the two paths are one function; `leBytes_byteSwap` is
how memory sees it. The first path goes through `APInt::byteSwap`, which asserts that the width is a
multiple of 16: §4 says what that leaves of the agreement.
-/
import EvmTrans.Instruction

namespace EvmTrans

open Lib (leBytes beBytes ofLE ofBE length_leBytes ofLE_lt leBytes_ofLE testBit_ofBE_leBytes)

/-! ## §1 — the two paths. -/

/-- `APInt::byteSwap()`. -/
def byteSwap {n : Nat} (v : BitVec n) : BitVec n := BitVec.ofNat n (ofBE (leBytes (n / 8) v.toNat))

/-- `Data[I]` of `initBswapI256`: byte `I` of the argument, moved to byte `31 - I`. The first and
the last need no mask, the shift has emptied the rest. -/
def bswapData (arg : Word) (i : Nat) : Word :=
  let data := if i < 16 then arg <<< (248 - i * 16) else arg >>> (i * 16 - 248)
  if i ≠ 0 ∧ i ≠ 31 then data &&& (0xff#256 <<< ((31 - i) * 8)) else data

/-- `solidity.bswapi256`. -/
def bswap256 (arg : Word) : Word :=
  (List.range' 2 30).foldl (fun r i => r ||| bswapData arg i) (bswapData arg 0 ||| bswapData arg 1)

/-- `EEIModule::emitEndianConvert(Val)`; `isConst` is `llvm::dyn_cast<llvm::ConstantInt>(Val)`. -/
def emitEndianConvert (isConst : Bool) {n : Nat} (v : BitVec n) : BitVec n :=
  if isConst then byteSwap v
  else
    let ext := v.setWidth 256
    let ext := if n ≠ 256 then ext <<< (256 - n) else ext
    (bswap256 ext).setWidth n

theorem two_pow_word : (256 : Nat) ^ 32 = 2 ^ 256 := by decide

/-! ## §2 — `bswap256` reverses bytes. -/

theorem getLsbD_mask {i j : Nat} :
    (0xff#256 <<< ((31 - i) * 8)).getLsbD j =
      decide (j < 256 ∧ (31 - i) * 8 ≤ j ∧ j < (31 - i) * 8 + 8) := by
  have hff : ∀ t, (0xff#256).getLsbD t = decide (t < 8) := by
    intro t
    rw [BitVec.getLsbD_ofNat, show (0xff : Nat) = 2 ^ 8 - 1 from rfl, Nat.testBit_two_pow_sub_one]
    by_cases ht : t < 8
    · rw [decide_eq_true ht, decide_eq_true (by omega : t < 256), Bool.true_and]
    · rw [decide_eq_false ht, Bool.and_false]
  rw [BitVec.getLsbD_shiftLeft, hff, Bool.eq_iff_iff]
  simp only [Bool.and_eq_true, Bool.not_eq_true', decide_eq_true_eq, decide_eq_false_iff_not]
  omega

/-- `Data[I]` holds byte `I` of the argument, in byte `31 - I`, and nothing else. -/
theorem getLsbD_bswapData (arg : Word) {i j : Nat} (hi : i < 32) (hj : j < 256) :
    (bswapData arg i).getLsbD j = (decide (j / 8 = 31 - i) && arg.getLsbD (8 * i + j % 8)) := by
  -- the shifted argument, on the byte that the mask keeps
  have hshift : j / 8 = 31 - i →
      (if i < 16 then arg <<< (248 - i * 16) else arg >>> (i * 16 - 248)).getLsbD j =
        arg.getLsbD (8 * i + j % 8) := by
    intro hbyte
    split
    · rw [BitVec.getLsbD_shiftLeft, show j - (248 - i * 16) = 8 * i + j % 8 by omega]
      simp [hj, show ¬ j < 248 - i * 16 by omega]
    · rw [BitVec.getLsbD_ushiftRight, show i * 16 - 248 + j = 8 * i + j % 8 by omega]
  unfold bswapData
  dsimp only
  by_cases hbyte : j / 8 = 31 - i
  · split
    · rw [BitVec.getLsbD_and, hshift hbyte, getLsbD_mask]
      simp [hbyte, hj, show (31 - i) * 8 ≤ j by omega, show j < (31 - i) * 8 + 8 by omega]
    · rw [hshift hbyte]
      simp [hbyte]
  · rw [decide_eq_false hbyte, Bool.false_and]
    split
    · rw [BitVec.getLsbD_and, getLsbD_mask,
        decide_eq_false (by omega : ¬ (j < 256 ∧ (31 - i) * 8 ≤ j ∧ j < (31 - i) * 8 + 8)),
        Bool.and_false]
    · -- the two unmasked bytes: the shift leaves zeros
      rename_i hends
      have hends : i = 0 ∨ i = 31 := by omega
      rcases hends with rfl | rfl
      · rw [if_pos (by decide), BitVec.getLsbD_shiftLeft]
        simp [show j < 248 by omega]
      · rw [if_neg (by decide), BitVec.getLsbD_ushiftRight]
        exact BitVec.getLsbD_of_ge _ _ (by omega)

theorem getLsbD_foldl_or (f : Nat → Word) (j : Nat) : ∀ (l : List Nat) (r : Word),
    (l.foldl (fun r i => r ||| f i) r).getLsbD j =
      (r.getLsbD j || l.any fun i => (f i).getLsbD j) := by
  intro l
  induction l with
  | nil => intro r; simp
  | cons i l ih =>
    intro r
    rw [List.foldl_cons, ih, BitVec.getLsbD_or, List.any_cons, Bool.or_assoc]

/-- **`bswapi256` reverses the thirty-two bytes.** -/
theorem getLsbD_bswap256 (arg : Word) {j : Nat} (hj : j < 256) :
    (bswap256 arg).getLsbD j = arg.getLsbD (8 * (31 - j / 8) + j % 8) := by
  have hany :
      (bswap256 arg).getLsbD j = (List.range 32).any fun i => (bswapData arg i).getLsbD j := by
    rw [bswap256, getLsbD_foldl_or, BitVec.getLsbD_or, show List.range 32 =
      0 :: 1 :: List.range' 2 30 from by decide, List.any_cons, List.any_cons, Bool.or_assoc]
  rw [hany]
  -- exactly one of the thirty-two words can have the bit
  have hone : ∀ i ∈ List.range 32, (bswapData arg i).getLsbD j =
      (decide (i = 31 - j / 8) && arg.getLsbD (8 * (31 - j / 8) + j % 8)) := by
    intro i hi
    have hi := List.mem_range.mp hi
    rw [getLsbD_bswapData arg hi hj]
    by_cases heq : i = 31 - j / 8
    · rw [decide_eq_true heq, decide_eq_true (by omega : j / 8 = 31 - i), heq]
    · rw [decide_eq_false heq, decide_eq_false (by omega), Bool.false_and, Bool.false_and]
  rw [Bool.eq_iff_iff, List.any_eq_true]
  constructor
  · rintro ⟨i, hi, hbit⟩
    rw [hone i hi] at hbit
    exact (Bool.and_eq_true_iff.mp hbit).2
  · intro hbit
    refine ⟨31 - j / 8, List.mem_range.mpr (by omega), ?_⟩
    rw [hone _ (List.mem_range.mpr (by omega)), decide_eq_true rfl, Bool.true_and]
    exact hbit

/-- The thirty-two words that are or-ed have no bit in common: each keeps to its own byte. -/
theorem bswapData_disjoint (arg : Word) {i j : Nat} (hi : i < 32) (hj : j < 32) (hne : i ≠ j) :
    bswapData arg i &&& bswapData arg j = 0 := by
  apply BitVec.eq_of_getLsbD_eq
  intro t ht
  rw [BitVec.getLsbD_and, getLsbD_bswapData arg hi ht, getLsbD_bswapData arg hj ht]
  by_cases hbyte : t / 8 = 31 - i
  · rw [decide_eq_false (by omega : ¬ t / 8 = 31 - j), Bool.false_and, Bool.and_false]
    simp
  · rw [decide_eq_false hbyte, Bool.false_and, Bool.false_and]
    simp

theorem bswap256_bswap256 (arg : Word) : bswap256 (bswap256 arg) = arg := by
  apply BitVec.eq_of_getLsbD_eq
  intro t ht
  rw [getLsbD_bswap256 _ ht, getLsbD_bswap256 _ (by omega)]
  congr 1
  omega

/-- Byte `i` of a word, counted from the least significant. -/
def byteOf (x : Word) (i : Nat) : Byte := x.extractLsb' (8 * i) 8

/-- **The byte swap, byte by byte.** Byte `i` of the result is byte `31 - i` of the argument; so
swapping twice gives the argument back, and the or-ed terms do not overlap. -/
theorem bswap256_exact (x : Word) :
    (∀ i < 32, byteOf (bswap256 x) i = byteOf x (31 - i)) ∧ bswap256 (bswap256 x) = x ∧
      ∀ i < 32, ∀ j < 32, i ≠ j → bswapData x i &&& bswapData x j = 0 := by
  refine ⟨fun i hi => ?_, bswap256_bswap256 x, fun i hi j hj hne => bswapData_disjoint x hi hj hne⟩
  apply BitVec.eq_of_getLsbD_eq
  intro t ht
  have hidx : 8 * (31 - (8 * i + t) / 8) + (8 * i + t) % 8 = 8 * (31 - i) + t := by omega
  rw [byteOf, byteOf, BitVec.getLsbD_extractLsb', BitVec.getLsbD_extractLsb',
    getLsbD_bswap256 x (by omega), hidx]

/-! ## §3 — one function. -/

theorem getLsbD_byteSwap {n : Nat} (v : BitVec n) (hn : 8 ∣ n) {j : Nat} (hj : j < n) :
    (byteSwap v).getLsbD j = v.getLsbD (8 * (n / 8 - 1 - j / 8) + j % 8) := by
  rw [byteSwap, BitVec.getLsbD_ofNat, testBit_ofBE_leBytes (by omega), decide_eq_true hj,
    Bool.true_and]
  rfl

theorem byteSwap_byteSwap {n : Nat} (v : BitVec n) (hn : 8 ∣ n) : byteSwap (byteSwap v) = v := by
  apply BitVec.eq_of_getLsbD_eq
  intro j hj
  obtain ⟨k, rfl⟩ := hn
  rw [getLsbD_byteSwap _ ⟨k, rfl⟩ hj, getLsbD_byteSwap _ ⟨k, rfl⟩ (by omega)]
  congr 1
  omega

/-- **Both paths of `emitEndianConvert` reverse the bytes** of a value of a whole number of
bytes. -/
theorem emitEndianConvert_eq (isConst : Bool) {n : Nat} (v : BitVec n) (hn : 8 ∣ n)
    (hle : n ≤ 256) : emitEndianConvert isConst v = byteSwap v := by
  unfold emitEndianConvert
  split
  · rfl
  · dsimp only
    apply BitVec.eq_of_getLsbD_eq
    intro j hj
    obtain ⟨k, rfl⟩ := hn
    rw [BitVec.getLsbD_setWidth, getLsbD_bswap256 _ (by omega), getLsbD_byteSwap v ⟨k, rfl⟩ hj]
    have hk : 8 * k / 8 = k := by omega
    rw [hk]
    split
    · rw [BitVec.getLsbD_shiftLeft, BitVec.getLsbD_setWidth,
        show 8 * (31 - j / 8) + j % 8 - (256 - 8 * k) = 8 * (k - 1 - j / 8) + j % 8 by omega]
      simp [hj, show 8 * (31 - j / 8) + j % 8 < 256 by omega,
        show ¬ 8 * (31 - j / 8) + j % 8 < 256 - 8 * k by omega,
        show 8 * (k - 1 - j / 8) + j % 8 < 256 by omega]
    · rename_i hfull
      have hk32 : k = 32 := by omega
      subst hk32
      simp [hj, show 8 * (31 - j / 8) + j % 8 < 256 by omega]

/-- In memory, the swapped value is the big-endian image of the value. -/
theorem leBytes_byteSwap {n : Nat} (v : BitVec n) (hn : 8 ∣ n) :
    leBytes (n / 8) (byteSwap v).toNat = beBytes (n / 8) v.toNat := by
  have hlt : ofBE (leBytes (n / 8) v.toNat) < 2 ^ n := by
    have h := ofLE_lt (leBytes (n / 8) v.toNat).reverse
    obtain ⟨k, rfl⟩ := hn
    rw [List.length_reverse, length_leBytes, Nat.mul_div_cancel_left _ (by decide : 0 < 8),
      show (256 : Nat) ^ k = 2 ^ (8 * k) by rw [Nat.pow_mul]] at h
    rw [Nat.mul_div_cancel_left _ (by decide : 0 < 8)]
    exact h
  rw [byteSwap, BitVec.toNat_ofNat, Nat.mod_eq_of_lt hlt, ofBE]
  have h := leBytes_ofLE (leBytes (n / 8) v.toNat).reverse
  rwa [List.length_reverse, length_leBytes] at h

/-! ## §4 — where both paths are defined. -/

/-- `APInt::byteSwap()` behind its assertion: the width is a multiple of 16, and not 0. -/
def apintByteSwap {n : Nat} (v : BitVec n) : Option (BitVec n) :=
  if 16 ≤ n ∧ n % 16 = 0 then some (byteSwap v) else none

/-- `emitEndianConvert` with that assertion; `none` is a compiler that has stopped. -/
def endianConvert (isConst : Bool) {n : Nat} (v : BitVec n) : Option (BitVec n) :=
  if isConst then apintByteSwap v else some (emitEndianConvert false v)

theorem endianConvert_of_not_const {n : Nat} (v : BitVec n) (hn : 8 ∣ n) (hle : n ≤ 256) :
    endianConvert false v = some (byteSwap v) := by
  rw [endianConvert, if_neg Bool.false_ne_true, emitEndianConvert_eq false v hn hle]

theorem endianConvert_of_dvd (isConst : Bool) {n : Nat} (v : BitVec n) (hn : 16 ∣ n) (hpos : 0 < n)
    (hle : n ≤ 256) : endianConvert isConst v = some (byteSwap v) := by
  cases isConst with
  | false => exact endianConvert_of_not_const v (by omega) hle
  | true =>
    have hassert : 16 ≤ n ∧ n % 16 = 0 := ⟨Nat.le_of_dvd hpos hn, Nat.mod_eq_zero_of_dvd hn⟩
    rw [endianConvert, if_pos rfl, apintByteSwap, if_pos hassert]

/-- The two paths are defined and give one value, the bytes of `v` in reverse order; and converting
twice, by whichever paths, gives `v` back. -/
def EndianAgrees {n : Nat} (v : BitVec n) : Prop :=
  (∃ r, endianConvert true v = some r ∧ endianConvert false v = some r ∧
      leBytes (n / 8) r.toNat = (leBytes (n / 8) v.toNat).reverse) ∧
    ∀ isConst isConst' : Bool, (endianConvert isConst v).bind (endianConvert isConst') = some v

/-- **Endian conversion agrees on both paths** exactly for widths that are multiples of 16. The
others, the eight bits of `MSTORE8` among them, have no conversion for constants. -/
theorem endian_paths_agree_iff {n : Nat} (hn : 8 ∣ n) (hpos : 0 < n) (hle : n ≤ 256)
    (v : BitVec n) : EndianAgrees v ↔ 16 ∣ n := by
  constructor
  · rintro ⟨⟨r, hconst, -, -⟩, -⟩
    by_contra hdvd
    have hassert : ¬ (16 ≤ n ∧ n % 16 = 0) := fun h => hdvd (Nat.dvd_of_mod_eq_zero h.2)
    rw [endianConvert, if_pos rfl, apintByteSwap, if_neg hassert] at hconst
    cases hconst
  · intro hdvd
    have hswap := fun isConst (u : BitVec n) => endianConvert_of_dvd isConst u hdvd hpos hle
    refine ⟨⟨byteSwap v, hswap true v, hswap false v, leBytes_byteSwap v hn⟩,
      fun isConst isConst' => ?_⟩
    rw [hswap, Option.bind_some, hswap, byteSwap_byteSwap v hn]

/-- An address is swapped by both paths. -/
theorem endian_paths_agree_iff_address : EndianAgrees (9 : BitVec 160) :=
  (endian_paths_agree_iff (by decide) (by decide) (by decide) 9).mpr (by decide)

/-- A constant byte is not. -/
theorem constant_byte_not_swapped : ¬ EndianAgrees (1 : BitVec 8) := by
  rintro ⟨⟨r, hconst, -, -⟩, -⟩
  cases hconst

end EvmTrans
