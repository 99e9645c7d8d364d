/-
# `EvmTrans.Lib.Bytes` — fixed-length byte codecs for natural numbers.

`leBytes n v` is the `n`-byte little-endian image of `v`, `ofLE` its reader; `beBytes` and `ofBE`
are the same read from the other end. Nothing here knows what the numbers are for: the lemmas are
the two round trips, the entrywise reading, and the digit step of the big-endian reader.
-/
import Mathlib.Tactic.Common
import Mathlib.Tactic.Ring

namespace EvmTrans.Lib

/-! ## §1 — little-endian images. -/

/-- The `n` low-order bytes of `v`, least significant first. -/
def leBytes : Nat → Nat → List (BitVec 8)
  | 0, _ => []
  | n + 1, v => BitVec.ofNat 8 v :: leBytes n (v / 256)

/-- The number a little-endian byte string denotes. -/
def ofLE : List (BitVec 8) → Nat
  | [] => 0
  | b :: bs => b.toNat + 256 * ofLE bs

@[simp] theorem length_leBytes (n v : Nat) : (leBytes n v).length = n := by
  induction n generalizing v with
  | zero => rfl
  | succ n ih => simp [leBytes, ih]

theorem ofLE_lt (bs : List (BitVec 8)) : ofLE bs < 256 ^ bs.length := by
  induction bs with
  | nil => simp [ofLE]
  | cons b bs ih =>
    have hb : b.toNat < 256 := b.isLt
    simp only [ofLE, List.length_cons, Nat.pow_succ]
    omega

/-- Writing then reading keeps the number modulo `256 ^ n`. -/
theorem ofLE_leBytes (n v : Nat) : ofLE (leBytes n v) = v % 256 ^ n := by
  induction n generalizing v with
  | zero => simp [leBytes, ofLE, Nat.mod_one]
  | succ n ih =>
    have h8 : (BitVec.ofNat 8 v).toNat = v % 256 := BitVec.toNat_ofNat v 8
    simp only [leBytes, ofLE, ih, h8]
    rw [Nat.pow_succ', Nat.mod_mul (x := v)]

/-- Reading then writing keeps the byte string. -/
theorem leBytes_ofLE (bs : List (BitVec 8)) : leBytes bs.length (ofLE bs) = bs := by
  induction bs with
  | nil => rfl
  | cons b bs ih =>
    have hb : b.toNat < 256 := b.isLt
    have hdiv : (b.toNat + 256 * ofLE bs) / 256 = ofLE bs := by omega
    have hmod : BitVec.ofNat 8 (b.toNat + 256 * ofLE bs) = b := by
      apply BitVec.eq_of_toNat_eq
      rw [BitVec.toNat_ofNat]
      omega
    simp only [List.length_cons, ofLE, leBytes, hdiv, hmod, ih]

theorem getElem_leBytes {n v i : Nat} (h : i < (leBytes n v).length) :
    (leBytes n v)[i] = BitVec.ofNat 8 (v / 256 ^ i) := by
  induction n generalizing v i with
  | zero => simp [leBytes] at h
  | succ n ih =>
    cases i with
    | zero => simp [leBytes]
    | succ i =>
      simp only [leBytes, List.getElem_cons_succ]
      rw [ih, Nat.div_div_eq_div_mul, Nat.pow_succ']

/-- Numbers below `256 ^ n` are told apart by their images. -/
theorem leBytes_inj {n v w : Nat} (hv : v < 256 ^ n) (hw : w < 256 ^ n)
    (h : leBytes n v = leBytes n w) : v = w := by
  have := congrArg ofLE h
  rwa [ofLE_leBytes, ofLE_leBytes, Nat.mod_eq_of_lt hv, Nat.mod_eq_of_lt hw] at this

theorem ofLE_append (as bs : List (BitVec 8)) :
    ofLE (as ++ bs) = ofLE as + 256 ^ as.length * ofLE bs := by
  induction as with
  | nil => simp [ofLE]
  | cons a as ih =>
    simp only [List.cons_append, ofLE, ih, List.length_cons, Nat.pow_succ]
    ring

/-! ## §2 — big-endian images. -/

/-- The `n` low-order bytes of `v`, most significant first. -/
def beBytes (n v : Nat) : List (BitVec 8) := (leBytes n v).reverse

/-- The number a big-endian byte string denotes. -/
def ofBE (bs : List (BitVec 8)) : Nat := ofLE bs.reverse

@[simp] theorem length_beBytes (n v : Nat) : (beBytes n v).length = n := by simp [beBytes]

theorem ofBE_lt (bs : List (BitVec 8)) : ofBE bs < 256 ^ bs.length := by
  simpa [ofBE] using ofLE_lt bs.reverse

theorem ofBE_beBytes (n v : Nat) : ofBE (beBytes n v) = v % 256 ^ n := by
  rw [ofBE, beBytes, List.reverse_reverse, ofLE_leBytes]

theorem beBytes_ofBE (bs : List (BitVec 8)) : beBytes bs.length (ofBE bs) = bs := by
  rw [beBytes, ofBE, ← List.length_reverse, leBytes_ofLE, List.reverse_reverse]

theorem beBytes_inj {n v w : Nat} (hv : v < 256 ^ n) (hw : w < 256 ^ n)
    (h : beBytes n v = beBytes n w) : v = w :=
  leBytes_inj hv hw (List.reverse_inj.mp h)

theorem ofBE_cons (b : BitVec 8) (bs : List (BitVec 8)) :
    ofBE (b :: bs) = b.toNat * 256 ^ bs.length + ofBE bs := by
  simp only [ofBE, List.reverse_cons, ofLE_append, List.length_reverse, ofLE]
  ring

theorem ofBE_zeros (n : Nat) : ofBE (List.replicate n 0) = 0 := by
  induction n with
  | zero => rfl
  | succ n ih =>
    rw [List.replicate_succ, ofBE_cons, ih]
    simp

/-! ## §3 — bits. -/

/-- Bit `8 i + j` of a little-endian number is bit `j` of its byte `i`. -/
theorem testBit_ofLE : ∀ (bs : List (BitVec 8)) (j : Nat),
    (ofLE bs).testBit j = (bs.getD (j / 8) 0).getLsbD (j % 8) := by
  intro bs
  induction bs with
  | nil => intro j; simp [ofLE]
  | cons b bs ih =>
    intro j
    have hsum : ofLE (b :: bs) = 2 ^ 8 * ofLE bs + b.toNat := by
      simp only [ofLE]
      omega
    rw [hsum, Nat.testBit_two_pow_mul_add _ b.isLt]
    split
    · rename_i hj
      rw [Nat.div_eq_of_lt hj, Nat.mod_eq_of_lt hj]
      rfl
    · rename_i hj
      rw [ih, show j / 8 = (j - 8) / 8 + 1 by omega, show j % 8 = (j - 8) % 8 by omega]
      rfl

theorem getLsbD_leBytes {n v i j : Nat} (hi : i < n) (hj : j < 8) :
    ((leBytes n v).getD i 0).getLsbD j = v.testBit (8 * i + j) := by
  have hlen : i < (leBytes n v).length := by rwa [length_leBytes]
  rw [List.getD_eq_getElem?_getD, List.getElem?_eq_getElem hlen, Option.getD_some, getElem_leBytes,
    BitVec.getLsbD_ofNat, show (256 : Nat) ^ i = 2 ^ (8 * i) by rw [Nat.pow_mul]]
  simp [hj, Nat.testBit_div_two_pow, Nat.add_comm]

/-- Reading the bytes from the other end reverses them and keeps the bits of each. -/
theorem testBit_ofBE_leBytes {n v j : Nat} (hj : j < 8 * n) :
    (ofBE (leBytes n v)).testBit j = v.testBit (8 * (n - 1 - j / 8) + j % 8) := by
  have hlt : j / 8 < n := by omega
  have hrev : (leBytes n v).reverse.getD (j / 8) 0 = (leBytes n v).getD (n - 1 - j / 8) 0 := by
    rw [List.getD_eq_getElem?_getD, List.getD_eq_getElem?_getD,
      List.getElem?_reverse (by rwa [length_leBytes]), length_leBytes]
  rw [ofBE, testBit_ofLE, hrev, getLsbD_leBytes (by omega) (Nat.mod_lt _ (by decide))]

end EvmTrans.Lib
