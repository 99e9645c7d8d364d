/-
# `EvmTrans.UDivRem` — `evm.udivrem.iN`, the division loop, with its helper `wasm.ctlz.iN`.

`createUDivRemFunc` emits seven blocks. `Main` asks by how many digits the divisor is shorter than
the dividend, `LoopY` shifts it up by that many, and `Loop` / `Continue` subtract it at every
position on its way back. The machine below steps from block to block; a block carries its phis and
the values that are still live in it. Nothing tests for a zero divisor: the comment says that both
results are 0 then, and `udivrem_zero` says what they are.
-/
import Mathlib.Logic.Relation
import EvmTrans.Lib.Loop
import EvmTrans.Lib.LongDivision

namespace EvmTrans

open Lib (whileLoop whileLoop_ends size_half Divided Reduced divided_align shifted_lt)

variable {n : Nat}

/-! ## §1 — `wasm.ctlz.iN`. -/

/-- `ctlz.LoopHeader` and `ctlz.LoopBody` on the phis `tmp` and `cnt`. -/
def ctlzLoop (s : BitVec n × BitVec n) : Option (BitVec n × BitVec n) :=
  if s.1 ≠ 0 then some (s.1 >>> 1, s.2 + 1) else none

/-- `createCTLZFunc`; `bit` is the width of the type. -/
def ctlz (x : BitVec n) : BitVec n := BitVec.ofNat n n - (whileLoop ctlzLoop n (x, 0)).2

/-- After `k` rounds. -/
def CtlzInv (x : BitVec n) (s : BitVec n × BitVec n) : Prop :=
  ∃ k, k ≤ x.toNat.size ∧ s.2.toNat = k ∧ s.1.toNat = x.toNat / 2 ^ k

theorem size_le (x : BitVec n) : x.toNat.size ≤ n := Nat.size_le.mpr x.isLt

theorem toNat_one_of_pos (hn : 0 < n) : (1 : BitVec n).toNat = 1 := by
  rw [BitVec.ofNat_eq_ofNat, BitVec.toNat_ofNat, Nat.mod_eq_of_lt (Nat.one_lt_two_pow (by omega))]

theorem ctlzInv_step {x : BitVec n} {s s' : BitVec n × BitVec n} (h : CtlzInv x s)
    (hs : ctlzLoop s = some s') : CtlzInv x s' ∧ s'.1.toNat.size < s.1.toNat.size := by
  obtain ⟨k, hk, hc, ht⟩ := h
  unfold ctlzLoop at hs
  split at hs
  · rename_i hne
    cases hs
    have hpos : 0 < s.1.toNat := Nat.pos_of_ne_zero fun h0 => hne (BitVec.eq_of_toNat_eq h0)
    -- the digit at `k` is there, so `k` is still below the number of digits
    have hlt : k < x.toNat.size := by
      rw [ht] at hpos
      exact Nat.lt_size.mpr (Nat.div_pos_iff.mp hpos).2
    have hn := size_le x
    have hself : n < 2 ^ n := Nat.lt_two_pow_self
    have hhalf : (s.1 >>> 1).toNat = s.1.toNat / 2 := by
      rw [BitVec.toNat_ushiftRight, Nat.shiftRight_eq_div_pow, pow_one]
    refine ⟨⟨k + 1, hlt, ?_, ?_⟩, ?_⟩
    · show (s.2 + 1).toNat = k + 1
      rw [BitVec.toNat_add, hc, toNat_one_of_pos (by omega), Nat.mod_eq_of_lt (by omega)]
    · show (s.1 >>> 1).toNat = _
      rw [hhalf, ht, Nat.div_div_eq_div_mul, pow_succ]
    · show (s.1 >>> 1).toNat.size < _
      rw [hhalf, size_half hpos]
      exact Nat.lt_succ_self _
  · cases hs

theorem ctlzInv_start (x : BitVec n) : CtlzInv x (x, 0) := ⟨0, Nat.zero_le _, rfl, by simp⟩

/-- **`wasm.ctlz.iN` counts the leading zeros**, all of them for 0. -/
theorem toNat_ctlz (x : BitVec n) : (ctlz x).toNat = n - x.toNat.size := by
  obtain ⟨⟨k, hk, hc, ht⟩, hexit⟩ := whileLoop_ends (CtlzInv x) (fun s => s.1.toNat.size)
    (fun _ _ h hs => ctlzInv_step h hs) (ctlzInv_start x) (size_le x)
  have hn := size_le x
  have hself : n < 2 ^ n := Nat.lt_two_pow_self
  -- `tmp` is 0, so no digit is left above `k`
  have hzero : (whileLoop ctlzLoop n (x, 0)).1 = 0 := by
    unfold ctlzLoop at hexit
    split at hexit
    · cases hexit
    · rename_i h
      exact not_not.mp h
  have hkn : k = x.toNat.size := by
    rw [hzero] at ht
    refine le_antisymm hk (Nat.size_le.mpr ?_)
    have hdiv : x.toNat / 2 ^ k = 0 := ht.symm.trans (BitVec.toNat_zero ..)
    exact (Nat.div_eq_zero_iff.mp hdiv).resolve_left (Nat.two_pow_pos k).ne'
  have hbit : (BitVec.ofNat n n).toNat = n := by
    rw [BitVec.toNat_ofNat, Nat.mod_eq_of_lt hself]
  rw [ctlz, BitVec.toNat_sub_of_le, hbit, hc, hkn]
  rw [BitVec.le_def, hbit, hc]
  omega

/-! ## §2 — the blocks of `evm.udivrem.iN`. -/

/-- A block on entry: its phis, and the values that are live in it. -/
inductive UDivRemBlock (n : Nat) where
  | entryBB
  | mainBB
  | beforeloopYBB (i0 i0Phi y0 : BitVec n)
  | loopYBB (i0 i0Phi y0 : BitVec n)
  | loopBB (yPhi rPhi iPhi qPhi : BitVec n)
  | continueBB (yPhi iPhi r1 q1 : BitVec n)
  | returnBB (qRet rRet : BitVec n)
  deriving DecidableEq, Repr

/-- One block: its instructions and its branch. `Return` is the end. -/
def udivremStep (x y : BitVec n) : UDivRemBlock n → Option (UDivRemBlock n)
  | .entryBB => some (if y ≤ x then .mainBB else .returnBB 0 x)
  | .mainBB =>
    let yLz := ctlz y
    let rLz := ctlz x
    let i0 := yLz - rLz
    some (.beforeloopYBB i0 i0 y)
  | .beforeloopYBB i0 i0Phi y0 =>
    some (if i0Phi ≠ 0 then .loopYBB i0 i0Phi y0 else .loopBB y0 x i0 0)
  | .loopYBB i0 i0Phi y0 =>
    let y1 := y0 <<< 1
    let i1 := i0Phi - 1
    some (.beforeloopYBB i0 i1 y1)
  | .loopBB yPhi rPhi iPhi qPhi =>
    let rUpdate := rPhi - yPhi
    let qUpdate := qPhi ||| 1
    let r1 := if yPhi ≤ rPhi then rUpdate else rPhi
    let q1 := if yPhi ≤ rPhi then qUpdate else qPhi
    some (if iPhi = 0 then .returnBB q1 r1 else .continueBB yPhi iPhi r1 q1)
  | .continueBB yPhi iPhi r1 q1 =>
    let i2 := iPhi - 1
    let q2 := q1 <<< 1
    let y2 := yPhi >>> 1
    some (.loopBB y2 r1 i2 q2)
  | .returnBB _ _ => none

/-- `createUDivRemFunc`: quotient and remainder. The blocks that a run can pass are at most
`4 n + 5` (`DigitRule.returns`). -/
def udivrem (x y : BitVec n) : Option (BitVec n × BitVec n) :=
  match whileLoop (udivremStep x y) (4 * n + 5) .entryBB with
  | .returnBB qRet rRet => some (qRet, rRet)
  | _ => none

/-- The blocks of the run. -/
def Visits (x y : BitVec n) (b : UDivRemBlock n) : Prop :=
  Relation.ReflTransGen (fun b b' => udivremStep x y b = some b') .entryBB b

/-- `a - b` does not wrap. -/
def SubFits (a b : BitVec n) : Prop := b.toNat ≤ a.toNat

/-- `a << 1` moves no set bit out. -/
def ShlFits (a : BitVec n) : Prop := a.toNat * 2 < 2 ^ n

/-- `a >> 1` moves no set bit out. -/
def LShrFits (a : BitVec n) : Prop := a.toNat % 2 = 0

/-- The `NUW` subtractions of a block do not wrap where their results are used, and its shifts lose
nothing. The result of `rUpdate` is used when the `select`s take it. -/
def UDivRemBlock.Clean (x y : BitVec n) : UDivRemBlock n → Prop
  | .mainBB => SubFits (ctlz y) (ctlz x)
  | .loopYBB _ _ y0 => ShlFits y0
  | .loopBB yPhi rPhi _ _ => yPhi ≤ rPhi → SubFits rPhi yPhi
  | .continueBB yPhi iPhi _ q1 => SubFits iPhi 1 ∧ ShlFits q1 ∧ LShrFits yPhi
  | _ => True

/-! ## §3 — one run for every divisor. -/

/-- What is known at each block. `D i r q` speaks of a position `i` whose digit is not decided yet,
`R i r q` of one whose digit is, and `F q r` of the results. -/
def UDivRemInv (x y : BitVec n) (D R : Nat → BitVec n → BitVec n → Prop)
    (F : BitVec n → BitVec n → Prop) :
    UDivRemBlock n → Prop
  | .entryBB => True
  | .mainBB => y.toNat ≤ x.toNat
  | .beforeloopYBB i0 i0Phi y0 => y.toNat ≤ x.toNat ∧ i0.toNat = x.toNat.size - y.toNat.size ∧
      i0Phi.toNat ≤ i0.toNat ∧ y0.toNat = y.toNat * 2 ^ (i0.toNat - i0Phi.toNat)
  | .loopYBB i0 i0Phi y0 => y.toNat ≤ x.toNat ∧ i0.toNat = x.toNat.size - y.toNat.size ∧
      i0Phi.toNat ≤ i0.toNat ∧ y0.toNat = y.toNat * 2 ^ (i0.toNat - i0Phi.toNat) ∧ 0 < i0Phi.toNat
  | .loopBB yPhi rPhi iPhi qPhi => y.toNat ≤ x.toNat ∧ iPhi.toNat ≤ x.toNat.size - y.toNat.size ∧
      yPhi.toNat = y.toNat * 2 ^ iPhi.toNat ∧ D iPhi.toNat rPhi qPhi
  | .continueBB yPhi iPhi r1 q1 => y.toNat ≤ x.toNat ∧ iPhi.toNat ≤ x.toNat.size - y.toNat.size ∧
      yPhi.toNat = y.toNat * 2 ^ iPhi.toNat ∧ 0 < iPhi.toNat ∧ R iPhi.toNat r1 q1
  | .returnBB qRet rRet => F qRet rRet

/-- What `D`, `R` and `F` have to satisfy: one field for each way into `Loop`, `Continue` and
`Return`. -/
structure DigitRule (x y : BitVec n) (D R : Nat → BitVec n → BitVec n → Prop)
    (F : BitVec n → BitVec n → Prop) : Prop where
  small : x.toNat < y.toNat → F 0 x
  start : y.toNat ≤ x.toNat → D (x.toNat.size - y.toNat.size) x 0
  digit : ∀ {i : Nat} {Y r q : BitVec n}, i ≤ x.toNat.size - y.toNat.size →
  Y.toNat = y.toNat * 2 ^ i →
    D i r q → R i (if Y ≤ r then r - Y else r) (if Y ≤ r then q ||| 1 else q)
  shift : ∀ {i : Nat} {r q : BitVec n}, i + 1 ≤ x.toNat.size - y.toNat.size → R (i + 1) r q →
    D i r (q <<< 1)
  done : ∀ {r q : BitVec n}, R 0 r q → F q r

/-- Blocks left to run. -/
def udivremMeasure : UDivRemBlock n → Nat
  | .entryBB => 4 * n + 5
  | .mainBB => 4 * n + 4
  | .beforeloopYBB i0 i0Phi _ => 2 * i0.toNat + 2 * i0Phi.toNat + 3
  | .loopYBB i0 i0Phi _ => 2 * i0.toNat + 2 * i0Phi.toNat + 2
  | .loopBB _ _ iPhi _ => 2 * iPhi.toNat + 2
  | .continueBB _ iPhi _ _ => 2 * iPhi.toNat + 1
  | .returnBB _ _ => 0

theorem pos_of_toNat_pos {a : BitVec n} (h : 0 < a.toNat) : 0 < n := by
  rcases Nat.eq_zero_or_pos n with rfl | hn
  · have := a.isLt
    omega
  · exact hn

theorem toNat_sub_one {a : BitVec n} (h : 0 < a.toNat) : (a - 1).toNat = a.toNat - 1 := by
  have h1 := toNat_one_of_pos (pos_of_toNat_pos h)
  rw [BitVec.toNat_sub_of_le (by rw [BitVec.le_def, h1]; exact h), h1]

theorem toNat_shl_one {a : BitVec n} (h : ShlFits a) : (a <<< 1).toNat = a.toNat * 2 := by
  rw [BitVec.toNat_shiftLeft, Nat.shiftLeft_eq, pow_one, Nat.mod_eq_of_lt h]

theorem toNat_lshr_one (a : BitVec n) : (a >>> 1).toNat = a.toNat / 2 := by
  rw [BitVec.toNat_ushiftRight, Nat.shiftRight_eq_div_pow, pow_one]

theorem toNat_pos_of_ne {a : BitVec n} (h : a ≠ 0) : 0 < a.toNat :=
  Nat.pos_of_ne_zero fun h0 => h (BitVec.eq_of_toNat_eq h0)

/-- With `y ≤ x`, the two counts differ by the digits that `y` is short of. -/
theorem toNat_i0 {x y : BitVec n} (h : y.toNat ≤ x.toNat) :
    SubFits (ctlz y) (ctlz x) ∧ (ctlz y - ctlz x).toNat = x.toNat.size - y.toNat.size := by
  have hsize : y.toNat.size ≤ x.toNat.size := Nat.size_le_size h
  have hx := size_le x
  have hfits : SubFits (ctlz y) (ctlz x) := by
    rw [SubFits, toNat_ctlz, toNat_ctlz]
    omega
  refine ⟨hfits, ?_⟩
  rw [BitVec.toNat_sub_of_le (BitVec.le_def.mpr hfits), toNat_ctlz, toNat_ctlz]
  omega

/-- **One block** keeps the invariant, and the run gets shorter. -/
theorem DigitRule.step {x y : BitVec n} {D R : Nat → BitVec n → BitVec n → Prop}
    {F : BitVec n → BitVec n → Prop} (rule : DigitRule x y D R F) {b b' : UDivRemBlock n}
    (h : UDivRemInv x y D R F b) (hs : udivremStep x y b = some b') :
    UDivRemInv x y D R F b' ∧ udivremMeasure b' < udivremMeasure b := by
  have hx := size_le x
  cases b with
  | entryBB =>
    obtain rfl := Option.some.inj hs
    split
    · rename_i hle
      exact ⟨BitVec.le_def.mp hle, Nat.lt_succ_self _⟩
    · rename_i hle
      rw [BitVec.le_def] at hle
      exact ⟨rule.small (Nat.lt_of_not_le hle), Nat.succ_pos _⟩
  | mainBB =>
    obtain rfl := Option.some.inj hs
    obtain ⟨-, hi0⟩ := toNat_i0 h
    refine ⟨⟨h, hi0, le_rfl, by rw [Nat.sub_self, pow_zero, Nat.mul_one]⟩, ?_⟩
    simp only [udivremMeasure, hi0]
    omega
  | beforeloopYBB i0 i0Phi y0 =>
    obtain rfl := Option.some.inj hs
    obtain ⟨hle, hi0, hphi, hy0⟩ := h
    split
    · rename_i hne
      exact ⟨⟨hle, hi0, hphi, hy0, toNat_pos_of_ne hne⟩, Nat.lt_succ_self _⟩
    · rename_i hz
      have hz : i0Phi.toNat = 0 := by rw [not_not.mp hz]; rfl
      rw [hz, Nat.sub_zero] at hy0
      refine ⟨⟨hle, hi0.le, hy0, ?_⟩, ?_⟩
      · rw [hi0]
        exact rule.start hle
      · simp only [udivremMeasure]
        omega
  | loopYBB i0 i0Phi y0 =>
    obtain rfl := Option.some.inj hs
    obtain ⟨hle, hi0, hphi, hy0, hpos⟩ := h
    have hstep : i0.toNat - (i0Phi.toNat - 1) = i0.toNat - i0Phi.toNat + 1 := by omega
    have hfits : ShlFits y0 := by
      rw [ShlFits, hy0, Nat.mul_assoc, ← pow_succ]
      exact shifted_lt x.isLt (by omega) hle
    refine ⟨⟨hle, hi0, ?_, ?_⟩, ?_⟩
    · rw [toNat_sub_one hpos]
      omega
    · rw [toNat_shl_one hfits, toNat_sub_one hpos, hy0, hstep, pow_succ, Nat.mul_assoc]
    · simp only [udivremMeasure, toNat_sub_one hpos]
      omega
  | loopBB yPhi rPhi iPhi qPhi =>
    obtain rfl := Option.some.inj hs
    obtain ⟨hle, hi, hy, hD⟩ := h
    have hR := rule.digit hi hy hD
    split
    · rename_i hz
      rw [hz] at hR
      exact ⟨rule.done hR, Nat.succ_pos _⟩
    · rename_i hne
      exact ⟨⟨hle, hi, hy, toNat_pos_of_ne hne, hR⟩, Nat.lt_succ_self _⟩
  | continueBB yPhi iPhi r1 q1 =>
    obtain rfl := Option.some.inj hs
    obtain ⟨hle, hi, hy, hpos, hR⟩ := h
    obtain ⟨i, hi'⟩ : ∃ i, iPhi.toNat = i + 1 := ⟨iPhi.toNat - 1, by omega⟩
    have hsub : (iPhi - 1).toNat = i := by
      rw [toNat_sub_one hpos]
      omega
    rw [hi'] at hi hy hR
    refine ⟨⟨hle, ?_, ?_, ?_⟩, ?_⟩
    · rw [hsub]
      omega
    · rw [hsub, toNat_lshr_one, hy, pow_succ, ← Nat.mul_assoc, Nat.mul_div_cancel _ Nat.two_pos]
    · rw [hsub]
      exact rule.shift hi hR
    · simp only [udivremMeasure, hsub, hi']
      omega
  | returnBB qRet rRet => cases hs

/-- **The run**: it returns, within the blocks counted, and every block it visits has the
invariant. -/
theorem DigitRule.returns {x y : BitVec n} {D R : Nat → BitVec n → BitVec n → Prop}
    {F : BitVec n → BitVec n → Prop} (rule : DigitRule x y D R F) :
    (∃ q r, udivrem x y = some (q, r) ∧ F q r) ∧ ∀ b, Visits x y b → UDivRemInv x y D R F b := by
  constructor
  · obtain ⟨hinv, hexit⟩ := whileLoop_ends (UDivRemInv x y D R F) udivremMeasure
      (fun _ _ h hs => rule.step h hs) (s := .entryBB) trivial (le_refl (4 * n + 5))
    unfold udivrem
    generalize whileLoop (udivremStep x y) (4 * n + 5) .entryBB = b at hinv hexit
    cases b with
    | returnBB q r => exact ⟨q, r, rfl, hinv⟩
    | _ => cases hexit
  · intro b hb
    induction hb with
    | refl => exact trivial
    | tail _ hs ih => exact (rule.step ih hs).1

/-! ## §4 — a divisor that is not zero. -/

/-- `q |= 1` is `q += 1` when the lowest bit of `q` is 0. -/
theorem or_one_of_even {q : Nat} (h : q % 2 = 0) : q ||| 1 = q + 1 := by
  obtain ⟨k, rfl⟩ := Nat.dvd_of_mod_eq_zero h
  exact (Nat.two_pow_add_eq_or_of_lt (i := 1) Nat.one_lt_two k).symm

/-- There is room for the next digit of the quotient. -/
theorem shlFits_of_reduced {x q : BitVec n} {y i r : Nat}
    (h : Reduced x.toNat (y * 2 ^ (i + 1)) r q.toNat) : ShlFits q := by
  rw [pow_succ, ← Nat.mul_assoc, Nat.mul_comm _ 2] at h
  have hle := h.two_mul_quotient_le
  have hlt := x.isLt
  show q.toNat * 2 < 2 ^ n
  omega

/-- The long division, digit by digit; the quotient is even before a digit. -/
theorem digitRule_exact {x y : BitVec n} (hy : 0 < y.toNat) : DigitRule x y
    (fun i r q => Divided x.toNat (y.toNat * 2 ^ i) r.toNat q.toNat ∧ q.toNat % 2 = 0)
    (fun i r q => Reduced x.toNat (y.toNat * 2 ^ i) r.toNat q.toNat)
    (fun q r => q = x / y ∧ r = x % y) where
  small := fun hlt => by
    constructor <;> apply BitVec.eq_of_toNat_eq
    · rw [BitVec.toNat_udiv, Nat.div_eq_of_lt hlt]
      rfl
    · rw [BitVec.toNat_umod, Nat.mod_eq_of_lt hlt]
  start := fun _ => ⟨divided_align hy, rfl⟩
  digit := fun {i Y r q} _ hY ⟨hD, heven⟩ => by
    rw [← hY] at hD ⊢
    split
    · rename_i hle
      have hle' := BitVec.le_def.mp hle
      have hn := pos_of_toNat_pos hy
      have hred := hD.subtract hle'
      have hq : (q ||| 1).toNat = q.toNat + 1 := by
        rw [BitVec.toNat_or, toNat_one_of_pos hn, or_one_of_even heven]
      rw [BitVec.toNat_sub_of_le hle, hq]
      exact hred
    · rename_i hle
      rw [BitVec.le_def] at hle
      exact hD.keep (Nat.lt_of_not_le hle)
  shift := fun {i r q} _ hR => by
    rw [toNat_shl_one (shlFits_of_reduced hR), Nat.mul_comm q.toNat 2]
    rw [pow_succ, ← Nat.mul_assoc, Nat.mul_comm _ 2] at hR
    exact ⟨hR.shift, Nat.mul_mod_right ..⟩
  done := fun {r q} hR => by
    rw [pow_zero, Nat.mul_one] at hR
    obtain ⟨hq, hr⟩ := hR.exact
    constructor <;> apply BitVec.eq_of_toNat_eq
    · rw [hq, BitVec.toNat_udiv]
    · rw [hr, BitVec.toNat_umod]

/-- The invariant of the exact division rules out every wrap and every lost bit. -/
theorem clean_of_inv {x y : BitVec n} {D : Nat → BitVec n → BitVec n → Prop}
    {F : BitVec n → BitVec n → Prop} {b : UDivRemBlock n} (h : UDivRemInv x y D
      (fun i r q => Reduced x.toNat (y.toNat * 2 ^ i) r.toNat q.toNat) F b) : b.Clean x y := by
  cases b with
  | mainBB => exact (toNat_i0 h).1
  | loopYBB i0 i0Phi y0 =>
    obtain ⟨hle, hi0, hphi, hy0, hpos⟩ := h
    show y0.toNat * 2 < 2 ^ n
    rw [hy0, Nat.mul_assoc, ← pow_succ]
    exact shifted_lt x.isLt (by omega) hle
  | loopBB yPhi rPhi iPhi qPhi => exact fun hle => BitVec.le_def.mp hle
  | continueBB yPhi iPhi r1 q1 =>
    obtain ⟨-, -, hy, hpos, hR⟩ := h
    obtain ⟨i, hi⟩ : ∃ i, iPhi.toNat = i + 1 := ⟨iPhi.toNat - 1, by omega⟩
    rw [hi] at hy hR
    refine ⟨?_, shlFits_of_reduced hR, ?_⟩
    · show (1 : BitVec n).toNat ≤ iPhi.toNat
      rw [toNat_one_of_pos (pos_of_toNat_pos hpos)]
      exact hpos
    · show yPhi.toNat % 2 = 0
      rw [hy, pow_succ, ← Nat.mul_assoc, Nat.mul_mod_left]
  | _ => exact trivial

theorem udivrem_of_ne_zero (x : BitVec n) {y : BitVec n} (hy : y ≠ 0) :
    udivrem x y = some (x / y, x % y) := by
  obtain ⟨⟨q, r, hret, rfl, rfl⟩, -⟩ := (digitRule_exact (x := x) (toNat_pos_of_ne hy)).returns
  exact hret

/-- **The division loop.** At every width and for every divisor that is not zero, `evm.udivrem.iN`
returns the exact quotient and remainder; on the way no `NUW` subtraction wraps whose result is
used, and no shift of its blocks loses a bit. (The helper counts digits BY shifting them out.) -/
theorem udivrem_exact (x y : BitVec n) (hy : y ≠ 0) :
    udivrem x y = some (x / y, x % y) ∧ ∀ b, Visits x y b → b.Clean x y := by
  have hinv := (digitRule_exact (x := x) (toNat_pos_of_ne hy)).returns.2
  exact ⟨udivrem_of_ne_zero x hy, fun b hb => clean_of_inv (hinv b hb)⟩

/-- `2^256 - 1` by 10. -/
theorem udivrem_exact_maxByTen :
    udivrem (BitVec.ofNat 256 (2 ^ 256 - 1)) 10 = some (BitVec.ofNat 256 ((2 ^ 256 - 1) / 10), 5) ∧
      Visits (BitVec.ofNat 256 (2 ^ 256 - 1)) 10 .mainBB := by
  have h := udivrem_exact (BitVec.ofNat 256 (2 ^ 256 - 1)) 10 (by decide)
  refine ⟨h.1.trans (by decide), ?_⟩
  exact .tail .refl (by decide)

/-! ## §5 — a divisor that is zero. -/

/-- `k` ones. -/
def ones (n k : Nat) : BitVec n := BitVec.ofNat n (2 ^ k - 1)

theorem getLsbD_ones (n k i : Nat) : (ones n k).getLsbD i = (decide (i < n) && decide (i < k)) := by
  rw [ones, BitVec.getLsbD_ofNat, Nat.testBit_two_pow_sub_one]

/-- One more `1` at the lower end. -/
theorem ones_shl_or_one (n k : Nat) : ones n k <<< 1 ||| 1 = ones n (k + 1) := by
  apply BitVec.eq_of_getLsbD_eq
  intro i hi
  rw [BitVec.getLsbD_or, BitVec.getLsbD_shiftLeft, getLsbD_ones, getLsbD_ones,
    BitVec.ofNat_eq_ofNat, BitVec.getLsbD_one]
  rcases i with _ | i
  · simp [hi]
  · simp [hi, Nat.lt_of_succ_lt hi]

/-- Every digit of the quotient is 1 and nothing is ever subtracted. -/
theorem digitRule_zero (x : BitVec n) : DigitRule x 0
    (fun i r q => r = x ∧ q = ones n (x.toNat.size - i) <<< 1)
    (fun i r q => r = x ∧ q = ones n (x.toNat.size - i + 1))
    (fun q r => q = ones n (x.toNat.size + 1) ∧ r = x) where
  small := fun hlt => absurd hlt (Nat.not_lt_zero _)
  start := fun _ => by
    refine ⟨rfl, ?_⟩
    have hsize : (0 : BitVec n).toNat.size = 0 := Nat.size_zero
    rw [hsize, Nat.sub_zero, Nat.sub_self]
    exact (BitVec.zero_shiftLeft 1).symm
  digit := fun {i Y r q} _ hY ⟨hr, hq⟩ => by
    have hY0 : Y = 0 := by
      apply BitVec.eq_of_toNat_eq
      rw [hY]
      exact Nat.zero_mul _
    have hle : Y ≤ r := by
      rw [BitVec.le_def, hY0]
      exact Nat.zero_le _
    rw [if_pos hle, if_pos hle, hY0, hr, hq, ones_shl_or_one]
    exact ⟨BitVec.sub_zero x, rfl⟩
  shift := fun {i r q} hi ⟨hr, hq⟩ => by
    have hi : i + 1 ≤ x.toNat.size := le_trans hi (Nat.sub_le _ _)
    refine ⟨hr, ?_⟩
    rw [hq]
    congr 2
    omega
  done := fun {r q} ⟨hr, hq⟩ => ⟨hq, hr⟩

/-- **Division by zero** returns a string of ones, one longer than the dividend, and the
dividend. -/
theorem udivrem_zero (x : BitVec n) : udivrem x 0 = some (ones n (x.toNat.size + 1), x) := by
  obtain ⟨⟨q, r, hret, rfl, rfl⟩, -⟩ := (digitRule_zero x).returns
  exact hret

end EvmTrans
