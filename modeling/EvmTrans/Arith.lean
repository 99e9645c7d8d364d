/-
# `EvmTrans.Arith` — the code emitted for arithmetic, comparison and bitwise opcodes, at register
width.

A register denotes its zero-extension, but the emitted instruction works at the register's OWN width
when both operands have one type, and at 256 bits when they do not: each opcode repeats the test
`lhs->getType() != rhs->getType()` and its two `CreateZExt`. The copies differ in one place, `MUL`,
whose second widening reads `lhs`.

`mixed_width_result_iff` settles the widened path: every opcode computes the EVM's word, `MUL`
exactly when its operands agree modulo the part of `2^256` that the first one leaves.
`narrow_result_iff` settles the path without widening: wrap-around, complement and sign are taken at
32 or 128 bits.
-/
import Mathlib.Data.List.Basic
import Mathlib.Data.Nat.ModEq
import Mathlib.Tactic.Ring
import EvmTrans.CompileBasicBlock

namespace EvmTrans

/-! ## §1 — registers and instructions. -/

/-- The bits of an integer type. -/
def Width.bits : Width → Nat
  | .i1 => 1
  | .i32 => 32
  | .i128 => 128
  | .i256 => 256

/-- A register at run time: its type and its bits. -/
structure Reg where
  width : Width
  val : BitVec width.bits
  deriving DecidableEq

/-- The word a register stands for. -/
def Reg.denote (r : Reg) : Word := r.val.setWidth 256

/-- `IRB.CreateZExt(v, Type::Word)`, which hands back a value that has the type already. -/
def Reg.zext (r : Reg) : Reg := ⟨.i256, r.denote⟩

/-- A binary instruction. Operands of two types are not LLVM IR; `f` is `none` where the instruction
is undefined. -/
def createBinOp (f : {n : Nat} → BitVec n → BitVec n → Option (BitVec n)) (lhs rhs : Reg) :
    Option Reg :=
  if h : rhs.width = lhs.width then
    (f lhs.val (rhs.val.cast (congrArg Width.bits h))).map (Reg.mk lhs.width)
  else none

/-- `IRB.CreateICmp…`, an `i1`. -/
def createICmp (p : {n : Nat} → BitVec n → BitVec n → Bool) (lhs rhs : Reg) : Option Reg :=
  if h : rhs.width = lhs.width then
    some ⟨.i1, BitVec.ofBool (p lhs.val (rhs.val.cast (congrArg Width.bits h)))⟩
  else none

/-! ## §2 — the opcodes. -/

/-- `if (lhs->getType() != rhs->getType())`: both operands become words, or neither does. -/
def sameType (lhs rhs : Reg) : Reg × Reg :=
  if lhs.width ≠ rhs.width then (lhs.zext, rhs.zext) else (lhs, rhs)

/-- The shape of `ADD`, `SUB`, `DIV`, `SDIV`, `MOD`, `SMOD`, `AND`, `OR` and `XOR`. -/
def emitArith (f : {n : Nat} → BitVec n → BitVec n → Option (BitVec n)) (lhs rhs : Reg) :
    Option Reg :=
  createBinOp f (sameType lhs rhs).1 (sameType lhs rhs).2

/-- The shape of `LT`, `GT`, `SLT`, `SGT` and `EQ`: the `i1` is extended to a word. -/
def emitCompare (p : {n : Nat} → BitVec n → BitVec n → Bool) (lhs rhs : Reg) : Option Reg :=
  (createICmp p (sameType lhs rhs).1 (sameType lhs rhs).2).map Reg.zext

/-- `udiv` and `urem` by zero are undefined; `sdiv` and `srem` also at `INT_MIN / -1`. -/
def signedDefined {n : Nat} (d m : BitVec n) : Bool := m ≠ 0 ∧ ¬ (d = BitVec.intMin n ∧ m = -1)

def emitAdd : Reg → Reg → Option Reg := emitArith fun lhs rhs => some (lhs + rhs)
def emitSub : Reg → Reg → Option Reg := emitArith fun lhs rhs => some (lhs - rhs)
def emitDiv : Reg → Reg → Option Reg := emitArith fun d n => if n = 0 then none else some (d / n)
def emitMod : Reg → Reg → Option Reg := emitArith fun d n => if n = 0 then none else some (d % n)
def emitSdiv : Reg → Reg → Option Reg :=
  emitArith fun d n => if signedDefined d n then some (d.sdiv n) else none
def emitSmod : Reg → Reg → Option Reg :=
  emitArith fun d n => if signedDefined d n then some (d.srem n) else none
def emitAnd : Reg → Reg → Option Reg := emitArith fun lhs rhs => some (lhs &&& rhs)
def emitOr : Reg → Reg → Option Reg := emitArith fun lhs rhs => some (lhs ||| rhs)
def emitXor : Reg → Reg → Option Reg := emitArith fun lhs rhs => some (lhs ^^^ rhs)
def emitLt : Reg → Reg → Option Reg := emitCompare fun lhs rhs => lhs.ult rhs
def emitGt : Reg → Reg → Option Reg := emitCompare fun lhs rhs => rhs.ult lhs
def emitSlt : Reg → Reg → Option Reg := emitCompare fun lhs rhs => lhs.slt rhs
def emitSgt : Reg → Reg → Option Reg := emitCompare fun lhs rhs => rhs.slt lhs
def emitEq : Reg → Reg → Option Reg := emitCompare fun lhs rhs => lhs == rhs

/-- `MUL`. The second `CreateZExt` reads `lhs`, which the first has just replaced. -/
def emitMul (lhs rhs : Reg) : Option Reg :=
  if lhs.width ≠ rhs.width then
    let lhs := lhs.zext
    let rhs := lhs.zext
    createBinOp (fun lhs rhs => some (lhs * rhs)) lhs rhs
  else createBinOp (fun lhs rhs => some (lhs * rhs)) lhs rhs

/-- `NOT`: one operand, at its own type. -/
def emitNot (value : Reg) : Option Reg := some ⟨value.width, ~~~value.val⟩

/-- `ISZERO`: the comparison is with a zero of the operand's type. -/
def emitIszero (top : Reg) : Option Reg := some (Reg.zext ⟨.i1, BitVec.ofBool (top.val == 0)⟩)

/-- The register that the code for `op` pushes, given its operands in the order of the pops. -/
def emitOpcode : Instruction → List Reg → Option Reg
  | .ADD, [lhs, rhs] => emitAdd lhs rhs
  | .SUB, [lhs, rhs] => emitSub lhs rhs
  | .MUL, [lhs, rhs] => emitMul lhs rhs
  | .DIV, [d, n] => emitDiv d n
  | .SDIV, [d, n] => emitSdiv d n
  | .MOD, [d, n] => emitMod d n
  | .SMOD, [d, n] => emitSmod d n
  | .LT, [lhs, rhs] => emitLt lhs rhs
  | .GT, [lhs, rhs] => emitGt lhs rhs
  | .SLT, [lhs, rhs] => emitSlt lhs rhs
  | .SGT, [lhs, rhs] => emitSgt lhs rhs
  | .EQ, [lhs, rhs] => emitEq lhs rhs
  | .AND, [lhs, rhs] => emitAnd lhs rhs
  | .OR, [lhs, rhs] => emitOr lhs rhs
  | .XOR, [lhs, rhs] => emitXor lhs rhs
  | .NOT, [value] => emitNot value
  | .ISZERO, [top] => emitIszero top
  | _, _ => none

/-! ## §3 — the EVM's words. -/

/-- A truth value on the stack. -/
def boolWord (b : Bool) : Word := if b then 1 else 0

/-- The word the EVM pushes, for the operands from the top of the stack down. -/
def evmWord : Instruction → List Word → Word
  | .ADD, [a, b] => a + b
  | .SUB, [a, b] => a - b
  | .MUL, [a, b] => a * b
  | .DIV, [a, b] => if b = 0 then 0 else a / b
  | .SDIV, [a, b] => if b = 0 then 0 else a.sdiv b
  | .MOD, [a, b] => if b = 0 then 0 else a % b
  | .SMOD, [a, b] => if b = 0 then 0 else a.srem b
  | .LT, [a, b] => boolWord (a.toNat < b.toNat)
  | .GT, [a, b] => boolWord (b.toNat < a.toNat)
  | .SLT, [a, b] => boolWord (a.toInt < b.toInt)
  | .SGT, [a, b] => boolWord (b.toInt < a.toInt)
  | .EQ, [a, b] => boolWord (a = b)
  | .AND, [a, b] => a &&& b
  | .OR, [a, b] => a ||| b
  | .XOR, [a, b] => a ^^^ b
  | .NOT, [a] => ~~~a
  | .ISZERO, [a] => boolWord (a = 0)
  | _, _ => 0

/-- **The emitted code pushes the EVM's word**: it is well typed, its result is defined, and the
register denotes the word. -/
def PushesEvmWord (op : Instruction) (args : List Reg) : Prop :=
  (emitOpcode op args).map Reg.denote = some (evmWord op (args.map Reg.denote))

instance (op : Instruction) (args : List Reg) : Decidable (PushesEvmWord op args) :=
  inferInstanceAs (Decidable (_ = _))

/-! ## §4 — the two paths. -/

theorem Reg.denote_zext (r : Reg) : r.zext.denote = r.denote := by
  simp [Reg.zext, Reg.denote, Width.bits]

theorem denote_word (v : Word) : Reg.denote ⟨.i256, v⟩ = v := by
  simp [Reg.denote, Width.bits]

theorem createBinOp_same (f : {n : Nat} → BitVec n → BitVec n → Option (BitVec n)) (w : Width)
    (x y : BitVec w.bits) : createBinOp f ⟨w, x⟩ ⟨w, y⟩ = (f x y).map (Reg.mk w) := by
  simp [createBinOp]

theorem createICmp_same (p : {n : Nat} → BitVec n → BitVec n → Bool) (w : Width)
    (x y : BitVec w.bits) : createICmp p ⟨w, x⟩ ⟨w, y⟩ = some ⟨.i1, BitVec.ofBool (p x y)⟩ := by
  simp [createICmp]

/-- Of two extended registers, the instruction sees the denoted words. -/
theorem createBinOp_zext (f : {n : Nat} → BitVec n → BitVec n → Option (BitVec n)) (lhs rhs : Reg) :
    (createBinOp f lhs.zext rhs.zext).map Reg.denote = f lhs.denote rhs.denote := by
  have hop : createBinOp f lhs.zext rhs.zext = (f lhs.denote rhs.denote).map (Reg.mk .i256) :=
    createBinOp_same f .i256 lhs.denote rhs.denote
  rw [hop]
  cases f lhs.denote rhs.denote with
  | none => rfl
  | some v => exact congrArg some (denote_word v)

theorem createICmp_zext (p : {n : Nat} → BitVec n → BitVec n → Bool) (lhs rhs : Reg) :
    createICmp p lhs.zext rhs.zext = some ⟨.i1, BitVec.ofBool (p lhs.denote rhs.denote)⟩ :=
  createICmp_same p .i256 lhs.denote rhs.denote

/-- An extended `i1` is a truth value. -/
theorem denote_ofBool (b : Bool) : (Reg.zext ⟨.i1, BitVec.ofBool b⟩).denote = boolWord b := by
  cases b <;> rfl

theorem emitArith_same (f : {n : Nat} → BitVec n → BitVec n → Option (BitVec n)) (w : Width)
    (x y : BitVec w.bits) : emitArith f ⟨w, x⟩ ⟨w, y⟩ = (f x y).map (Reg.mk w) := by
  rw [emitArith, sameType, if_neg (not_not.mpr rfl)]
  exact createBinOp_same f w x y

theorem emitCompare_same (p : {n : Nat} → BitVec n → BitVec n → Bool) (w : Width)
    (x y : BitVec w.bits) :
    (emitCompare p ⟨w, x⟩ ⟨w, y⟩).map Reg.denote = some (boolWord (p x y)) := by
  rw [emitCompare, sameType, if_neg (not_not.mpr rfl)]
  dsimp only
  rw [createICmp_same, Option.map_some, Option.map_some, denote_ofBool]

/-- On operands of two types the instruction works on the denoted words. -/
theorem emitArith_mixed (f : {n : Nat} → BitVec n → BitVec n → Option (BitVec n)) {lhs rhs : Reg}
    (h : lhs.width ≠ rhs.width) :
    (emitArith f lhs rhs).map Reg.denote = f lhs.denote rhs.denote := by
  rw [emitArith, sameType, if_pos h]
  exact createBinOp_zext f lhs rhs

theorem emitCompare_mixed (p : {n : Nat} → BitVec n → BitVec n → Bool) {lhs rhs : Reg}
    (h : lhs.width ≠ rhs.width) :
    (emitCompare p lhs rhs).map Reg.denote = some (boolWord (p lhs.denote rhs.denote)) := by
  rw [emitCompare, sameType, if_pos h]
  dsimp only
  rw [createICmp_zext, Option.map_some, Option.map_some, denote_ofBool]

/-- `MUL` on operands of two types squares the first. -/
theorem emitMul_mixed {lhs rhs : Reg} (h : lhs.width ≠ rhs.width) :
    (emitMul lhs rhs).map Reg.denote = some (lhs.denote * lhs.denote) := by
  rw [emitMul, if_pos h]
  dsimp only
  rw [createBinOp_zext, Reg.denote_zext]

theorem createBinOp_width {f : {n : Nat} → BitVec n → BitVec n → Option (BitVec n)}
    {lhs rhs r : Reg} (h : createBinOp f lhs rhs = some r) : r.width = lhs.width := by
  unfold createBinOp at h
  split at h
  · obtain ⟨v, -, rfl⟩ := Option.map_eq_some_iff.mp h
    rfl
  · cases h

theorem emitArith_width {f : {n : Nat} → BitVec n → BitVec n → Option (BitVec n)} {lhs rhs r : Reg}
    (h : emitArith f lhs rhs = some r) :
    r.width = if lhs.width = rhs.width then lhs.width else .i256 := by
  rw [createBinOp_width h, sameType]
  by_cases hw : lhs.width = rhs.width
  · rw [if_neg (not_not.mpr hw), if_pos hw]
  · rw [if_pos hw, if_neg hw]
    rfl

theorem emitMul_width {lhs rhs r : Reg} (h : emitMul lhs rhs = some r) :
    r.width = if lhs.width = rhs.width then lhs.width else .i256 := by
  unfold emitMul at h
  by_cases hw : lhs.width = rhs.width
  · rw [if_neg (not_not.mpr hw)] at h
    rw [if_pos hw]
    exact createBinOp_width h
  · rw [if_pos hw] at h
    rw [if_neg hw]
    exact createBinOp_width h

theorem emitCompare_width {p : {n : Nat} → BitVec n → BitVec n → Bool} {lhs rhs r : Reg}
    (h : emitCompare p lhs rhs = some r) : r.width = .i256 := by
  obtain ⟨c, -, rfl⟩ := Option.map_eq_some_iff.mp h
  rfl

/-- **The type that `compileBasicBlock` gives a result** is the type of the register the code
computes. -/
theorem emitOpcode_width {op : Instruction} {args : List Reg} {r : Reg}
    (h : emitOpcode op args = some r) {vals : List Value}
    (hv : vals.map Value.width = args.map Reg.width) : r.width = resultWidth op vals := by
  have hlen : vals.length = args.length := by simpa using congrArg List.length hv
  rcases args with _ | ⟨lhs, _ | ⟨rhs, _ | ⟨_, _⟩⟩⟩
  · cases op <;> cases h
  · obtain ⟨a, rfl⟩ := List.length_eq_one_iff.mp hlen
    have ha : a.width = lhs.width := by simpa using hv
    cases op
    case NOT => cases h; exact ha.symm
    case ISZERO => cases h; rfl
    all_goals cases h
  · obtain ⟨a, b, rfl⟩ := List.length_eq_two.mp hlen
    obtain ⟨ha, hb⟩ : a.width = lhs.width ∧ b.width = rhs.width := by simpa using hv
    cases op
    case ADD | SUB | DIV | SDIV | MOD | SMOD | AND | OR | XOR =>
      simp only [resultWidth, ha, hb]
      simp only [emitOpcode, emitAdd, emitSub, emitDiv, emitSdiv, emitMod, emitSmod,
        emitAnd, emitOr, emitXor] at h
      exact emitArith_width h
    case MUL =>
      simp only [resultWidth, ha, hb]
      exact emitMul_width h
    case LT | GT | SLT | SGT | EQ =>
      simp only [emitOpcode, emitLt, emitGt, emitSlt, emitSgt, emitEq] at h
      exact emitCompare_width h
    all_goals cases h
  · cases op <;> cases h

/-! ## §5 — operands of two widths. -/

/-- The binary opcodes that widen their operands. -/
def wideningOpcodes : List Instruction :=
  [.ADD, .SUB, .MUL, .DIV, .MOD, .LT, .GT, .SLT, .SGT, .EQ, .AND, .OR, .XOR]

/-- Multiplication by `x` modulo `m` tells two numbers apart up to `m / gcd m x`. -/
theorem mul_modEq_mul_iff {m x y z : Nat} (hm : 0 < m) :
    x * y ≡ x * z [MOD m] ↔ y ≡ z [MOD m / Nat.gcd m x] := by
  constructor
  · exact Nat.ModEq.cancel_left_div_gcd hm
  · intro h
    obtain ⟨q, hq⟩ := Nat.gcd_dvd_right m x
    have hg : Nat.gcd m x * y ≡ Nat.gcd m x * z [MOD m] := by
      have h := h.mul_left' (Nat.gcd m x)
      rwa [Nat.mul_div_cancel' (Nat.gcd_dvd_left m x)] at h
    calc x * y
      = q * (Nat.gcd m x * y) := by conv_lhs => rw [hq]; rw [mul_comm (Nat.gcd m x), mul_assoc]
      _ ≡ q * (Nat.gcd m x * z) [MOD m] := hg.mul_left q
      _ = x * z := by conv_rhs => rw [hq]; rw [mul_comm (Nat.gcd m x), mul_assoc]

theorem mul_self_eq_mul_iff (x y : Word) :
    x * x = x * y ↔ x.toNat ≡ y.toNat [MOD 2 ^ 256 / Nat.gcd (2 ^ 256) x.toNat] := by
  rw [← mul_modEq_mul_iff (Nat.two_pow_pos 256), ← BitVec.toNat_inj, BitVec.toNat_mul,
    BitVec.toNat_mul]
  rfl

/-- **Operands of two widths.** The emitted code pushes the EVM's word for every widening opcode,
`MUL` apart. `MUL` squares its first operand `x`, which is the product exactly when the two operands
agree modulo `2^256 / gcd(2^256, x)`. -/
theorem mixed_width_result_iff (op : Instruction) (hop : op ∈ wideningOpcodes) (lhs rhs : Reg)
    (hw : lhs.width ≠ rhs.width) (hz : op = .DIV ∨ op = .MOD → rhs.denote ≠ 0) :
    PushesEvmWord op [lhs, rhs] ↔ (op = .MUL → lhs.denote.toNat ≡ rhs.denote.toNat
      [MOD 2 ^ 256 / Nat.gcd (2 ^ 256) lhs.denote.toNat]) := by
  simp only [wideningOpcodes, List.mem_cons, List.not_mem_nil, or_false] at hop
  unfold PushesEvmWord
  rcases hop with rfl | rfl | rfl | rfl | rfl | rfl | rfl | rfl | rfl | rfl | rfl | rfl | rfl
  all_goals simp only [emitOpcode, evmWord, List.map_cons, List.map_nil]
  case inr.inr.inl =>
    rw [emitMul_mixed hw]
    simp [mul_self_eq_mul_iff]
  all_goals
    refine iff_of_true ?_ nofun
  · exact emitArith_mixed _ hw
  · exact emitArith_mixed _ hw
  · have hz := hz (by decide)
    exact (emitArith_mixed _ hw).trans (by rw [if_neg hz, if_neg hz])
  · have hz := hz (by decide)
    exact (emitArith_mixed _ hw).trans (by rw [if_neg hz, if_neg hz])
  · exact (emitCompare_mixed _ hw).trans (by rfl)
  · exact (emitCompare_mixed _ hw).trans (by rfl)
  · exact (emitCompare_mixed _ hw).trans (by rfl)
  · exact (emitCompare_mixed _ hw).trans (by rfl)
  · exact (emitCompare_mixed _ hw).trans (by rfl)
  · exact emitArith_mixed _ hw
  · exact emitArith_mixed _ hw
  · exact emitArith_mixed _ hw

/-- `SUB` of a 256-bit 9 from a 128-bit 7 wraps at 256 bits, as in the EVM. -/
theorem mixed_width_result_iff_sub : PushesEvmWord .SUB [⟨.i128, 7#128⟩, ⟨.i256, 9#256⟩] :=
  (mixed_width_result_iff .SUB (by decide) _ _ (by decide) (by decide)).mpr (by decide)

/-- The product of a 32-bit 3 and a 256-bit 5 comes out as 9. -/
theorem mixed_width_mul_squares :
    (emitOpcode .MUL [⟨.i32, 3#32⟩, ⟨.i256, 5#256⟩]).map Reg.denote = some 9 ∧
      evmWord .MUL [3, 5] = 15 ∧ ¬ PushesEvmWord .MUL [⟨.i32, 3#32⟩, ⟨.i256, 5#256⟩] := by
  decide

/-! ## §6 — operands of one narrow width. -/

section Narrow

variable {n : Nat} (hn : n ≤ 128) (x y : BitVec n)

include hn

theorem two_pow_le_half : 2 ^ n ≤ 2 ^ 128 := Nat.pow_le_pow_right (by decide) hn

/-- A narrow register and its word are one number. -/
theorem toNat_setWidth_narrow : (x.setWidth 256).toNat = x.toNat := by
  rw [BitVec.toNat_setWidth]
  have hx := x.isLt
  have hpow := two_pow_le_half hn
  exact Nat.mod_eq_of_lt (by omega)

theorem msb_setWidth_narrow : (x.setWidth 256).msb = false := by
  rw [BitVec.msb_eq_false_iff_two_mul_lt, toNat_setWidth_narrow hn]
  have hx := x.isLt
  have hpow := two_pow_le_half hn
  omega

theorem add_narrow_iff :
    (x + y).setWidth 256 = x.setWidth 256 + y.setWidth 256 ↔ x.toNat + y.toNat < 2 ^ n := by
  have hx := x.isLt
  have hy := y.isLt
  have hpow := two_pow_le_half hn
  rw [← BitVec.toNat_inj, BitVec.toNat_add, toNat_setWidth_narrow hn, toNat_setWidth_narrow hn,
    toNat_setWidth_narrow hn, BitVec.toNat_add,
    Nat.mod_eq_of_lt (by omega : x.toNat + y.toNat < 2 ^ 256)]
  exact Nat.mod_eq_iff_lt (Nat.two_pow_pos n).ne'

theorem sub_narrow_iff :
    (x - y).setWidth 256 = x.setWidth 256 - y.setWidth 256 ↔ y.toNat ≤ x.toNat := by
  have hx := x.isLt
  have hy := y.isLt
  have hpow := two_pow_le_half hn
  rw [← BitVec.toNat_inj, BitVec.toNat_sub, toNat_setWidth_narrow hn, toNat_setWidth_narrow hn,
    toNat_setWidth_narrow hn, BitVec.toNat_sub]
  by_cases hle : y.toNat ≤ x.toNat
  · refine iff_of_true ?_ hle
    rw [show 2 ^ n - y.toNat + x.toNat = x.toNat - y.toNat + 2 ^ n by omega,
      show 2 ^ 256 - y.toNat + x.toNat = x.toNat - y.toNat + 2 ^ 256 by omega,
      Nat.add_mod_right, Nat.add_mod_right, Nat.mod_eq_of_lt (by omega),
      Nat.mod_eq_of_lt (by omega)]
  · refine iff_of_false ?_ hle
    rw [Nat.mod_eq_of_lt (by omega), Nat.mod_eq_of_lt (by omega)]
    omega

theorem mul_narrow_iff :
    (x * y).setWidth 256 = x.setWidth 256 * y.setWidth 256 ↔ x.toNat * y.toNat < 2 ^ n := by
  have hx := x.isLt
  have hy := y.isLt
  have hpow := two_pow_le_half hn
  have hprod : x.toNat * y.toNat < 2 ^ 256 := by
    calc x.toNat * y.toNat < 2 ^ n * 2 ^ n := Nat.mul_lt_mul'' hx hy
      _ ≤ 2 ^ 128 * 2 ^ 128 := Nat.mul_le_mul hpow hpow
      _ = 2 ^ 256 := by rw [← Nat.pow_add]
  rw [← BitVec.toNat_inj, BitVec.toNat_mul, toNat_setWidth_narrow hn, toNat_setWidth_narrow hn,
    toNat_setWidth_narrow hn, BitVec.toNat_mul, Nat.mod_eq_of_lt hprod]
  exact Nat.mod_eq_iff_lt (Nat.two_pow_pos n).ne'

/-- The complement fills a narrow register only. -/
theorem not_narrow_ne : (~~~x).setWidth 256 ≠ ~~~(x.setWidth 256) := by
  have hx := x.isLt
  have hpow := two_pow_le_half hn
  rw [Ne, ← BitVec.toNat_inj, BitVec.toNat_not, toNat_setWidth_narrow hn, toNat_setWidth_narrow hn,
    BitVec.toNat_not]
  omega

/-- The signed order of narrow registers is the order of their words when neither, or both, have the
narrow sign bit. -/
theorem slt_narrow_iff :
    x.slt y = decide ((x.setWidth 256).toInt < (y.setWidth 256).toInt) ↔ x.msb = y.msb := by
  have hwide : decide ((x.setWidth 256).toInt < (y.setWidth 256).toInt) = x.ult y := by
    rw [BitVec.toInt_eq_toNat_of_msb (msb_setWidth_narrow hn x),
      BitVec.toInt_eq_toNat_of_msb (msb_setWidth_narrow hn y), toNat_setWidth_narrow hn,
      toNat_setWidth_narrow hn, BitVec.ult]
    exact decide_eq_decide.mpr (by omega)
  rw [hwide, BitVec.slt_eq_ult]
  cases x.msb <;> cases y.msb <;> cases x.ult y <;> decide

end Narrow

/-- The opcodes whose result leaves a narrow register, or reads its sign. -/
def narrowOpcodes : List Instruction := [.ADD, .SUB, .MUL, .NOT, .SLT, .SGT]

/-- When the narrow instruction agrees with the EVM's. -/
def FitsNarrow {n : Nat} (op : Instruction) (x y : BitVec n) : Prop :=
  match op with
  | .ADD => x.toNat + y.toNat < 2 ^ n
  | .SUB => y.toNat ≤ x.toNat
  | .MUL => x.toNat * y.toNat < 2 ^ n
  | .NOT => False
  | .SLT | .SGT => x.msb = y.msb
  | _ => True

/-- The result is the same word whether the operands stay in their registers or go through `mstk`,
where `GlobalStack::push` extends them. -/
def SpillInvariant (op : Instruction) (args : List Reg) : Prop :=
  (emitOpcode op args).map Reg.denote = (emitOpcode op (args.map Reg.zext)).map Reg.denote

theorem boolWord_inj {a b : Bool} : boolWord a = boolWord b ↔ a = b := by
  cases a <;> cases b <;> decide

theorem Width.bits_le_of_narrow {w : Width} (hw : w = .i32 ∨ w = .i128) : w.bits ≤ 128 := by
  rcases hw with rfl | rfl <;> decide

theorem pushesEvmWord_narrow_iff {op : Instruction} (hop : op ∈ narrowOpcodes) {w : Width}
    (hn : w.bits ≤ 128) (x y : BitVec w.bits) :
    PushesEvmWord op ([⟨w, x⟩, ⟨w, y⟩].take op.stkOut) ↔ FitsNarrow op x y := by
  simp only [narrowOpcodes, List.mem_cons, List.not_mem_nil, or_false] at hop
  unfold PushesEvmWord
  rcases hop with rfl | rfl | rfl | rfl | rfl | rfl
  · show (emitAdd ⟨w, x⟩ ⟨w, y⟩).map Reg.denote = _ ↔ _
    rw [emitAdd, emitArith_same]
    exact Option.some_inj.trans (add_narrow_iff hn x y)
  · show (emitSub ⟨w, x⟩ ⟨w, y⟩).map Reg.denote = _ ↔ _
    rw [emitSub, emitArith_same]
    exact Option.some_inj.trans (sub_narrow_iff hn x y)
  · show (emitMul ⟨w, x⟩ ⟨w, y⟩).map Reg.denote = _ ↔ _
    rw [emitMul, if_neg (not_not.mpr rfl), createBinOp_same]
    exact Option.some_inj.trans (mul_narrow_iff hn x y)
  · show (emitNot ⟨w, x⟩).map Reg.denote = _ ↔ _
    exact Option.some_inj.trans (iff_of_false (not_narrow_ne hn x) id)
  · show (emitSlt ⟨w, x⟩ ⟨w, y⟩).map Reg.denote = _ ↔ _
    rw [emitSlt, emitCompare_same]
    exact Option.some_inj.trans (boolWord_inj.trans (slt_narrow_iff hn x y))
  · show (emitSgt ⟨w, x⟩ ⟨w, y⟩).map Reg.denote = _ ↔ _
    rw [emitSgt, emitCompare_same]
    exact Option.some_inj.trans (boolWord_inj.trans ((slt_narrow_iff hn y x).trans eq_comm))

theorem sameType_zext (lhs rhs : Reg) : sameType lhs.zext rhs.zext = (lhs.zext, rhs.zext) :=
  if_neg (not_not.mpr rfl)

/-- On 256-bit registers every one of them is exact. -/
theorem pushesEvmWord_zext {op : Instruction} (hop : op ∈ narrowOpcodes) (lhs rhs : Reg) :
    PushesEvmWord op (([lhs, rhs].take op.stkOut).map Reg.zext) := by
  simp only [narrowOpcodes, List.mem_cons, List.not_mem_nil, or_false] at hop
  unfold PushesEvmWord
  rcases hop with rfl | rfl | rfl | rfl | rfl | rfl
  · show (emitAdd lhs.zext rhs.zext).map Reg.denote = some (lhs.zext.denote + rhs.zext.denote)
    rw [emitAdd, emitArith, sameType_zext, createBinOp_zext, lhs.denote_zext, rhs.denote_zext]
  · show (emitSub lhs.zext rhs.zext).map Reg.denote = some (lhs.zext.denote - rhs.zext.denote)
    rw [emitSub, emitArith, sameType_zext, createBinOp_zext, lhs.denote_zext, rhs.denote_zext]
  · show (emitMul lhs.zext rhs.zext).map Reg.denote = some (lhs.zext.denote * rhs.zext.denote)
    have hty : ¬ lhs.zext.width ≠ rhs.zext.width := not_not.mpr rfl
    rw [emitMul, if_neg hty, createBinOp_zext, lhs.denote_zext, rhs.denote_zext]
  · show some (Reg.denote ⟨.i256, ~~~lhs.denote⟩) = some (~~~lhs.zext.denote)
    rw [lhs.denote_zext]
    exact congrArg some (denote_word _)
  · show (emitSlt lhs.zext rhs.zext).map Reg.denote = _
    rw [emitSlt, emitCompare, sameType_zext, createICmp_zext, Option.map_some, Option.map_some,
      denote_ofBool]
    show some (boolWord (lhs.denote.slt rhs.denote)) =
      some (boolWord (decide (lhs.zext.denote.toInt < rhs.zext.denote.toInt)))
    rw [lhs.denote_zext, rhs.denote_zext]
    rfl
  · show (emitSgt lhs.zext rhs.zext).map Reg.denote = _
    rw [emitSgt, emitCompare, sameType_zext, createICmp_zext, Option.map_some, Option.map_some,
      denote_ofBool]
    show some (boolWord (rhs.denote.slt lhs.denote)) =
      some (boolWord (decide (rhs.zext.denote.toInt < lhs.zext.denote.toInt)))
    rw [lhs.denote_zext, rhs.denote_zext]
    rfl

/-- Going through `mstk` gives the EVM's word, so a result that does not depend on it is that
word. -/
theorem spillInvariant_iff {op : Instruction} (hop : op ∈ narrowOpcodes) (lhs rhs : Reg) :
    SpillInvariant op ([lhs, rhs].take op.stkOut) ↔
    PushesEvmWord op ([lhs, rhs].take op.stkOut) := by
  have hzext : (([lhs, rhs].take op.stkOut).map Reg.zext).map Reg.denote =
      ([lhs, rhs].take op.stkOut).map Reg.denote := by
    rw [List.map_map]
    exact List.map_congr_left fun r _ => r.denote_zext
  have hwide := pushesEvmWord_zext hop lhs rhs
  rw [PushesEvmWord, hzext] at hwide
  rw [SpillInvariant, PushesEvmWord, hwide]

/-- **Operands of one narrow width.** The emitted code pushes the EVM's word, and pushes the same
word as after a spill of its operands, exactly when the instruction fits the register: no carry out
of `ADD`, no borrow in `SUB`, no overflow of `MUL`, equal sign bits in `SLT` and `SGT`; for `NOT`
never. -/
theorem narrow_result_iff (op : Instruction) (hop : op ∈ narrowOpcodes) (w : Width)
    (hw : w = .i32 ∨ w = .i128) (x y : BitVec w.bits) :
    (PushesEvmWord op ([⟨w, x⟩, ⟨w, y⟩].take op.stkOut) ↔ FitsNarrow op x y) ∧
      (SpillInvariant op ([⟨w, x⟩, ⟨w, y⟩].take op.stkOut) ↔ FitsNarrow op x y) := by
  have hevm := pushesEvmWord_narrow_iff hop (Width.bits_le_of_narrow hw) x y
  exact ⟨hevm, (spillInvariant_iff hop _ _).trans hevm⟩

/-- `CALLDATASIZE - CALLDATASIZE`: seven minus seven fits. -/
theorem narrow_result_iff_sub :
    PushesEvmWord .SUB [⟨.i32, 7#32⟩, ⟨.i32, 7#32⟩] ∧
    SpillInvariant .SUB [⟨.i32, 7#32⟩, ⟨.i32, 7#32⟩] :=
  have h := narrow_result_iff .SUB (by decide) .i32 (.inl rfl) 7#32 7#32
  ⟨h.1.mpr (by show _ ≤ _; decide), h.2.mpr (by show _ ≤ _; decide)⟩

/-- `NOT` of a zero `CALLVALUE` has 128 ones, and 256 after a spill. -/
theorem narrow_not_zero :
    (emitOpcode .NOT [⟨.i128, 0#128⟩]).map Reg.denote = some (BitVec.ofNat 256 (2 ^ 128 - 1)) ∧
      evmWord .NOT [0] = BitVec.ofNat 256 (2 ^ 256 - 1) ∧
      ¬ PushesEvmWord .NOT [⟨.i128, 0#128⟩] := by
  decide

end EvmTrans
