/-
# `EvmTrans.Lib.SmtTerm` — terms of bit-vectors and arrays, and a solver's interface to them.

A `Term` is indexed by its sort, so an ill-sorted term cannot be built; `ν` are the names of the
free constants. An `Expr` is a term whose sort is known at run time only, as the handles of a
solver's interface are: the operations on it return `none` where the solver reports a sort error.

A `Model` is a meaning of the free constants and `Term.eval` the meaning of a term in it. What a
solver's rewriter does to a term is known by its meaning only: `Simplifier`.
-/
import Mathlib.Logic.Function.Basic

namespace EvmTrans.Lib

/-! ## §1 — sorts and terms. -/

/-- Truth values, bit-vectors of a width, and arrays of bit-vectors over bit-vectors. -/
inductive Srt where
  | bool
  | bv (w : Nat)
  | array (i e : Nat)
  deriving DecidableEq

abbrev Srt.Val : Srt → Type
  | .bool => Bool
  | .bv w => BitVec w
  | .array i e => BitVec i → BitVec e

inductive BinOp where
  | add | sub | mul | udiv | sdiv | urem | srem | and | or | xor | shl | lshr | ashr
  deriving DecidableEq, Repr

/-- A division by zero has the value that the theory of bit-vectors gives it. -/
def BinOp.eval {w : Nat} (x y : BitVec w) : BinOp → BitVec w
  | .add => x + y
  | .sub => x - y
  | .mul => x * y
  | .udiv => x.smtUDiv y
  | .sdiv => x.smtSDiv y
  | .urem => x % y
  | .srem => x.srem y
  | .and => x &&& y
  | .or => x ||| y
  | .xor => x ^^^ y
  | .shl => x <<< y
  | .lshr => x >>> y
  | .ashr => x.sshiftRight' y

inductive CmpOp where
  | eq | ne | ugt | uge | ult | ule | sgt | sge | slt | sle
  deriving DecidableEq, Repr

def CmpOp.eval {w : Nat} (x y : BitVec w) : CmpOp → Bool
  | .eq => x == y
  | .ne => x != y
  | .ugt => y.ult x
  | .uge => y.ule x
  | .ult => x.ult y
  | .ule => x.ule y
  | .sgt => y.slt x
  | .sge => y.sle x
  | .slt => x.slt y
  | .sle => x.sle y

inductive Term (ν : Type) : Srt → Type where
  | boolVal (b : Bool) : Term ν .bool
  | bvVal {w : Nat} (x : BitVec w) : Term ν (.bv w)
  | const (n : ν) (s : Srt) : Term ν s
  | cmp (op : CmpOp) {w : Nat} (a b : Term ν (.bv w)) : Term ν .bool
  | bin (op : BinOp) {w : Nat} (a b : Term ν (.bv w)) : Term ν (.bv w)
  | ite {w : Nat} (c : Term ν .bool) (a b : Term ν (.bv w)) : Term ν (.bv w)
  | extract (lo len : Nat) {w : Nat} (a : Term ν (.bv w)) : Term ν (.bv len)
  | concat {v w : Nat} (a : Term ν (.bv v)) (b : Term ν (.bv w)) : Term ν (.bv (v + w))
  | zext (n : Nat) {w : Nat} (a : Term ν (.bv w)) : Term ν (.bv (w + n))
  | sext (n : Nat) {w : Nat} (a : Term ν (.bv w)) : Term ν (.bv (w + n))
  | select {i e : Nat} (m : Term ν (.array i e)) (x : Term ν (.bv i)) : Term ν (.bv e)
  | store {i e : Nat} (m : Term ν (.array i e)) (x : Term ν (.bv i)) (v : Term ν (.bv e)) :
      Term ν (.array i e)

variable {ν : Type}

/-- A constant is a name with a sort: one name may stand for constants of several sorts. -/
def Model (ν : Type) : Type := ν → (s : Srt) → s.Val

/-- Every free constant is zero. -/
def Model.zeros {ν : Type} : Model ν
  | _, .bool => false
  | _, .bv _ => 0
  | _, .array _ _ => fun _ => 0

def Term.eval (M : Model ν) : {s : Srt} → Term ν s → s.Val
  | _, .boolVal b => b
  | _, .bvVal x => x
  | _, .const n s => M n s
  | _, .cmp op a b => op.eval (a.eval M) (b.eval M)
  | _, .bin op a b => op.eval (a.eval M) (b.eval M)
  | _, .ite c a b => if c.eval M then a.eval M else b.eval M
  | _, .extract lo len a => (a.eval M).extractLsb' lo len
  | _, .concat a b => a.eval M ++ b.eval M
  | _, .zext _ a => (a.eval M).setWidth _
  | _, .sext _ a => (a.eval M).signExtend _
  | _, .select m x => m.eval M (x.eval M)
  | _, .store m x v => Function.update (m.eval M) (x.eval M) (v.eval M)

/-- Whether a constant of this name occurs, as it would in the term's text. -/
def Term.mentions [DecidableEq ν] (n : ν) : {s : Srt} → Term ν s → Bool
  | _, .boolVal _ | _, .bvVal _ => false
  | _, .const n' _ => n' == n
  | _, .cmp _ a b | _, .bin _ a b | _, .concat a b | _, .select a b => a.mentions n || b.mentions n
  | _, .ite a b c | _, .store a b c => a.mentions n || b.mentions n || c.mentions n
  | _, .extract _ _ a | _, .zext _ a | _, .sext _ a => a.mentions n

/-- The number of operations in a term. -/
def Term.size : {s : Srt} → Term ν s → Nat
  | _, .boolVal _ | _, .bvVal _ | _, .const _ _ => 1
  | _, .cmp _ a b | _, .bin _ a b | _, .concat a b | _, .select a b => a.size + b.size + 1
  | _, .ite a b c | _, .store a b c => a.size + b.size + c.size + 1
  | _, .extract _ _ a | _, .zext _ a | _, .sext _ a => a.size + 1

/-- A rewriter of terms that keeps what they mean. -/
structure Simplifier (ν : Type) where
  simplify : {s : Srt} → Term ν s → Term ν s
  eval_simplify : ∀ {s : Srt} (t : Term ν s) (M : Model ν), (simplify t).eval M = t.eval M

/-- No rewriting at all. -/
def Simplifier.none (ν : Type) : Simplifier ν where
  simplify t := t
  eval_simplify _ _ := rfl

/-! ## §2 — expressions. -/

/-- A term of any sort. -/
structure Expr (ν : Type) where
  sort : Srt
  term : Term ν sort

namespace Expr

def ofBv {w : Nat} (t : Term ν (.bv w)) : Expr ν := ⟨.bv w, t⟩

def bv? : Expr ν → Option ((w : Nat) × Term ν (.bv w))
  | ⟨.bv w, t⟩ => some ⟨w, t⟩
  | _ => none

/-- The term of a bit-vector of width `w`. -/
def asBv (w : Nat) : Expr ν → Option (Term ν (.bv w))
  | ⟨.bv w', t⟩ => if h : w' = w then some (h ▸ t) else none
  | _ => none

/-- The width of a bit-vector; there are none of width 0. -/
def bvSize : Expr ν → Option Nat
  | ⟨.bv (w + 1), _⟩ => some (w + 1)
  | _ => none

/-- Whether the expression is the number `n`, and not only equal to it. -/
def isNumeral (n : Nat) : Expr ν → Bool
  | ⟨.bv _, .bvVal x⟩ => x.toNat == n
  | _ => false

def simplify (z : Simplifier ν) (e : Expr ν) : Expr ν := ⟨e.sort, z.simplify e.term⟩

def bin (op : BinOp) (a b : Expr ν) : Option (Expr ν) := do
  let ⟨w, x⟩ ← a.bv?
  let y ← b.asBv w
  return ofBv (.bin op x y)

/-- A comparison as a bit. -/
def cmpBit (op : CmpOp) (a b : Expr ν) : Option (Expr ν) := do
  let ⟨w, x⟩ ← a.bv?
  let y ← b.asBv w
  return ofBv (.ite (.cmp op x y) (.bvVal 1#1) (.bvVal 0#1))

/-- A choice by the value of a bit. -/
def iteBit (c a b : Expr ν) : Option (Expr ν) := do
  let c ← c.asBv 1
  let ⟨w, x⟩ ← a.bv?
  let y ← b.asBv w
  return ofBv (.ite (.cmp .eq c (.bvVal 1#1)) x y)

/-- The bits `hi` to `lo`, which have to be bits of the vector. -/
def extract (hi lo : Nat) (a : Expr ν) : Option (Expr ν) := do
  let ⟨w, x⟩ ← a.bv?
  if lo ≤ hi ∧ hi < w then return ofBv (.extract lo (hi + 1 - lo) x) else none

def concat (a b : Expr ν) : Option (Expr ν) := do
  let ⟨_, x⟩ ← a.bv?
  let ⟨_, y⟩ ← b.bv?
  return ofBv (.concat x y)

/-- `a + n`. The number is an `unsigned` that becomes an `int` on the way. -/
def addInt (a : Expr ν) (n : Nat) : Option (Expr ν) := do
  let ⟨w, x⟩ ← a.bv?
  return ofBv (.bin .add x (.bvVal ((BitVec.ofNat 32 n).signExtend w)))

def select {i e : Nat} (m : Term ν (.array i e)) (x : Expr ν) : Option (Term ν (.bv e)) :=
  (x.asBv i).map (.select m)

def store {i e : Nat} (m : Term ν (.array i e)) (x v : Expr ν) : Option (Term ν (.array i e)) := do
  let x ← x.asBv i
  let v ← v.asBv e
  return .store m x v

/-- Truth in a model. -/
def Holds (M : Model ν) : Expr ν → Prop
  | ⟨.bool, t⟩ => t.eval M = true
  | _ => False

end Expr

/-- Every model of the expressions `cs` is one of `c`. -/
def Entails (cs : List (Expr ν)) (c : Expr ν) : Prop := ∀ M, (∀ x ∈ cs, x.Holds M) → c.Holds M

theorem Entails.self (c : Expr ν) : Entails [c] c := fun _ h => h c (List.mem_singleton_self c)

theorem Entails.trans {cs : List (Expr ν)} {c d : Expr ν} (h : Entails cs c) (h' : Entails [c] d) :
    Entails cs d := by
  intro M hM
  apply h'
  intro x hx
  rw [List.mem_singleton.mp hx]
  exact h M hM

end EvmTrans.Lib
