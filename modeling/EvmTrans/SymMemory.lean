/-
# `EvmTrans.SymMemory` — the symbolic memory of `SEngine`.

`SEngine` keeps memory as an array term of bytes over 256-bit addresses, and the operand stack as an
array of words. `memStore` splits a value into bytes and `memLoad` puts them together again; an
address whose text contains "mstk" goes to the stack array instead.

Both loops run over the BIT positions 0, 8, 16, ... of the value, and both use the bit position as
the address offset too. §2 says what they do to the array: the bytes of a value lie 8 addresses
apart. What is stored is read back, but two values with disjoint byte ranges may share a cell. §3
has the exact condition.
-/
import EvmTrans.Lib.SmtTerm
import Mathlib.Algebra.Group.Nat.Defs
import Mathlib.Data.List.Range
import Mathlib.Tactic.Common

namespace EvmTrans.SEngine

open Lib (Srt Model Simplifier)

/-! ## §1 — the engine's arrays. -/

/-- The free constants of `SEngine`; `alloca` is named after the address of its instruction. -/
inductive Name where
  | mem | mstk | storage | calldata | calldatasize
  | memorySize | target | spPtr
  | origin | coinbase | difficult | gaslimit | blocknumber | timestamp | blockhash | balance
  | address | codeSize | codesize | returnsize
  | alloca (inst : Nat)
  deriving DecidableEq

abbrev Term : Srt → Type := Lib.Term Name

/-- A `z3::expr`. -/
abbrev Expr : Type := Lib.Expr Name

open Lib.Expr (ofBv)

/-- The members of `SEngine` that instructions change. -/
structure SymState where
  memory : Term (.array 256 8)
  stk : Term (.array 256 256)
  storage : Term (.array 256 256)
  targetPtr : Expr

/-- The member initialisers. -/
def SymState.init : SymState where
  memory := .const .mem _
  stk := .const .mstk _
  storage := .const .storage _
  targetPtr := ofBv (.bvVal (0 : BitVec 256))

/-- `adr.to_string().find("mstk") != npos`. -/
def inMstk (adr : Expr) : Bool := adr.term.mentions .mstk

/-- `iadr`: the address relative to the constant `mstk`. -/
def stkIndex (z : Simplifier Name) (adr : Expr) : Option Expr :=
  (adr.bin .sub (ofBv (.const .mstk (.bv 256)))).map (·.simplify z)

/-- The values of `i` in `for (uint i = start; i < sz; i += 8)`. -/
def byteSteps (start sz : Nat) : List Nat := List.range' start ((sz - start + 7) / 8) 8

/-- The body of the loop of `memStore`. -/
def storeByte (adr val : Expr) (memory : Term (.array 256 8)) (i : Nat) :
    Option (Term (.array 256 8)) := do
  let shr ← val.extract (i + 7) i
  let x ← adr.addInt i
  Lib.Expr.store memory x shr

/-- `SEngine::memStore(adr, val)`; `none` where `z3` throws. -/
def memStore (z : Simplifier Name) (adr val : Expr) (s : SymState) : Option SymState :=
  if inMstk adr then do
    let iadr ← stkIndex z adr
    let stk ← Lib.Expr.store s.stk iadr val
    return { s with stk := stk }
  else do
    let size ← val.bvSize
    let memory ← (byteSteps 0 size).foldlM (storeByte adr val) s.memory
    return { s with memory := memory }

/-- The body of the loop of `memLoad`. -/
def loadByte (z : Simplifier Name) (adr : Expr) (memory : Term (.array 256 8)) (val : Expr)
    (i : Nat) : Option Expr := do
  let x ← adr.addInt i
  let byte ← Lib.Expr.select memory x
  let ⟨_, v⟩ ← val.bv?
  return ofBv (z.simplify (.concat (z.simplify byte) v))

/-- `SEngine::memLoad(adr, sz)`; a word of the stack array has 256 bits, whatever `sz` is. -/
def memLoad (z : Simplifier Name) (adr : Expr) (sz : Nat) (s : SymState) : Option Expr :=
  if inMstk adr then do
    let iadr ← stkIndex z adr
    let word ← Lib.Expr.select s.stk iadr
    return ofBv (z.simplify word)
  else do
    let byte ← Lib.Expr.select s.memory adr
    let val ← (byteSteps 8 sz).foldlM (loadByte z adr s.memory) (ofBv (z.simplify byte))
    return val.simplify z

/-! ## §2 — what the loops do to the array. -/

section Casts

variable {w w' : Nat} {t : Term (.bv w)}

theorem asBv_ofBv (h : w = w') : (ofBv t).asBv w' = some (h ▸ t) :=
  dif_pos h

theorem bvSize_ofBv (hw : 0 < w) (t : Term (.bv w)) : (ofBv t).bvSize = some w := by
  cases w with
  | zero => exact absurd hw (Nat.lt_irrefl 0)
  | succ w => rfl

theorem ofBv_cast (h : w = w') : ofBv (h ▸ t : Term (.bv w')) = ofBv t := by
  subst h
  rfl

theorem eval_cast (h : w = w') (M : Model Name) :
    (h ▸ t : Term (.bv w')).eval M = (t.eval M).cast h := by
  subst h
  rfl

end Casts

/-- The address of the byte at bit position `i`. -/
def cell (a : BitVec 256) (i : Nat) : BitVec 256 := a + (BitVec.ofNat 32 i).signExtend 256

theorem cell_zero (a : BitVec 256) : cell a 0 = a := by
  rw [cell, show (BitVec.ofNat 32 0).signExtend 256 = 0#256 from rfl, BitVec.add_zero]

/-- A value has its bytes in different cells: bit positions are below `2^32`. -/
theorem cell_inj {a : BitVec 256} {i j : Nat} (hi : i < 2 ^ 32) (hj : j < 2 ^ 32)
    (h : cell a i = cell a j) : i = j := by
  have hext : (BitVec.ofNat 32 i).signExtend 256 = (BitVec.ofNat 32 j).signExtend 256 :=
    (BitVec.add_right_inj a).mp h
  have hint := congrArg BitVec.toInt hext
  rw [BitVec.toInt_signExtend_of_le (by decide), BitVec.toInt_signExtend_of_le (by decide)] at hint
  have hnat := congrArg BitVec.toNat (BitVec.eq_of_toInt_eq hint)
  rwa [BitVec.toNat_ofNat, BitVec.toNat_ofNat, Nat.mod_eq_of_lt hi, Nat.mod_eq_of_lt hj] at hnat

/-- A memory with the bytes of `v` at the bit positions `is` stored at `a`. -/
def withBytes {w : Nat} (a : BitVec 256) (v : BitVec w) (is : List Nat)
    (f : BitVec 256 → BitVec 8) : BitVec 256 → BitVec 8 :=
  is.foldl (fun f i => Function.update f (cell a i) (v.extractLsb' i 8)) f

section Bytes

variable {w : Nat} {a x : BitVec 256} {v : BitVec w} {f : BitVec 256 → BitVec 8}

theorem withBytes_of_ne : ∀ {is : List Nat} {f : BitVec 256 → BitVec 8}, (∀ i ∈ is, cell a i ≠ x) →
    withBytes a v is f x = f x := by
  intro is
  induction is with
  | nil => exact fun _ => rfl
  | cons i is ih =>
    intro f h
    obtain ⟨hi, his⟩ := List.forall_mem_cons.mp h
    show withBytes a v is (Function.update f (cell a i) _) x = f x
    rw [ih his, Function.update_of_ne hi.symm]

/-- A cell holds the byte stored last; positions of one value do not meet. -/
theorem withBytes_of_mem {i : Nat} : ∀ {is : List Nat} {f : BitVec 256 → BitVec 8}, i ∈ is →
    is.Nodup → (∀ j ∈ is, j < 2 ^ 32) → withBytes a v is f (cell a i) = v.extractLsb' i 8 := by
  intro is
  induction is with
  | nil => exact fun h => absurd h List.not_mem_nil
  | cons j is ih =>
    intro f hmem hnd hlt
    obtain ⟨hnot, hnd⟩ := List.nodup_cons.mp hnd
    have hj := hlt j List.mem_cons_self
    show withBytes a v is (Function.update f (cell a j) _) (cell a i) = _
    rcases List.mem_cons.mp hmem with rfl | hmem
    · rw [withBytes_of_ne, Function.update_self]
      intro k hk heq
      exact hnot (cell_inj (hlt k (List.mem_cons_of_mem _ hk)) hj heq ▸ hk)
    · exact ih hmem hnd fun k hk => hlt k (List.mem_cons_of_mem _ hk)

end Bytes

section Loops

variable {z : Simplifier Name} {w : Nat} {a : Term (.bv 256)} {v : Term (.bv w)}

theorem storeByte_eval {i : Nat} (hi : i + 7 < w) (memory : Term (.array 256 8)) :
    ∃ memory', storeByte (ofBv a) (ofBv v) memory i = some memory' ∧ ∀ M, memory'.eval M =
      Function.update (memory.eval M) (cell (a.eval M) i) ((v.eval M).extractLsb' i 8) := by
  have hlen : i + 7 + 1 - i = 8 := by omega
  have hextract : (ofBv v).extract (i + 7) i = some (ofBv (.extract i (i + 7 + 1 - i) v)) :=
    if_pos ⟨Nat.le_add_right i 7, hi⟩
  refine ⟨.store memory (.bin .add a (.bvVal ((BitVec.ofNat 32 i).signExtend 256)))
    (hlen ▸ .extract i (i + 7 + 1 - i) v), ?_, fun M => ?_⟩
  · unfold storeByte
    rw [hextract]
    show ((ofBv (.extract i (i + 7 + 1 - i) v)).asBv 8).bind _ = _
    rw [asBv_ofBv hlen]
    rfl
  · show Function.update (memory.eval M) (cell (a.eval M) i) ((hlen ▸ _ : Term (.bv 8)).eval M) = _
    rw [eval_cast]
    congr 1
    apply BitVec.eq_of_getLsbD_eq
    intro j hj
    rw [BitVec.getLsbD_cast]
    show ((v.eval M).extractLsb' i (i + 7 + 1 - i)).getLsbD j = _
    rw [BitVec.getLsbD_extractLsb', BitVec.getLsbD_extractLsb', hlen]

/-- The loop of `memStore`, by induction on the positions left. -/
theorem storeBytes_eval : ∀ (is : List Nat) (memory : Term (.array 256 8)), (∀ i ∈ is, i + 7 < w) →
    ∃ memory', is.foldlM (storeByte (ofBv a) (ofBv v)) memory = some memory' ∧
      ∀ M, memory'.eval M = withBytes (a.eval M) (v.eval M) is (memory.eval M) := by
  intro is
  induction is with
  | nil => exact fun memory _ => ⟨memory, rfl, fun _ => rfl⟩
  | cons i is ih =>
    intro memory h
    obtain ⟨hi, his⟩ := List.forall_mem_cons.mp h
    obtain ⟨memory₁, hstep, heval₁⟩ := storeByte_eval (a := a) (v := v) hi memory
    obtain ⟨memory', hrest, heval⟩ := ih memory₁ his
    refine ⟨memory', ?_, fun M => ?_⟩
    · rw [List.foldlM_cons, hstep]
      exact hrest
    · rw [heval, heval₁]
      rfl

theorem loadByte_eval {i : Nat} (memory : Term (.array 256 8)) :
    ∃ r : Term (.bv (8 + w)), loadByte z (ofBv a) memory (ofBv v) i = some (ofBv r) ∧
      ∀ M, r.eval M = memory.eval M (cell (a.eval M) i) ++ v.eval M := by
  refine ⟨_, rfl, fun M => ?_⟩
  rw [z.eval_simplify]
  show (z.simplify _ : Term (.bv 8)).eval M ++ v.eval M = _
  rw [z.eval_simplify]
  rfl

/-- The loop of `memLoad` behind `n + 1` bytes; by induction on the bytes. -/
theorem loadBytes_eval (memory : Term (.array 256 8)) : ∀ n : Nat,
    ∃ r : Term (.bv (8 * (n + 1))), (List.range' 8 n 8).foldlM (loadByte z (ofBv a) memory)
        (ofBv (z.simplify (.select memory a))) = some (ofBv r) ∧
      ∀ M, ∀ k < n + 1, (r.eval M).extractLsb' (8 * k) 8 =
        memory.eval M (cell (a.eval M) (8 * k)) := by
  intro n
  induction n with
  | zero =>
    refine ⟨_, rfl, fun M k hk => ?_⟩
    rw [Nat.lt_one_iff.mp hk, cell_zero, z.eval_simplify]
    exact BitVec.extractLsb'_eq_self
  | succ n ih =>
    obtain ⟨r, hloop, hbytes⟩ := ih
    obtain ⟨r', hstep, heval⟩ := loadByte_eval (z := z) (a := a) (v := r) (i := 8 + 8 * n) memory
    have hw : 8 + 8 * (n + 1) = 8 * (n + 1 + 1) := by omega
    refine ⟨hw ▸ r', ?_, fun M k hk => ?_⟩
    · rw [List.range'_concat, List.foldlM_append, hloop, ofBv_cast]
      show (loadByte z (ofBv a) memory (ofBv r) (8 + 8 * n)).bind some = _
      rw [hstep]
      rfl
    · rw [eval_cast, heval]
      apply BitVec.eq_of_getLsbD_eq
      intro j hj
      rw [BitVec.getLsbD_extractLsb', BitVec.getLsbD_cast, BitVec.getLsbD_append, decide_eq_true hj,
        Bool.true_and]
      by_cases hlt : k < n + 1
      · rw [if_pos (by omega), ← hbytes M k hlt, BitVec.getLsbD_extractLsb', decide_eq_true hj,
          Bool.true_and]
      · obtain rfl : k = n + 1 := by omega
        rw [if_neg (by omega), show 8 * (n + 1) + j - 8 * (n + 1) = j by omega,
          show 8 + 8 * n = 8 * (n + 1) by omega]

theorem mem_byteSteps_zero {n i : Nat} : i ∈ byteSteps 0 (8 * n) ↔ ∃ k < n, i = 8 * k := by
  rw [byteSteps, List.mem_range', show (8 * n - 0 + 7) / 8 = n by omega]
  simp only [Nat.zero_add]

theorem nodup_byteSteps (start sz : Nat) : (byteSteps start sz).Nodup :=
  List.nodup_range' 8 (by decide)

end Loops

/-- Bit-vectors with the same bytes are equal. -/
theorem eq_of_bytes {n : Nat} {x y : BitVec (8 * n)}
    (h : ∀ k < n, x.extractLsb' (8 * k) 8 = y.extractLsb' (8 * k) 8) : x = y := by
  apply BitVec.eq_of_getLsbD_eq
  intro j hj
  have hbit := congrArg (fun b => b.getLsbD (j % 8)) (h (j / 8) (by omega))
  simp only [BitVec.getLsbD_extractLsb'] at hbit
  rwa [decide_eq_true (Nat.mod_lt j (by decide)), Bool.true_and, Bool.true_and,
    show 8 * (j / 8) + j % 8 = j by omega] at hbit

/-! ## §3 — the laws. -/

section Laws

variable {z : Simplifier Name} {s s' : SymState} {a b : BitVec 256} {n m : Nat}

/-- A concrete address. -/
def addr (a : BitVec 256) : Expr := ofBv (.bvVal a)

theorem inMstk_addr (a : BitVec 256) : inMstk (addr a) = false := rfl

/-- What a store of `n` bytes at a concrete address does to the array. -/
theorem memStore_eval (hn : 0 < n) (v : Term (.bv (8 * n))) (s : SymState) :
    ∃ memory, memStore z (addr a) (ofBv v) s = some { s with memory := memory } ∧
      ∀ M, memory.eval M = withBytes a (v.eval M) (byteSteps 0 (8 * n)) (s.memory.eval M) := by
  obtain ⟨memory, hloop, heval⟩ :=
    storeBytes_eval (a := .bvVal a) (v := v) (byteSteps 0 (8 * n)) s.memory
      (by
        intro i hi
        obtain ⟨k, hk, rfl⟩ := mem_byteSteps_zero.mp hi
        omega)
  refine ⟨memory, ?_, heval⟩
  unfold memStore
  rw [inMstk_addr, if_neg Bool.false_ne_true, bvSize_ofBv (by omega) v]
  show ((byteSteps 0 (8 * n)).foldlM (storeByte (ofBv (.bvVal a)) (ofBv v)) s.memory).bind _ = _
  rw [hloop]
  rfl

/-- A load of `n` bytes reads the cells of its address. -/
theorem memLoad_eval (hn : 0 < n) (s : SymState) : ∃ r : Term (.bv (8 * n)),
    memLoad z (addr a) (8 * n) s = some (ofBv r) ∧
      ∀ M, ∀ k < n, (r.eval M).extractLsb' (8 * k) 8 = s.memory.eval M (cell a (8 * k)) := by
  obtain ⟨n, rfl⟩ : ∃ n', n = n' + 1 := ⟨n - 1, by omega⟩
  obtain ⟨r, hloop, hbytes⟩ := loadBytes_eval (z := z) (a := .bvVal a) s.memory n
  refine ⟨z.simplify r, ?_, fun M k hk => ?_⟩
  · unfold memLoad
    rw [inMstk_addr, if_neg Bool.false_ne_true]
    show ((byteSteps 8 (8 * (n + 1))).foldlM (loadByte z (ofBv (.bvVal a)) s.memory)
      (ofBv (z.simplify (.select s.memory (.bvVal a))))).bind _ = _
    rw [byteSteps, show (8 * (n + 1) - 8 + 7) / 8 = n by omega, hloop]
    rfl
  · rw [z.eval_simplify]
    exact hbytes M k hk

/-- Reading back one store. -/
def LoadsBack (z : Simplifier Name) (s : SymState) (a : BitVec 256) (n : Nat)
    (v : Term (.bv (8 * n))) : Prop :=
  ∃ s' r, memStore z (addr a) (ofBv v) s = some s' ∧ memLoad z (addr a) (8 * n) s' = some (ofBv r) ∧
    ∀ M, r.eval M = v.eval M

/-- A store of `w` at `b` does not change the `n` bytes loaded from `a`. -/
def LeavesLoad (z : Simplifier Name) (s : SymState) (a : BitVec 256) (n : Nat)
    (b : BitVec 256) (m : Nat) (w : Term (.bv (8 * m))) : Prop :=
  ∃ (s' : SymState) (r r' : Term (.bv (8 * n))), memStore z (addr b) (ofBv w) s = some s' ∧
    memLoad z (addr a) (8 * n) s = some (ofBv r) ∧
    memLoad z (addr a) (8 * n) s' = some (ofBv r') ∧ ∀ M, r'.eval M = r.eval M

/-- Two stores in either order: the same memory, and nothing else changes. -/
def Commute (z : Simplifier Name) (s : SymState) (a : BitVec 256) (n : Nat) (v : Term (.bv (8 * n)))
    (b : BitVec 256) (m : Nat) (w : Term (.bv (8 * m))) : Prop :=
  ∃ mem mem', (memStore z (addr a) (ofBv v) s >>= memStore z (addr b) (ofBv w)) =
    some { s with memory := mem } ∧
    (memStore z (addr b) (ofBv w) s >>= memStore z (addr a) (ofBv v)) =
      some { s with memory := mem' } ∧
    ∀ M, mem.eval M = mem'.eval M

/-- The byte ranges `[a, a + n)` and `[b, b + m)`. -/
def DisjointRanges (a : BitVec 256) (n : Nat) (b : BitVec 256) (m : Nat) : Prop :=
  ∀ i < n, ∀ j < m, a + BitVec.ofNat 256 i ≠ b + BitVec.ofNat 256 j

/-- The cells that the engine uses for them. -/
def DisjointCells (a : BitVec 256) (n : Nat) (b : BitVec 256) (m : Nat) : Prop :=
  ∀ i < n, ∀ j < m, cell a (8 * i) ≠ cell b (8 * j)

theorem withBytes_byte {w : Nat} {v : BitVec w} {f : BitVec 256 → BitVec 8}
    (hn : 8 * n < 2 ^ 32) {k : Nat} (hk : k < n) :
    withBytes a v (byteSteps 0 (8 * n)) f (cell a (8 * k)) = v.extractLsb' (8 * k) 8 := by
  refine withBytes_of_mem (mem_byteSteps_zero.mpr ⟨k, hk, rfl⟩) (nodup_byteSteps _ _) ?_
  intro i hi
  obtain ⟨k, hk, rfl⟩ := mem_byteSteps_zero.mp hi
  omega

theorem withBytes_other {w : Nat} {v : BitVec w} {f : BitVec 256 → BitVec 8} {x : BitVec 256}
    (h : ∀ j < m, cell b (8 * j) ≠ x) : withBytes b v (byteSteps 0 (8 * m)) f x = f x := by
  refine withBytes_of_ne fun i hi => ?_
  obtain ⟨k, hk, rfl⟩ := mem_byteSteps_zero.mp hi
  exact h k hk

/-- **One store is read back**, whatever the address. -/
theorem loadsBack (hn : 0 < n) (hsize : 8 * n < 2 ^ 32) (s : SymState) (a : BitVec 256)
    (v : Term (.bv (8 * n))) : LoadsBack z s a n v := by
  obtain ⟨memory, hstore, heval⟩ := memStore_eval (z := z) (a := a) hn v s
  obtain ⟨r, hload, hbytes⟩ := memLoad_eval (z := z) (a := a) hn { s with memory := memory }
  refine ⟨_, r, hstore, hload, fun M => eq_of_bytes fun k hk => ?_⟩
  rw [hbytes M k hk]
  show memory.eval M _ = _
  rw [heval, withBytes_byte hsize hk]

theorem leavesLoad_of_disjointCells (hn : 0 < n) (hm : 0 < m) (hcells : DisjointCells a n b m)
    (s : SymState) (w : Term (.bv (8 * m))) : LeavesLoad z s a n b m w := by
  obtain ⟨memory, hstore, heval⟩ := memStore_eval (z := z) (a := b) hm w s
  obtain ⟨r, hload, hbytes⟩ := memLoad_eval (z := z) (a := a) hn s
  obtain ⟨r', hload', hbytes'⟩ := memLoad_eval (z := z) (a := a) hn { s with memory := memory }
  refine ⟨_, r, r', hstore, hload, hload', fun M => eq_of_bytes fun k hk => ?_⟩
  rw [hbytes' M k hk, hbytes M k hk]
  show memory.eval M _ = _
  rw [heval, withBytes_other fun j hj => (hcells k hk j hj).symm]

theorem commute_of_disjointCells (hn : 0 < n) (hm : 0 < m) (hsn : 8 * n < 2 ^ 32)
    (hsm : 8 * m < 2 ^ 32) (hcells : DisjointCells a n b m) (s : SymState) (v : Term (.bv (8 * n)))
    (w : Term (.bv (8 * m))) : Commute z s a n v b m w := by
  obtain ⟨mem₁, hstore₁, heval₁⟩ := memStore_eval (z := z) (a := a) hn v s
  obtain ⟨mem₂, hstore₂, heval₂⟩ := memStore_eval (z := z) (a := b) hm w { s with memory := mem₁ }
  obtain ⟨mem₁', hstore₁', heval₁'⟩ := memStore_eval (z := z) (a := b) hm w s
  obtain ⟨mem₂', hstore₂', heval₂'⟩ :=
    memStore_eval (z := z) (a := a) hn v { s with memory := mem₁' }
  refine ⟨mem₂, mem₂', ?_, ?_, fun M => funext fun x => ?_⟩
  · rw [hstore₁]
    exact hstore₂
  · rw [hstore₁']
    exact hstore₂'
  · rw [heval₂, heval₂']
    show withBytes b _ _ (mem₁.eval M) x = withBytes a _ _ (mem₁'.eval M) x
    rw [heval₁, heval₁']
    -- a cell belongs to one of the two values, or to none
    by_cases ha : ∃ k < n, cell a (8 * k) = x
    · obtain ⟨k, hk, rfl⟩ := ha
      rw [withBytes_other fun j hj => (hcells k hk j hj).symm, withBytes_byte hsn hk,
        withBytes_byte hsn hk]
    · have ha : ∀ k < n, cell a (8 * k) ≠ x := fun k hk heq => ha ⟨k, hk, heq⟩
      rw [withBytes_other (m := n) ha]
      by_cases hb : ∃ k < m, cell b (8 * k) = x
      · obtain ⟨k, hk, rfl⟩ := hb
        rw [withBytes_byte hsm hk, withBytes_byte hsm hk]
      · have hb : ∀ k < m, cell b (8 * k) ≠ x := fun k hk heq => hb ⟨k, hk, heq⟩
        rw [withBytes_other hb, withBytes_other hb, withBytes_other (m := n) ha]

/-- A value of ones over a memory of zeros. -/
theorem not_leavesLoad (hn : 0 < n) (hm : 0 < m) (hsm : 8 * m < 2 ^ 32) {i j : Nat} (hi : i < n)
    (hj : j < m) (hcell : cell a (8 * i) = cell b (8 * j)) :
    ¬ LeavesLoad z .init a n b m (.bvVal (BitVec.allOnes (8 * m))) := by
  rintro ⟨s', r, r', hstore, hload, hload', heq⟩
  obtain ⟨memory, hstore₁, heval⟩ :=
    memStore_eval (z := z) (a := b) hm (.bvVal (BitVec.allOnes (8 * m))) .init
  obtain ⟨r₁, hload₁, hbytes⟩ := memLoad_eval (z := z) (a := a) hn .init
  obtain ⟨r₂, hload₂, hbytes'⟩ :=
    memLoad_eval (z := z) (a := a) hn { SymState.init with memory := memory }
  cases hstore.symm.trans hstore₁
  cases hload.symm.trans hload₁
  cases hload'.symm.trans hload₂
  have hold : (r.eval .zeros).extractLsb' (8 * i) 8 = 0 := hbytes .zeros i hi
  have hnew :
      (r'.eval .zeros).extractLsb' (8 * i) 8 = (BitVec.allOnes (8 * m)).extractLsb' (8 * j) 8 := by
    rw [hbytes' .zeros i hi]
    show memory.eval .zeros _ = _
    rw [heval, hcell, withBytes_byte hsm hj]
    rfl
  rw [heq .zeros, hold] at hnew
  have hbit := congrArg (fun x => x.getLsbD 0) hnew
  simp only [BitVec.getLsbD_extractLsb', BitVec.getLsbD_allOnes] at hbit
  rw [decide_eq_true (show 8 * j + 0 < 8 * m by omega)] at hbit
  exact absurd hbit (by decide)

/-- **The laws of symbolic memory** for two addresses and two sizes, over every memory and all
values: one store is read back; the two laws about separate stores hold if and only if separate
ranges have separate cells. -/
theorem memory_laws_iff (z : Simplifier Name) (a b : BitVec 256) (n m : Nat) (hn : 0 < n)
    (hm : 0 < m) (hsn : 8 * n < 2 ^ 32) (hsm : 8 * m < 2 ^ 32) :
    (∀ (s : SymState) (v : Term (.bv (8 * n))) (w : Term (.bv (8 * m))), LoadsBack z s a n v ∧
      (DisjointRanges a n b m → LeavesLoad z s a n b m w ∧ Commute z s a n v b m w)) ↔
    (DisjointRanges a n b m → DisjointCells a n b m) := by
  constructor
  · intro hlaws hranges i hi j hj hcell
    exact not_leavesLoad hn hm hsm hi hj hcell
      ((hlaws .init (.bvVal 0) (.bvVal (BitVec.allOnes (8 * m)))).2 hranges).1
  · intro hcells s v w
    refine ⟨loadsBack hn hsn s a v, fun hranges => ⟨?_, ?_⟩⟩
    · exact leavesLoad_of_disjointCells hn hm (hcells hranges) s w
    · exact commute_of_disjointCells hn hm hsn hsm (hcells hranges) s v w

/-- Two words of 32 bytes, one behind the other: the byte at bit 0 of the second is in the cell of
the byte at bit 32 of the first. -/
theorem adjacent_words_share_cells :
    DisjointRanges 0 32 32 32 ∧ cell 0 (8 * 4) = cell 32 (8 * 0) ∧
      ¬ LeavesLoad (.none Name) .init 0 32 32 32 (.bvVal (BitVec.allOnes (8 * 32))) := by
  refine ⟨?_,
    by decide, not_leavesLoad (by decide) (by decide) (by decide) (i := 4) (j := 0) (by decide)
    (by decide) (by decide)⟩
  intro i hi j hj heq
  have hnat := congrArg BitVec.toNat heq
  simp only [BitVec.ofNat_eq_ofNat, BitVec.toNat_add, BitVec.toNat_ofNat] at hnat
  omega

/-- Four bytes each, four bytes apart: the bit positions 0, 8, 16 and 24 behind either address. -/
theorem memory_laws_iff_bytes :
    (∀ (s : SymState) (v w : Term (.bv (8 * 4))), LoadsBack (.none Name) s 0 4 v ∧
      (DisjointRanges 0 4 4 4 → LeavesLoad (.none Name) s 0 4 4 4 w ∧
        Commute (.none Name) s 0 4 v 4 4 w)) ↔
    (DisjointRanges 0 4 4 4 → DisjointCells 0 4 4 4) :=
  memory_laws_iff (.none Name) 0 4 4 4 (by decide) (by decide) (by decide) (by decide)

end Laws

end EvmTrans.SEngine
