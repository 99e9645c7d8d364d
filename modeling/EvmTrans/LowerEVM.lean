/-
# `EvmTrans.LowerEVM` — `LowerEVMPass`: which wide multiplications and divisions are replaced by
helpers.

The pass looks for multiplications, divisions and remainders by opcode and exact type, and calls a
helper of `Arith256` instead, which it creates on demand at the end of the module. The pass manager
comes by every function, also one that was added meanwhile, so the helpers are lowered too:
`evm.mul.i256` multiplies at 128 bits.

`passManager_result` says that this ends, for any module: there are ten helpers to add, and each
visit that adds none brings the end nearer. `fullyLowered_iff` says what is left: what `lowering`
has no entry for.
-/
import Mathlib.Data.Finset.Card
import Mathlib.Data.Finset.Insert
import Mathlib.Tactic.Common

namespace EvmTrans.Llvm

/-! ## §1 — a module as the pass reads it. -/

/-- The binary operators that the pass tells apart. -/
inductive ArithOpcode where
  | UDiv | URem | SDiv | SRem | Mul
  deriving DecidableEq, Repr

/-- One of these, with the width of its type, or a call of a helper. Every other instruction is left
out: the pass does not look at it. -/
inductive ArithInst where
  | arith (opcode : ArithOpcode) (width : Nat)
  | call (callee : String)
  deriving DecidableEq, Repr

/-- A function with a body. -/
structure ArithFunc where
  name : String
  body : List ArithInst
  deriving DecidableEq, Repr

/-- The functions of a module, in order. -/
abbrev ArithModule := List ArithFunc

/-- `_module.getFunction(funcName)`. -/
def ArithModule.getFunction (m : ArithModule) (funcName : String) : Bool :=
  m.any fun f => f.name == funcName

/-! ## §2 — the helpers. -/

namespace Arith256

/-- The getters: the function of that name, or else new functions at the end, after those that they
`need`. -/
def getOrCreate (funcName : String) (need : ArithModule → ArithModule) (created : List ArithFunc)
    (m : ArithModule) : ArithModule :=
  if m.getFunction funcName then m else need m ++ created

/-- What `createUDivRemFunc` appends; `createCTLZFunc` is called while its blocks are filled. -/
def createUDivRemFunc (funcName ctlzName : String) : List ArithFunc :=
  [⟨funcName, [.call ctlzName, .call ctlzName]⟩, ⟨ctlzName, []⟩]

def getUDivRem256Func : ArithModule → ArithModule :=
  getOrCreate "evm.udivrem.i256" id (createUDivRemFunc "evm.udivrem.i256" "wasm.ctlz.i256")

def getUDivRem512Func : ArithModule → ArithModule :=
  getOrCreate "evm.udivrem.i512" id (createUDivRemFunc "evm.udivrem.i512" "wasm.ctlz.i512")

def getUDiv256Func : ArithModule → ArithModule :=
  getOrCreate "evm.udiv.i256" getUDivRem256Func [⟨"evm.udiv.i256", [.call "evm.udivrem.i256"]⟩]

def getURem256Func : ArithModule → ArithModule :=
  getOrCreate "evm.urem.i256" getUDivRem256Func [⟨"evm.urem.i256", [.call "evm.udivrem.i256"]⟩]

def getURem512Func : ArithModule → ArithModule :=
  getOrCreate "evm.urem.i512" getUDivRem512Func [⟨"evm.urem.i512", [.call "evm.udivrem.i512"]⟩]

def getSDivRem256Func : ArithModule → ArithModule :=
  getOrCreate "evm.sdivrem.i256" getUDivRem256Func [⟨"evm.sdivrem.i256",
    [.call "evm.udivrem.i256"]⟩]

def getSDiv256Func : ArithModule → ArithModule :=
  getOrCreate "evm.sdiv.i256" getSDivRem256Func [⟨"evm.sdiv.i256", [.call "evm.sdivrem.i256"]⟩]

def getSRem256Func : ArithModule → ArithModule :=
  getOrCreate "evm.srem.i256" getSDivRem256Func [⟨"evm.srem.i256", [.call "evm.sdivrem.i256"]⟩]

/-- What `getMulFunc` creates: six products of halves. -/
def mulFunc (bitWidth : Nat) (funcName : String) : List ArithFunc :=
  [⟨funcName, List.replicate 6 (.arith .Mul (if bitWidth = 256 then 128 else 64))⟩]

def getMul256Func : ArithModule → ArithModule :=
  getOrCreate "evm.mul.i256" id (mulFunc 256 "evm.mul.i256")

def getMul128Func : ArithModule → ArithModule :=
  getOrCreate "evm.mul.i128" id (mulFunc 128 "evm.mul.i128")

end Arith256

/-! ## §3 — the pass. -/

namespace LowerEVMPass

open Arith256

/-- The three switches: the helper for an instruction, by its type and opcode, and its name. -/
def lowering : ArithInst → Option (String × (ArithModule → ArithModule))
  | .arith .UDiv 256 => some ("evm.udiv.i256", getUDiv256Func)
  | .arith .URem 256 => some ("evm.urem.i256", getURem256Func)
  | .arith .SDiv 256 => some ("evm.sdiv.i256", getSDiv256Func)
  | .arith .SRem 256 => some ("evm.srem.i256", getSRem256Func)
  | .arith .Mul 256 => some ("evm.mul.i256", getMul256Func)
  | .arith .Mul 128 => some ("evm.mul.i128", getMul128Func)
  | .arith .URem 512 => some ("evm.urem.i512", getURem512Func)
  | _ => none

/-- One round of the loop over the instructions, with the part of the body behind it. -/
def visitInst (s : ArithModule × List ArithInst) (inst : ArithInst) :
    ArithModule × List ArithInst :=
  match lowering inst with
  | some (callee, get) => (get s.1, s.2 ++ [.call callee])
  | none => (s.1, s.2 ++ [inst])

/-- `LowerEVMPass::runOnFunction` on function `k`. -/
def runOnFunction (m : ArithModule) (k : Nat) : ArithModule :=
  match m[k]? with
  | none => m
  | some f =>
    let r := f.body.foldl visitInst (m, [])
    r.1.set k { f with body := r.2 }

/-- The pass manager at function `k`. -/
def passManager : Nat → Nat → ArithModule → Option ArithModule
  | 0, _, _ => none
  | fuel + 1, k, m => if k < m.length then passManager fuel (k + 1) (runOnFunction m k) else some m

/-- The pass terminates, and this is the module it leaves. -/
def Leaves (m m' : ArithModule) : Prop := ∃ fuel, passManager fuel 0 m = some m'

/-! ## §4 — what a visit appends. -/

/-- Every function that a getter creates. -/
def helpers : List ArithFunc :=
  createUDivRemFunc "evm.udivrem.i256" "wasm.ctlz.i256" ++
    createUDivRemFunc "evm.udivrem.i512" "wasm.ctlz.i512" ++
    mulFunc 256 "evm.mul.i256" ++ mulFunc 128 "evm.mul.i128" ++
    [⟨"evm.udiv.i256", [.call "evm.udivrem.i256"]⟩, ⟨"evm.urem.i256", [.call "evm.udivrem.i256"]⟩,
      ⟨"evm.urem.i512", [.call "evm.udivrem.i512"]⟩,
      ⟨"evm.sdivrem.i256", [.call "evm.udivrem.i256"]⟩,
      ⟨"evm.sdiv.i256", [.call "evm.sdivrem.i256"]⟩, ⟨"evm.srem.i256", [.call "evm.sdivrem.i256"]⟩]

/-- The names that the getters ask for. -/
def helperNames : Finset String :=
  {"evm.udivrem.i256", "evm.udivrem.i512", "evm.udiv.i256", "evm.urem.i256", "evm.urem.i512",
    "evm.sdivrem.i256", "evm.sdiv.i256", "evm.srem.i256", "evm.mul.i256", "evm.mul.i128"}

/-- The helpers that a module does not have yet. -/
def missing (m : ArithModule) : Finset String := helperNames.filter fun n => m.getFunction n = false

/-- How many visits may still come: every missing helper brings at most two functions. -/
def budget (m : ArithModule) : Nat := m.length + 2 * (missing m).card

/-- A step that only appends helpers, and stays within the budget. -/
structure Appends (get : ArithModule → ArithModule) : Prop where
  appends : ∀ m, ∃ new, get m = m ++ new ∧ ∀ f ∈ new, f ∈ helpers
  budget_le : ∀ m, budget (get m) ≤ budget m

theorem getFunction_append (m m' : ArithModule) (n : String) :
    ArithModule.getFunction (m ++ m') n = (m.getFunction n || ArithModule.getFunction m' n) :=
  List.any_append

theorem missing_append_subset (m m' : ArithModule) : missing (m ++ m') ⊆ missing m := by
  intro n hn
  obtain ⟨hmem, hnot⟩ := Finset.mem_filter.mp hn
  rw [getFunction_append, Bool.or_eq_false_iff] at hnot
  exact Finset.mem_filter.mpr ⟨hmem, hnot.1⟩

theorem appends_id : Appends id where
  appends m := ⟨[], (List.append_nil m).symm, nofun⟩
  budget_le _ := Nat.le_refl _

/-- What the getter of a helper creates: at most two of them, and the one it is for. -/
def CreatesHelper (funcName : String) (created : List ArithFunc) : Prop :=
  (∀ f ∈ created, f ∈ helpers) ∧ created.length ≤ 2 ∧ funcName ∈ helperNames ∧
    ArithModule.getFunction created funcName = true

instance (funcName : String) (created : List ArithFunc) :
    Decidable (CreatesHelper funcName created) :=
  inferInstanceAs (Decidable (_ ∧ _ ∧ _ ∧ _))

/-- **A getter** stays within the budget: when it creates functions, one of them was missing. -/
theorem appends_getOrCreate {funcName : String} {need : ArithModule → ArithModule}
    {created : List ArithFunc} (hneed : Appends need) (hcreates : CreatesHelper funcName created)
    (hother : ∀ m, m.getFunction funcName = false → (need m).getFunction funcName = false) :
    Appends (getOrCreate funcName need created) where
  appends m := by
    unfold getOrCreate
    split
    · exact ⟨[], (List.append_nil m).symm, nofun⟩
    · obtain ⟨new, hnew, hmem⟩ := hneed.appends m
      refine ⟨new ++ created, ?_, List.forall_mem_append.mpr ⟨hmem, hcreates.1⟩⟩
      rw [hnew, List.append_assoc]
  budget_le m := by
    obtain ⟨-, hlen, hname, hself⟩ := hcreates
    unfold getOrCreate
    split
    · exact Nat.le_refl _
    · rename_i hnot
      -- two functions more, and one helper less to wait for
      have hfewer : (missing (need m ++ created)).card < (missing (need m)).card := by
        apply Finset.card_lt_card
        refine Finset.ssubset_iff_subset_ne.mpr ⟨missing_append_subset _ _, fun heq => ?_⟩
        have hmem : funcName ∈ missing (need m) :=
          Finset.mem_filter.mpr ⟨hname, hother m (Bool.eq_false_iff.mpr hnot)⟩
        rw [← heq] at hmem
        have hgone := (Finset.mem_filter.mp hmem).2
        rw [getFunction_append, hself, Bool.or_true] at hgone
        cases hgone
      have hle := hneed.budget_le m
      unfold budget at hle ⊢
      rw [List.length_append]
      omega

/-- A name that neither the getter nor what it needs creates stays missing. -/
theorem getFunction_getOrCreate {funcName n : String} {need : ArithModule → ArithModule}
    {created : List ArithFunc} {m : ArithModule} (hm : m.getFunction n = false)
    (hneed : (need m).getFunction n = false)
    (hcreated : ArithModule.getFunction created n = false) :
    (getOrCreate funcName need created m).getFunction n = false := by
  unfold getOrCreate
  split
  · exact hm
  · rw [getFunction_append, hneed, hcreated, Bool.or_false]

section Getters

attribute [local simp] CreatesHelper helpers helperNames createUDivRemFunc mulFunc
  ArithModule.getFunction

theorem appends_getUDivRem256Func : Appends getUDivRem256Func := by
  apply appends_getOrCreate appends_id
  · simp
  · exact fun _ h => h

theorem appends_getUDivRem512Func : Appends getUDivRem512Func := by
  apply appends_getOrCreate appends_id
  · simp
  · exact fun _ h => h

theorem appends_getMul256Func : Appends getMul256Func := by
  apply appends_getOrCreate appends_id
  · simp
  · exact fun _ h => h

theorem appends_getMul128Func : Appends getMul128Func := by
  apply appends_getOrCreate appends_id
  · simp
  · exact fun _ h => h

theorem appends_getUDiv256Func : Appends getUDiv256Func := by
  apply appends_getOrCreate appends_getUDivRem256Func
  · simp
  · exact fun _ h => getFunction_getOrCreate h h (by simp)

theorem appends_getURem256Func : Appends getURem256Func := by
  apply appends_getOrCreate appends_getUDivRem256Func
  · simp
  · exact fun _ h => getFunction_getOrCreate h h (by simp)

theorem appends_getURem512Func : Appends getURem512Func := by
  apply appends_getOrCreate appends_getUDivRem512Func
  · simp
  · exact fun _ h => getFunction_getOrCreate h h (by simp)

theorem appends_getSDivRem256Func : Appends getSDivRem256Func := by
  apply appends_getOrCreate appends_getUDivRem256Func
  · simp
  · exact fun _ h => getFunction_getOrCreate h h (by simp)

theorem appends_getSDiv256Func : Appends getSDiv256Func := by
  apply appends_getOrCreate appends_getSDivRem256Func
  · simp
  · intro m h
    have hneed : (getUDivRem256Func m).getFunction "evm.sdiv.i256" = false :=
      getFunction_getOrCreate h h (by simp)
    exact getFunction_getOrCreate h hneed (by simp)

theorem appends_getSRem256Func : Appends getSRem256Func := by
  apply appends_getOrCreate appends_getSDivRem256Func
  · simp
  · intro m h
    have hneed : (getUDivRem256Func m).getFunction "evm.srem.i256" = false :=
      getFunction_getOrCreate h h (by simp)
    exact getFunction_getOrCreate h hneed (by simp)

end Getters

/-- Whatever the switches choose. -/
theorem appends_lowering {inst : ArithInst} {callee : String} {get : ArithModule → ArithModule}
    (h : lowering inst = some (callee, get)) : Appends get := by
  unfold lowering at h
  split at h
  · cases h; exact appends_getUDiv256Func
  · cases h; exact appends_getURem256Func
  · cases h; exact appends_getSDiv256Func
  · cases h; exact appends_getSRem256Func
  · cases h; exact appends_getMul256Func
  · cases h; exact appends_getMul128Func
  · cases h; exact appends_getURem512Func
  · cases h

/-! ## §5 — one function. -/

/-- The instruction that stands there after the visit. -/
def lowerInst (inst : ArithInst) : ArithInst :=
  match lowering inst with
  | some (callee, _) => .call callee
  | none => inst

/-- The function after the visit. -/
def lowerFunc (f : ArithFunc) : ArithFunc := { f with body := f.body.map lowerInst }

/-- The loop over the instructions. -/
theorem foldl_visitInst (body : List ArithInst) : ∀ (m : ArithModule) (done : List ArithInst),
    ∃ new, body.foldl visitInst (m, done) = (m ++ new, done ++ body.map lowerInst) ∧
      (∀ f ∈ new, f ∈ helpers) ∧ budget (m ++ new) ≤ budget m := by
  induction body with
  | nil =>
    intro m done
    refine ⟨[], ?_, nofun, ?_⟩
    · rw [List.append_nil, List.map_nil, List.append_nil, List.foldl_nil]
    · rw [List.append_nil]
  | cons inst body ih =>
    intro m done
    rw [List.foldl_cons, List.map_cons]
    cases hl : lowering inst with
    | none =>
      obtain ⟨new, hfold, hmem, hle⟩ := ih m (done ++ [inst])
      refine ⟨new, ?_, hmem, hle⟩
      have hvisit : visitInst (m, done) inst = (m, done ++ [inst]) := by rw [visitInst, hl]
      have hlower : lowerInst inst = inst := by rw [lowerInst, hl]
      rw [hvisit, hlower, hfold, List.append_assoc]
      rfl
    | some r =>
      -- the getter has appended its helpers when the rest of the body is visited
      obtain ⟨callee, get⟩ := r
      have hget := appends_lowering hl
      obtain ⟨new₁, hnew₁, hmem₁⟩ := hget.appends m
      obtain ⟨new₂, hfold, hmem₂, hle₂⟩ := ih (get m) (done ++ [.call callee])
      refine ⟨new₁ ++ new₂, ?_, List.forall_mem_append.mpr ⟨hmem₁, hmem₂⟩, ?_⟩
      · have hvisit : visitInst (m, done) inst = (get m, done ++ [.call callee]) := by
          rw [visitInst, hl]
        have hlower : lowerInst inst = .call callee := by rw [lowerInst, hl]
        rw [hvisit, hlower, hfold, hnew₁, List.append_assoc, List.append_assoc]
        rfl
      · rw [← List.append_assoc, ← hnew₁]
        exact hle₂.trans (hget.budget_le m)

/-- A replaced function keeps its name. -/
theorem budget_set {m : ArithModule} {k : Nat} {f g : ArithFunc} (hk : m[k]? = some f)
    (hname : g.name = f.name) : budget (m.set k g) = budget m := by
  have hnames : ∀ n, ArithModule.getFunction (m.set k g) n = m.getFunction n := by
    intro n
    have hmap : (m.set k g).map ArithFunc.name = m.map ArithFunc.name := by
      rw [List.map_set, hname]
      apply List.ext_getElem? fun j => ?_
      rw [List.getElem?_set]
      split
      · subst k
        rw [List.getElem?_map, hk, List.length_map, if_pos (List.getElem?_eq_some_iff.mp hk).1]
        rfl
      · rfl
    have hany : ∀ l : ArithModule, l.getFunction n = (l.map ArithFunc.name).any (· == n) := by
      intro l
      rw [List.any_map]
      rfl
    rw [hany, hany, hmap]
  have hmissing : missing (m.set k g) = missing m := Finset.filter_congr fun n _ => by rw [hnames]
  rw [budget, budget, List.length_set, hmissing]

/-- **The state of the pass in front of function `k`**: the module and the helpers added so far, the
first `k` of them lowered. -/
structure Progress (m₀ : ArithModule) (k : Nat) (m : ArithModule) : Prop where
  split : ∃ new, (∀ f ∈ new, f ∈ helpers) ∧
    m = ((m₀ ++ new).take k).map lowerFunc ++ (m₀ ++ new).drop k
  within : k ≤ m.length

/-- **One visit.** -/
theorem runOnFunction_progress {m₀ m : ArithModule} {k : Nat} (h : Progress m₀ k m)
    (hk : k < m.length) :
    Progress m₀ (k + 1) (runOnFunction m k) ∧ budget (runOnFunction m k) ≤ budget m := by
  obtain ⟨⟨new, hnew, hm⟩, -⟩ := h
  generalize hall : m₀ ++ new = all at hm
  have hlen : m.length = all.length := by
    rw [hm, List.length_append, List.length_map, List.length_take, List.length_drop]
    omega
  have hkall : k < all.length := hlen ▸ hk
  have hdone : ((all.take k).map lowerFunc).length = k := by
    rw [List.length_map, List.length_take]
    omega
  -- function `k` is the first that is as it was
  have hget : m[k]? = some all[k] := by
    rw [hm, List.getElem?_append_right (by omega), hdone, Nat.sub_self, List.getElem?_drop,
      Nat.add_zero]
    exact List.getElem?_eq_getElem hkall
  obtain ⟨more, hfold, hmore, hbudget⟩ := foldl_visitInst all[k].body m []
  have hrun : runOnFunction m k = (m ++ more).set k (lowerFunc all[k]) := by
    unfold runOnFunction
    rw [hget]
    dsimp only
    rw [hfold]
    rfl
  have hget' : (m ++ more)[k]? = some all[k] := by
    rw [List.getElem?_append_left hk, hget]
  rw [hrun]
  refine ⟨⟨⟨new ++ more, List.forall_mem_append.mpr ⟨hnew, hmore⟩, ?_⟩, ?_⟩, ?_⟩
  · rw [← List.append_assoc, hall, List.take_append_of_le_length (by omega),
      List.drop_append_of_le_length (by omega),
      hm, List.append_assoc, List.set_append_right _ _ (by omega), hdone, Nat.sub_self,
      List.drop_eq_getElem_cons hkall, List.cons_append, List.set_cons_zero,
      List.take_succ_eq_append_getElem hkall, List.map_append, List.append_assoc]
    rfl
  · rw [List.length_set, List.length_append]
    omega
  · exact (budget_set hget' (rfl : (lowerFunc all[k]).name = all[k].name)).trans_le hbudget

/-! ## §6 — the pass manager. -/

/-- **The pass manager ends**, with every function lowered. Each visit uses up one of the budget. -/
theorem passManager_progress {m₀ : ArithModule} :
    ∀ (fuel : Nat) {k : Nat} {m : ArithModule}, Progress m₀ k m →
    budget m - k < fuel → ∃ new, (∀ f ∈ new, f ∈ helpers) ∧
      passManager fuel k m = some ((m₀ ++ new).map lowerFunc) := by
  intro fuel
  induction fuel with
  | zero => exact fun _ hfuel => absurd hfuel (Nat.not_lt_zero _)
  | succ fuel ih =>
    intro k m h hfuel
    unfold passManager
    split
    · rename_i hk
      obtain ⟨hnext, hbudget⟩ := runOnFunction_progress h hk
      have hlen : m.length ≤ budget m := Nat.le_add_right _ _
      exact ih hnext (by omega)
    · rename_i hk
      obtain ⟨⟨new, hnew, hm⟩, hwithin⟩ := h
      refine ⟨new, hnew, ?_⟩
      have hlen : m.length = (m₀ ++ new).length := by
        rw [hm, List.length_append, List.length_map, List.length_take, List.length_drop]
        omega
      rw [hm, List.take_of_length_le (by omega), List.drop_of_length_le (by omega), List.append_nil]

/-- **The pass terminates on every module**, and lowers its functions and all the helpers it has
added. -/
theorem passManager_result (m : ArithModule) :
    ∃ new, (∀ f ∈ new, f ∈ helpers) ∧ Leaves m ((m ++ new).map lowerFunc) := by
  have hstart : Progress m 0 m := by
    refine ⟨⟨[], nofun, ?_⟩, Nat.zero_le _⟩
    rw [List.append_nil, List.take_zero, List.drop_zero, List.map_nil, List.nil_append]
  obtain ⟨new, hnew, hrun⟩ := passManager_progress (budget m + 1) hstart (by omega)
  exact ⟨new, hnew, _, hrun⟩

/-- No multiplication, division or remainder is wider than 64 bits. -/
def FullyLowered (m : ArithModule) : Prop :=
  ∀ f ∈ m, ∀ inst ∈ f.body, ∀ opcode width, inst = .arith opcode width → width ≤ 64

/-- The pass has a helper for the instruction, or it needs none. -/
def Lowerable (inst : ArithInst) : Prop :=
  ∀ opcode width, inst = .arith opcode width → width ≤ 64 ∨ (lowering inst).isSome

theorem lowerInst_narrow_iff (inst : ArithInst) :
    (∀ opcode width, lowerInst inst = .arith opcode width → width ≤ 64) ↔ Lowerable inst := by
  unfold lowerInst Lowerable
  cases hl : lowering inst with
  | none =>
    refine forall₃_congr fun opcode width h => ?_
    rw [Option.isSome_none]
    simp
  | some r => simp

theorem lowerable_helpers : ∀ f ∈ helpers, ∀ inst ∈ f.body, Lowerable inst := by
  have hall : ∀ f ∈ helpers, ∀ inst ∈ f.body, inst = .arith .Mul 128 ∨ inst = .arith .Mul 64 ∨
      ∃ callee, inst = .call callee := by
    simp [helpers, createUDivRemFunc, mulFunc]
  intro f hf inst hinst
  rcases hall f hf inst hinst with rfl | rfl | ⟨callee, rfl⟩
  · exact fun _ _ _ => .inr rfl
  · rintro opcode width h
    cases h
    exact .inl (Nat.le_refl _)
  · exact nofun

/-- More fuel changes nothing. -/
theorem passManager_add {fuel : Nat} :
    ∀ {k : Nat} {m m' : ArithModule}, passManager fuel k m = some m' →
    ∀ extra, passManager (fuel + extra) k m = some m' := by
  induction fuel with
  | zero => exact nofun
  | succ fuel ih =>
    intro k m m' h extra
    rw [Nat.succ_add]
    unfold passManager at h ⊢
    split
    · rename_i hk
      rw [if_pos hk] at h
      exact ih h extra
    · rename_i hk
      rw [if_neg hk] at h
      exact h

theorem Leaves.unique {m m₁ m₂ : ArithModule} (h₁ : Leaves m m₁) (h₂ : Leaves m m₂) : m₁ = m₂ := by
  obtain ⟨fuel₁, h₁⟩ := h₁
  obtain ⟨fuel₂, h₂⟩ := h₂
  have h₁ := passManager_add h₁ fuel₂
  rw [Nat.add_comm, passManager_add h₂ fuel₁] at h₁
  exact (Option.some.inj h₁).symm

/-- **What is left** is what the module had and `lowering` has no entry for. -/
theorem fullyLowered_iff {m m' : ArithModule} (h : Leaves m m') :
    FullyLowered m' ↔ ∀ f ∈ m, ∀ inst ∈ f.body, Lowerable inst := by
  obtain ⟨new, hnew, hleaves⟩ := passManager_result m
  obtain rfl := h.unique hleaves
  unfold FullyLowered
  rw [List.forall_mem_map]
  have hfunc : ∀ f : ArithFunc, (∀ inst ∈ (lowerFunc f).body, ∀ opcode width,
      inst = .arith opcode width → width ≤ 64) ↔ ∀ inst ∈ f.body, Lowerable inst := by
    intro f
    show (∀ inst ∈ f.body.map lowerInst, _) ↔ _
    rw [List.forall_mem_map]
    exact forall₂_congr fun inst _ => lowerInst_narrow_iff inst
  constructor
  · intro h f hf
    exact (hfunc f).mp (h f (List.mem_append_left _ hf))
  · intro h f hf
    refine (hfunc f).mpr ?_
    rcases List.mem_append.mp hf with hf | hf
    · exact h f hf
    · exact lowerable_helpers f (hnew f hf)

end LowerEVMPass

end EvmTrans.Llvm
