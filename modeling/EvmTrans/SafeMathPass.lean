/-
# `EvmTrans.SafeMathPass` — `UseSafeMathPass`: which operations are replaced by their `SafeMath`
helper.

The pass asks for every instruction of `main` whether a storage write or an external call can be
reached from its block, and if so replaces it when it is an addition, subtraction, multiplication or
unsigned division with a name that starts with `unsafe`. The search is that of
`EstimateReenrancePass`, for other calls, but `detectBug` has NO `return false`: where it finds
nothing it flows off the end of a `bool` function, and what its caller then reads is undefined.
`none` is that here, for `detectBug` and for the pass.
-/
import EvmTrans.ReentrancySearch
import EvmTrans.SafeMath

namespace EvmTrans.Llvm

open Relation (ReflTransGen)

variable {B : Type} [DecidableEq B]

/-! ## §1 — the function as the pass reads it. -/

/-- The binary operators, as far as the pass tells them apart. -/
inductive BinaryOpcode where
  | Add | Sub | Mul | UDiv | SDiv | URem | SRem | And | Or | Xor | Shl | LShr | AShr
  deriving DecidableEq, Repr

/-- An instruction: a binary operator with its name and the names of its operands, or another
one. -/
inductive NamedInst where
  | binary (opcode : BinaryOpcode) (name lhs rhs : String)
  | other (name : String) (operands : List String)
  deriving DecidableEq, Repr

/-- `getOperand(0)->getName()`, …, `getOperand(n-1)->getName()`. -/
def NamedInst.operandNames : NamedInst → List String
  | .binary _ _ lhs rhs => [lhs, rhs]
  | .other _ operands => operands

/-- `opcodeName.rfind("unsafe", 0) == 0`. -/
def isUnsafe (opcodeName : String) : Bool := "unsafe".toList.isPrefixOf opcodeName.toList

/-- `main`, as the pass reads and rewrites it. -/
structure NamedMain (B : Type) where
  insts : Option B → List NamedInst
  succs : Option B → List B
  body : List B
  succs_mem : ∀ b c, c ∈ succs b → c ∈ body

/-- The control flow graph of `main`. -/
def NamedMain.cfg (f : NamedMain B) : Cfg B where
  operands b := (f.insts b).map NamedInst.operandNames
  succs := f.succs
  body := f.body
  succs_mem := f.succs_mem

/-! ## §2 — the pass. -/

namespace UseSafeMathPass

/-- The test of an instruction in `detectBug`. -/
def isStoreOrCall (operands : List String) : Bool := isStorageStore operands || isExtCall operands

/-- Does the block hold a call of `ethereum.storageStore` or of `ethereum.call`? -/
def goal (c : Cfg B) (b : Option B) : Bool := (c.operands b).any isStoreOrCall

/-- `UseSafeMathPass::detectBug`. -/
def detectBug (c : Cfg B) (parent : Option B) : Option Bool :=
  if (searchFor (goal c) c parent []).found then some true else none

/-- The `switch` on `getOpcode()`. -/
def helperName : BinaryOpcode → Option String
  | .Add => some "safeAdd"
  | .Sub => some "safeSub"
  | .Mul => some "safeMul"
  | .UDiv => some "safeUDiv"
  | _ => none

/-- `ReplaceInstWithInst` by a call of the helper, which takes over the name. -/
def replaceInst : NamedInst → NamedInst
  | .binary opcode name lhs rhs =>
    if isUnsafe name then
      match helperName opcode with
      | some func => .other name [lhs, rhs, func]
      | none => .binary opcode name lhs rhs
    else .binary opcode name lhs rhs
  | .other name operands => .other name operands

/-- The function with one instruction visited. -/
def replaceAt (f : NamedMain B) (p : Option B × Nat) : NamedMain B :=
  { f with insts := fun b => if b = p.1 then (f.insts b).modify p.2 replaceInst else f.insts b }

/-- One round of the loop over the instructions. -/
def visit (f : NamedMain B) (p : Option B × Nat) : Option (NamedMain B) :=
  match detectBug f.cfg p.1 with
  | none => none
  | some false => some f
  | some true => some (replaceAt f p)

omit [DecidableEq B] in
/-- The instructions in the order of the two loops: a replacement does not change how many there
are. -/
def positions (f : NamedMain B) : List (Option B × Nat) :=
  (none :: f.body.map some).flatMap fun b => (List.range (f.insts b).length).map fun i => (b, i)

/-- `UseSafeMathPass::runOnFunction` on `main`. -/
def runOnFunction (f : NamedMain B) : Option (NamedMain B) := (positions f).foldlM visit f

/-! ## §3 — `detectBug`. -/

/-- A block with a storage write or an external call can be reached. -/
def Reaches (c : Cfg B) (b : Option B) : Prop := ∃ d, ReflTransGen c.Edge b d ∧ goal c d = true

theorem found_iff (c : Cfg B) (start : Option B) : (searchFor (goal c) c start []).found = true ↔
    Reaches c start := by
  have hexp₀ : Lib.Explored c.Edge (fun b => goal c b = true) (fun _ => False)
      (fun b => ∃ d ∈ ([] : List B), b = some d) [] := Lib.Explored.start (by simp)
  rcases searchFor_result start hexp₀ with ⟨hfound, hreach⟩ | ⟨hfound, done, _, hstart, hexp⟩
  · exact ⟨fun _ => hreach, fun _ => hfound⟩
  · constructor
    · intro h
      rw [hfound] at h
      cases h
    · rintro ⟨d, hreach, hgoal⟩
      exact absurd hgoal (hexp.complete hstart hreach)

theorem detectBug_eq_some_iff (c : Cfg B) (start : Option B) (r : Bool) :
    detectBug c start = some r ↔ r = true ∧ Reaches c start := by
  rw [← found_iff, detectBug]
  cases (searchFor (goal c) c start []).found with
  | false => simp
  | true => simp [Eq.comm]

theorem detectBug_eq_none_iff (c : Cfg B) (start : Option B) : detectBug c start = none ↔
    ¬ Reaches c start := by
  rw [← found_iff, detectBug]
  cases (searchFor (goal c) c start []).found <;> simp

/-! ## §4 — the rewritten function. -/

omit [DecidableEq B] in
/-- A replaced operator is still neither a storage write nor an external call. -/
theorem isStoreOrCall_replaceInst (inst : NamedInst) :
    isStoreOrCall (replaceInst inst).operandNames = isStoreOrCall inst.operandNames := by
  cases inst with
  | other name operands => rfl
  | binary opcode name lhs rhs =>
    by_cases h : isUnsafe name = true
    · cases opcode <;> simp [replaceInst, h, helperName, NamedInst.operandNames, isStoreOrCall,
        isStorageStore, isExtCall]
    · simp [replaceInst, h]

omit [DecidableEq B] in
theorem any_modify_replaceInst (insts : List NamedInst) (i : Nat) :
    ((insts.modify i replaceInst).map NamedInst.operandNames).any isStoreOrCall =
      (insts.map NamedInst.operandNames).any isStoreOrCall := by
  induction insts generalizing i with
  | nil => simp
  | cons inst insts ih =>
    cases i with
    | zero => simp [isStoreOrCall_replaceInst]
    | succ i =>
      rw [List.modify_succ_cons, List.map_cons, List.any_cons, ih, List.map_cons, List.any_cons]

theorem goal_replaceAt (f : NamedMain B) (p : Option B × Nat) (b : Option B) :
    goal (replaceAt f p).cfg b = goal f.cfg b := by
  show ((if b = p.1 then (f.insts b).modify p.2 replaceInst else f.insts b).map _).any _ = _
  split
  · exact any_modify_replaceInst (f.insts b) p.2
  · rfl

theorem reaches_replaceAt (f : NamedMain B) (p : Option B × Nat) (b : Option B) :
    Reaches (replaceAt f p).cfg b ↔ Reaches f.cfg b :=
  exists_congr fun d => and_congr Iff.rfl (by rw [goal_replaceAt])

/-- The pass is defined when every instruction visited has something to find, and then visits them
all. -/
theorem visits_eq_some_iff (ps : List (Option B × Nat)) (f g : NamedMain B) :
    ps.foldlM visit f = some g ↔ (∀ p ∈ ps, Reaches f.cfg p.1) ∧ ps.foldl replaceAt f = g := by
  induction ps generalizing f with
  | nil => simp
  | cons p ps ih =>
    rw [List.foldlM_cons, List.foldl_cons, List.forall_mem_cons]
    by_cases hreach : Reaches f.cfg p.1
    · have hvisit : visit f p = some (replaceAt f p) := by
        rw [visit, (detectBug_eq_some_iff f.cfg p.1 true).mpr ⟨rfl, hreach⟩]
      rw [hvisit, Option.bind_eq_bind, Option.bind_some, ih]
      simp only [reaches_replaceAt, hreach, true_and]
    · have hvisit : visit f p = none := by
        rw [visit, (detectBug_eq_none_iff f.cfg p.1).mpr hreach]
      simp [hvisit, hreach]

omit [DecidableEq B] in
theorem replaceInst_idem (inst : NamedInst) :
    replaceInst (replaceInst inst) = replaceInst inst := by
  cases inst with
  | other name operands => rfl
  | binary opcode name lhs rhs =>
    by_cases h : isUnsafe name = true
    · cases opcode <;> simp [replaceInst, h, helperName]
    · simp [replaceInst, h]

theorem getElem?_replaceAt (f : NamedMain B) (p : Option B × Nat) (b : Option B) (i : Nat) :
    ((replaceAt f p).insts b)[i]? =
      if (b, i) = p then ((f.insts b)[i]?).map replaceInst else (f.insts b)[i]? := by
  obtain ⟨b', i'⟩ := p
  show (if b = b' then (f.insts b).modify i' replaceInst else f.insts b)[i]? = _
  by_cases hb : b = b'
  · subst hb
    rw [if_pos rfl, List.getElem?_modify]
    by_cases hi : i' = i
    · simp [hi]
    · have hne : (b, i) ≠ (b, i') := fun h => hi (congrArg Prod.snd h).symm
      rw [if_neg hne]
      simp [hi]
  · have hne : (b, i) ≠ (b', i') := fun h => hb (congrArg Prod.fst h)
    rw [if_neg hb, if_neg hne]

/-- Every instruction visited is replaced, once. -/
theorem getElem?_visited (ps : List (Option B × Nat)) (f : NamedMain B) (b : Option B) (i : Nat) :
    ((ps.foldl replaceAt f).insts b)[i]? =
      if (b, i) ∈ ps then ((f.insts b)[i]?).map replaceInst else (f.insts b)[i]? := by
  induction ps generalizing f with
  | nil => simp
  | cons p ps ih =>
    rw [List.foldl_cons, ih, getElem?_replaceAt]
    by_cases hp : (b, i) = p
    · have hmem : (b, i) ∈ p :: ps := List.mem_cons.mpr (Or.inl hp)
      rw [if_pos hp, if_pos hmem]
      split
      · -- visited again further on: a call of a helper is not replaced
        rw [Option.map_map]
        congr 1
        funext inst
        exact replaceInst_idem inst
      · rfl
    · simp only [List.mem_cons, hp, if_false, false_or]

omit [DecidableEq B] in
theorem mem_positions {f : NamedMain B} {b : Option B} {i : Nat} :
    (b, i) ∈ positions f ↔ f.cfg.Block b ∧ i < (f.insts b).length := by
  simp only [positions, List.mem_flatMap, List.mem_map, List.mem_range, Prod.mk.injEq, Cfg.Block,
    NamedMain.cfg]
  constructor
  · rintro ⟨b', hb, i', hi, rfl, rfl⟩
    exact ⟨hb, hi⟩
  · rintro ⟨hb, hi⟩
    exact ⟨b, hb, i, hi, rfl, rfl⟩

/-! ## §5 — what the pass promises, and when it keeps the promise. -/

omit [DecidableEq B] in
/-- A storage write or an external call can follow the instruction `i` of block `b`: later in the
block, or in a block reached from one of its successors. -/
def CanFollow (f : NamedMain B) (b : Option B) (i : Nat) : Prop :=
  (∃ inst ∈ (f.insts b).drop (i + 1), isStoreOrCall inst.operandNames = true) ∨
    ∃ d, f.cfg.Edge b d ∧ Reaches f.cfg d

omit [DecidableEq B] in
/-- Position `i` of block `b` holds an operation named `unsafe`. -/
def UnsafeAt (f : NamedMain B) (b : Option B) (i : Nat) (opcode : BinaryOpcode) : Prop :=
  f.cfg.Block b ∧ ∃ name lhs rhs, isUnsafe name = true ∧
  (f.insts b)[i]? = some (.binary opcode name lhs rhs)

/-- The answer of `detectBug` is the right one. -/
def Correct (c : Cfg B) (start : Option B) : Prop :=
  (∃ fuel, searchRound (goal c) c (Lib.whileLoop (searchRound (goal c) c) fuel ⟨[start], [],
    false⟩) = none) ∧ (Reaches c start → detectBug c start = some true) ∧ (¬ Reaches c start →
    detectBug c start = some false)

/-- The operations named `unsafe` that are replaced are those that a write or a call can follow. -/
def ReplacesExactly (f : NamedMain B) : Prop :=
  ∃ g, runOnFunction f = some g ∧
    ∀ b i opcode, UnsafeAt f b i opcode → ((g.insts b)[i]? ≠ (f.insts b)[i]? ↔ CanFollow f b i)

theorem correct_iff (c : Cfg B) (start : Option B) : Correct c start ↔ Reaches c start := by
  constructor
  · rintro ⟨_, _, hfalse⟩
    by_contra hreach
    rw [(detectBug_eq_none_iff c start).mpr hreach] at hfalse
    cases hfalse hreach
  · intro hreach
    exact ⟨⟨_, searchFor_exits start []⟩, fun _ => (detectBug_eq_some_iff c start true).mpr
      ⟨rfl, hreach⟩, fun h => absurd hreach h⟩

omit [DecidableEq B] in
theorem replaceInst_ne_iff (opcode : BinaryOpcode) {name : String} (lhs rhs : String)
    (h : isUnsafe name = true) :
    replaceInst (.binary opcode name lhs rhs) ≠ .binary opcode name lhs rhs ↔
    (helperName opcode).isSome = true := by
  cases opcode <;> simp [replaceInst, h, helperName]

theorem replacesExactly_iff (f : NamedMain B) : ReplacesExactly f ↔
    (∀ b, f.cfg.Block b → f.insts b ≠ [] → Reaches f.cfg b) ∧
      ∀ b i opcode, UnsafeAt f b i opcode →
        ((helperName opcode).isSome = true ↔ CanFollow f b i) := by
  -- `visits` gives up at the first block without an answer, so every block with an instruction
  -- needs one
  have hdefined : (∀ p ∈ positions f, Reaches f.cfg p.1) ↔
      ∀ b, f.cfg.Block b → f.insts b ≠ [] → Reaches f.cfg b := by
    constructor
    · intro h b hb hne
      exact h (b, 0) (mem_positions.mpr ⟨hb, List.length_pos_iff.mpr hne⟩)
    · rintro h ⟨b, i⟩ hp
      obtain ⟨hb, hi⟩ := mem_positions.mp hp
      exact h b hb (List.ne_nil_of_length_pos (Nat.zero_lt_of_lt hi))
  have hreplaced : ∀ b i opcode, UnsafeAt f b i opcode →
      ((((positions f).foldl replaceAt f).insts b)[i]? ≠ (f.insts b)[i]? ↔
        (helperName opcode).isSome = true) := by
    rintro b i opcode ⟨hb, name, lhs, rhs, hname, hinst⟩
    have hi : i < (f.insts b).length := (List.getElem?_eq_some_iff.mp hinst).1
    rw [getElem?_visited, if_pos (mem_positions.mpr ⟨hb, hi⟩), hinst, Option.map_some, Ne,
      Option.some_inj]
    exact replaceInst_ne_iff opcode lhs rhs hname
  unfold ReplacesExactly runOnFunction
  constructor
  · rintro ⟨g, hrun, hexact⟩
    obtain ⟨hreach, rfl⟩ := (visits_eq_some_iff _ f g).mp hrun
    exact ⟨hdefined.mp hreach, fun b i opcode hunsafe =>
      (hreplaced b i opcode hunsafe).symm.trans (hexact b i opcode hunsafe)⟩
  · rintro ⟨hreach, hops⟩
    exact ⟨_, (visits_eq_some_iff _ f _).mpr ⟨hdefined.mpr hreach, rfl⟩, fun b i opcode hunsafe =>
      (hreplaced b i opcode hunsafe).trans (hops b i opcode hunsafe)⟩

/-- **`UseSafeMathPass`**: `detectBug` gives the right answer exactly where that answer is yes, and
the pass replaces the right operations exactly when every block of `main` has something to reach and
the operations named `unsafe` that have a helper are those that a write or a call can follow. -/
theorem useSafeMath_iff (c : Cfg B) (f : NamedMain B) :
    (∀ start, Correct c start ↔ Reaches c start) ∧
      (ReplacesExactly f ↔
        (∀ b, f.cfg.Block b → f.insts b ≠ [] → Reaches f.cfg b) ∧
          ∀ b i opcode, UnsafeAt f b i opcode →
            ((helperName opcode).isSome = true ↔ CanFollow f b i)) :=
  ⟨correct_iff c, replacesExactly_iff f⟩

/-- A function of one block that only returns. -/
def returnsOnly : Cfg Empty where
  operands _ := [[]]
  succs _ := []
  body := []
  succs_mem := nofun

/-- Nothing is reachable in it, and the answer is not `false`. -/
theorem returnsOnly_not_false :
    ¬ Reaches returnsOnly none ∧ detectBug returnsOnly none ≠ some false := by
  refine ⟨?_, by decide⟩
  rw [← detectBug_eq_none_iff]
  decide

end UseSafeMathPass

end EvmTrans.Llvm
