/-
# `EvmTrans.ReentrancyPass` — `EstimateReenrancePass`: the search for a store after a call, and the
mutex.

`detectBug` looks for a call of `ethereum.call` from which a call of `ethereum.storageStore` can be
reached: first inside each block, then by a depth-first search of the control flow whose `visited`
list all the searches share. When it answers yes, `runOnFunction` puts a mutex around `main`:

    mutex.slot.ptr <- 0xfffffff; storageLoad; if the value is not 0: unreachable
    value <- 1; storageStore                              -- lock
    … the code of `main`, and before every call of `finish` or `revert` with three operands:
    value <- 0; storageStore                              -- unlock

The slot and the value are `i256` cells in linear memory and are handed over WITHOUT a byte swap. So
the path that the host sees is not the one of `SSTORE(0xfffffff, …)`: its thirty-two bytes are the
little-endian ones.
-/
import EvmTrans.MainFunction
import EvmTrans.Lib.Loop

namespace EvmTrans.Llvm

open Lib (leBytes ofLE length_leBytes whileLoop)

variable {L B : Type}

/-! ## §1 — `detectBug`. -/

/-- `operandsNum == 6 && getOperand(5)->getName() == "ethereum.call"`. -/
def isExtCall (operands : List String) : Bool :=
  operands.length == 6 && operands[5]? == some "ethereum.call"

/-- `operandsNum == 3 && getOperand(2)->getName() == "ethereum.storageStore"`. -/
def isStorageStore (operands : List String) : Bool :=
  operands.length == 3 && operands[2]? == some "ethereum.storageStore"

/-- The scan of one block for a call with a later store; `none` is `return true`. Every call found
is kept in `extCallList`, by its block. -/
def scanBlock (parent : Option B) : List (List String) → Bool → List (Option B) →
    Option (List (Option B))
  | [], _, extCallList => some extCallList
  | operands :: rest, foundExtCall, extCallList =>
    if isExtCall operands then scanBlock parent rest true (extCallList ++ [parent])
    else if foundExtCall && isStorageStore operands then none
    else scanBlock parent rest foundExtCall extCallList

/-- What the search reads of a function: the operands of the instructions of each block (`none` is
the entry), its successors, and the other blocks in the order of the function. -/
structure Cfg (B : Type) where
  operands : Option B → List (List String)
  succs : Option B → List B
  body : List B
  succs_mem : ∀ b c, c ∈ succs b → c ∈ body

/-- The state of the search: the stack of blocks, and the blocks pushed so far. -/
structure Search (B : Type) where
  fifo : List (Option B)
  visited : List B
  found : Bool

/-- The successors of the block just taken off the stack. -/
def pushSuccessors [DecidableEq B] (s : Search B) (succs : List B) : Search B :=
  succs.foldl (fun s successor =>
    if successor ∈ s.visited then s
    else { s with fifo := some successor :: s.fifo, visited := s.visited ++ [successor] }) s

/-- One round of the search. -/
def searchStep [DecidableEq B] (c : Cfg B) (s : Search B) : Option (Search B) :=
  if s.found then none
  else
    match s.fifo with
    | [] => none
    | dnode :: fifo =>
      if (c.operands dnode).any isStorageStore then some { s with fifo := fifo, found := true }
      else some (pushSuccessors { s with fifo := fifo } (c.succs dnode))

/-- The searches from the calls found. A block is pushed at most once, so the fuel covers a
search. -/
def searchFrom [DecidableEq B] (c : Cfg B) : List (Option B) → List B → Bool
  | [], _ => false
  | extCall :: extCallList, visited =>
    let s := whileLoop (searchStep c) (c.body.length + 2) ⟨[extCall], visited, false⟩
    if s.found then true else searchFrom c extCallList s.visited

/-- `EstimateReenrancePass::detectBug`. -/
def detectBug [DecidableEq B] (c : Cfg B) : Bool :=
  match (none :: c.body.map some).foldlM
    (fun extCallList b => scanBlock b (c.operands b) false extCallList) [] with
  | none => true
  | some extCallList => searchFrom c extCallList []

/-- The search sees no other operands than those of the two calls. -/
def Cfg.patterns (c : Cfg B) : Cfg B :=
  { c with operands := fun b => (c.operands b).filter fun operands => isExtCall operands ||
    isStorageStore operands }

theorem scanBlock_filter (parent : Option B) (code : List (List String)) (foundExtCall : Bool)
    (extCallList : List (Option B)) :
    scanBlock parent (code.filter fun operands => isExtCall operands || isStorageStore operands)
      foundExtCall extCallList = scanBlock parent code foundExtCall extCallList := by
  induction code generalizing foundExtCall extCallList with
  | nil => rfl
  | cons operands rest ih =>
    cases hcall : isExtCall operands with
    | true => simp only [List.filter_cons, hcall, Bool.true_or, if_true, scanBlock, ih]
    | false =>
      cases hstore : isStorageStore operands with
      | true => simp only [List.filter_cons, hcall, hstore, Bool.or_true, if_true, scanBlock, ih]
      | false => simp [hcall, hstore, scanBlock, ih]

theorem searchStep_patterns [DecidableEq B] (c : Cfg B) : searchStep c.patterns = searchStep c := by
  funext s
  have hany (b : Option B) :
      (c.patterns.operands b).any isStorageStore = (c.operands b).any isStorageStore := by
    show List.any (List.filter _ _) _ = _
    rw [List.any_filter]
    refine congrArg (List.any _) (funext fun operands => ?_)
    cases isStorageStore operands <;> simp
  unfold searchStep
  split
  · rfl
  · split
    · rfl
    · rw [hany]
      rfl

theorem detectBug_patterns [DecidableEq B] (c : Cfg B) : detectBug c.patterns = detectBug c := by
  have hscan : (fun extCallList b => scanBlock b (c.patterns.operands b) false extCallList) =
      fun extCallList b => scanBlock b (c.operands b) false extCallList :=
    funext fun extCallList => funext fun b => scanBlock_filter b _ false extCallList
  have hsearch (extCallList : List (Option B)) (visited : List B) :
      searchFrom c.patterns extCallList visited = searchFrom c extCallList visited := by
    induction extCallList generalizing visited with
    | nil => rfl
    | cons extCall extCallList ih =>
      simp only [searchFrom, searchStep_patterns, ih]
      rfl
  have hbody : c.patterns.body = c.body := rfl
  unfold detectBug
  rw [hscan, hbody]
  cases (none :: c.body.map some).foldlM
    (fun extCallList b => scanBlock b (c.operands b) false extCallList) [] with
  | none => rfl
  | some extCallList => exact hsearch extCallList []

/-- The control flow graph of a function. -/
def Function.cfg (f : Function (Instr L) L B) : Cfg B where
  operands b := (f.at b).code.map Instr.operandNames
  succs b := (f.at b).succs
  body := f.body
  succs_mem _ c _ := f.mem_body c

/-! ## §2 — the rewritten function. -/

/-- The bytes of an `i256` cell, as the host reads them. -/
def memBytes (w : Word) : Bytes32 := ⟨leBytes 32 w.toNat, length_leBytes 32 _⟩

/-- The `i256` that bytes written by the host denote. -/
def memWord (b : Bytes32) : Word := BitVec.ofNat 256 (ofLE b.bytes)

/-- `llvm::ConstantInt::get(Type::Int256Ty, 0xfffffff)`. -/
def mutexAddress : Word := 0xfffffff

/-- **The storage slot of the mutex.** -/
def mutexSlot : Bytes32 := memBytes mutexAddress

/-- The local state of the rewritten function: what `main` had, the cells `mutex.slot.ptr` and
`mutex.value.ptr`, and the register `reentrancy.check`. The cells are two `alloca` of the pass: at
the level of the module no write of `main` reaches them, and what is said of the mutex supposes that
none does after linking. -/
structure Guarded (L : Type) where
  inner : L
  slot : Word
  value : Word
  check : Bool

/-- The instructions of the rewritten function: those inserted, and those of `main`. -/
inductive GuardInstr (L : Type) where
  | storeSlot
  | loadMutex
  | icmpNE
  | storeValue (v : Word)
  | storeMutex
  | original (i : Instr L)

/-- The blocks of the rewritten function besides the entry: the one that `SplitBlockAndInsertIfThen`
ends in `unreachable`, the rest of the entry of `main`, and the other blocks of `main`. -/
inductive GuardLabel (B : Type) where
  | locked
  | tail
  | code (b : B)
  deriving DecidableEq, Repr

/-- What the host sees of an instruction. -/
def GuardInstr.effect (i : GuardInstr L) (l : Guarded L) : Effect (Guarded L) :=
  match i with
  | .storeSlot => .internal { l with slot := mutexAddress }
  | .loadMutex => .storageLoad (memBytes l.slot) fun b => some { l with value := memWord b }
  | .icmpNE => .internal { l with check := l.value != 0 }
  | .storeValue v => .internal { l with value := v }
  | .storeMutex => .storageStore (memBytes l.slot) (memBytes l.value) l
  | .original i => (i.effect l.inner).map fun inner => { l with inner := inner }

/-- `operandsNum == 3 && (name == "ethereum.finish" || name == "ethereum.revert")`, of the last
operand. -/
def isTerminator (operands : List String) : Bool :=
  operands.length == 3 &&
    (operands[2]? == some "ethereum.finish" || operands[2]? == some "ethereum.revert")

/-- The code of a block, with the mutex released before every terminator of the list. -/
def unlockBeforeTerminators : List (Instr L) → List (GuardInstr L)
  | [] => []
  | i :: is =>
    if isTerminator i.operandNames then
      .storeValue 0 :: .storeMutex :: .original i :: unlockBeforeTerminators is
    else .original i :: unlockBeforeTerminators is

/-- A block of `main` in the rewritten function, behind the code `pre`. -/
def guardBlock (pre : List (GuardInstr L)) (b : Block (Instr L) L B) :
    Block (GuardInstr L) (Guarded L) (GuardLabel B) where
  code := pre ++ unlockBeforeTerminators b.code
  succs := b.succs.map .code
  next l := (b.next l.inner).map .code
  next_mem l c h := by
    obtain ⟨b', hb', rfl⟩ := Option.map_eq_some_iff.mp h
    exact List.mem_map_of_mem (b.next_mem _ _ hb')

/-- `main` with the mutex. -/
def insertMutex (f : Function (Instr L) L B) :
    Function (GuardInstr L) (Guarded L) (GuardLabel B) where
  entry :=
    { code := [.storeSlot, .loadMutex, .icmpNE]
      succs := [.locked, .tail]
      next := fun l => some (if l.check then .locked else .tail)
      next_mem := by intro l b h; cases h; split <;> simp }
  block
    | .locked => { code := [], succs := [], next := fun _ => none, next_mem := nofun }
    | .tail => guardBlock [.storeValue 1, .storeMutex] f.entry
    | .code b => guardBlock [] (f.block b)
  body := .locked :: .tail :: f.body.map .code
  mem_body
    | .locked => by simp
    | .tail => by simp
    | .code b => by simp [f.mem_body b]

/-- What `runOnFunction` leaves: whether it reports a modification, and the function, as it was or
rewritten. -/
structure PassResult (L B : Type) where
  modified : Bool
  function : Function (Instr L) L B ⊕ Function (GuardInstr L) (Guarded L) (GuardLabel B)

/-- `EstimateReenrancePass::runOnFunction`. A function without terminators is rewritten and reported
as not modified. -/
def runOnFunction [DecidableEq B] (name : String) (f : Function (Instr L) L B) : PassResult L B :=
  if name != "main" then ⟨false, .inl f⟩
  else if !detectBug f.cfg then ⟨false, .inl f⟩
  else
    ⟨(none :: f.body.map some).any fun b => (f.cfg.operands b).any isTerminator,
      .inr (insertMutex f)⟩

/-! ## §3 — what the pass recognises, and what it inserts. -/

/-- **The terminators of the list are the calls of `finish` and `revert`, and no others**:
`selfDestruct` has two operands. -/
theorem isTerminator_iff (i : Instr L) :
    isTerminator i.operandNames = true ↔ (∃ out, i = .finish out) ∨ ∃ out, i = .revert out := by
  cases i with
  | internal operands exec =>
    simp [isTerminator, Instr.operandNames, List.getElem?_replicate]
  | query fn args ret =>
    cases fn <;> simp [isTerminator, Instr.operandNames, callOperands, HostQuery.params,
      HostQuery.name]
  | call fn args ret =>
    cases fn <;> simp [isTerminator, Instr.operandNames, callOperands, ExtCall.params]
  | _ => simp [isTerminator, Instr.operandNames, callOperands, List.replicate]

theorem runOnFunction_main [DecidableEq B] (f : Function (Instr L) L B) :
    (runOnFunction "main" f).function =
      if detectBug f.cfg then .inr (insertMutex f) else .inl f := by
  rw [runOnFunction, if_neg (by decide)]
  cases detectBug f.cfg <;> rfl

/-- A function that the pass has rewritten is `main` with the mutex. -/
theorem eq_insertMutex [DecidableEq B] {name : String} {f : Function (Instr L) L B}
    {g : Function (GuardInstr L) (Guarded L) (GuardLabel B)}
    (h : (runOnFunction name f).function = .inr g) : g = insertMutex f := by
  unfold runOnFunction at h
  split at h
  · cases h
  · split at h
    · cases h
    · exact (Sum.inr.inj h).symm

theorem memWord_memBytes (w : Word) : memWord (memBytes w) = w := by
  apply BitVec.eq_of_toNat_eq
  have hlt : w.toNat < 256 ^ 32 := by rw [two_pow_word]; exact w.isLt
  rw [memWord, memBytes, BitVec.toNat_ofNat, Lib.ofLE_leBytes, Nat.mod_eq_of_lt hlt,
    Nat.mod_eq_of_lt w.isLt]

theorem memBytes_memWord (b : Bytes32) : memBytes (memWord b) = b := by
  apply FixedBytes.ext
  have hlt := Lib.ofLE_lt b.bytes
  have hle := Lib.leBytes_ofLE b.bytes
  rw [b.length_eq] at hlt hle
  rw [two_pow_word] at hlt
  have hword : (memWord b).toNat = ofLE b.bytes := by
    rw [memWord, BitVec.toNat_ofNat, Nat.mod_eq_of_lt hlt]
  show leBytes 32 (memWord b).toNat = b.bytes
  rw [hword, hle]

@[simp] theorem memBytes_zero : memBytes 0 = Bytes32.of 0 := by decide

/-- The guard's test is a test of the bytes that the host keeps. -/
theorem memWord_eq_zero_iff (b : Bytes32) : memWord b = 0 ↔ b = Bytes32.of 0 := by
  constructor
  · intro h
    rw [← memBytes_memWord b, h, memBytes_zero]
  · rintro rfl
    rw [← memBytes_zero, memWord_memBytes]

theorem memBytes_one_ne : memBytes 1 ≠ Bytes32.of 0 := by decide

/-! ## §4 — where the rewritten function goes on. -/

/-- A `main` with the mutex, and a point of it. -/
abbrev GuardedMain (L B : Type) := Function (GuardInstr L) (Guarded L) (GuardLabel B)

@[inherit_doc GuardedMain]
abbrev GuardPoint (L B : Type) := Point (GuardInstr L) (Guarded L) (GuardLabel B)

/-- What an activation of the rewritten function does next. -/
abbrev GuardedMain.next (g : GuardedMain L B) (p : GuardPoint L B) : Effect (GuardPoint L B) :=
  Function.next GuardInstr.effect g p

/-- Where the code of `main` goes on, the cells of the mutex do not change. -/
def Guarded.with (l : Guarded L) (inner : L) : Guarded L := { l with inner := inner }

theorem Effect.map_map {P Q R : Type} (f : P → Q) (h : Q → R) (e : Effect P) :
    (e.map f).map h = e.map fun p => h (f p) := by
  cases e <;> simp [Effect.map, Function.comp_def]

theorem next_original (g : GuardedMain L B) (b : Option (GuardLabel B)) (i : Instr L)
    (rest : List (GuardInstr L)) (l : Guarded L) :
    g.next ⟨b, .original i :: rest, l⟩ = (i.effect l.inner).map fun x => ⟨b, rest, l.with x⟩ :=
  Effect.map_map _ _ _

/-- The block of `main` that a block of the rewritten function ends like. -/
def GuardLabel.source : GuardLabel B → Option (Option B)
  | .locked => none
  | .tail => some none
  | .code b => some (some b)

/-- The end of a block of `main`: the rewritten function goes to the rewritten successor. -/
theorem next_blockEnd {f : Function (Instr L) L B} {b : GuardLabel B} {b₀ : Option B}
    (hb : b.source = some b₀) (l : Guarded L) :
    GuardedMain.next (insertMutex f) ⟨some b, [], l⟩ =
      match (f.at b₀).next l.inner with
      | some c => .internal ⟨some (.code c), unlockBeforeTerminators (f.block c).code, l⟩
      | none => .trap := by
  have hgo : ((insertMutex f).at (some b)).next l = ((f.at b₀).next l.inner).map .code := by
    cases b with
    | locked => cases hb
    | tail => cases hb; rfl
    | code b => cases hb; rfl
  rw [GuardedMain.next, Function.next, hgo]
  cases (f.at b₀).next l.inner <;> rfl

theorem exists_source {b : GuardLabel B} (hb : b ≠ .locked) : ∃ b₀, b.source = some b₀ := by
  cases b with
  | locked => exact absurd rfl hb
  | tail => exact ⟨none, rfl⟩
  | code b => exact ⟨some b, rfl⟩

end EvmTrans.Llvm
