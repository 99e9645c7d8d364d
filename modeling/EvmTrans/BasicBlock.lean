/-
# `EvmTrans.BasicBlock` — `BasicBlock`, its stack demand `ctxDep`, and `createBasicBlocks`.

A `BasicBlock` of the translator is a byte range with two numbers attached: `m_stk_in`, the words
the block takes from below, and `m_stk_out`, the words it leaves. `createBasicBlocks` cuts the code
in one pass that interleaves push-data skipping, a dead-code flag and two end conditions.

The loops are the source's, run on a `fuel` that counts bytes: every iteration moves at least one
byte forward, so the length of the range is always enough (`createBasicBlocks_spec` in
`EvmTrans.BlockPartition` is proved for any fuel that covers the rest of the code).
-/
import EvmTrans.Instruction

namespace EvmTrans

/-- `class BasicBlock`. A `BasicBlock*` is the block's index in the vector of all blocks; `bbs_to`
holds a `nullptr` (`none`) for an edge that `dry_run` could not place. -/
structure BasicBlock where
  firstInstrIdx : Nat
  endIdx : Nat
  stkIn : Nat
  stkOut : Nat
  bbsFrom : List Nat
  bbsTo : List (Option Nat)
  deriving DecidableEq, Repr, Inhabited

/-- The loop of `ctxDep` over the instructions in `[it, stop)`: `prev` is `prev_s`, `curr` is
`curr_s`. -/
def ctxDepLoop (code : List Byte) (stop : Nat) : Nat → Nat → Nat → Nat → Nat × Nat
  | 0, _, prev, curr => (prev, curr)
  | fuel + 1, it, prev, curr =>
    if it = stop then (prev, curr)
    else
      let out := (instAt code it).stkOut
      let inn := (instAt code it).stkIn
      let next := skipPushDataAndGetNext code it stop
      if out ≤ curr then ctxDepLoop code stop fuel next prev (curr - out + inn)
      else ctxDepLoop code stop fuel next (prev + (out - curr)) inn

/-- `BasicBlock::ctxDep()`: the pair `(m_stk_in, m_stk_out)` of the range `[first, stop)`. -/
def ctxDep (code : List Byte) (first stop : Nat) : Nat × Nat :=
  ctxDepLoop code stop (stop - first) first 0 0

/-- The constructor `BasicBlock(beginIdx, begin, end, mainFunc)`. -/
def mkBasicBlock (code : List Byte) (first stop : Nat) : BasicBlock where
  firstInstrIdx := first
  endIdx := stop
  stkIn := (ctxDep code first stop).1
  stkOut := (ctxDep code first stop).2
  bbsFrom := []
  bbsTo := []

@[simp] theorem mkBasicBlock_firstInstrIdx (code : List Byte) (a b : Nat) :
    (mkBasicBlock code a b).firstInstrIdx = a := rfl

@[simp] theorem mkBasicBlock_endIdx (code : List Byte) (a b : Nat) :
    (mkBasicBlock code a b).endIdx = b := rfl

/-- The loop of `createBasicBlocks`. `begin` is the source's variable of that name: the start of the
block being collected, meaningless while `isDead`. -/
def createBasicBlocksLoop (code : List Byte) : Nat → Nat → Nat → Bool → List BasicBlock
  | 0, _, _, _ => []
  | fuel + 1, curr, begin, isDead =>
    if curr = code.length then []
    else
      let next := skipPushDataAndGetNext code curr code.length
      let inst := instAt code curr
      if isDead && inst != .JUMPDEST then createBasicBlocksLoop code fuel next begin true
      else
        let begin := if isDead then curr else begin
        let isEnd := inst.endsBlock || next == code.length || instAt code next == .JUMPDEST
        if isEnd then
          mkBasicBlock code begin next :: createBasicBlocksLoop code fuel next next inst.kills
        else createBasicBlocksLoop code fuel next begin false

/-- `WASMCompiler::createBasicBlocks(_codeBegin, _codeEnd)`. -/
def createBasicBlocks (code : List Byte) : List BasicBlock :=
  createBasicBlocksLoop code code.length 0 0 false

/-- `createBasicBlocks` records no edges. -/
theorem createBasicBlocksLoop_edges {code : List Byte} : ∀ (fuel curr begin : Nat) (isDead : Bool),
    ∀ b ∈ createBasicBlocksLoop code fuel curr begin isDead, b.bbsTo = [] ∧ b.bbsFrom = [] := by
  intro fuel
  induction fuel with
  | zero => intro curr begin isDead b hb; exact absurd hb List.not_mem_nil
  | succ fuel ih =>
    intro curr begin isDead b hb
    unfold createBasicBlocksLoop at hb
    split at hb
    · exact absurd hb List.not_mem_nil
    · dsimp only at hb
      split at hb
      · exact ih _ _ _ b hb
      · split at hb
        · rcases List.mem_cons.mp hb with rfl | hb
          · exact ⟨rfl, rfl⟩
          · exact ih _ _ _ b hb
        · exact ih _ _ _ b hb

theorem createBasicBlocks_edges {code : List Byte} {i : Nat} {b : BasicBlock}
    (hb : (createBasicBlocks code)[i]? = some b) : b.bbsTo = [] ∧ b.bbsFrom = [] :=
  createBasicBlocksLoop_edges _ _ _ _ b (List.mem_of_getElem? hb)

end EvmTrans
