/-
# `EvmTrans.DryRun` — `dry_run`: the control-flow edges that the register allocation relies on.

`dry_run` walks the blocks depth first, runs each once on a stack of known push values, and records
the jumps it can place in `bbs_to` / `bbs_from`. The walk is a GUESS: it misreads `SWAPn` by one,
takes the last BYTE of a block for its last instruction, and never records a plain fall-through.
What `compileMain` may rely on is therefore only what `EdgeInv` states — every recorded edge is
recorded on both sides, and an edge into a block that does not open with `JUMPDEST` comes from the
block in front.
-/
import EvmTrans.BlockPartition
import EvmTrans.Lib.Loop

namespace EvmTrans

open Lib (whileLoop whileLoop_inv whileLoop_exits pending pending_mark pending_none)

/-! ## §1 — one block on a stack of known values. -/

/-- The lambda `balanced_stk(stk, out, in)`; the head of the list is the back of the vector. Popping
an empty vector pushes a zero first, so it stays empty. -/
def balancedStk (stk : List Nat) (out inn : Nat) : List Nat :=
  List.replicate inn 0 ++ stk.drop out

/-- The loop of `dry_run_bb` over `[it, stop)`. -/
def dryRunBbLoop (code : List Byte) (stop : Nat) : Nat → Nat → List Nat → List Nat
  | 0, _, stk => stk
  | fuel + 1, it, stk =>
    if it = stop then stk
    else
      let inst := instAt code it
      match inst with
      | .PUSH _ =>
        let r := readPushData code it stop
        -- `getActiveBits() <= 64`
        let v := if r.1.toNat < 2 ^ 64 then r.1.toNat else 0
        dryRunBbLoop code stop fuel (r.2 + 1) (v :: stk)
      | .STOP | .JUMP | .JUMPI => stk
      | .DUP n => dryRunBbLoop code stop fuel (it + 1) (stk.getD (n - 1) 0 :: stk)
      | .SWAP n =>
        -- the source's `depth = opcode - 0x8e` is `n + 1`, one deeper than the EVM's partner
        if stk.length > n + 1 then
          dryRunBbLoop code stop fuel (it + 1)
            ((stk.set (n + 1) (stk.getD 0 0)).set 0 (stk.getD (n + 1) 0))
        else dryRunBbLoop code stop fuel (it + 1) stk
      | .RETURN | .REVERT | .SUICIDE => balancedStk stk inst.stkOut inst.stkIn
      | _ => dryRunBbLoop code stop fuel (it + 1) (balancedStk stk inst.stkOut inst.stkIn)

/-- `WASMCompiler::dry_run_bb(bb, stack)`. -/
def dryRunBb (code : List Byte) (bb : BasicBlock) (stk : List Nat) : List Nat :=
  dryRunBbLoop code bb.endIdx (bb.endIdx - bb.firstInstrIdx) bb.firstInstrIdx stk

/-! ## §2 — the walk. -/

/-- The variables of `dry_run`: the blocks with their edges, the stack `dfs` (its back is the head
of the list; `none` is `nullptr`) and the set `visited`. -/
structure DryRun where
  blocks : List BasicBlock
  dfs : List (Option Nat × List Nat)
  visited : List Nat

/-- `idxMap.find(pc)`. -/
def idxMapFind (blocks : List BasicBlock) (pc : Nat) : Option Nat :=
  blocks.findIdx? fun b => b.firstInstrIdx == pc

/-- `p->bbs_to.push_back(q); q->bbs_from.push_back(p)`. -/
def addEdge (blocks : List BasicBlock) (p q : Nat) : List BasicBlock :=
  (blocks.modify p fun b => { b with bbsTo := b.bbsTo ++ [some q] }).modify q
    fun b => { b with bbsFrom := b.bbsFrom ++ [p] }

/-- `p->bbs_to.push_back(nullptr)`. -/
def addNullEdge (blocks : List BasicBlock) (p : Nat) : List BasicBlock :=
  blocks.modify p fun b => { b with bbsTo := b.bbsTo ++ [none] }

/-- The four lines repeated for every successor: record the edge and push a copy of the stack, or
record a `nullptr`. -/
def DryRun.edge (d : DryRun) (p : Nat) (succ : Option Nat) (stk : List Nat) : DryRun :=
  match succ with
  | some q => { d with blocks := addEdge d.blocks p q, dfs := (some q, stk) :: d.dfs }
  | none => { d with blocks := addNullEdge d.blocks p }

/-- `next_bb && Instruction(*next_bb->begin()) == Instruction::JUMPDEST`. -/
def jumpSucc (code : List Byte) (blocks : List BasicBlock) (pc : Nat) : Option Nat :=
  (idxMapFind blocks pc).filter fun q =>
    (blocks[q]?.map fun b => instAt code b.firstInstrIdx == .JUMPDEST).getD false

/-- `fallout_bb && *fallout_bb->begin() != 0xfe`. -/
def falloutSucc (code : List Byte) (blocks : List BasicBlock) (pc : Nat) : Option Nat :=
  (idxMapFind blocks pc).filter fun q =>
    (blocks[q]?.map fun b => codeAt code b.firstInstrIdx != 0xfe).getD false

/-- The body of the `while (!dfs.empty())` loop. -/
def dryRunBody (code : List Byte) (d : DryRun) : Option DryRun :=
  match d.dfs with
  | [] => none
  | (none, _) :: rest => some { d with dfs := rest }
  | (some p, stk) :: rest =>
    match d.blocks[p]? with
    | none => some { d with dfs := rest }
    | some bb =>
      if p ∈ d.visited then some { d with dfs := rest }
      else
        let d := { d with dfs := rest, visited := p :: d.visited }
        let pc := bb.endIdx - 1
        let stk := dryRunBb code bb stk
        match instAt code pc with
        | .JUMP => some (d.edge p (jumpSucc code d.blocks (stk.headD 0)) (stk.drop 1))
        | .JUMPI =>
          let d' := d.edge p (falloutSucc code d.blocks (pc + 1)) (stk.drop 2)
          some (d'.edge p (jumpSucc code d'.blocks (stk.headD 0)) (stk.drop 2))
        | _ => some d

/-- `WASMCompiler::dry_run(blocks)`. Each block is expanded once and pushes at most two entries. -/
def dryRun (code : List Byte) (blocks : List BasicBlock) : List BasicBlock :=
  (whileLoop (dryRunBody code) (2 * blocks.length + 1) ⟨blocks, [(some 0, [])], []⟩).blocks

/-! ## §3 — what the edges are good for. -/

/-- The part of a block that `dry_run` does not touch. -/
def BasicBlock.shape (b : BasicBlock) : Nat × Nat × Nat × Nat :=
  (b.firstInstrIdx, b.endIdx, b.stkIn, b.stkOut)

/-- **What recorded edges promise.** The blocks are still those of `createBasicBlocks`; an edge is
recorded at both of its ends; its target opens with `JUMPDEST` or starts where its source ends. -/
structure EdgeInv (code : List Byte) (bs : List BasicBlock) : Prop where
  shape : bs.map BasicBlock.shape = (createBasicBlocks code).map BasicBlock.shape
  sym : ∀ (p q : Nat) (bp : BasicBlock), bs[p]? = some bp → some q ∈ bp.bbsTo →
    ∃ bq, bs[q]? = some bq ∧ p ∈ bq.bbsFrom ∧
      (instAt code bq.firstInstrIdx = .JUMPDEST ∨ bq.firstInstrIdx = bp.endIdx)

variable {code : List Byte} {bs : List BasicBlock}

theorem getElem?_addNullEdge (p j : Nat) : (addNullEdge bs p)[j]? =
    bs[j]?.map fun b => { b with bbsTo := b.bbsTo ++ if p = j then [none] else [] } := by
  simp only [addNullEdge, List.getElem?_modify]
  cases bs[j]? with
  | none => rfl
  | some b => by_cases hp : p = j <;> simp [hp]

theorem getElem?_addEdge (p q j : Nat) : (addEdge bs p q)[j]? =
    bs[j]?.map fun b => { b with
      bbsTo := b.bbsTo ++ if p = j then [some q] else []
      bbsFrom := b.bbsFrom ++ if q = j then [p] else [] } := by
  simp only [addEdge, List.getElem?_modify]
  cases bs[j]? with
  | none => rfl
  | some b => by_cases hp : p = j <;> by_cases hq : q = j <;> simp [hp, hq]

/-- A change of each block that keeps its shape keeps the list of shapes. -/
theorem map_shape_congr {bs' : List BasicBlock} {f : Nat → BasicBlock → BasicBlock}
    (h : ∀ j, bs'[j]? = bs[j]?.map (f j)) (hf : ∀ j b, (f j b).shape = b.shape) :
    bs'.map BasicBlock.shape = bs.map BasicBlock.shape := by
  refine List.ext_getElem? fun j => ?_
  rw [List.getElem?_map, List.getElem?_map, h j]
  cases bs[j]? with
  | none => rfl
  | some b => exact congrArg some (hf j b)

theorem EdgeInv.addNullEdge (h : EdgeInv code bs) (p : Nat) :
    EdgeInv code (addNullEdge bs p) where
  shape := (map_shape_congr (getElem?_addNullEdge p) fun _ _ => rfl).trans h.shape
  sym := by
    intro a c ba hba hmem
    rw [getElem?_addNullEdge] at hba
    obtain ⟨b, hb, rfl⟩ := Option.map_eq_some_iff.mp hba
    have hold : some c ∈ b.bbsTo := by
      rcases List.mem_append.mp hmem with h' | h'
      · exact h'
      · split at h' <;> simp at h'
    obtain ⟨bq, hq, hfrom, hk⟩ := h.sym a c b hb hold
    exact ⟨_, (getElem?_addNullEdge p c).trans (congrArg _ hq), hfrom, hk⟩

theorem EdgeInv.addEdge (h : EdgeInv code bs) {p q : Nat} {bp bq : BasicBlock}
    (hp : bs[p]? = some bp) (hq : bs[q]? = some bq)
    (hk : instAt code bq.firstInstrIdx = .JUMPDEST ∨ bq.firstInstrIdx = bp.endIdx) :
    EdgeInv code (addEdge bs p q) where
  shape := (map_shape_congr (getElem?_addEdge p q) fun _ _ => rfl).trans h.shape
  sym := by
    intro a c ba hba hmem
    rw [getElem?_addEdge] at hba
    obtain ⟨b, hb, rfl⟩ := Option.map_eq_some_iff.mp hba
    -- the edge is an old one, or it is the new one
    rcases List.mem_append.mp hmem with hold | hnew
    · obtain ⟨bc, hc, hfrom, hkc⟩ := h.sym a c b hb hold
      exact ⟨_, (getElem?_addEdge p q c).trans (congrArg _ hc), List.mem_append_left _ hfrom, hkc⟩
    · split at hnew
      · rename_i hpa
        obtain rfl : c = q := by simpa using hnew
        subst hpa
        obtain rfl : bp = b := Option.some.inj (hp.symm.trans hb)
        refine ⟨_, (getElem?_addEdge p c c).trans (congrArg _ hq), ?_, hk⟩
        simp
      · simp at hnew

/-- `idxMap` finds a block that starts at the offset. -/
theorem idxMapFind_eq_some {pc q : Nat} (h : idxMapFind bs pc = some q) :
    ∃ bq, bs[q]? = some bq ∧ bq.firstInstrIdx = pc := by
  obtain ⟨hlt, hq, -⟩ := List.findIdx?_eq_some_iff_getElem.mp h
  exact ⟨bs[q], List.getElem?_eq_getElem hlt, by simpa using hq⟩

/-- One successor: the edge is recorded, or a `nullptr` is. -/
theorem EdgeInv.edge {d : DryRun} {p : Nat} {bp : BasicBlock} {succ : Option Nat}
    {stk : List Nat} (h : EdgeInv code d.blocks) (hp : d.blocks[p]? = some bp)
    (hs : ∀ q, succ = some q → ∃ bq, d.blocks[q]? = some bq ∧
      (instAt code bq.firstInstrIdx = .JUMPDEST ∨ bq.firstInstrIdx = bp.endIdx)) :
    EdgeInv code (d.edge p succ stk).blocks := by
  cases succ with
  | none => exact h.addNullEdge p
  | some q =>
    obtain ⟨bq, hq, hk⟩ := hs q rfl
    exact h.addEdge hp hq hk

theorem jumpSucc_spec {pc q : Nat} (h : jumpSucc code bs pc = some q) :
    ∃ bq, bs[q]? = some bq ∧ instAt code bq.firstInstrIdx = .JUMPDEST := by
  obtain ⟨hf, hc⟩ := Option.filter_eq_some_iff.mp h
  obtain ⟨bq, hq, -⟩ := idxMapFind_eq_some hf
  refine ⟨bq, hq, ?_⟩
  simpa [hq] using hc

theorem falloutSucc_spec {pc q : Nat} (h : falloutSucc code bs pc = some q) :
    ∃ bq, bs[q]? = some bq ∧ bq.firstInstrIdx = pc :=
  idxMapFind_eq_some (Option.filter_eq_some_iff.mp h).1

/-- The source of a recorded edge is still there, with its range. -/
theorem edge_getElem? {d : DryRun} {j : Nat} {b : BasicBlock} (h : d.blocks[j]? = some b)
    (p : Nat) (succ : Option Nat) (stk : List Nat) :
    ∃ b', (d.edge p succ stk).blocks[j]? = some b' ∧ b'.shape = b.shape := by
  cases succ with
  | none => exact ⟨_, (getElem?_addNullEdge p j).trans (congrArg _ h), rfl⟩
  | some q => exact ⟨_, (getElem?_addEdge p q j).trans (congrArg _ h), rfl⟩

theorem BasicBlock.first_eq {b b' : BasicBlock} (h : b.shape = b'.shape) :
    b.firstInstrIdx = b'.firstInstrIdx := congrArg Prod.fst h

theorem BasicBlock.end_eq {b b' : BasicBlock} (h : b.shape = b'.shape) :
    b.endIdx = b'.endIdx := congrArg (fun x => x.2.1) h

theorem BasicBlock.stkIn_eq {b b' : BasicBlock} (h : b.shape = b'.shape) :
    b.stkIn = b'.stkIn := congrArg (fun x => x.2.2.1) h

/-- Every block is a block of `createBasicBlocks`, with edges. -/
theorem EdgeInv.getElem? (h : EdgeInv code bs) {j : Nat} {b : BasicBlock} (hb : bs[j]? = some b) :
    ∃ b₀, (createBasicBlocks code)[j]? = some b₀ ∧ b.shape = b₀.shape := by
  have hj := congrArg (fun l => l[j]?) h.shape
  simp only [List.getElem?_map, hb, Option.map_some] at hj
  obtain ⟨b₀, h₀, hs⟩ := Option.map_eq_some_iff.mp hj.symm
  exact ⟨b₀, h₀, hs.symm⟩

theorem EdgeInv.getElem?_of_created (h : EdgeInv code bs) {j : Nat} {b₀ : BasicBlock}
    (h₀ : (createBasicBlocks code)[j]? = some b₀) : ∃ b, bs[j]? = some b ∧ b.shape = b₀.shape := by
  have hj := congrArg (fun l => l[j]?) h.shape
  simp only [List.getElem?_map, h₀, Option.map_some] at hj
  exact Option.map_eq_some_iff.mp hj

theorem EdgeInv.length_eq (h : EdgeInv code bs) : bs.length = (createBasicBlocks code).length := by
  simpa using congrArg List.length h.shape

/-- Edges are no part of what makes a block good. -/
theorem GoodBlock.of_shape {b b' : BasicBlock} (h : GoodBlock code b) (hs : b'.shape = b.shape) :
    GoodBlock code b' := by
  obtain ⟨hf, he, hi, ho⟩ : b'.firstInstrIdx = b.firstInstrIdx ∧ b'.endIdx = b.endIdx ∧
      b'.stkIn = b.stkIn ∧ b'.stkOut = b.stkOut := by
    simpa only [BasicBlock.shape, Prod.mk.injEq] using hs
  obtain ⟨h₁, h₂, h₃, h₄, h₅, h₆⟩ := h
  rw [← hf] at h₁
  rw [← hf, ← he] at h₂ h₄ h₅ h₆
  rw [← he] at h₃
  rw [← hi, ← ho] at h₆
  exact ⟨h₁, h₂, h₃, h₄, h₅, h₆⟩

theorem EdgeInv.good (h : EdgeInv code bs) (hne : code ≠ []) {j : Nat} {b : BasicBlock}
    (hb : bs[j]? = some b) : GoodBlock code b := by
  obtain ⟨b₀, h₀, hs⟩ := h.getElem? hb
  exact ((createBasicBlocks_loopSpec hne).good b₀ (List.mem_of_getElem? h₀)).1.of_shape hs

/-- The blocks stand in the order of their offsets. -/
theorem EdgeInv.end_le_first (h : EdgeInv code bs) (hne : code ≠ []) {i j : Nat}
    {bi bj : BasicBlock} (hi : bs[i]? = some bi) (hj : bs[j]? = some bj) (hlt : i < j) :
    bi.endIdx ≤ bj.firstInstrIdx := by
  have hs := createBasicBlocks_loopSpec hne
  have hpw := pairwise_of_adjacent (fun b hb => (hs.good b hb).1) hs.chain
  obtain ⟨ai, hai, hsi⟩ := h.getElem? hi
  obtain ⟨aj, haj, hsj⟩ := h.getElem? hj
  obtain ⟨hli, rfl⟩ := List.getElem?_eq_some_iff.mp hai
  obtain ⟨hlj, rfl⟩ := List.getElem?_eq_some_iff.mp haj
  rw [BasicBlock.end_eq hsi, BasicBlock.first_eq hsj]
  exact List.pairwise_iff_getElem.mp hpw i j hli hlj hlt

/-- Blocks that overlap are one. -/
theorem EdgeInv.eq_of_overlap (h : EdgeInv code bs) (hne : code ≠ []) {i j : Nat}
    {bi bj : BasicBlock} (hi : bs[i]? = some bi) (hj : bs[j]? = some bj)
    (hij : bi.firstInstrIdx < bj.endIdx) (hji : bj.firstInstrIdx < bi.endIdx) : i = j := by
  rcases Nat.lt_trichotomy i j with hlt | heq | hgt
  · exact absurd hji (Nat.not_lt.mpr (h.end_le_first hne hi hj hlt))
  · exact heq
  · exact absurd hij (Nat.not_lt.mpr (h.end_le_first hne hj hi hgt))

/-- **One iteration keeps the promise.** -/
theorem dryRunBody_edgeInv (hne : code ≠ []) {d d' : DryRun}
    (h : EdgeInv code d.blocks) (hb : dryRunBody code d = some d') : EdgeInv code d'.blocks := by
  unfold dryRunBody at hb
  split at hb
  · cases hb
  · cases hb
    exact h
  · rename_i p stk rest hdfs
    split at hb
    · cases hb
      exact h
    · rename_i bp hp
      split at hb
      · cases hb
        exact h
      · -- a new block: its terminator decides which edges are recorded
        have hend : 0 < bp.endIdx := Nat.zero_lt_of_lt (h.good hne hp).first_lt
        dsimp only at hb
        split at hb
        · cases hb
          refine EdgeInv.edge h hp fun q hq => ?_
          obtain ⟨bq, hbq, hjd⟩ := jumpSucc_spec hq
          exact ⟨bq, hbq, Or.inl hjd⟩
        · cases hb
          obtain ⟨bp', hp', -⟩ :=
            edge_getElem? (d := { d with dfs := rest, visited := p :: d.visited })
              hp p (falloutSucc code d.blocks (bp.endIdx - 1 + 1)) ((dryRunBb code bp stk).drop 2)
          refine EdgeInv.edge (EdgeInv.edge h hp fun q hq => ?_) hp' fun q hq => ?_
          · obtain ⟨bq, hbq, hf⟩ := falloutSucc_spec hq
            exact ⟨bq, hbq, Or.inr (by omega)⟩
          · obtain ⟨bq, hbq, hjd⟩ := jumpSucc_spec hq
            exact ⟨bq, hbq, Or.inl hjd⟩
        · cases hb
          exact h

theorem edgeInv_createBasicBlocks : EdgeInv code (createBasicBlocks code) where
  shape := rfl
  sym := by
    intro p q bp hp hmem
    rw [(createBasicBlocks_edges hp).1] at hmem
    exact absurd hmem List.not_mem_nil

/-- **The walk keeps the promise.** -/
theorem dryRun_edgeInv (hne : code ≠ []) : EdgeInv code (dryRun code (createBasicBlocks code)) :=
  whileLoop_inv (P := fun d => EdgeInv code d.blocks) (fun _ _ h hb => dryRunBody_edgeInv hne h hb)
    _ _ edgeInv_createBasicBlocks

/-! ## §4 — the walk drains its stack. -/

theorem length_edge (d : DryRun) (p : Nat) (succ : Option Nat) (stk : List Nat) :
    (d.edge p succ stk).blocks.length = d.blocks.length := by
  cases succ with
  | none => simp [DryRun.edge, addNullEdge]
  | some q => simp [DryRun.edge, addEdge]

theorem length_dfs_edge_le (d : DryRun) (p : Nat) (succ : Option Nat) (stk : List Nat) :
    (d.edge p succ stk).dfs.length ≤ d.dfs.length + 1 := by
  cases succ with
  | none => exact Nat.le_succ _
  | some q => exact Nat.le_refl _

theorem visited_edge (d : DryRun) (p : Nat) (succ : Option Nat) (stk : List Nat) :
    (d.edge p succ stk).visited = d.visited := by
  cases succ <;> rfl

/-- Entries on the stack, and two for every block still to be expanded. -/
def dryRunMeasure (d : DryRun) : Nat :=
  d.dfs.length + pending (fun _ => 2) d.blocks.length (· ∈ d.visited)

theorem dryRunBody_measure {d d' : DryRun} (hb : dryRunBody code d = some d') :
    dryRunMeasure d' < dryRunMeasure d := by
  unfold dryRunBody at hb
  split at hb
  · cases hb
  · rename_i stk rest hdfs
    cases hb
    simp only [dryRunMeasure, hdfs, List.length_cons]
    omega
  · rename_i p stk rest hdfs
    have hpop : dryRunMeasure { d with dfs := rest } < dryRunMeasure d := by
      simp only [dryRunMeasure, hdfs, List.length_cons]
      omega
    split at hb
    · cases hb
      exact hpop
    · rename_i bp hp
      split at hb
      · cases hb
        exact hpop
      · rename_i hnew
        -- a new block: one entry popped, at most two pushed, one block less to expand
        have hlt : pending (fun _ => 2) d.blocks.length (· ∈ d.visited) =
            pending (fun _ => 2) d.blocks.length (· ∈ p :: d.visited) + 2 :=
          pending_mark (List.getElem?_eq_some_iff.mp hp).1 hnew fun _ => List.mem_cons
        dsimp only at hb
        split at hb <;> cases hb
        · simp only [dryRunMeasure, length_edge, visited_edge, hdfs, List.length_cons]
          have := length_dfs_edge_le { d with dfs := rest, visited := p :: d.visited } p
            (jumpSucc code d.blocks ((dryRunBb code bp stk).headD 0))
            ((dryRunBb code bp stk).drop 1)
          dsimp only at this
          omega
        · simp only [dryRunMeasure, length_edge, visited_edge, hdfs, List.length_cons]
          have h₁ := length_dfs_edge_le { d with dfs := rest, visited := p :: d.visited } p
            (falloutSucc code d.blocks (bp.endIdx - 1 + 1)) ((dryRunBb code bp stk).drop 2)
          have h₂ := length_dfs_edge_le
            (DryRun.edge { d with dfs := rest, visited := p :: d.visited } p
              (falloutSucc code d.blocks (bp.endIdx - 1 + 1)) ((dryRunBb code bp stk).drop 2)) p
            (jumpSucc code (DryRun.edge { d with dfs := rest, visited := p :: d.visited } p
              (falloutSucc code d.blocks (bp.endIdx - 1 + 1))
              ((dryRunBb code bp stk).drop 2)).blocks ((dryRunBb code bp stk).headD 0))
            ((dryRunBb code bp stk).drop 2)
          dsimp only at h₁ h₂
          omega
        · simp only [dryRunMeasure, hdfs, List.length_cons]
          omega

/-- **The fuel of `dryRun` is enough**: the loop stops on an empty stack. -/
theorem dryRun_exits (blocks : List BasicBlock) : (whileLoop (dryRunBody code)
    (2 * blocks.length + 1) ⟨blocks, [(some 0, [])], []⟩).dfs = [] := by
  have hm : dryRunMeasure ⟨blocks, [(some 0, [])], []⟩ ≤ 2 * blocks.length + 1 := by
    rw [dryRunMeasure, pending_none fun i => List.not_mem_nil]
    simp [Nat.mul_comm, Nat.add_comm]
  have h : dryRunBody code _ = none := whileLoop_exits (P := fun _ => True)
    (fun _ _ _ hb => ⟨trivial, dryRunBody_measure hb⟩) _ _ trivial hm
  generalize whileLoop (dryRunBody code) _ _ = d at h
  unfold dryRunBody at h
  split at h
  · assumption
  · cases h
  · split at h
    · cases h
    · split at h
      · cases h
      · dsimp only at h
        split at h <;> cases h

end EvmTrans
