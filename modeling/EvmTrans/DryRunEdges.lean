/-
# `EvmTrans.DryRunEdges` — the control-flow graph of `dry_run`, and the registers that travel along
it.

The stacks that `dry_run` explores are guesses, so edges can be wrong or missing. `CfgInv` is what
holds all the same, at every point of the walk: both ends of an edge record it equally often, an
edge goes to a `JUMPDEST` or to the block behind, and a block that does not open with `JUMPDEST` has
at most one predecessor. The last part needs the other two together with the order of the walk: a
block records edges only while it is visited, and two blocks do not end at the same offset.

`compileMain` hands a block the view of a predecessor (`compileCalls_from`), so where no jump can go
the registers come from the one block that a run can come from.
-/
import EvmTrans.EmittedTypes
import EvmTrans.StackRefinement

namespace EvmTrans

open Lib (whileLoop whileLoop_inv)

variable {code : List Byte}

/-! ## §1 — the invariant. -/

/-- The block does not open with `JUMPDEST`. -/
def NoJumpDest (code : List Byte) (b : BasicBlock) : Prop := instAt code b.firstInstrIdx ≠ .JUMPDEST

/-- **The graph at any point of the walk.** -/
structure CfgInv (code : List Byte) (d : DryRun) : Prop extends EdgeInv code d.blocks where
  counts : ∀ (p q : Nat) (bp bq : BasicBlock), d.blocks[p]? = some bp → d.blocks[q]? = some bq →
    bp.bbsTo.count (some q) = bq.bbsFrom.count p
  fresh : ∀ (p : Nat) (bp : BasicBlock), d.blocks[p]? = some bp → p ∉ d.visited → bp.bbsTo = []
  preds : ∀ (q : Nat) (bq : BasicBlock), d.blocks[q]? = some bq → NoJumpDest code bq →
    bq.bbsFrom.length ≤ 1 ∧
      ∀ p ∈ bq.bbsFrom, ∃ bp, d.blocks[p]? = some bp ∧ bp.endIdx = bq.firstInstrIdx
  nodup : d.visited.Nodup

/-- Two blocks do not end at the same offset. -/
theorem EdgeInv.end_inj {bs : List BasicBlock} (h : EdgeInv code bs) (hne : code ≠ []) {i j : Nat}
    {bi bj : BasicBlock} (hi : bs[i]? = some bi) (hj : bs[j]? = some bj)
    (heq : bi.endIdx = bj.endIdx) : i = j := by
  have hlti := (h.good hne hi).first_lt
  have hltj := (h.good hne hj).first_lt
  apply h.eq_of_overlap hne hi hj
  · omega
  · omega

/-- A block that records a `nullptr`. -/
theorem CfgInv.addNullEdge {d : DryRun} (h : CfgInv code d) {p : Nat} (hv : p ∈ d.visited) :
    CfgInv code { d with blocks := EvmTrans.addNullEdge d.blocks p } where
  toEdgeInv := h.toEdgeInv.addNullEdge p
  counts := by
    intro a c ba bc ha hc
    rw [getElem?_addNullEdge] at ha hc
    obtain ⟨ba, hba, rfl⟩ := Option.map_eq_some_iff.mp ha
    obtain ⟨bc, hbc, rfl⟩ := Option.map_eq_some_iff.mp hc
    show (ba.bbsTo ++ if p = a then [none] else []).count (some c) = bc.bbsFrom.count a
    rw [List.count_append, h.counts a c ba bc hba hbc]
    split <;> simp
  fresh := by
    intro a ba ha hnew
    rw [getElem?_addNullEdge] at ha
    obtain ⟨ba, hba, rfl⟩ := Option.map_eq_some_iff.mp ha
    -- only a visited block records edges
    have hpa : p ≠ a := fun heq => hnew (heq ▸ hv)
    show ba.bbsTo ++ (if p = a then [none] else []) = []
    rw [h.fresh a ba hba hnew, if_neg hpa]
    rfl
  preds := by
    intro c bc hc hjd
    rw [getElem?_addNullEdge] at hc
    obtain ⟨bc, hbc, rfl⟩ := Option.map_eq_some_iff.mp hc
    obtain ⟨hlen, hpreds⟩ := h.preds c bc hbc hjd
    refine ⟨hlen, fun a ha => ?_⟩
    obtain ⟨ba, hba, hend⟩ := hpreds a ha
    exact ⟨_, (getElem?_addNullEdge p a).trans (congrArg _ hba), hend⟩
  nodup := h.nodup

/-- **One edge more**: to a `JUMPDEST`, or, as the first edge of its block, to the block behind. -/
theorem CfgInv.addEdge (hne : code ≠ []) {d : DryRun} (h : CfgInv code d) {p q : Nat}
    {bp bq : BasicBlock} (hv : p ∈ d.visited) (hp : d.blocks[p]? = some bp)
    (hq : d.blocks[q]? = some bq) (hk : instAt code bq.firstInstrIdx = .JUMPDEST ∨
      (bq.firstInstrIdx = bp.endIdx ∧ bp.bbsTo = [])) :
    CfgInv code { d with blocks := EvmTrans.addEdge d.blocks p q } where
  toEdgeInv := h.toEdgeInv.addEdge hp hq (hk.imp_right And.left)
  counts := by
    intro a c ba bc ha hc
    rw [getElem?_addEdge] at ha hc
    obtain ⟨ba, hba, rfl⟩ := Option.map_eq_some_iff.mp ha
    obtain ⟨bc, hbc, rfl⟩ := Option.map_eq_some_iff.mp hc
    show (ba.bbsTo ++ if p = a then [some q] else []).count (some c) =
      (bc.bbsFrom ++ if q = c then [p] else []).count a
    rw [List.count_append, List.count_append, h.counts a c ba bc hba hbc]
    by_cases hpa : p = a <;> by_cases hqc : q = c <;> simp [hpa, hqc]
  fresh := by
    intro a ba ha hnew
    rw [getElem?_addEdge] at ha
    obtain ⟨ba, hba, rfl⟩ := Option.map_eq_some_iff.mp ha
    have hpa : p ≠ a := fun heq => hnew (heq ▸ hv)
    show ba.bbsTo ++ (if p = a then [some q] else []) = []
    rw [h.fresh a ba hba hnew, if_neg hpa]
    rfl
  preds := by
    intro c bc hc hjd
    rw [getElem?_addEdge] at hc
    obtain ⟨bc, hbc, rfl⟩ := Option.map_eq_some_iff.mp hc
    obtain ⟨hlen, hpreds⟩ := h.preds c bc hbc hjd
    have hold : ∀ a ∈ bc.bbsFrom, ∃ ba, (EvmTrans.addEdge d.blocks p q)[a]? = some ba ∧
        ba.endIdx = bc.firstInstrIdx := by
      intro a ha
      obtain ⟨ba, hba, hend⟩ := hpreds a ha
      exact ⟨_, (getElem?_addEdge p q a).trans (congrArg _ hba), hend⟩
    by_cases hqc : q = c
    · subst hqc
      obtain rfl : bc = bq := Option.some.inj (hbc.symm.trans hq)
      obtain ⟨hfirst, hto⟩ := hk.resolve_left hjd
      -- a predecessor ends where this one does, so it is this one, which has recorded nothing yet
      have hempty : bc.bbsFrom = [] := by
        refine List.eq_nil_iff_forall_not_mem.mpr fun a ha => ?_
        obtain ⟨ba, hba, hend⟩ := hpreds a ha
        obtain rfl : a = p := h.toEdgeInv.end_inj hne hba hp (hend.trans hfirst)
        have hcount := h.counts a q bp bc hp hbc
        rw [hto, List.count_nil] at hcount
        exact absurd ha (List.count_eq_zero.mp hcount.symm)
      have hfrom : bc.bbsFrom ++ (if q = q then [p] else []) = [p] := by
        rw [hempty, if_pos rfl]; rfl
      show (bc.bbsFrom ++ if q = q then [p] else []).length ≤ 1 ∧ ∀ a ∈ bc.bbsFrom ++ _, _
      rw [hfrom]
      refine ⟨Nat.le_refl 1, fun a ha => ?_⟩
      rw [List.mem_singleton.mp ha]
      exact ⟨_, (getElem?_addEdge p q p).trans (congrArg _ hp), hfirst.symm⟩
    · have hfrom : bc.bbsFrom ++ (if q = c then [p] else []) = bc.bbsFrom := by
        rw [if_neg hqc, List.append_nil]
      show (bc.bbsFrom ++ if q = c then [p] else []).length ≤ 1 ∧ ∀ a ∈ bc.bbsFrom ++ _, _
      rw [hfrom]
      exact ⟨hlen, hold⟩
  nodup := h.nodup

/-- One successor. -/
theorem CfgInv.edge (hne : code ≠ []) {d : DryRun} (h : CfgInv code d) {p : Nat} {bp : BasicBlock}
    (succ : Option Nat) (stk : List Nat) (hv : p ∈ d.visited) (hp : d.blocks[p]? = some bp)
    (hs : ∀ q, succ = some q → ∃ bq, d.blocks[q]? = some bq ∧
      (instAt code bq.firstInstrIdx = .JUMPDEST ∨ (bq.firstInstrIdx = bp.endIdx ∧ bp.bbsTo = []))) :
    CfgInv code (d.edge p succ stk) := by
  cases succ with
  | none => exact h.addNullEdge hv
  | some q =>
    obtain ⟨bq, hq, hk⟩ := hs q rfl
    have hadd := h.addEdge hne hv hp hq hk
    exact ⟨hadd.toEdgeInv, hadd.counts, hadd.fresh, hadd.preds, hadd.nodup⟩

/-- Taking an entry off the stack changes nothing. -/
theorem CfgInv.pop {d : DryRun} (h : CfgInv code d) (rest : List (Option Nat × List Nat)) :
    CfgInv code { d with dfs := rest } :=
  ⟨h.toEdgeInv, h.counts, h.fresh, h.preds, h.nodup⟩

/-- A block is visited for the first time. -/
theorem CfgInv.visit {d : DryRun} (h : CfgInv code d) {p : Nat} (hnew : p ∉ d.visited)
    (rest : List (Option Nat × List Nat)) :
    CfgInv code { d with dfs := rest, visited := p :: d.visited } where
  toEdgeInv := h.toEdgeInv
  counts := h.counts
  fresh := fun a ba ha hout => h.fresh a ba ha fun hin => hout (List.mem_cons_of_mem p hin)
  preds := h.preds
  nodup := List.nodup_cons.mpr ⟨hnew, h.nodup⟩

/-! ## §2 — the walk. -/

/-- **One iteration keeps the invariant.** -/
theorem dryRunBody_cfgInv (hne : code ≠ []) {d d' : DryRun} (h : CfgInv code d)
    (hb : dryRunBody code d = some d') : CfgInv code d' := by
  unfold dryRunBody at hb
  split at hb
  · cases hb
  · cases hb
    exact h.pop _
  · rename_i p stk rest hdfs
    split at hb
    · cases hb
      exact h.pop _
    · rename_i bp hp
      split at hb
      · cases hb
        exact h.pop _
      · rename_i hnew
        have hend : 0 < bp.endIdx := Nat.zero_lt_of_lt (h.toEdgeInv.good hne hp).first_lt
        have hvisit := h.visit hnew rest
        have hmem : p ∈ p :: d.visited := List.mem_cons_self
        dsimp only at hb
        split at hb
        · cases hb
          refine hvisit.edge hne _ _ hmem hp fun q hq => ?_
          obtain ⟨bq, hbq, hjd⟩ := jumpSucc_spec hq
          exact ⟨bq, hbq, Or.inl hjd⟩
        · -- `JUMPI`: the edge to the block behind comes first, as `addEdge` asks for
          cases hb
          have hfall := hvisit.edge hne (falloutSucc code d.blocks (bp.endIdx - 1 + 1))
            ((dryRunBb code bp stk).drop 2) hmem hp fun q hq => by
              obtain ⟨bq, hbq, hf⟩ := falloutSucc_spec hq
              exact ⟨bq, hbq, Or.inr ⟨by omega, h.fresh p bp hp hnew⟩⟩
          obtain ⟨bp', hp', -⟩ :=
            edge_getElem? (d := { d with dfs := rest, visited := p :: d.visited })
              hp p (falloutSucc code d.blocks (bp.endIdx - 1 + 1)) ((dryRunBb code bp stk).drop 2)
          refine hfall.edge hne _ _ ?_ hp' fun q hq => ?_
          · rw [visited_edge]
            exact hmem
          · obtain ⟨bq, hbq, hjd⟩ := jumpSucc_spec hq
            exact ⟨bq, hbq, Or.inl hjd⟩
        · cases hb
          exact hvisit

/-- The variables of `dry_run` before the first iteration, and when it is over. -/
def DryRun.start (code : List Byte) : DryRun := ⟨createBasicBlocks code, [(some 0, [])], []⟩

@[inherit_doc DryRun.start]
def DryRun.final (code : List Byte) : DryRun :=
  whileLoop (dryRunBody code) (2 * (createBasicBlocks code).length + 1) (.start code)

theorem cfgInv_start (code : List Byte) : CfgInv code (.start code) where
  toEdgeInv := edgeInv_createBasicBlocks
  counts := by
    intro p q bp bq hp hq
    rw [(createBasicBlocks_edges hp).1, (createBasicBlocks_edges hq).2]
    rfl
  fresh := fun p bp hp _ => (createBasicBlocks_edges hp).1
  preds := by
    intro q bq hq _
    rw [(createBasicBlocks_edges hq).2]
    exact ⟨Nat.zero_le 1, fun p hp => absurd hp List.not_mem_nil⟩
  nodup := List.nodup_nil

/-- **The whole walk.** -/
theorem cfgInv_final (hne : code ≠ []) : CfgInv code (.final code) :=
  whileLoop_inv (fun _ _ h hb => dryRunBody_cfgInv hne h hb) _ _ (cfgInv_start code)

/-! ## §3 — the registers handed over. -/

section Registers

variable {env : CompileEnv} {bs : List BasicBlock}

/-- Where registers waiting with block `i` come from, when the calls of `log` were made: nowhere, or
from the view of one of them with an edge to `i`. -/
def FromView (env : CompileEnv) (code : List Byte) (bs : List BasicBlock)
    (log : List Call) (i : Nat) (pstack : List Value) : Prop :=
  pstack = [] ∨ ∃ d ∈ log, bs[d.i]? = some d.bb ∧ d.view env code bs = pstack ∧ some i ∈ d.bb.bbsTo

/-- What waits in the queue. -/
def QueueFrom (env : CompileEnv) (code : List Byte) (bs : List BasicBlock) (log : List Call)
    (m : Main) : Prop :=
  ∀ i ps, (some i, ps) ∈ m.queue → FromView env code bs log i ps

theorem FromView.mono {log log' : List Call} {i : Nat} {ps : List Value}
    (hsub : ∀ d ∈ log, d ∈ log') (h : FromView env code bs log i ps) :
    FromView env code bs log' i ps := by
  rcases h with hnil | ⟨d, hd, hrest⟩
  · exact Or.inl hnil
  · exact Or.inr ⟨d, hsub d hd, hrest⟩

/-- A call of the queue loop takes what waited with its block. -/
theorem queueCall_from {log : List Call} {m : Main} (h : QueueFrom env code bs log m) {c : Call}
    (hc : m.queueCall bs = some c) :
    bs[c.i]? = some c.bb ∧ FromView env code bs log c.i c.pstack := by
  unfold Main.queueCall at hc
  split at hc
  · rename_i i ps rest hqueue
    split at hc
    · cases hc
    · obtain ⟨bb, hbb, rfl⟩ := Option.map_eq_some_iff.mp hc
      exact ⟨hbb, h i ps (hqueue ▸ List.mem_cons_self)⟩
  · cases hc

/-- One iteration: a call made is logged, and its view waits with its successors. -/
theorem queueBody_from {log : List Call} {m m' : Main} (h : QueueFrom env code bs log m)
    (hb : queueBody env code bs m = some m') :
    QueueFrom env code bs (log ++ (m.queueCall bs).toList) m' := by
  have hold : ∀ {rest : List (Option Nat × List Value)}, (∀ x ∈ rest, x ∈ m.queue) →
      ∀ i ps, (some i, ps) ∈ rest →
      FromView env code bs (log ++ (m.queueCall bs).toList) i ps := fun hsub i ps hmem =>
    (h i ps (hsub _ hmem)).mono fun d hd => List.mem_append_left _ hd
  unfold queueBody at hb
  split at hb
  · cases hb
  · rename_i p ps rest hqueue
    have hsub : ∀ x ∈ rest, x ∈ m.queue := fun x hx => hqueue ▸ List.mem_cons_of_mem _ hx
    split at hb
    · cases hb
      exact hold hsub
    · rename_i hnew
      split at hb
      · cases hb
        exact hold hsub
      · rename_i i
        split at hb
        · cases hb
          exact hold hsub
        · rename_i bb hbb
          rw [compileQueued_eq] at hb
          have hcall : m.queueCall bs = some ⟨i, bb, ps, m.next, m.cases⟩ := by
            rw [Main.queueCall, hqueue]
            simp only [if_neg hnew, hbb, Option.map_some]
          cases hb
          -- what waits now waited before, or was left by this call for a successor of its block
          intro j qs hmem
          rcases List.mem_append.mp hmem with hrest | hsucc
          · exact hold hsub j qs hrest
          · obtain ⟨t, ht, heq⟩ := List.mem_map.mp hsucc
            cases heq
            refine Or.inr ⟨_, ?_, hbb, rfl, ht⟩
            rw [hcall]
            exact List.mem_append_right _ List.mem_cons_self

/-- The queue loop. -/
theorem queueCalls_from : ∀ (fuel : Nat) (log : List Call) (m : Main), QueueFrom env code bs log m →
    ∀ c ∈ queueCalls env code bs fuel m, bs[c.i]? = some c.bb ∧
      FromView env code bs (log ++ queueCalls env code bs fuel m) c.i c.pstack := by
  intro fuel
  induction fuel with
  | zero => exact fun _ _ _ c hc => absurd hc List.not_mem_nil
  | succ fuel ih =>
    intro log m h c hc
    unfold queueCalls at hc ⊢
    cases hb : queueBody env code bs m with
    | none =>
      rw [hb] at hc
      exact absurd hc List.not_mem_nil
    | some m' =>
      rw [hb] at hc
      dsimp only at hc ⊢
      rcases List.mem_append.mp hc with hc | hc
      · obtain ⟨hbb, hfrom⟩ := queueCall_from h (Option.mem_toList.mp hc)
        exact ⟨hbb, hfrom.mono fun d hd => List.mem_append_left _ hd⟩
      · obtain ⟨hbb, hfrom⟩ := ih _ m' (queueBody_from h hb) c hc
        rw [← List.append_assoc]
        exact ⟨hbb, hfrom⟩

/-- The second loop hands over nothing. -/
theorem leftoverCalls_pstack : ∀ (is : List Nat) (m : Main), ∀ c ∈ leftoverCalls env code bs is m,
    c.pstack = [] := by
  intro is
  induction is with
  | nil => exact fun _ c hc => absurd hc List.not_mem_nil
  | cons i is ih =>
    intro m c hc
    rcases List.mem_append.mp hc with hc | hc
    · have hcall := Option.mem_toList.mp hc
      unfold Main.leftoverCall at hcall
      split at hcall
      · cases hcall
      · obtain ⟨bb, -, rfl⟩ := Option.map_eq_some_iff.mp hcall
        rfl
    · exact ih _ c hc

variable (env code bs) in
/-- **Every call of a compilation** gets the view of a call with an edge to its block, or
nothing. -/
theorem compileCalls_from : ∀ c ∈ compileCalls env code bs, c.pstack ≠ [] →
    bs[c.i]? = some c.bb ∧ FromView env code bs (compileCalls env code bs) c.i c.pstack := by
  intro c hc hregs
  rcases List.mem_append.mp hc with hc | hc
  · have hstart : QueueFrom env code bs [] .start := by
      intro i ps hmem
      cases List.mem_singleton.mp hmem
      exact Or.inl rfl
    obtain ⟨hbb, hfrom⟩ := queueCalls_from _ [] _ hstart c hc
    exact ⟨hbb, hfrom.mono fun d hd => List.mem_append_left _ hd⟩
  · exact absurd (leftoverCalls_pstack _ _ c hc) hregs

/-- A run that enters a block without `JUMPDEST` comes out of the block in front of it. -/
theorem BlockRun.from_front (hne : code ≠ []) {W : Type} {ops : Ops W} {e e' : EvmSt W} {i j : Nat}
    {bi bj : BasicBlock} (hi : (blockTable code)[i]? = some bi)
    (hj : (blockTable code)[j]? = some bj) (hin : InBlock code bi e.pc)
    (hrun : BlockRun ops code e e') (hpc : e'.pc = bj.firstInstrIdx)
    (hjd : NoJumpDest code bj) : bi.endIdx = bj.firstInstrIdx := by
  have hstart : BlockStart code e'.pc := (blockStart_iff hne).mpr ⟨j, bj, hj, hpc.symm⟩
  obtain ⟨e₁, -, hin₁, hstep, hend⟩ := hrun.trace hne hi hin (Or.inl hstart)
  have hbound : Boundary code e'.pc := hpc ▸ (blockTable_good hne hj).first_boundary
  have hfall : e'.pc = instrEnd code e₁.pc → bi.endIdx = bj.firstInstrIdx := by
    intro hnext
    have hlt := hbound.1
    rcases (blockTable_good hne hi).end_boundary with hlen | hb
    · omega
    · have := hin₁.boundary.instrEnd_le hb hin₁.lt_end
      omega
  rcases hstep.pc_cases with ⟨-, hnext⟩ | ⟨-, hdest⟩ | ⟨-, hnext⟩
  · exact hfall hnext
  · -- a jump would have gone to a `JUMPDEST`
    exact absurd (hpc ▸ (isJumpDest_iff.mp hdest).2) hjd
  · exact hfall hnext

end Registers

/-- **The graph of `dry_run`.** The walk ends by its own condition and visits no block twice; both
ends of an edge record it equally often; an edge goes to a `JUMPDEST` or to the block behind; a
block without `JUMPDEST` has at most one predecessor, the block in front. Hence registers handed to
such a block are the view of the one block that any run enters it from. -/
theorem dryRun_cfg (env : CompileEnv) (code : List Byte) (hne : code ≠ []) :
    (dryRunBody code (.final code) = none ∧ (DryRun.final code).dfs = [] ∧
      (DryRun.final code).visited.Nodup) ∧
    (∀ (p q : Nat) (bp bq : BasicBlock), (blockTable code)[p]? = some bp →
      (blockTable code)[q]? = some bq → bp.bbsTo.count (some q) = bq.bbsFrom.count p) ∧
    (∀ (p q : Nat) (bp : BasicBlock), (blockTable code)[p]? = some bp → some q ∈ bp.bbsTo →
      ∃ bq, (blockTable code)[q]? = some bq ∧
        (instAt code bq.firstInstrIdx = .JUMPDEST ∨ bq.firstInstrIdx = bp.endIdx)) ∧
    (∀ (q : Nat) (bq : BasicBlock), (blockTable code)[q]? = some bq → NoJumpDest code bq →
      bq.bbsFrom.length ≤ 1 ∧
        ∀ p ∈ bq.bbsFrom, ∃ bp, (blockTable code)[p]? = some bp ∧ bp.endIdx = bq.firstInstrIdx) ∧
    (∀ c ∈ compileCalls env code (blockTable code), NoJumpDest code c.bb → c.pstack ≠ [] →
      ∃ d ∈ compileCalls env code (blockTable code), d.view env code (blockTable code) = c.pstack ∧
        d.bb.endIdx = c.bb.firstInstrIdx ∧
        ∀ (W : Type) (ops : Ops W) (e e' : EvmSt W) (i : Nat) (bi : BasicBlock),
          (blockTable code)[i]? = some bi → InBlock code bi e.pc → BlockRun ops code e e' →
          e'.pc = c.bb.firstInstrIdx → i = d.i) := by
  have hinv := cfgInv_final hne
  have hempty : (DryRun.final code).dfs = [] := dryRun_exits (createBasicBlocks code)
  have hbody : dryRunBody code (.final code) = none := by
    unfold dryRunBody
    rw [hempty]
  refine ⟨⟨hbody, hempty, hinv.nodup⟩, hinv.counts, ?_, hinv.preds, ?_⟩
  · intro p q bp hp hmem
    obtain ⟨bq, hq, -, hk⟩ := hinv.toEdgeInv.sym p q bp hp hmem
    exact ⟨bq, hq, hk⟩
  · intro c hc hjd hregs
    obtain ⟨hcb, hnil | ⟨d, hd, hdb, hview, hedge⟩⟩ := compileCalls_from code env _ c hc hregs
    · exact absurd hnil hregs
    · obtain ⟨bq, hq, -, hk⟩ := hinv.toEdgeInv.sym d.i c.i d.bb hdb hedge
      obtain rfl : c.bb = bq := Option.some.inj (hcb.symm.trans hq)
      -- the edge goes to the block behind, and no run comes in from another
      have hend : d.bb.endIdx = c.bb.firstInstrIdx := (hk.resolve_left hjd).symm
      refine ⟨d, hd, hview, hend, fun W ops e e' i bi hi hin hrun hpc => ?_⟩
      exact hinv.toEdgeInv.end_inj hne hi hdb
        ((hrun.from_front hne hi hcb hin hpc hjd).trans hend.symm)

/-- `PUSH1 0; PUSH1 6; JUMPI; STOP; JUMPDEST`: the block of the `STOP` has one predecessor. -/
theorem dryRun_cfg_jumpi :
    (blockTable [0x60, 0x00, 0x60, 0x06, 0x57, 0x00, 0x5b]).map BasicBlock.bbsFrom =
      [[], [0], [0]] ∧ (DryRun.final [0x60, 0x00, 0x60, 0x06, 0x57, 0x00, 0x5b]).visited.Nodup :=
  ⟨by decide, (dryRun_cfg (plainEnv []) [0x60, 0x00, 0x60, 0x06, 0x57, 0x00, 0x5b] (by simp)).1.2.2⟩

end EvmTrans
