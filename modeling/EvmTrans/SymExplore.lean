/-
# `EvmTrans.SymExplore` — the exploration of a function in `SEngine`.

`processBB` runs a block, records a node and goes on with the successors, the true one first; Abort
and Exit, a depth of 32 and the sixth visit of a block end it. It hands down the condition of the
edge, and nothing else: what a block writes to memory, the stack array, storage and the jump target
stays in the engine.

`Explored` is the tree of what was executed, with the engine's state at both ends of every block.
Since nothing is restored, its blocks form ONE run in the order in which they were explored
(`Chain`, §2). §3 says from this when the false successor starts where the branching block stopped,
and §4 when the constraints of a node, which are the last edge's condition, imply those of its whole
path.
-/
import EvmTrans.SymExec

namespace EvmTrans.SEngine

open Lib (Simplifier)
open Lib.Expr (ofBv)

/-! ## §1 — `processBB`. -/

structure SymFunction where
  block : Nat → SymBlock
  numRegisters : Nat

/-- A `Node`, with the number of its block. -/
structure Node where
  uid : Nat
  bb : Nat
  constraints : List Expr

/-- `SEngine`: the members that instructions change, `m_Nodes` and `m_Edges`, and the global counter
of nodes. -/
structure Engine where
  sym : SymState
  nodes : List Node
  edges : List (Nat × Nat)
  nextUid : Nat

def Engine.init : Engine where
  sym := .init
  nodes := []
  edges := []
  nextUid := 0

def maxDepth : Nat := 32
def maxLoopDepth : Nat := 5

/-- `reachedMaxLoopDepth(b)`. -/
def Engine.reachedMaxLoopDepth (e : Engine) (b : Nat) : Bool :=
  decide (maxLoopDepth ≤ e.nodes.countP (·.bb == b))

/-- A node of the exploration: what was recorded, the condition of the edge to it, and the engine's
state in front of its block and behind it. -/
structure Visit where
  node : Node
  preCst : Expr
  start : SymState
  stop : SymState

/-- What a call of `processBB` did. -/
inductive Explored where
  /-- it returned at once -/
  | skipped
  /-- `z3` threw in the block -/
  | thrown (start : SymState)
  /-- no successor was explored; `threw` if `z3` threw at the condition -/
  | last (v : Visit) (threw : Bool)
  | jump (v : Visit) (next : Explored)
  | branch (v : Visit) (ifTrue ifFalse : Explored)
  /-- `z3` threw below the true successor -/
  | cut (v : Visit) (ifTrue : Explored)

/-- An exception ends the whole exploration. -/
def Explored.threw : Explored → Bool
  | .skipped => false
  | .thrown _ | .cut _ _ => true
  | .last _ threw => threw
  | .jump _ next => next.threw
  | .branch _ _ ifFalse => ifFalse.threw

/-- `cond == true` and `cond == false`: a comparison with the numbers 1 and 0. -/
def condIs {w : Nat} (cond : Term (.bv w)) (value : Bool) : Expr :=
  ⟨.bool, .cmp .eq cond (.bvVal (BitVec.ofNat w value.toNat))⟩

/-- `ExprCtx.bool_val(true)`. -/
def noCondition : Expr := ⟨.bool, .boolVal true⟩

/-- `SEngine::processBB(b, _from, depth, preCst)`, where `left` is `m_maxDepth - depth`. -/
def processBB (z : Simplifier Name) (f : SymFunction) :
    Nat → Nat → Nat → Expr → Engine → Explored × Engine
  | 0, _, _, _, e => (.skipped, e)
  | left + 1, b, origin, preCst, e =>
    let bb := f.block b
    if bb.name = .abort ∨ bb.name = .exit then (.skipped, e)
    else if e.reachedMaxLoopDepth b then (.skipped, e)
    else
      match symExec z f.numRegisters bb [preCst] e.sym with
      | none => (.thrown e.sym, { e with nextUid := e.nextUid + 1 })
      | some (constraints, sym) =>
        let uid := e.nextUid
        -- a branch and a switch take their condition off again, before anything reads the node
        let node : Node :=
          { uid := uid, bb := b,
            constraints := if bb.term.cond.isSome then constraints.dropLast else constraints }
        let v : Visit := { node := node, preCst := preCst, start := e.sym, stop := sym }
        let e₁ : Engine :=
          { sym := sym, nodes := e.nodes ++ [node], edges := e.edges ++ [(origin, uid)],
            nextUid := uid + 1 }
        match bb.term with
        | .br succ =>
          let p := processBB z f left succ uid noCondition e₁
          (.jump v p.1, p.2)
        | .condBr _ ifTrue ifFalse =>
          match constraints.getLast?.bind Lib.Expr.bv? with
          | none => (.last v true, e₁)
          | some ⟨_, cond⟩ =>
            let p := processBB z f left ifTrue uid (condIs cond true) e₁
            if p.1.threw then (.cut v p.1, p.2)
            else
              let q := processBB z f left ifFalse uid (condIs cond false) p.2
              (.branch v p.1 q.1, q.2)
        | .ret | .unreachable | .switch _ | .other => (.last v false, e₁)

/-- `SEngine::run`, behind the numbering of registers and operands; block 0 is the entry. -/
def explore (z : Simplifier Name) (f : SymFunction) : Explored × Engine :=
  processBB z f maxDepth 0 0 noCondition .init

/-! ### One call. -/

section Calls

variable {z : Simplifier Name} {f : SymFunction}

/-- A block that was executed, between the engine `e` in front of it and `e₁` behind it. -/
structure Visited (f : SymFunction) (preCst : Expr) (e : Engine) (v : Visit) (e₁ : Engine) :
    Prop where
  start : v.start = e.sym
  stop : v.stop = e₁.sym
  edge : v.preCst = preCst
  constraints : v.node.constraints = [preCst]
  effect : Effect (f.block v.node.bb).writesArrays (f.block v.node.bb).writesTarget v.start v.stop
  nodes : e₁.nodes = e.nodes ++ [v.node]

/-- Everything that a call does. -/
inductive ProcessCase (z : Simplifier Name) (f : SymFunction) (left : Nat) (preCst : Expr)
    (e : Engine) : Explored × Engine → Prop where
  | skipped : ProcessCase z f left preCst e (.skipped, e)
  | thrown (uid : Nat) : ProcessCase z f left preCst e (.thrown e.sym, { e with nextUid := uid })
  | last {v : Visit} {e₁ : Engine} (threw : Bool) (hv : Visited f preCst e v e₁) :
      ProcessCase z f left preCst e (.last v threw, e₁)
  | jump {v : Visit} {e₁ : Engine} (hv : Visited f preCst e v e₁) (succ uid : Nat)
      {p : Explored × Engine} (hp : processBB z f left succ uid noCondition e₁ = p) :
      ProcessCase z f left preCst e (.jump v p.1, p.2)
  | cut {v : Visit} {e₁ : Engine} (hv : Visited f preCst e v e₁) (b uid : Nat)
      (c : Expr) {p : Explored × Engine} (hp : processBB z f left b uid c e₁ = p)
      (ht : p.1.threw = true) :
      ProcessCase z f left preCst e (.cut v p.1, p.2)
  | branch {v : Visit} {e₁ : Engine} (hv : Visited f preCst e v e₁) (b b' uid : Nat) (c c' : Expr)
      {p q : Explored × Engine} (hp : processBB z f left b uid c e₁ = p) (ht : p.1.threw = false)
      (hq : processBB z f left b' uid c' p.2 = q) :
      ProcessCase z f left preCst e (.branch v p.1 q.1, q.2)

theorem processBB_case (z : Simplifier Name) (f : SymFunction) (left b origin : Nat) (preCst : Expr)
    (e : Engine) : ProcessCase z f left preCst e (processBB z f (left + 1) b origin preCst e) := by
  unfold processBB
  dsimp only
  split
  · exact .skipped
  split
  · exact .skipped
  split
  · exact .thrown _
  · rename_i constraints sym hexec
    obtain ⟨heffect, conds, hconds, hlen⟩ :=
      symExec_effect z f.numRegisters (f.block b) [preCst] e.sym _ hexec
    -- what is left of the constraints when the condition is off again
    have hnode : (if (f.block b).term.cond.isSome then constraints.dropLast else constraints) =
        [preCst] := by
      have hconds : constraints = [preCst] ++ conds := hconds
      rw [hconds]
      cases hc : (f.block b).term.cond with
      | none =>
        rw [hc] at hlen
        rw [List.eq_nil_of_length_eq_zero hlen]
        rfl
      | some c =>
        rw [hc] at hlen
        obtain ⟨x, rfl⟩ := List.length_eq_one_iff.mp hlen
        rfl
    generalize (if (f.block b).term.cond.isSome then constraints.dropLast else constraints) =
      kept at hnode ⊢
    have hv : Visited f preCst e
        { node := ⟨e.nextUid, b, kept⟩, preCst := preCst, start := e.sym, stop := sym }
        { sym := sym, nodes := e.nodes ++ [⟨e.nextUid, b, kept⟩],
          edges := e.edges ++ [(origin, e.nextUid)], nextUid := e.nextUid + 1 } :=
      ⟨rfl, rfl, rfl, hnode, heffect, rfl⟩
    split
    · exact .jump hv _ _ rfl
    · split
      · exact .last _ hv
      · split
        · rename_i ht
          exact .cut hv _ _ _ rfl ht
        · rename_i ht
          exact .branch hv _ _ _ _ _ rfl (Bool.eq_false_iff.mpr ht) rfl
    · exact .last _ hv
    · exact .last _ hv
    · exact .last _ hv
    · exact .last _ hv

end Calls

/-! ## §2 — one run. -/

/-- The blocks that were executed to their end, in the order of the exploration. -/
def Explored.visits : Explored → List Visit
  | .skipped | .thrown _ => []
  | .last v _ => [v]
  | .jump v next => v :: next.visits
  | .branch v ifTrue ifFalse => v :: (ifTrue.visits ++ ifFalse.visits)
  | .cut v ifTrue => v :: ifTrue.visits

/-- The state in which the first block of an exploration is executed. -/
def Explored.start? : Explored → Option SymState
  | .skipped => none
  | .thrown start => some start
  | .last v _ | .jump v _ | .branch v _ _ | .cut v _ => some v.start

def SymFunction.writesArrays (f : SymFunction) (v : Visit) : Bool :=
  (f.block v.node.bb).writesArrays
def SymFunction.writesTarget (f : SymFunction) (v : Visit) : Bool :=
  (f.block v.node.bb).writesTarget

/-- Blocks that run one after the other, from `s` to `s'`. -/
def Chain (f : SymFunction) : List Visit → SymState → SymState → Prop
  | [], s, s' => s' = s
  | v :: vs, s, s' =>
    v.start = s ∧ Effect (f.writesArrays v) (f.writesTarget v) v.start v.stop ∧ Chain f vs v.stop s'

/-- The last of the blocks that write `target` leaves it at `e`. -/
def TargetStays (f : SymFunction) (vs : List Visit) (e : Expr) : Prop :=
  ∀ v, (vs.filter f.writesTarget).getLast? = some v → v.stop.targetPtr = e

section Chains

variable {z : Simplifier Name} {f : SymFunction} {s s' s'' : SymState} {vs vs' : List Visit}

theorem Chain.append : ∀ {vs : List Visit} {s : SymState}, Chain f vs s s' → Chain f vs' s' s'' →
    Chain f (vs ++ vs') s s'' := by
  intro vs
  induction vs with
  | nil =>
    intro s h h'
    have h : s' = s := h
    rw [← h]
    exact h'
  | cons v vs ih => exact fun h h' => ⟨h.1, h.2.1, ih h.2.2 h'⟩

/-- **An exploration that ends without an exception is one run** of all its blocks. By induction on
the depth left. -/
theorem processBB_chain (z : Simplifier Name) (f : SymFunction) :
    ∀ (left : Nat) {b origin : Nat} {preCst : Expr}
    {e : Engine} {p : Explored × Engine}, processBB z f left b origin preCst e = p →
    p.1.threw = false → Chain f p.1.visits e.sym p.2.sym := by
  intro left
  induction left with
  | zero =>
    intro b origin preCst e p hp _
    cases hp
    rfl
  | succ left ih =>
    intro b origin preCst e p hp ht
    have hcase := processBB_case z f left b origin preCst e
    rw [hp] at hcase
    cases hcase with
    | skipped => rfl
    | thrown uid => cases ht
    | last threw hv => exact ⟨hv.start, hv.effect, hv.stop.symm⟩
    | jump hv succ uid hnext =>
      have hrest := ih hnext ht
      rw [← hv.stop] at hrest
      exact ⟨hv.start, hv.effect, hrest⟩
    | cut hv b uid c hnext ht' => cases ht
    | branch hv b b' uid c c' htrue ht' hfalse =>
      have h₁ := ih htrue ht'
      rw [← hv.stop] at h₁
      exact ⟨hv.start, hv.effect, h₁.append (ih hfalse ht)⟩

/-- The blocks of a call start where the engine stands. -/
theorem processBB_start {left b origin : Nat} {preCst : Expr} {e : Engine} {p : Explored × Engine}
    (hp : processBB z f left b origin preCst e = p) (hs : p.1.start? = some s) : s = e.sym := by
  cases left with
  | zero =>
    cases hp
    cases hs
  | succ left =>
    have hcase := processBB_case z f left b origin preCst e
    rw [hp] at hcase
    cases hcase with
    | skipped => cases hs
    | thrown uid => exact (Option.some.inj hs).symm
    | last threw hv => exact (Option.some.inj hs).symm.trans hv.start
    | jump hv succ uid hnext => exact (Option.some.inj hs).symm.trans hv.start
    | cut hv b uid c hnext ht => exact (Option.some.inj hs).symm.trans hv.start
    | branch hv b b' uid c c' htrue ht hfalse => exact (Option.some.inj hs).symm.trans hv.start

/-- `m_Nodes` has the nodes of the tree, in the order of the exploration. -/
theorem processBB_nodes (z : Simplifier Name) (f : SymFunction) :
    ∀ (left : Nat) {b origin : Nat} {preCst : Expr}
    {e : Engine} {p : Explored × Engine}, processBB z f left b origin preCst e = p →
    p.2.nodes = e.nodes ++ p.1.visits.map (·.node) := by
  intro left
  induction left with
  | zero =>
    intro b origin preCst e p hp
    cases hp
    exact (List.append_nil _).symm
  | succ left ih =>
    intro b origin preCst e p hp
    have hcase := processBB_case z f left b origin preCst e
    rw [hp] at hcase
    cases hcase with
    | skipped => exact (List.append_nil _).symm
    | thrown uid => exact (List.append_nil _).symm
    | last threw hv => exact hv.nodes
    | jump hv succ uid hnext =>
      rw [ih hnext, hv.nodes, List.append_assoc]
      rfl
    | cut hv b uid c hnext ht =>
      rw [ih hnext, hv.nodes, List.append_assoc]
      rfl
    | branch hv b b' uid c c' htrue ht hfalse =>
      rw [ih hfalse, ih htrue, hv.nodes, List.append_assoc, List.append_assoc, ← List.map_append]
      rfl

theorem Chain.effect : ∀ {vs : List Visit} {s : SymState}, Chain f vs s s' →
    Effect (vs.any f.writesArrays) (vs.any f.writesTarget) s s' := by
  intro vs
  induction vs with
  | nil =>
    intro s h
    have h : s' = s := h
    rw [h]
    exact Effect.refl s
  | cons v vs ih =>
    intro s h
    obtain ⟨rfl, heffect, hrest⟩ := h
    exact heffect.trans (ih hrest)

/-- The jump target behind a run is the one of the last block that writes it. -/
theorem Chain.target : ∀ {vs : List Visit} {s : SymState}, Chain f vs s s' →
    s'.targetPtr =
      (((vs.filter f.writesTarget).getLast?).map (·.stop.targetPtr)).getD s.targetPtr := by
  intro vs
  induction vs with
  | nil =>
    intro s h
    have h : s' = s := h
    rw [h]
    rfl
  | cons v vs ih =>
    intro s h
    obtain ⟨rfl, heffect, hrest⟩ := h
    rw [ih hrest]
    cases hw : f.writesTarget v with
    | false =>
      rw [List.filter_cons_of_neg (by rw [hw]; exact Bool.false_ne_true), heffect.target hw]
    | true =>
      rw [List.filter_cons_of_pos hw, List.getLast?_cons]
      cases (vs.filter f.writesTarget).getLast? with
      | none => rfl
      | some u => rfl

/-- **A run leaves the engine as it was** if and only if none of its blocks writes an array and the
last of those that write the jump target writes what it was. -/
theorem Chain.eq_iff (h : Chain f vs s s') :
    s' = s ↔ (∀ v ∈ vs, f.writesArrays v = false) ∧ TargetStays f vs s.targetPtr := by
  have heffect := h.effect
  constructor
  · rintro rfl
    refine ⟨fun v hv => ?_, fun v hv => ?_⟩
    · apply Bool.eq_false_iff.mpr
      intro hw
      exact absurd (heffect.grows (List.any_eq_true.mpr ⟨v, hv, hw⟩)) (Nat.lt_irrefl _)
    · have htarget := h.target
      rw [hv] at htarget
      exact htarget.symm
  · rintro ⟨hquiet, hstays⟩
    have hsame := heffect.arrays
      (List.any_eq_false.mpr fun v hv => by rw [hquiet v hv]; exact Bool.false_ne_true)
    have htarget : s'.targetPtr = s.targetPtr := by
      rw [h.target]
      cases hlast : (vs.filter f.writesTarget).getLast? with
      | none => rfl
      | some v => exact hstays v hlast
    cases s with
    | mk memory stk storage targetPtr =>
      cases s' with
      | mk memory' stk' storage' targetPtr' =>
        obtain ⟨hm, hk, hr⟩ := hsame
        cases hm
        cases hk
        cases hr
        cases htarget
        rfl

end Chains

/-! ## §3 — the false successor. -/

/-- At every conditional branch the false successor, if it is executed, starts in the state behind
the branching block. -/
def Explored.Isolated : Explored → Prop
  | .branch v ifTrue ifFalse =>
    (∀ s, ifFalse.start? = some s → s = v.stop) ∧ ifTrue.Isolated ∧ ifFalse.Isolated
  | .jump _ next => next.Isolated
  | .cut _ ifTrue => ifTrue.Isolated
  | .skipped | .thrown _ | .last _ _ => True

/-- Below the true successor of a branch whose false successor is executed, no block has an
instruction that writes memory, the stack array or storage, and the last block that writes the jump
target leaves it as it was. -/
def Explored.Quiet (f : SymFunction) : Explored → Prop
  | .branch v ifTrue ifFalse =>
    (ifFalse.start?.isSome → (∀ u ∈ ifTrue.visits, f.writesArrays u = false) ∧
      TargetStays f ifTrue.visits v.stop.targetPtr) ∧ ifTrue.Quiet f ∧ ifFalse.Quiet f
  | .jump _ next => next.Quiet f
  | .cut _ ifTrue => ifTrue.Quiet f
  | .skipped | .thrown _ | .last _ _ => True

/-- Nothing else decides whether branches are isolated. By induction on the depth left. -/
theorem isolated_iff (z : Simplifier Name) (f : SymFunction) :
    ∀ (left : Nat) {b origin : Nat} {preCst : Expr}
    {e : Engine} {p : Explored × Engine}, processBB z f left b origin preCst e = p →
    (p.1.Isolated ↔ p.1.Quiet f) := by
  intro left
  induction left with
  | zero =>
    intro b origin preCst e p hp
    cases hp
    exact Iff.rfl
  | succ left ih =>
    intro b origin preCst e p hp
    have hcase := processBB_case z f left b origin preCst e
    rw [hp] at hcase
    cases hcase with
    | skipped => exact Iff.rfl
    | thrown uid => exact Iff.rfl
    | last threw hv => exact Iff.rfl
    | jump hv succ uid hnext =>
      have hrest := ih hnext
      exact hrest
    | cut hv b uid c hnext ht =>
      have hrest := ih hnext
      exact hrest
    | @branch v e₁ hv b b' uid c c' p q htrue ht hfalse =>
      have hchain := processBB_chain z f left htrue ht
      rw [← hv.stop] at hchain
      refine and_congr ?_ (and_congr (ih htrue) (ih hfalse))
      rw [← hchain.eq_iff]
      cases hs : q.1.start? with
      | none => exact iff_of_true nofun nofun
      | some s =>
        have hstart := processBB_start hfalse hs
        constructor
        · intro h _
          rw [← hstart]
          exact h s rfl
        · intro h s' hs'
          cases hs'
          rw [hstart]
          exact h rfl

/-! ## §4 — the constraints of a node. -/

/-- The constraints recorded for a node imply the conditions of the path to it. -/
def Visit.Implies (path : List Expr) (v : Visit) : Prop :=
  ∀ c ∈ path ++ [v.preCst], Lib.Entails v.node.constraints c

/-- The same for every node; `path` has the conditions in front of this one. -/
def Explored.PathImplied (path : List Expr) : Explored → Prop
  | .skipped | .thrown _ => True
  | .last v _ => v.Implies path
  | .jump v next => v.Implies path ∧ next.PathImplied (path ++ [v.preCst])
  | .branch v ifTrue ifFalse =>
    v.Implies path ∧ ifTrue.PathImplied (path ++ [v.preCst]) ∧
    ifFalse.PathImplied (path ++ [v.preCst])
  | .cut v ifTrue => v.Implies path ∧ ifTrue.PathImplied (path ++ [v.preCst])

/-- The condition of every edge implies that of the edge before it. -/
def Explored.EdgeImplied (prev : Expr) : Explored → Prop
  | .skipped | .thrown _ => True
  | .last v _ => Lib.Entails [v.preCst] prev
  | .jump v next => Lib.Entails [v.preCst] prev ∧ next.EdgeImplied v.preCst
  | .branch v ifTrue ifFalse =>
    Lib.Entails [v.preCst] prev ∧ ifTrue.EdgeImplied v.preCst ∧ ifFalse.EdgeImplied v.preCst
  | .cut v ifTrue => Lib.Entails [v.preCst] prev ∧ ifTrue.EdgeImplied v.preCst

/-- A node's constraints are the condition of its edge, and nothing from before. -/
theorem processBB_constraints (z : Simplifier Name) (f : SymFunction) :
    ∀ (left : Nat) {b origin : Nat}
    {preCst : Expr} {e : Engine} {p : Explored × Engine}, processBB z f left b origin preCst e = p →
    ∀ v ∈ p.1.visits, v.node.constraints = [v.preCst] := by
  intro left
  induction left with
  | zero =>
    intro b origin preCst e p hp
    cases hp
    exact fun v hv => absurd hv List.not_mem_nil
  | succ left ih =>
    intro b origin preCst e p hp
    have hcase := processBB_case z f left b origin preCst e
    rw [hp] at hcase
    cases hcase with
    | skipped => exact fun v hv => absurd hv List.not_mem_nil
    | thrown uid => exact fun v hv => absurd hv List.not_mem_nil
    | last threw hv =>
      exact List.forall_mem_cons.mpr ⟨hv.edge ▸ hv.constraints,
        fun v hv => absurd hv List.not_mem_nil⟩
    | jump hv succ uid hnext => exact List.forall_mem_cons.mpr ⟨hv.edge ▸ hv.constraints, ih hnext⟩
    | cut hv b uid c hnext ht => exact List.forall_mem_cons.mpr ⟨hv.edge ▸ hv.constraints, ih hnext⟩
    | branch hv b b' uid c c' htrue ht hfalse =>
      exact List.forall_mem_cons.mpr ⟨hv.edge ▸ hv.constraints,
        List.forall_mem_append.mpr ⟨ih htrue, ih hfalse⟩⟩

/-- `prev` says as much as the whole path. -/
def Sums (path : List Expr) (prev : Expr) : Prop :=
  ∀ d, (∀ c ∈ path, Lib.Entails [d] c) ↔ Lib.Entails [d] prev

theorem Sums.start : Sums [] noCondition :=
  fun _ => iff_of_true (fun _ hc => absurd hc List.not_mem_nil) fun _ _ => rfl

/-- A condition that implies the one before it sums up its own path. -/
theorem Sums.snoc {path : List Expr} {prev c : Expr} (h : Sums path prev)
    (hc : Lib.Entails [c] prev) : Sums (path ++ [c]) c := by
  intro d
  constructor
  · exact fun hall => hall c (List.mem_append_right _ (List.mem_singleton_self c))
  · intro hd x hx
    rcases List.mem_append.mp hx with hx | hx
    · exact (h d).mpr (hd.trans hc) x hx
    · rw [List.mem_singleton.mp hx]
      exact hd

theorem Visit.implies_iff {v : Visit} {path : List Expr} {prev : Expr} (h : Sums path prev)
    (hv : v.node.constraints = [v.preCst]) : v.Implies path ↔ Lib.Entails [v.preCst] prev := by
  unfold Visit.Implies
  rw [hv, List.forall_mem_append, h v.preCst]
  constructor
  · exact And.left
  · intro hprev
    refine ⟨hprev, fun c hc => ?_⟩
    rw [List.mem_singleton.mp hc]
    exact Lib.Entails.self _

/-- **From edge to edge is enough**, by induction on the tree. -/
theorem pathImplied_iff : ∀ (t : Explored) {path : List Expr} {prev : Expr},
    (∀ v ∈ t.visits, v.node.constraints = [v.preCst]) → Sums path prev →
    (t.PathImplied path ↔ t.EdgeImplied prev) := by
  intro t
  induction t with
  | skipped => exact fun _ _ => Iff.rfl
  | thrown start => exact fun _ _ => Iff.rfl
  | last v threw => exact fun hcs h => Visit.implies_iff h (hcs v List.mem_cons_self)
  | jump v next ih | cut v next ih =>
    intro path prev hcs h
    obtain ⟨hv, hcs⟩ := List.forall_mem_cons.mp hcs
    unfold Explored.PathImplied Explored.EdgeImplied
    rw [Visit.implies_iff h hv]
    exact and_congr_right fun hedge => ih hcs (h.snoc hedge)
  | branch v ifTrue ifFalse iht ihf =>
    intro path prev hcs h
    obtain ⟨hv, hcs⟩ := List.forall_mem_cons.mp hcs
    obtain ⟨hcst, hcsf⟩ := List.forall_mem_append.mp hcs
    unfold Explored.PathImplied Explored.EdgeImplied
    rw [Visit.implies_iff h hv]
    exact and_congr_right fun hedge => and_congr (iht hcst (h.snoc hedge)) (ihf hcsf (h.snoc hedge))

/-- **Branch isolation.** In the exploration of a function every false successor starts where its
branching block stopped and every node's constraints imply the conditions of its path, if and only
if nothing below a true successor writes what the false successor reads and every edge's condition
implies the one before it. -/
theorem branch_isolation_iff (z : Simplifier Name) (f : SymFunction) :
    ((explore z f).1.Isolated ∧ (explore z f).1.PathImplied []) ↔
      ((explore z f).1.Quiet f ∧ (explore z f).1.EdgeImplied noCondition) :=
  and_congr (isolated_iff z f maxDepth rfl)
    (pathImplied_iff _ (processBB_constraints z f maxDepth rfl) Sums.start)

/-- Block 0 branches on `CALLDATASIZE == 5`. Block 1, its true successor, stores 7 to `spPtr` and
branches on `CALLDATASIZE != 7`; all other successors are block 2, which returns. -/
def leaky : SymFunction where
  numRegisters := 10
  block
    | 0 => { name := .other, term := .condBr (.reg 2) 1 2, body := [
        ⟨.call .getCallDataSize, [], 0⟩,
        ⟨.zext 256, [.reg 0], 1⟩,
        ⟨.icmp .eq, [.reg 1, .constant (ofBv (.bvVal 5#256))], 2⟩] }
    | 1 => { name := .other, term := .condBr (.reg 6) 2 2, body := [
        ⟨.call .getCallDataSize, [], 4⟩,
        ⟨.zext 256, [.reg 4], 5⟩,
        ⟨.icmp .ne, [.reg 5, .constant (ofBv (.bvVal 7#256))], 6⟩,
        ⟨.store false, [.constant (ofBv (.bvVal 7#256)), .global .spPtr], 7⟩] }
    | _ => { name := .other, term := .ret, body := [] }

/-- **The true successor's store is in the memory of the false one**, and below the true successor
its own condition is forgotten. -/
theorem leaky_not_isolated :
    ¬ (explore (.none Name) leaky).1.Isolated ∧
    ¬ (explore (.none Name) leaky).1.PathImplied [] := by
  -- in the model of zeros `CALLDATASIZE` is 0
  obtain ⟨v, v₁, v₂, t, u, s, c, htree, hs, hmemory, hcs, hc, hpre⟩ : ∃ v v₁ v₂ t u s c,
      (explore (.none Name) leaky).1 = .branch v (.branch v₁ (.last v₂ false) t) u ∧
        u.start? = some s ∧
        s.memory.size ≠ v.stop.memory.size ∧ v₂.node.constraints = [c] ∧ c.Holds .zeros ∧
          ¬ v₁.preCst.Holds .zeros :=
    ⟨_, _, _, _, _, _, _, rfl, rfl, by decide, rfl, rfl, fun h => Bool.false_ne_true h⟩
  rw [htree]
  refine ⟨fun hisolated => ?_, fun himplied => ?_⟩
  · apply hmemory
    rw [hisolated.1 s hs]
  · -- the node of block 2 below both true successors
    have hnode : v₂.Implies ([] ++ [v.preCst] ++ [v₁.preCst]) := himplied.2.1.2.1
    refine hpre (hnode v₁.preCst (by simp) .zeros fun x hx => ?_)
    rw [hcs, List.mem_singleton] at hx
    rw [hx]
    exact hc

end EvmTrans.SEngine
