/-
# `EvmTrans.EmittedFunction` — the function `compileMain` emits, block by block.

Two loops, one of them driven by guessed edges, fill the blocks in an order that depends on the
code. `CallsInv` is their common invariant: a log of the calls made so far, in which EVERY block
number occurs at most once, the jump table holds the cases of exactly the blocks in the log, and
registers handed to a block are the view of a logged block with an edge to it. When both loops are
done the log has every block (`compileBlocks_spec`), so each code block of the function is the
output of one call and the helper blocks stand behind them (`compileMain_spec`).
-/
import EvmTrans.BlockShape

namespace EvmTrans

open Lib (whileLoop whileLoop_exits pending pending_mark pending_congr
  pending_none)

/-! ## §1 — the log of calls. -/

/-- One compilation of a block: its number, the block, the registers it may inherit and the
insertion point it starts from. -/
structure Call where
  i : Nat
  bb : BasicBlock
  pstack : List Value
  next : Nat
  cases : List (Word × Label)

section Log

variable (env : CompileEnv) (code : List Byte) (bs : List BasicBlock)

/-- The inputs of the call, and the insertion point behind them. -/
def Call.inputs (c : Call) : List Value × Builder :=
  queuedInputs (mayInherit code bs c.bb) c.bb.stkIn c.pstack (.empty c.next c.cases)

/-- The insertion point behind the body. -/
def Call.bodyEnd (c : Call) : Builder :=
  EvmTrans.bodyEnd env code c.bb c.i (nextNode bs.length c.i) (c.inputs code bs).1
    (c.inputs code bs).2

/-- `view()` after the body. -/
def Call.view (c : Call) : List Value := (c.bodyEnd env code bs).locals

/-- The insertion point behind the spill. -/
def Call.final (c : Call) : Builder := spill (c.bodyEnd env code bs)

theorem compileQueued_eq (bb : BasicBlock) (i : Nat) (pstack : List Value) (next : Nat)
    (cases : List (Word × Label)) :
    compileQueued env code bs bb i pstack (.empty next cases) =
      (Call.view env code bs ⟨i, bb, pstack, next, cases⟩,
        Call.final env code bs ⟨i, bb, pstack, next, cases⟩) :=
  compileWith_eq

/-- The second loop makes the calls of the first, with nothing to inherit. -/
theorem compileLeftover_eq (bb : BasicBlock) (i : Nat) (next : Nat)
    (cases : List (Word × Label)) :
    compileLeftover env code bs bb i (.empty next cases) =
      (Call.view env code bs ⟨i, bb, [], next, cases⟩,
        Call.final env code bs ⟨i, bb, [], next, cases⟩) := by
  rw [← compileQueued_eq]
  show _ = (queuedInputs (mayInherit code bs bb) bb.stkIn [] >>= _) _
  rw [queuedInputs_nil]
  rfl

/-- The call that `queueBody` makes, if any. -/
def Main.queueCall (m : Main) : Option Call :=
  match m.queue with
  | (some i, pstack) :: _ =>
    if some i ∈ m.visited then none else bs[i]?.map fun bb => ⟨i, bb, pstack, m.next, m.cases⟩
  | _ => none

/-- The call that `leftoverBody` makes for block `i`, if any. -/
def Main.leftoverCall (m : Main) (i : Nat) : Option Call :=
  if some i ∈ m.visited then none else bs[i]?.map fun bb => ⟨i, bb, [], m.next, m.cases⟩

/-- The calls of the queue loop, in their order. -/
def queueCalls : Nat → Main → List Call
  | 0, _ => []
  | fuel + 1, m =>
    match queueBody env code bs m with
    | none => []
    | some m' => (m.queueCall bs).toList ++ queueCalls fuel m'

/-- The calls of the second loop. -/
def leftoverCalls : List Nat → Main → List Call
  | [], _ => []
  | i :: is, m => (m.leftoverCall bs i).toList ++ leftoverCalls is (leftoverBody env code bs m i)

/-- The variables before the first iteration. -/
def Main.start : Main := ⟨1, [], [], [(some 0, [])], []⟩

/-- **The calls of `compileBlocks`.** -/
def compileCalls : List Call :=
  queueCalls env code bs (queueFuel bs) .start ++
    leftoverCalls env code bs (List.range bs.length)
      (whileLoop (queueBody env code bs) (queueFuel bs) .start)

/-- Where the registers `pstack` of block `i` come from: nowhere, or from the view of a logged block
with an edge to `i`. -/
def Source (calls : List Call) (i : Nat) (pstack : List Value) : Prop :=
  pstack = [] ∨ ∃ d ∈ calls, d.view env code bs = pstack ∧ some i ∈ d.bb.bbsTo

/-- The case a call adds to the jump table. -/
def Call.case (c : Call) : List (Word × Label) :=
  if instAt code c.bb.firstInstrIdx = .JUMPDEST then [caseFor c.bb c.i] else []

/-- **The invariant of both loops.** The latest call is the head of the log. -/
structure CallsInv (calls : List Call) (m : Main) : Prop where
  out : m.out = calls.map fun c => (c.i, (c.final env code bs).block c.i)
  block : ∀ c ∈ calls, bs[c.i]? = some c.bb
  nodup : (calls.map Call.i).Nodup
  visited : ∀ i, i < bs.length → (some i ∈ m.visited ↔ ∃ c ∈ calls, c.i = i)
  cases : m.cases = calls.reverse.flatMap (Call.case code)
  source : ∀ c ∈ calls, Source env code bs calls c.i c.pstack ∧ ∀ v ∈ c.pstack, v.below c.next
  queue : ∀ i ps, (some i, ps) ∈ m.queue →
    Source env code bs calls i ps ∧ ∀ v ∈ ps, v.below m.next

variable {env code bs}

/-- The body of a logged call starts on an open block. -/
theorem Call.start_open {c : Call} (hb : ∀ v ∈ c.pstack, v.below c.next) :
    (bodyStart (c.inputs code bs).1 (c.inputs code bs).2).Open := by
  have h : Inputs (.empty c.next c.cases) c.bb.stkIn (c.inputs code bs) :=
    queuedInputs_static _ _ hb
  exact bodyStart_open h.below h.locals h.term

variable (env bs) in
/-- **What a call leaves behind**: its case, later registers, a view of defined registers. -/
theorem Call.final_spec {c : Call} (hg : GoodBlock code c.bb)
    (hb : ∀ v ∈ c.pstack, v.below c.next) :
    (c.final env code bs).cases = c.cases ++ c.case code ∧ c.next ≤ (c.final env code bs).next ∧
      ∀ v ∈ c.view env code bs, v.below (c.final env code bs).next := by
  have hin : Inputs (.empty c.next c.cases) c.bb.stkIn (c.inputs code bs) :=
    queuedInputs_static _ _ hb
  have hbody : Closed _ (c.bodyEnd env code bs) (c.case code) :=
    bodyEnd_closed hg (Call.start_open hb)
  have hspill := spill_quiet (c.bodyEnd env code bs)
  refine ⟨?_, ?_, fun v hv => Value.below_mono (hbody.below v hv) hspill.next_le⟩
  · calc (c.final env code bs).cases = (c.bodyEnd env code bs).cases := hspill.cases
      _ = (c.inputs code bs).2.cases ++ c.case code := hbody.cases
      _ = c.cases ++ c.case code := by rw [hin.cases]; rfl
  · calc c.next ≤ (c.inputs code bs).2.next := hin.next_le
      _ ≤ (c.bodyEnd env code bs).next := hbody.next_le
      _ ≤ (c.final env code bs).next := hspill.next_le

theorem Source.cons {calls : List Call} {i : Nat} {ps : List Value} (c : Call)
    (h : Source env code bs calls i ps) : Source env code bs (c :: calls) i ps := by
  rcases h with rfl | ⟨d, hd, hv, he⟩
  · exact Or.inl rfl
  · exact Or.inr ⟨d, List.mem_cons_of_mem _ hd, hv, he⟩

/-- **One more call**, for a block that was not compiled yet; `queue` is what the loop waits for
next. -/
theorem CallsInv.add {calls : List Call} {m : Main} (h : CallsInv env code bs calls m) {c : Call}
    {queue : List (Option Nat × List Value)} (hg : GoodBlock code c.bb) (hbb : bs[c.i]? = some c.bb)
    (hnew : some c.i ∉ m.visited) (hsrc : Source env code bs calls c.i c.pstack)
    (hb : ∀ v ∈ c.pstack, v.below c.next) (hn : c.next = m.next) (hc : c.cases = m.cases)
    (hq : ∀ i ps, (some i, ps) ∈ queue → (some i, ps) ∈ m.queue ∨
      (ps = c.view env code bs ∧ some i ∈ c.bb.bbsTo)) :
    CallsInv env code bs (c :: calls)
      { m.finish c.i (c.final env code bs) with queue := queue } := by
  obtain ⟨hcases, hnext, hview⟩ := Call.final_spec env bs hg hb
  have hlt : c.i < bs.length := (List.getElem?_eq_some_iff.mp hbb).1
  refine ⟨?_, ?_, ?_, ?_, ?_, ?_, ?_⟩
  · show (c.i, _) :: m.out = _
    rw [h.out]
    rfl
  · intro d hd
    rcases List.mem_cons.mp hd with rfl | hd
    · exact hbb
    · exact h.block d hd
  · refine List.nodup_cons.mpr ⟨fun hmem => hnew ?_, h.nodup⟩
    obtain ⟨d, hd, hdi⟩ := List.mem_map.mp hmem
    exact (h.visited c.i hlt).mpr ⟨d, hd, hdi⟩
  · intro i hi
    show some i ∈ some c.i :: m.visited ↔ _
    rw [List.mem_cons, h.visited i hi]
    constructor
    · rintro (heq | ⟨d, hd, rfl⟩)
      · exact ⟨c, List.mem_cons_self, (Option.some.inj heq).symm⟩
      · exact ⟨d, List.mem_cons_of_mem _ hd, rfl⟩
    · rintro ⟨d, hd, rfl⟩
      rcases List.mem_cons.mp hd with rfl | hd
      · exact Or.inl rfl
      · exact Or.inr ⟨d, hd, rfl⟩
  · show (c.final env code bs).cases = _
    rw [hcases, hc, h.cases, List.reverse_cons, List.flatMap_append]
    simp
  · intro d hd
    rcases List.mem_cons.mp hd with rfl | hd
    · exact ⟨hsrc.cons d, hb⟩
    · exact ⟨(h.source d hd).1.cons c, (h.source d hd).2⟩
  · intro i ps hmem
    rcases hq i ps hmem with hold | ⟨rfl, hedge⟩
    · obtain ⟨hs, hbelow⟩ := h.queue i ps hold
      exact ⟨hs.cons c, fun v hv => Value.below_mono (hbelow v hv) (hn ▸ hnext)⟩
    · exact ⟨Or.inr ⟨c, List.mem_cons_self, rfl, hedge⟩, hview⟩

/-! ## §2 — both loops keep the invariant, and the queue drains. -/

/-- Blocks of `bs` are good and numbered; all a loop needs to know about them. -/
theorem queueBody_inv (hgood : ∀ bb ∈ bs, GoodBlock code bb) {calls : List Call} {m m' : Main}
    (h : CallsInv env code bs calls m) (hb : queueBody env code bs m = some m') :
    CallsInv env code bs ((m.queueCall bs).toList ++ calls) m' := by
  unfold queueBody at hb
  unfold Main.queueCall
  split at hb
  · cases hb
  · rename_i p ps rest hqueue
    rw [hqueue]
    have hrest : ∀ i qs, (some i, qs) ∈ rest → (some i, qs) ∈ m.queue := by
      intro i qs hmem
      rw [hqueue]
      exact List.mem_cons_of_mem _ hmem
    -- the entries that stay in the queue keep their promise
    have hdrop : ∀ v : Option Nat, (∀ i, i < bs.length → v ≠ some i) →
        CallsInv env code bs calls { m with queue := rest, visited := v :: m.visited } := by
      intro v hv
      refine ⟨h.out, h.block, h.nodup, fun i hi => ?_, h.cases, h.source,
        fun i qs hmem => h.queue i qs (hrest i qs hmem)⟩
      show some i ∈ v :: m.visited ↔ _
      rw [List.mem_cons, ← h.visited i hi]
      exact ⟨fun hc => hc.resolve_left fun he => hv i hi he.symm, Or.inr⟩
    split at hb
    · rename_i hseen
      cases hb
      have hcalls : CallsInv env code bs calls { m with queue := rest } :=
        ⟨h.out, h.block, h.nodup, h.visited, h.cases, h.source,
          fun i qs hmem => h.queue i qs (hrest i qs hmem)⟩
      cases p with
      | none => exact hcalls
      | some i =>
        simp only [if_pos hseen]
        exact hcalls
    · rename_i hnew
      split at hb
      · cases hb
        exact hdrop none fun _ _ he => by cases he
      · rename_i i
        simp only [if_neg hnew]
        split at hb
        · rename_i hnone
          cases hb
          rw [hnone]
          refine hdrop (some i) fun j hj he => ?_
          rw [Option.some.inj he, List.getElem?_eq_getElem hj] at hnone
          cases hnone
        · rename_i bb hbb
          rw [compileQueued_eq] at hb
          cases hb
          rw [hbb]
          obtain ⟨hsrc, hbelow⟩ := h.queue i ps (by rw [hqueue]; exact List.mem_cons_self)
          refine h.add (c := ⟨i, bb, ps, m.next, m.cases⟩) (hgood bb (List.mem_of_getElem? hbb)) hbb
            hnew hsrc hbelow rfl
            rfl ?_
          intro j qs hmem
          rcases List.mem_append.mp hmem with hold | hedge
          · exact Or.inl (hrest j qs hold)
          · obtain ⟨q, hq, heq⟩ := List.mem_map.mp hedge
            cases heq
            exact Or.inr ⟨rfl, hq⟩

/-- What is waiting, and the edges of the blocks still to be compiled. -/
def queueMeasure (bs : List BasicBlock) (m : Main) : Nat :=
  m.queue.length +
    pending (fun i => (bs.getD i default).bbsTo.length) bs.length (fun i => some i ∈ m.visited)

theorem queueBody_measure {m m' : Main} (hb : queueBody env code bs m = some m') :
    queueMeasure bs m' < queueMeasure bs m := by
  unfold queueBody at hb
  split at hb
  · cases hb
  · rename_i p ps rest hqueue
    have hlen : m.queue.length = rest.length + 1 := by rw [hqueue]; rfl
    split at hb
    · cases hb
      simp only [queueMeasure, hlen]
      omega
    · rename_i hnew
      split at hb
      · cases hb
        simp only [queueMeasure, hlen, List.mem_cons, reduceCtorEq, false_or]
        omega
      · rename_i i
        split at hb
        · rename_i hnone
          cases hb
          have hout : ∀ j, j < bs.length → (some j ∈ some i :: m.visited ↔ some j ∈ m.visited) := by
            intro j hj
            have hne : j ≠ i := by
              rintro rfl
              rw [List.getElem?_eq_getElem hj] at hnone
              cases hnone
            simp [hne]
          simp only [queueMeasure, hlen, pending_congr hout]
          omega
        · rename_i bb hbb
          cases hb
          -- the block's edges move from the pending blocks into the queue
          have hmark : pending (fun j => (bs.getD j default).bbsTo.length) bs.length
                (fun j => some j ∈ m.visited) =
              pending (fun j => (bs.getD j default).bbsTo.length) bs.length
                (fun j => some j ∈ some i :: m.visited) + (bs.getD i default).bbsTo.length :=
            pending_mark (List.getElem?_eq_some_iff.mp hbb).1 hnew (by simp)
          have hd : bs.getD i default = bb := by rw [List.getD_eq_getElem?_getD, hbb]; rfl
          show (rest ++ bb.bbsTo.map _).length + pending _ _
              (fun j => some j ∈ some i :: m.visited) < _
          rw [queueMeasure, hmark, hd, hlen, List.length_append, List.length_map]
          omega

theorem sum_range_bbsTo : ∀ bs : List BasicBlock,
    ∑ i ∈ Finset.range bs.length, (bs.getD i default).bbsTo.length =
      (bs.map fun b => b.bbsTo.length).sum := by
  intro bs
  induction bs with
  | nil => rfl
  | cons b bs ih =>
    rw [List.length_cons, Finset.sum_range_succ', List.map_cons, List.sum_cons, ← ih, Nat.add_comm]
    rfl

/-- **The fuel of the queue loop is enough**: it stops on an empty queue. -/
theorem queue_exits (env : CompileEnv) (code : List Byte) (bs : List BasicBlock) :
    (whileLoop (queueBody env code bs) (queueFuel bs) ⟨1, [], [], [(some 0, [])], []⟩).queue
      = [] := by
  have hm : queueMeasure bs ⟨1, [], [], [(some 0, [])], []⟩ ≤ queueFuel bs := by
    rw [queueMeasure, pending_none fun i => List.not_mem_nil, sum_range_bbsTo]
    exact Nat.le_refl _
  have h : queueBody env code bs _ = none := whileLoop_exits (P := fun _ => True)
    (fun _ _ _ hb => ⟨trivial, queueBody_measure hb⟩) _ _ trivial hm
  generalize whileLoop (queueBody env code bs) _ _ = m at h
  unfold queueBody at h
  split at h
  · assumption
  · split at h
    · cases h
    · split at h
      · cases h
      · split at h <;> cases h

theorem leftoverBody_inv (hgood : ∀ bb ∈ bs, GoodBlock code bb) {calls : List Call} {m : Main}
    (h : CallsInv env code bs calls m) (i : Nat) :
    CallsInv env code bs ((m.leftoverCall bs i).toList ++ calls)
      (leftoverBody env code bs m i) := by
  unfold leftoverBody Main.leftoverCall
  split
  · exact h
  · rename_i hnew
    split
    · rename_i hnone
      rw [hnone]
      exact h
    · rename_i bb hbb
      rw [compileLeftover_eq, hbb]
      exact h.add (c := ⟨i, bb, [], m.next, m.cases⟩) (hgood bb (List.mem_of_getElem? hbb)) hbb hnew
        (Or.inl rfl) (fun v hv => absurd hv List.not_mem_nil) rfl rfl fun _ _ hm => Or.inl hm

/-- An iteration of the second loop marks its block, and unmarks none. -/
theorem leftoverBody_visited (m : Main) {i : Nat} (hi : i < bs.length) :
    some i ∈ (leftoverBody env code bs m i).visited := by
  unfold leftoverBody
  split
  · assumption
  · rw [List.getElem?_eq_getElem hi]
    exact List.mem_cons_self

theorem visited_leftoverBody_mono (m : Main) (i : Nat) {x : Option Nat} (hx : x ∈ m.visited) :
    x ∈ (leftoverBody env code bs m i).visited := by
  unfold leftoverBody
  split
  · exact hx
  · split
    · exact hx
    · exact List.mem_cons_of_mem _ hx

/-- The second loop unmarks no block, and leaves none of its list unmarked. -/
theorem leftover_foldl_visited : ∀ (l : List Nat) (m : Main),
    (∀ x ∈ m.visited, x ∈ (l.foldl (leftoverBody env code bs) m).visited) ∧
      ∀ i ∈ l, i < bs.length → some i ∈ (l.foldl (leftoverBody env code bs) m).visited := by
  intro l
  induction l with
  | nil => exact fun m => ⟨fun _ hx => hx, fun i hi => absurd hi List.not_mem_nil⟩
  | cons i l ih =>
    intro m
    obtain ⟨hmono, hall⟩ := ih (leftoverBody env code bs m i)
    refine ⟨fun x hx => hmono x (visited_leftoverBody_mono m i hx), fun j hj hlt => ?_⟩
    rcases List.mem_cons.mp hj with rfl | hj
    · exact hmono _ (leftoverBody_visited m hlt)
    · exact hall j hj hlt

/-- **The rule for both loops**: what every iteration keeps, of the calls so far and of the
variables, holds of all calls in the end. The latest call is the head. -/
theorem compileCalls_inv {R : List Call → Main → Prop} (hstart : R [] .start)
    (hqueue : ∀ {calls m m'}, R calls m → queueBody env code bs m = some m' →
      R ((m.queueCall bs).toList ++ calls) m')
    (hleftover : ∀ {calls m} i, R calls m →
      R ((m.leftoverCall bs i).toList ++ calls) (leftoverBody env code bs m i)) :
    R (compileCalls env code bs).reverse (compileBlocks env code bs) := by
  have hrev : ∀ (o : Option Call) (l calls : List Call), l.reverse ++ (o.toList ++ calls) =
      (o.toList ++ l).reverse ++ calls := by
    intro o l calls
    cases o <;> simp
  have hqueues : ∀ (fuel : Nat) (calls : List Call) (m : Main), R calls m →
      R ((queueCalls env code bs fuel m).reverse ++ calls)
        (whileLoop (queueBody env code bs) fuel m) := by
    intro fuel
    induction fuel with
    | zero => exact fun _ _ h => h
    | succ fuel ih =>
      intro calls m h
      unfold whileLoop queueCalls
      cases hb : queueBody env code bs m with
      | none => exact h
      | some m' =>
        dsimp only
        rw [← hrev]
        exact ih _ m' (hqueue h hb)
  have hleftovers : ∀ (is : List Nat) (calls : List Call) (m : Main), R calls m →
      R ((leftoverCalls env code bs is m).reverse ++ calls)
        (is.foldl (leftoverBody env code bs) m) := by
    intro is
    induction is with
    | nil => exact fun _ _ h => h
    | cons i is ih =>
      intro calls m h
      rw [List.foldl_cons, leftoverCalls, ← hrev]
      exact ih _ _ (hleftover i h)
  have hdone := hleftovers (List.range bs.length) _ _ (hqueues (queueFuel bs) [] .start hstart)
  rw [List.append_nil, ← List.reverse_append] at hdone
  exact hdone

theorem callsInv_init : CallsInv env code bs [] .start where
  out := rfl
  block := fun c hc => absurd hc List.not_mem_nil
  nodup := List.nodup_nil
  visited := by simp [Main.start]
  cases := rfl
  source := fun c hc => absurd hc List.not_mem_nil
  queue := by
    intro i ps hmem
    cases List.mem_singleton.mp hmem
    exact ⟨Or.inl rfl, fun v hv => absurd hv List.not_mem_nil⟩

/-- **Every block is compiled by exactly one call.** -/
theorem compileBlocks_spec (env : CompileEnv) (hgood : ∀ bb ∈ bs, GoodBlock code bb) :
    CallsInv env code bs (compileCalls env code bs).reverse (compileBlocks env code bs) ∧
      ∀ i, i < bs.length → ∃ c ∈ (compileCalls env code bs).reverse, c.i = i := by
  have hinv : CallsInv env code bs (compileCalls env code bs).reverse (compileBlocks env code bs) :=
    compileCalls_inv callsInv_init (queueBody_inv hgood) fun i h => leftoverBody_inv hgood h i
  refine ⟨hinv, fun i hi => (hinv.visited i hi).mp ?_⟩
  exact (leftover_foldl_visited (List.range bs.length) _).2 i (List.mem_range.mpr hi) hi

end Log

/-! ## §3 — looking blocks up in the function. -/

theorem find?_label {l : List IRBlock} (h : (l.map IRBlock.label).Nodup) :
    ∀ {k : Nat} {b : IRBlock}, l[k]? = some b → l.find? (fun x => x.label == b.label) = some b := by
  induction l with
  | nil => intro k b hk; cases hk
  | cons a l ih =>
    intro k b hk
    obtain ⟨hna, hnd⟩ := List.nodup_cons.mp h
    cases k with
    | zero =>
      obtain rfl : a = b := by simpa using hk
      simp
    | succ k =>
      have hmem : b ∈ l := List.mem_of_getElem? hk
      have hne : a.label ≠ b.label := fun heq => hna (heq ▸ List.mem_map_of_mem hmem)
      rw [List.find?_cons_of_neg (by simpa using hne)]
      exact ih hnd hk

theorem resolveBlock_label (cases : List (Word × Label)) (next : Label) (b : IRBlock) :
    (resolveBlock cases next b).label = b.label := by
  unfold resolveBlock
  split <;> rfl

/-- Nothing is erased, or one store to `target`. -/
theorem eraseTargetStore_split (is : List Instr) : eraseTargetStore is = is ∨
    ∃ pre post idx, is = pre ++ .store idx .target :: post ∧ eraseTargetStore is = pre ++ post := by
  rcases List.exists_or_eq_self_of_eraseP Instr.storesTarget is.reverse with
    hself | ⟨y, post, pre, -, hy, heq, herase⟩
  · left
    rw [eraseTargetStore, hself, List.reverse_reverse]
  · right
    obtain ⟨idx, rfl⟩ : ∃ idx, y = .store idx .target := by
      cases y with
      | store v p =>
        cases p with
        | target => exact ⟨v, rfl⟩
        | _ => cases hy
      | _ => cases hy
    refine ⟨pre.reverse, post.reverse, idx, ?_, ?_⟩
    · rw [← List.reverse_reverse is, heq]
      simp
    · rw [eraseTargetStore, herase, List.reverse_append]

theorem resolveBlock_code (cases : List (Word × Label)) (next : Label) (b : IRBlock) :
    (resolveBlock cases next b).code = b.code ∨
      (resolveBlock cases next b).code = eraseTargetStore b.code := by
  unfold resolveBlock
  split
  · exact Or.inl rfl
  · exact Or.inr rfl
  · exact Or.inr rfl
  · exact Or.inl rfl
  · exact Or.inl rfl

/-- What `resolveBlock` keeps of each block, `resolveJumps` keeps of the function. -/
theorem resolveJumps_map {α : Type} {g : IRBlock → α} (cases : List (Word × Label))
    (hg : ∀ next b, g (resolveBlock cases next b) = g b) (f : List IRBlock) :
    (resolveJumps cases f).map g = f.map g := by
  refine List.ext_getElem? fun k => ?_
  simp only [resolveJumps, List.getElem?_map, List.getElem?_mapIdx, Option.map_map]
  congr 1
  funext b
  simp only [Function.comp_apply]
  split
  · split
    · exact hg _ _
    · rfl
  · rfl

theorem resolveJumps_labels (cases : List (Word × Label)) (f : List IRBlock) :
    (resolveJumps cases f).map IRBlock.label = f.map IRBlock.label :=
  resolveJumps_map cases (resolveBlock_label cases) f

section Function

variable {env : CompileEnv} {m : Main} {n : Nat}

theorem length_functionBlocks : (functionBlocks m n).length = n + 5 := by
  simp [functionBlocks]

theorem functionBlocks_code {i : Nat} (h : i < n) :
    (functionBlocks m n)[i + 1]? = some (m.blockAt i) := by
  simp [functionBlocks, List.getElem?_append, h]

/-- The four helper blocks stand behind the code blocks. -/
theorem functionBlocks_helper (k : Nat) : (functionBlocks m n)[n + 1 + k]? =
    ([⟨.test, [], none⟩,
      ⟨.jumpTable, [.load 0 .target], some (.switch (.reg .i256 0) m.cases .abort)⟩,
      ⟨.abort, [.revert (constWord 0) (constWord 0)], some (.br .exit none)⟩,
      ⟨.exit, [.finish (constWord 0) (constWord 0)], some .unreachable⟩] : List IRBlock)[k]? := by
  have hk : n + 1 + k = (n + k) + 1 := by omega
  rw [hk, functionBlocks, List.getElem?_cons_succ, List.getElem?_append_right (by simp)]
  simp

theorem functionBlocks_labels (h : ∀ i, i < n → (m.blockAt i).label = .code i) :
    (functionBlocks m n).map IRBlock.label =
      .entry :: ((List.range n).map Label.code ++ [.test, .jumpTable, .abort, .exit]) := by
  have hmap : (List.range n).map (IRBlock.label ∘ m.blockAt) = (List.range n).map Label.code :=
    List.map_congr_left fun i hi => h i (List.mem_range.mp hi)
  simp only [functionBlocks, List.map_cons, List.map_append, List.map_map, hmap, List.map_nil]

theorem functionBlocks_nodup (h : ∀ i, i < n → (m.blockAt i).label = .code i) :
    ((functionBlocks m n).map IRBlock.label).Nodup := by
  have hcode : ((List.range n).map Label.code).Nodup :=
    List.nodup_range.map fun a b hab => Label.code.inj hab
  rw [functionBlocks_labels h]
  simp [List.nodup_append, hcode]

variable (h : ∀ i, i < n → (m.blockAt i).label = .code i)

include h in
/-- A code block of the function, resolved against the block behind it. -/
theorem find?_code {i : Nat} (hi : i < n) :
    (resolveJumps m.cases (functionBlocks m n)).find? (fun b => b.label == .code i) =
      some (resolveBlock m.cases (nextNode n i) (m.blockAt i)) := by
  have hnd : ((resolveJumps m.cases (functionBlocks m n)).map IRBlock.label).Nodup := by
    rw [resolveJumps_labels]
    exact functionBlocks_nodup h
  have hnext : ∃ b, (functionBlocks m n)[i + 1 + 1]? = some b ∧ b.label = nextNode n i := by
    unfold nextNode
    by_cases hlt : i + 1 < n
    · rw [if_pos hlt]
      exact ⟨_, functionBlocks_code hlt, h _ hlt⟩
    · rw [if_neg hlt, show i + 1 + 1 = n + 1 + 0 by omega, functionBlocks_helper]
      exact ⟨_, rfl, rfl⟩
  obtain ⟨bn, hbn, hlabel⟩ := hnext
  have hk : (resolveJumps m.cases (functionBlocks m n))[i + 1]? =
      some (resolveBlock m.cases (nextNode n i) (m.blockAt i)) := by
    rw [resolveJumps, List.getElem?_mapIdx, functionBlocks_code hi, Option.map_some,
      if_pos (by rw [length_functionBlocks]; omega), hbn, ← hlabel]
  have hfind := find?_label hnd hk
  rw [resolveBlock_label, h i hi] at hfind
  exact hfind

include h in
/-- A helper block is emitted as it stands, but for `Test`, which falls into `JumpTable`. -/
theorem find?_helper {k : Nat} {b : IRBlock} (hk : (functionBlocks m n)[n + 1 + k]? = some b) :
    (resolveJumps m.cases (functionBlocks m n)).find? (fun x => x.label == b.label) =
      some (if k = 0 then ⟨.test, [], some (.br .jumpTable none)⟩ else b) := by
  have hnd : ((resolveJumps m.cases (functionBlocks m n)).map IRBlock.label).Nodup := by
    rw [resolveJumps_labels]
    exact functionBlocks_nodup h
  by_cases h0 : k = 0
  · subst h0
    have hb : b = ⟨.test, [], none⟩ := by
      rw [functionBlocks_helper] at hk
      exact (Option.some.inj hk).symm
    have hres : (resolveJumps m.cases (functionBlocks m n))[n + 1 + 0]? =
        some ⟨.test, [], some (.br .jumpTable none)⟩ := by
      rw [resolveJumps, List.getElem?_mapIdx, hk, Option.map_some,
        if_pos (by rw [length_functionBlocks]; omega),
        show n + 1 + 0 + 1 = n + 1 + 1 by omega, functionBlocks_helper, hb]
      rfl
    rw [if_pos rfl, hb]
    exact find?_label hnd hres
  · have hres : (resolveJumps m.cases (functionBlocks m n))[n + 1 + k]? = some b := by
      rw [resolveJumps, List.getElem?_mapIdx, hk, Option.map_some,
        if_neg (by rw [length_functionBlocks]; omega)]
    rw [if_neg h0]
    exact find?_label hnd hres

include h in
theorem find?_entry :
    (resolveJumps m.cases (functionBlocks m n)).find? (fun b => b.label == .entry) =
    some ⟨.entry, [], some (.br (.code 0) none)⟩ := by
  have hnd : ((resolveJumps m.cases (functionBlocks m n)).map IRBlock.label).Nodup := by
    rw [resolveJumps_labels]
    exact functionBlocks_nodup h
  have hres : (resolveJumps m.cases (functionBlocks m n))[0]? =
      some ⟨.entry, [], some (.br (.code 0) none)⟩ := by
    rw [resolveJumps, List.getElem?_mapIdx]
    rfl
  exact find?_label hnd hres

end Function

/-! ## §4 — the function. -/

/-- The blocks with the edges of `dry_run`, as `compileMain` uses them. -/
def blockTable (code : List Byte) : List BasicBlock := dryRun code (createBasicBlocks code)

/-- The cases of the switch in `JumpTable` when everything is compiled. -/
def jumpCases (env : CompileEnv) (code : List Byte) : List (Word × Label) :=
  (compileBlocks env code (blockTable code)).cases

theorem blockTable_edgeInv {code : List Byte} (hne : code ≠ []) :
    EdgeInv code (blockTable code) :=
  dryRun_edgeInv hne

theorem blockTable_good {code : List Byte} (hne : code ≠ []) {i : Nat} {bb : BasicBlock}
    (h : (blockTable code)[i]? = some bb) : GoodBlock code bb :=
  (blockTable_edgeInv hne).good hne h

theorem blockTable_all_good {code : List Byte} (hne : code ≠ []) :
    ∀ bb ∈ blockTable code, GoodBlock code bb := by
  intro bb hbb
  obtain ⟨i, hi⟩ := List.getElem?_of_mem hbb
  exact blockTable_good hne hi

theorem lookup_of_nodup {α : Type} {l : List (Nat × α)} (h : (l.map Prod.fst).Nodup)
    {i : Nat} {x : α} (hm : (i, x) ∈ l) : l.lookup i = some x := by
  induction l with
  | nil => exact absurd hm List.not_mem_nil
  | cons p l ih =>
    obtain ⟨hna, hnd⟩ := List.nodup_cons.mp h
    rcases List.mem_cons.mp hm with rfl | hm
    · exact List.lookup_cons_self
    · have hne : i ≠ p.1 := by
        rintro rfl
        exact hna (List.mem_map.mpr ⟨_, hm, rfl⟩)
      rw [List.lookup_cons, beq_eq_false_iff_ne.mpr hne]
      exact ih hnd hm

/-- A code block is the block of its call. -/
theorem CallsInv.blockAt {env : CompileEnv} {code : List Byte} {bs : List BasicBlock}
    {calls : List Call} {m : Main} (h : CallsInv env code bs calls m) {c : Call} (hc : c ∈ calls) :
    m.blockAt c.i = (c.final env code bs).block c.i := by
  have hmem : (c.i, (c.final env code bs).block c.i) ∈ m.out := by
    rw [h.out]
    exact List.mem_map_of_mem hc
  have hnd : (m.out.map Prod.fst).Nodup := by
    rw [h.out, List.map_map]
    exact h.nodup
  rw [Main.blockAt, lookup_of_nodup hnd hmem]
  rfl

theorem CallsInv.blockAt_label {env : CompileEnv} {code : List Byte} {bs : List BasicBlock}
    {calls : List Call} {m : Main} (h : CallsInv env code bs calls m)
    (hall : ∀ i, i < bs.length → ∃ c ∈ calls, c.i = i) (i : Nat)
    (hi : i < bs.length) : (m.blockAt i).label = .code i := by
  obtain ⟨c, hc, rfl⟩ := hall i hi
  rw [h.blockAt hc]
  rfl

/-- **The emitted function**, for a log of calls: one resolved block per call, and the five blocks
around them. -/
structure FunctionSpec (env : CompileEnv) (code : List Byte) (calls : List Call) : Prop where
  inv : CallsInv env code (blockTable code) calls (compileBlocks env code (blockTable code))
  all : ∀ i, i < (blockTable code).length → ∃ c ∈ calls, c.i = i
  block : ∀ c ∈ calls, (compileMain env code).find? (fun b => b.label == .code c.i) =
    some (resolveBlock (jumpCases env code) (nextNode (blockTable code).length c.i)
      ((c.final env code (blockTable code)).block c.i))
  entry : (compileMain env code).find? (fun b => b.label == .entry) =
    some ⟨.entry, [], some (.br (.code 0) none)⟩
  test : (compileMain env code).find? (fun b => b.label == .test) =
    some ⟨.test, [], some (.br .jumpTable none)⟩
  jumpTable : (compileMain env code).find? (fun b => b.label == .jumpTable) =
    some ⟨.jumpTable, [.load 0 .target],
      some (.switch (.reg .i256 0) (jumpCases env code) .abort)⟩
  abort : (compileMain env code).find? (fun b => b.label == .abort) =
    some ⟨.abort, [.revert (constWord 0) (constWord 0)], some (.br .exit none)⟩
  exit : (compileMain env code).find? (fun b => b.label == .exit) =
    some ⟨.exit, [.finish (constWord 0) (constWord 0)], some .unreachable⟩

/-- The labels of the function, in its order. -/
theorem FunctionSpec.labels {env : CompileEnv} {code : List Byte} {calls : List Call}
    (hf : FunctionSpec env code calls) : (compileMain env code).map IRBlock.label =
      .entry :: ((List.range (blockTable code).length).map Label.code ++
        [.test, .jumpTable, .abort, .exit]) :=
  (resolveJumps_labels _ _).trans (functionBlocks_labels (hf.inv.blockAt_label hf.all))

/-- The calls of the compilation, the latest first. -/
def loggedCalls (env : CompileEnv) (code : List Byte) : List Call :=
  (compileCalls env code (blockTable code)).reverse

theorem functionSpec_logged (env : CompileEnv) {code : List Byte} (hne : code ≠ []) :
    FunctionSpec env code (loggedCalls env code) := by
  obtain ⟨hinv, hall⟩ := compileBlocks_spec env (blockTable_all_good hne)
  have hlabel : ∀ i, i < (blockTable code).length →
      ((compileBlocks env code (blockTable code)).blockAt i).label = .code i :=
    hinv.blockAt_label hall
  refine ⟨hinv, hall, ?_, find?_entry hlabel, ?_, ?_, ?_, ?_⟩
  · intro c hc
    have hi : c.i < (blockTable code).length :=
      (List.getElem?_eq_some_iff.mp (hinv.block c hc)).1
    rw [← hinv.blockAt hc]
    exact find?_code hlabel hi
  · exact find?_helper hlabel (functionBlocks_helper 0)
  · exact find?_helper hlabel (functionBlocks_helper 1)
  · exact find?_helper hlabel (functionBlocks_helper 2)
  · exact find?_helper hlabel (functionBlocks_helper 3)

theorem compileMain_spec (env : CompileEnv) {code : List Byte} (hne : code ≠ []) :
    ∃ calls, FunctionSpec env code calls :=
  ⟨_, functionSpec_logged env hne⟩

end EvmTrans
