/-
# `EvmTrans.BlockPartition` — what `createBasicBlocks` returns.

The blocks are the maximal straight-line pieces of the LIVE part of the sweep. The proof carries one
loop invariant per mode of the loop: while a block is open (`OpenAt`), the collected instructions
are live, none of them closes a block, and only the first may be a `JUMPDEST`; while the code is
dead (`DeadFrom`), the last killing instruction has seen no `JUMPDEST` since.
`createBasicBlocks_spec` is the loop's postcondition, from any state that satisfies its invariant;
everything later modules need about the block list is read off it.
-/
import EvmTrans.BasicBlock
import Mathlib.Data.List.Chain

namespace EvmTrans

variable {code : List Byte}

/-! ## §1 — dead code, and the shape of one block. -/

/-- An instruction is DEAD when it lies between a `JUMP`, `RETURN`, `REVERT`, `STOP` or `SUICIDE`
and the next `JUMPDEST` of the sweep. -/
def DeadAt (code : List Byte) (i : Nat) : Prop :=
  ∃ t, Boundary code t ∧ t < i ∧ (instAt code t).kills = true ∧
    ∀ j, Boundary code j → t < j → j ≤ i → instAt code j ≠ .JUMPDEST

/-- The instruction that ends a block is one after which the code is dead. -/
def LastKills (code : List Byte) (b : BasicBlock) : Prop :=
  ∃ i, Boundary code i ∧ b.firstInstrIdx ≤ i ∧ instrEnd code i = b.endIdx ∧
    (instAt code i).kills = true

/-- **One block of the partition**: a non-empty range between boundaries of the sweep, closed early
only by its own last instruction, and holding a `JUMPDEST` at most in front. -/
structure GoodBlock (code : List Byte) (b : BasicBlock) : Prop where
  first_boundary : Boundary code b.firstInstrIdx
  first_lt : b.firstInstrIdx < b.endIdx
  end_boundary : b.endIdx = code.length ∨ Boundary code b.endIdx
  ends_last : ∀ i, Boundary code i → b.firstInstrIdx ≤ i → i < b.endIdx →
    (instAt code i).endsBlock = true → instrEnd code i = b.endIdx
  jumpDest_first : ∀ i, Boundary code i → b.firstInstrIdx ≤ i → i < b.endIdx →
    instAt code i = .JUMPDEST → i = b.firstInstrIdx
  stk : (b.stkIn, b.stkOut) = ctxDep code b.firstInstrIdx b.endIdx

/-- Two neighbours in the list: without a killing last instruction the second starts where the first
ends; after one it starts at a `JUMPDEST`. -/
def Adjacent (code : List Byte) (a b : BasicBlock) : Prop :=
  a.endIdx ≤ b.firstInstrIdx ∧ (¬ LastKills code a → a.endIdx = b.firstInstrIdx) ∧
    (LastKills code a → instAt code b.firstInstrIdx = .JUMPDEST)

theorem GoodBlock.end_le {b : BasicBlock} (h : GoodBlock code b) : b.endIdx ≤ code.length := by
  rcases h.end_boundary with he | he
  · exact he.le
  · exact he.1.le

theorem kills_pushBytes : ∀ {i : Instruction}, i.endsBlock = true → i.pushBytes = 0
  | .PUSH _, h => by simp [Instruction.endsBlock, Instruction.kills] at h
  | .STOP, _ | .JUMP, _ | .JUMPI, _ | .RETURN, _ | .REVERT, _ | .SUICIDE, _ => rfl

theorem instrEnd_of_endsBlock {i : Nat} (h : (instAt code i).endsBlock = true) :
    instrEnd code i = i + 1 := by
  simp [instrEnd, kills_pushBytes h]

theorem endsBlock_of_kills {i : Instruction} (h : i.kills = true) : i.endsBlock = true := by
  simp [Instruction.endsBlock, h]

/-- Deadness moves forward over an instruction that neither kills nor is a `JUMPDEST`. -/
theorem deadAt_next {i : Nat} (hi : Boundary code i) (hd : ¬ DeadAt code i)
    (hk : (instAt code i).kills = false) : ¬ DeadAt code (instrEnd code i) := by
  rintro ⟨t, ht, hlt, hkill, hno⟩
  rcases Nat.lt_trichotomy t i with h | rfl | h
  · exact hd ⟨t, ht, h, hkill, fun j hj h1 h2 =>
      hno j hj h1 (h2.trans (lt_instrEnd code i).le)⟩
  · rw [hk] at hkill
    exact Bool.false_ne_true hkill
  · exact absurd (hi.instrEnd_le ht h) (by omega)

theorem not_deadAt_of_jumpDest {i : Nat} (hi : Boundary code i)
    (h : instAt code i = .JUMPDEST) : ¬ DeadAt code i := by
  rintro ⟨t, -, hlt, -, hno⟩
  exact hno i hi hlt le_rfl h

/-! ## §2 — the loop invariants. -/

/-- A block is open: it was begun at the live boundary `begin`, and the instructions collected up to
`curr` close nothing. -/
structure OpenAt (code : List Byte) (begin curr : Nat) : Prop where
  le : begin ≤ curr
  boundary : Boundary code begin
  live : ¬ DeadAt code begin
  quiet : ∀ i, Boundary code i → begin ≤ i → i < curr →
    (instAt code i).endsBlock = false ∧ (instAt code i = .JUMPDEST → i = begin)
  not_dest : begin < curr → instAt code curr ≠ .JUMPDEST

/-- The code is dead up to `curr`: no `JUMPDEST` since the last killing instruction. -/
def DeadFrom (code : List Byte) (curr : Nat) : Prop :=
  ∃ t, Boundary code t ∧ t < curr ∧ (instAt code t).kills = true ∧
    ∀ j, Boundary code j → t < j → j < curr → instAt code j ≠ .JUMPDEST

/-- Every instruction collected in an open block is live. -/
theorem OpenAt.not_deadAt {begin curr i : Nat} (h : OpenAt code begin curr) (h1 : begin ≤ i)
    (h2 : i ≤ curr) : ¬ DeadAt code i := by
  rintro ⟨t, ht, hlt, hkill, hno⟩
  by_cases hb : t < begin
  · exact h.live ⟨t, ht, hb, hkill, fun j hj a b => hno j hj a (b.trans h1)⟩
  · have hq := (h.quiet t ht (by omega) (by omega)).1
    rw [endsBlock_of_kills hkill] at hq
    exact Bool.false_ne_true hq.symm

theorem openAt_self {begin : Nat} (hb : Boundary code begin) (hl : ¬ DeadAt code begin) :
    OpenAt code begin begin where
  le := le_rfl
  boundary := hb
  live := hl
  quiet := fun i _ h1 h2 => absurd h1 (by omega)
  not_dest := fun h => absurd h (lt_irrefl _)

/-- Collecting one more instruction that does not end the block. -/
theorem OpenAt.step {begin curr : Nat} (h : OpenAt code begin curr) (hc : Boundary code curr)
    (hend : (instAt code curr).endsBlock = false)
    (hnext : instAt code (instrEnd code curr) ≠ .JUMPDEST) :
    OpenAt code begin (instrEnd code curr) where
  le := h.le.trans (lt_instrEnd code curr).le
  boundary := h.boundary
  live := h.live
  quiet := by
    intro i hi h1 h2
    rcases Nat.lt_trichotomy i curr with hlt | rfl | hgt
    · exact h.quiet i hi h1 hlt
    · refine ⟨hend, fun hj => ?_⟩
      by_contra hne
      exact h.not_dest (by omega) hj
    · exact absurd (hc.instrEnd_le hi hgt) (by omega)
  not_dest := fun _ => hnext

/-- Closing an open block after the instruction at `curr`. -/
theorem OpenAt.close {begin curr : Nat} (h : OpenAt code begin curr) (hc : Boundary code curr) :
    GoodBlock code (mkBasicBlock code begin (min (instrEnd code curr) code.length)) := by
  have hgt := lt_instrEnd code curr
  have hlen := hc.1
  have hle := h.le
  refine ⟨h.boundary, ?_, ?_, ?_, ?_, rfl⟩
  · simp only [mkBasicBlock_firstInstrIdx, mkBasicBlock_endIdx]; omega
  · by_cases hlt : instrEnd code curr < code.length
    · exact Or.inr (by simpa [min_eq_left hlt.le] using hc.next hlt)
    · exact Or.inl (by simp only [mkBasicBlock_endIdx]; omega)
  · intro i hi h1 h2 hend
    simp only [mkBasicBlock_firstInstrIdx, mkBasicBlock_endIdx] at h1 h2 ⊢
    rcases Nat.lt_trichotomy i curr with hlt | rfl | hgt'
    · rw [(h.quiet i hi h1 hlt).1] at hend
      exact absurd hend Bool.false_ne_true
    · rw [instrEnd_of_endsBlock hend] at h2 ⊢
      omega
    · exact absurd (hc.instrEnd_le hi hgt') (by omega)
  · intro i hi h1 h2 hj
    simp only [mkBasicBlock_firstInstrIdx, mkBasicBlock_endIdx] at h1 h2 ⊢
    rcases Nat.lt_trichotomy i curr with hlt | rfl | hgt'
    · exact (h.quiet i hi h1 hlt).2 hj
    · by_contra hne
      exact h.not_dest (by omega) hj
    · exact absurd (hc.instrEnd_le hi hgt') (by omega)

/-- The states the loop goes through: past the last instruction, inside an open block, or in dead
code. -/
inductive LoopInv (code : List Byte) : Nat → Nat → Bool → Prop
  | done {begin : Nat} {isDead : Bool} (h : isDead = false → begin = code.length) :
      LoopInv code code.length begin isDead
  | live {curr begin : Nat} : Boundary code curr → OpenAt code begin curr →
      LoopInv code curr begin false
  | dead {curr begin : Nat} : Boundary code curr → DeadFrom code curr →
      LoopInv code curr begin true

/-- The first offset the blocks still to come may cover. -/
def loopStart (curr begin : Nat) (isDead : Bool) : Nat := if isDead then curr else begin

/-- **The postcondition of the loop**, for the blocks it emits from offset `lo` on. -/
structure LoopSpec (code : List Byte) (lo : Nat) (isDead : Bool) (bs : List BasicBlock) : Prop where
  good : ∀ b ∈ bs, GoodBlock code b ∧ lo ≤ b.firstInstrIdx
  chain : bs.IsChain (Adjacent code)
  cover : ∀ i, Boundary code i → lo ≤ i →
    (DeadAt code i ↔ ∀ b ∈ bs, ¬ (b.firstInstrIdx ≤ i ∧ i < b.endIdx))
  last : ∀ b, bs.getLast? = some b → LastKills code b ∨ b.endIdx = code.length
  head_live : isDead = false → lo < code.length → ∃ b rest, bs = b :: rest ∧ b.firstInstrIdx = lo
  head_dead : isDead = true → ∀ b, bs.head? = some b → instAt code b.firstInstrIdx = .JUMPDEST

theorem loopStart_done {begin : Nat} {isDead : Bool} (h : isDead = false → begin = code.length) :
    loopStart code.length begin isDead = code.length := by
  cases isDead with
  | true => rfl
  | false => exact h rfl

theorem loopSpec_nil (isDead : Bool) : LoopSpec code code.length isDead [] where
  good := by simp
  chain := List.isChain_nil
  cover := fun i hi h => absurd hi.1 (by omega)
  last := by simp
  head_live := fun _ h => absurd h (lt_irrefl _)
  head_dead := by simp

/-- The loop's next position, as a state of the invariant. -/
theorem next_eq {curr : Nat} (hc : Boundary code curr) :
    skipPushDataAndGetNext code curr code.length = min (instrEnd code curr) code.length :=
  skipPushDataAndGetNext_eq hc.1

/-- Dead code goes on over an instruction that is no `JUMPDEST`. -/
theorem DeadFrom.step {curr : Nat} (h : DeadFrom code curr) (hc : Boundary code curr)
    (hj : instAt code curr ≠ .JUMPDEST) : DeadFrom code (instrEnd code curr) := by
  obtain ⟨t, ht, hlt, hk, hno⟩ := h
  have hgt := lt_instrEnd code curr
  refine ⟨t, ht, by omega, hk, fun j hj' h1 h2 => ?_⟩
  rcases Nat.lt_trichotomy j curr with h | rfl | h
  · exact hno j hj' h1 h
  · exact hj
  · exact absurd (hc.instrEnd_le hj' h) (by omega)

theorem DeadFrom.deadAt {curr : Nat} (h : DeadFrom code curr)
    (hj : instAt code curr ≠ .JUMPDEST) : DeadAt code curr := by
  obtain ⟨t, ht, hlt, hk, hno⟩ := h
  refine ⟨t, ht, hlt, hk, fun j hj' h1 h2 => ?_⟩
  rcases Nat.lt_or_eq_of_le h2 with h | rfl
  · exact hno j hj' h1 h
  · exact hj

/-- Skipping a dead instruction adds nothing to the blocks to come. -/
theorem LoopSpec.skip {curr : Nat} {bs : List BasicBlock} (hc : Boundary code curr)
    (hd : DeadAt code curr) (h : LoopSpec code (min (instrEnd code curr) code.length) true bs) :
    LoopSpec code curr true bs where
  good := fun b hb => ⟨(h.good b hb).1, by
    have := (h.good b hb).2
    have := lt_instrEnd code curr
    have := hc.1
    omega⟩
  chain := h.chain
  cover := by
    intro i hi hle
    rcases Nat.lt_or_eq_of_le hle with hlt | rfl
    · have := hc.instrEnd_le hi hlt
      exact h.cover i hi (by omega)
    · refine iff_of_true hd fun b hb hcon => ?_
      have := (h.good b hb).2
      have := lt_instrEnd code curr
      have := hc.1
      omega
  last := h.last
  head_live := by simp
  head_dead := h.head_dead

/-- A block that is closed behind an instruction ends in a killing one exactly when that instruction
is. -/
theorem OpenAt.lastKills_iff {begin curr : Nat} (ho : OpenAt code begin curr)
    (hc : Boundary code curr) :
    LastKills code (mkBasicBlock code begin (min (instrEnd code curr) code.length)) ↔
      (instAt code curr).kills = true := by
  constructor
  · rintro ⟨i, hi, h1, h2, h3⟩
    simp only [mkBasicBlock_firstInstrIdx, mkBasicBlock_endIdx] at h1 h2
    have hi1 := instrEnd_of_endsBlock (endsBlock_of_kills h3)
    rcases Nat.lt_trichotomy i curr with hlt | rfl | hgt
    · -- no instruction of an open block ends it
      have hq := (ho.quiet i hi h1 hlt).1
      rw [endsBlock_of_kills h3] at hq
      exact absurd hq.symm Bool.false_ne_true
    · exact h3
    · exact absurd (hc.instrEnd_le hi hgt) (by omega)
  · intro h3
    have hi1 := instrEnd_of_endsBlock (endsBlock_of_kills h3)
    have hlen := hc.1
    refine ⟨curr, hc, ho.le, ?_, h3⟩
    simp only [mkBasicBlock_endIdx]
    omega

/-- Emitting the open block in front of the blocks to come. -/
theorem LoopSpec.emit {begin curr lo : Nat} {bs : List BasicBlock} {isDead isDead' : Bool}
    (ho : OpenAt code begin curr) (hc : Boundary code curr)
    (hk : isDead' = (instAt code curr).kills) (hlo : lo = begin)
    (hdest : isDead = true → instAt code begin = .JUMPDEST)
    (h : LoopSpec code (min (instrEnd code curr) code.length) isDead' bs) :
    LoopSpec code lo isDead
      (mkBasicBlock code begin (min (instrEnd code curr) code.length) :: bs) := by
  subst hlo
  have hgt := lt_instrEnd code curr
  have hlen := hc.1
  have hle := ho.le
  have hgood := ho.close hc
  set next := min (instrEnd code curr) code.length with hnext
  have hkill : LastKills code (mkBasicBlock code lo next) ↔ isDead' = true := by
    rw [hk]
    exact ho.lastKills_iff hc
  refine ⟨?_, ?_, ?_, ?_, ?_, ?_⟩
  · intro b hb
    rcases List.mem_cons.mp hb with rfl | hb
    · exact ⟨hgood, le_rfl⟩
    · exact ⟨(h.good b hb).1, by have := (h.good b hb).2; omega⟩
  · refine List.isChain_cons.mpr ⟨?_, h.chain⟩
    intro b hb
    have hmem : b ∈ bs := List.mem_of_mem_head? hb
    refine ⟨(h.good b hmem).2, ?_, ?_⟩
    · intro hnk
      have hd : isDead' = false := by
        rw [hkill] at hnk
        simpa using hnk
      have hb' := (h.good b hmem).1.first_boundary.1
      have hlo' := (h.good b hmem).2
      obtain ⟨b', rest, rfl, hb0⟩ := h.head_live hd (by omega)
      obtain rfl : b' = b := by simpa using hb
      exact hb0.symm
    · intro hlk
      exact h.head_dead (hkill.mp hlk) b hb
  · intro i hi hle'
    by_cases hin : i < next
    · refine iff_of_false (ho.not_deadAt hle' ?_) fun hcon => ?_
      · by_contra hcur
        exact absurd (hc.instrEnd_le hi (by omega)) (by omega)
      · exact hcon _ (List.mem_cons_self ..) ⟨hle', hin⟩
    · rw [h.cover i hi (by omega)]
      constructor
      · intro hall b hb
        rcases List.mem_cons.mp hb with rfl | hb
        · exact fun hcon => hin hcon.2
        · exact hall b hb
      · exact fun hall b hb => hall b (List.mem_cons_of_mem _ hb)
  · intro b hb
    cases bs with
    | nil =>
      obtain rfl : mkBasicBlock code lo next = b := by simpa using hb
      by_cases hd : isDead' = true
      · exact Or.inl (hkill.mpr hd)
      · apply Or.inr
        by_contra hne
        simp only [mkBasicBlock_endIdx] at hne
        obtain ⟨b', rest, hcons, -⟩ := h.head_live (by simpa using hd) (by omega)
        cases hcons
    | cons b' rest => exact h.last b (by simpa using hb)
  · exact fun _ _ => ⟨_, _, rfl, rfl⟩
  · intro hd b hb
    obtain rfl : mkBasicBlock code lo next = b := by simpa using hb
    exact hdest hd

/-- Entering the next position with no open block: past the end, live, or dead. -/
theorem loopInv_next {curr : Nat} (hc : Boundary code curr) (hd : ¬ DeadAt code curr) :
    LoopInv code (min (instrEnd code curr) code.length) (min (instrEnd code curr) code.length)
      (instAt code curr).kills := by
  have hgt := lt_instrEnd code curr
  by_cases hlt : instrEnd code curr < code.length
  · rw [min_eq_left hlt.le]
    have hb := hc.next hlt
    cases hk : (instAt code curr).kills with
    | true =>
      exact .dead hb ⟨curr, hc, hgt, hk, fun j hj h1 h2 =>
        absurd (hc.instrEnd_le hj h1) (by omega)⟩
    | false => exact .live hb (openAt_self hb (deadAt_next hc hd hk))
  · rw [min_eq_right (by omega)]
    exact .done fun _ => rfl

/-- A live instruction of the loop: the open block is emitted, or goes on. `isDead` is the flag the
iteration was entered with; set, it means a `JUMPDEST` has just opened the block. -/
theorem LoopSpec.collect {fuel begin curr : Nat} {isDead : Bool} (ho : OpenAt code begin curr)
    (hc : Boundary code curr) (hdest : isDead = true → instAt code begin = .JUMPDEST)
    (ih : ∀ (begin : Nat) (isDead : Bool),
      LoopInv code (min (instrEnd code curr) code.length) begin isDead →
      LoopSpec code (loopStart (min (instrEnd code curr) code.length) begin isDead) isDead
        (createBasicBlocksLoop code fuel (min (instrEnd code curr) code.length) begin isDead)) :
    LoopSpec code begin isDead
      (if ((instAt code curr).endsBlock || min (instrEnd code curr) code.length == code.length ||
          instAt code (min (instrEnd code curr) code.length) == .JUMPDEST) = true then
        mkBasicBlock code begin (min (instrEnd code curr) code.length) ::
          createBasicBlocksLoop code fuel (min (instrEnd code curr) code.length)
            (min (instrEnd code curr) code.length) (instAt code curr).kills
      else
        createBasicBlocksLoop code fuel (min (instrEnd code curr) code.length) begin false) := by
  have hlen := hc.1
  split
  · apply LoopSpec.emit ho hc rfl rfl hdest
    have := ih _ _ (loopInv_next hc (ho.not_deadAt ho.le le_rfl))
    simpa [loopStart] using this
  · rename_i hend
    simp only [Bool.or_eq_true, beq_iff_eq, not_or, Bool.not_eq_true] at hend
    obtain ⟨⟨hends, hne⟩, hj⟩ := hend
    have hlt : instrEnd code curr < code.length := by omega
    rw [min_eq_left hlt.le] at hj ih ⊢
    have hrec := ih begin false (.live (hc.next hlt) (ho.step hc hends hj))
    obtain ⟨b', rest, hcons, hfirst⟩ := hrec.head_live rfl ho.boundary.1
    exact { hrec with
      head_live := fun _ _ => ⟨b', rest, hcons, hfirst⟩
      head_dead := by
        intro hd b hb
        rw [hcons] at hb
        obtain rfl : b' = b := by simpa using hb
        rw [hfirst]
        exact hdest hd }

/-- **The loop of `createBasicBlocks`**: from every state of the invariant, with fuel for the rest
of the code, it emits blocks that satisfy the postcondition. -/
theorem createBasicBlocks_spec : ∀ (fuel curr begin : Nat) (isDead : Bool),
    code.length ≤ curr + fuel → LoopInv code curr begin isDead →
    LoopSpec code (loopStart curr begin isDead) isDead
      (createBasicBlocksLoop code fuel curr begin isDead) := by
  intro fuel
  induction fuel with
  | zero =>
    intro curr begin isDead hf hinv
    cases hinv with
    | done h => rw [loopStart_done h]; exact loopSpec_nil isDead
    | live hc _ => exact absurd hc.1 (by omega)
    | dead hc _ => exact absurd hc.1 (by omega)
  | succ fuel ih =>
    intro curr begin isDead hf hinv
    have hgt := lt_instrEnd code curr
    unfold createBasicBlocksLoop
    cases hinv with
    | done h => rw [loopStart_done h, if_pos rfl]; exact loopSpec_nil isDead
    | live hc ho =>
      have hlen := hc.1
      rw [if_neg (by omega), next_eq hc]
      simp only [Bool.false_and, Bool.false_eq_true, if_false]
      exact LoopSpec.collect ho hc (by simp) fun b d => ih _ b d (by omega)
    | dead hc hd =>
      have hlen := hc.1
      rw [if_neg (by omega), next_eq hc]
      simp only [Bool.true_and, if_true]
      split
      · rename_i hj
        have hj : instAt code curr ≠ .JUMPDEST := by simpa using hj
        have hrec := ih (min (instrEnd code curr) code.length) begin true (by omega) ?_
        · exact LoopSpec.skip hc (hd.deadAt hj) hrec
        · by_cases hlt : instrEnd code curr < code.length
          · rw [min_eq_left hlt.le]
            exact .dead (hc.next hlt) (hd.step hc hj)
          · rw [min_eq_right (by omega)]
            exact .done (by simp)
      · rename_i hj
        have hj : instAt code curr = .JUMPDEST := by simpa using hj
        exact LoopSpec.collect (openAt_self hc (not_deadAt_of_jumpDest hc hj)) hc (fun _ => hj)
          fun b d => ih _ b d (by omega)

/-- The block list of a non-empty code satisfies the postcondition from offset 0. -/
theorem createBasicBlocks_loopSpec (hne : code ≠ []) :
    LoopSpec code 0 false (createBasicBlocks code) := by
  have h0 := boundary_zero hne
  have hlive : ¬ DeadAt code 0 := fun ⟨_, _, h, _⟩ => absurd h (by omega)
  exact createBasicBlocks_spec code.length 0 0 false (by omega) (.live h0 (openAt_self h0 hlive))

/-! ## §3 — the partition. -/

/-- The instruction at `i` lies in the block `b`, with all the data bytes the code still has. -/
def LiesIn (code : List Byte) (i : Nat) (b : BasicBlock) : Prop :=
  b.firstInstrIdx ≤ i ∧ min (instrEnd code i) code.length ≤ b.endIdx

theorem liesIn_iff {i : Nat} {b : BasicBlock} (hi : Boundary code i) (hb : GoodBlock code b) :
    LiesIn code i b ↔ b.firstInstrIdx ≤ i ∧ i < b.endIdx := by
  have hgt := lt_instrEnd code i
  have hlen := hi.1
  refine ⟨fun h => ⟨h.1, ?_⟩, fun h => ⟨h.1, ?_⟩⟩
  · have := h.2
    omega
  · rcases hb.end_boundary with he | he
    · omega
    · have := hi.instrEnd_le he h.2
      omega

theorem pairwise_of_adjacent {bs : List BasicBlock} (hg : ∀ b ∈ bs, GoodBlock code b)
    (h : bs.IsChain (Adjacent code)) :
    bs.Pairwise fun a b => a.endIdx ≤ b.firstInstrIdx := by
  induction bs with
  | nil => exact List.Pairwise.nil
  | cons a bs ih =>
    have hrest := ih (fun b hb => hg b (List.mem_cons_of_mem _ hb)) h.tail
    refine List.pairwise_cons.mpr ⟨?_, hrest⟩
    cases bs with
    | nil => simp
    | cons c cs =>
      have hac : a.endIdx ≤ c.firstInstrIdx := (List.isChain_cons_cons.mp h).1.1
      have hc := (hg c (by simp)).first_lt
      intro b hb
      rcases List.mem_cons.mp hb with rfl | hb
      · exact hac
      · have := (List.pairwise_cons.mp hrest).1 b hb
        omega

/-- A live instruction lies in some block. -/
theorem exists_block_of_live (hne : code ≠ []) {i : Nat} (hi : Boundary code i)
    (hd : ¬ DeadAt code i) :
    ∃ b ∈ createBasicBlocks code, b.firstInstrIdx ≤ i ∧ i < b.endIdx := by
  by_contra hno
  exact hd (((createBasicBlocks_loopSpec hne).cover i hi (Nat.zero_le _)).mpr
    fun b hb hcon => hno ⟨b, hb, hcon⟩)

/-- Every `JUMPDEST` of the sweep opens a block. -/
theorem exists_block_of_jumpDest (hne : code ≠ []) {i : Nat} (hi : Boundary code i)
    (hj : instAt code i = .JUMPDEST) : ∃ b ∈ createBasicBlocks code, b.firstInstrIdx = i := by
  obtain ⟨b, hb, hin⟩ := exists_block_of_live hne hi (not_deadAt_of_jumpDest hi hj)
  have hg := ((createBasicBlocks_loopSpec hne).good b hb).1
  exact ⟨b, hb, (hg.jumpDest_first i hi hin.1 hin.2 hj).symm⟩

/-- **Block partition.** For every non-empty byte string, `createBasicBlocks` returns a non-empty
list of non-empty ranges in increasing order, the first at offset 0, that start and end on
boundaries of the sweep; a live instruction lies in exactly one of them and a dead one touches none;
the closing instructions stand last, `JUMPDEST` stands first, and every `JUMPDEST` of the sweep has
its block. -/
theorem createBasicBlocks_partition (code : List Byte) (hne : code ≠ []) :
    createBasicBlocks code ≠ [] ∧
    (∀ b, (createBasicBlocks code).head? = some b → b.firstInstrIdx = 0) ∧
    ((createBasicBlocks code).Pairwise fun a b => a.endIdx ≤ b.firstInstrIdx) ∧
    (∀ b ∈ createBasicBlocks code, b.firstInstrIdx < b.endIdx ∧ Boundary code b.firstInstrIdx ∧
      (Boundary code b.endIdx ∨ b.endIdx = code.length)) ∧
    (∀ i, Boundary code i → ¬ DeadAt code i →
      ∃! b, b ∈ createBasicBlocks code ∧ LiesIn code i b) ∧
    (∀ i, Boundary code i → DeadAt code i → ∀ b ∈ createBasicBlocks code,
      ∀ k, i ≤ k → k < min (instrEnd code i) code.length →
        ¬ (b.firstInstrIdx ≤ k ∧ k < b.endIdx)) ∧
    (∀ b ∈ createBasicBlocks code, ∀ i, Boundary code i → LiesIn code i b →
      instAt code i ∈ [.JUMP, .JUMPI, .RETURN, .REVERT, .STOP, .SUICIDE] →
      instrEnd code i = b.endIdx) ∧
    (∀ b ∈ createBasicBlocks code, ∀ i, Boundary code i → LiesIn code i b →
      instAt code i = .JUMPDEST → i = b.firstInstrIdx) ∧
    (∀ i, Boundary code i → instAt code i = .JUMPDEST →
      ∃ b ∈ createBasicBlocks code, b.firstInstrIdx = i) := by
  have hs := createBasicBlocks_loopSpec hne
  have hgood : ∀ b ∈ createBasicBlocks code, GoodBlock code b := fun b hb => (hs.good b hb).1
  have hpw := pairwise_of_adjacent hgood hs.chain
  obtain ⟨b0, rest, hcons, hb0⟩ := hs.head_live rfl (List.length_pos_iff.mpr hne)
  refine ⟨by simp [hcons], ?_, hpw, ?_, ?_, ?_, ?_, ?_, ?_⟩
  · intro b hb
    rw [hcons] at hb
    obtain rfl : b0 = b := by simpa using hb
    exact hb0
  · intro b hb
    exact ⟨(hgood b hb).first_lt, (hgood b hb).first_boundary, (hgood b hb).end_boundary.symm⟩
  · intro i hi hd
    obtain ⟨b, hb, hin⟩ := exists_block_of_live hne hi hd
    refine ⟨b, ⟨hb, (liesIn_iff hi (hgood b hb)).mpr hin⟩, ?_⟩
    rintro c ⟨hc, hlc⟩
    have hin' := (liesIn_iff hi (hgood c hc)).mp hlc
    obtain ⟨m, hm, rfl⟩ := List.getElem_of_mem hb
    obtain ⟨n, hn, rfl⟩ := List.getElem_of_mem hc
    rcases Nat.lt_trichotomy m n with h | rfl | h
    · have := List.pairwise_iff_getElem.mp hpw m n hm hn h
      omega
    · rfl
    · have := List.pairwise_iff_getElem.mp hpw n m hn hm h
      omega
  · intro i hi hd b hb k hk1 hk2 hcon
    refine (hs.cover i hi (Nat.zero_le _)).mp hd b hb ⟨?_, by omega⟩
    by_contra hlt
    have := hi.instrEnd_le (hgood b hb).first_boundary (by omega)
    omega
  · intro b hb i hi hl hmem
    have hin := (liesIn_iff hi (hgood b hb)).mp hl
    apply (hgood b hb).ends_last i hi hin.1 hin.2
    simp only [List.mem_cons, List.not_mem_nil, or_false] at hmem
    rcases hmem with h | h | h | h | h | h <;> rw [h] <;> rfl
  · intro b hb i hi hl hj
    have hin := (liesIn_iff hi (hgood b hb)).mp hl
    exact (hgood b hb).jumpDest_first i hi hin.1 hin.2 hj
  · exact fun i hi hj => exists_block_of_jumpDest hne hi hj

/-- `PUSH1 0x5b; JUMP; STOP; JUMPDEST`: the `0x5b` at offset 1 is push data, the one at 4 is dead
code's way back to life and gets a block. -/
theorem createBasicBlocks_partition_pushData :
    ∃ b ∈ createBasicBlocks [0x60, 0x5b, 0x56, 0x00, 0x5b], b.firstInstrIdx = 4 := by
  have h := createBasicBlocks_partition [0x60, 0x5b, 0x56, 0x00, 0x5b] (by simp)
  obtain ⟨-, -, -, -, -, -, -, -, hjd⟩ := h
  exact hjd 4 (mem_sweep.mp (by decide)) (by decide)

end EvmTrans
