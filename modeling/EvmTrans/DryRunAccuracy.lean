/-
# `EvmTrans.DryRunAccuracy` — what `dry_run` gets right of a block: its last instruction, and its
stack.

Two guesses go into every edge. The TERMINATOR is the byte in front of the end of the block; that is
the last instruction unless the block ends in push data. The TARGET is the top of a vector on which
`dry_run_bb` has run the block: 0 stands for a word it does not know. The vector is right as long as
no `SWAPn` is executed, because the source exchanges the top with the word one deeper than the EVM
does; `SwapHarmless` is what the words around have to be for that not to matter.
-/
import EvmTrans.DryRunEdges

namespace EvmTrans

open Lib (whileLoop whileLoop_inv)

variable {code : List Byte}

/-! ## §1 — the terminator. -/

/-- `terminatorIdx()`. -/
def BasicBlock.terminatorIdx (b : BasicBlock) : Nat := b.endIdx - 1

/-- The last instruction of a block in the sweep; its data may be cut off by the end of the code. -/
structure LastInst (code : List Byte) (b : BasicBlock) (i : Nat) : Prop where
  boundary : Boundary code i
  first_le : b.firstInstrIdx ≤ i
  lt_end : i < b.endIdx
  end_le : b.endIdx ≤ instrEnd code i

/-- Every block has one. -/
theorem exists_lastInst {b : BasicBlock} (hg : GoodBlock code b) : ∃ i, LastInst code b i := by
  have hstep : ∀ n i, b.endIdx - i ≤ n → Boundary code i → b.firstInstrIdx ≤ i → i < b.endIdx →
      ∃ j, LastInst code b j := by
    intro n
    induction n with
    | zero => intro i hn _ _ hlt; omega
    | succ n ih =>
      intro i hn hb hle hlt
      have hgt := lt_instrEnd code i
      by_cases hend : b.endIdx ≤ instrEnd code i
      · exact ⟨i, hb, hle, hlt, hend⟩
      · have hcode := hg.end_le
        exact ih _ (by omega) (hb.next (by omega)) (by omega) (by omega)
  exact hstep _ _ (Nat.le_refl _) hg.first_boundary (Nat.le_refl _) hg.first_lt

/-- What a visit does with the stack that `dry_run_bb` left, by the instruction it takes for the
terminator. -/
def DryRun.visitAs (code : List Byte) (d : DryRun) (p pc : Nat) (stk : List Nat)
    (terminator : Instruction) : DryRun :=
  match terminator with
  | .JUMP => d.edge p (jumpSucc code d.blocks (stk.headD 0)) (stk.drop 1)
  | .JUMPI =>
    let d' := d.edge p (falloutSucc code d.blocks (pc + 1)) (stk.drop 2)
    d'.edge p (jumpSucc code d'.blocks (stk.headD 0)) (stk.drop 2)
  | _ => d

/-- **A visit**, with the byte in front of the end for the terminator. -/
theorem dryRunBody_visit {d : DryRun} {p : Nat} {stk : List Nat}
    {rest : List (Option Nat × List Nat)} {bb : BasicBlock} (hdfs : d.dfs = (some p, stk) :: rest)
    (hp : d.blocks[p]? = some bb) (hnew : p ∉ d.visited) :
    dryRunBody code d =
      some (DryRun.visitAs code { d with dfs := rest, visited := p :: d.visited } p
      bb.terminatorIdx (dryRunBb code bb stk) (instAt code bb.terminatorIdx)) := by
  rw [dryRunBody, hdfs]
  dsimp only
  rw [hp]
  dsimp only
  rw [if_neg hnew]
  show (match instAt code (bb.endIdx - 1) with | .JUMP => _ | .JUMPI => _ | _ => _) =
    some (DryRun.visitAs code _ p (bb.endIdx - 1) _ (instAt code (bb.endIdx - 1)))
  cases instAt code (bb.endIdx - 1) <;> rfl

/-- A state of the walk. -/
def DryRun.Reached (code : List Byte) (d : DryRun) : Prop :=
  ∃ n, d = whileLoop (dryRunBody code) n (.start code)

theorem DryRun.Reached.cfgInv (hne : code ≠ []) {d : DryRun} (h : d.Reached code) :
    CfgInv code d := by
  obtain ⟨n, rfl⟩ := h
  exact whileLoop_inv (fun _ _ h hb => dryRunBody_cfgInv hne h hb) _ _ (cfgInv_start code)

/-- The pushes have one byte each: the number of data bytes tells them apart. -/
theorem byte_eq_of_push {a b : Byte} (h : Instruction.ofByte a = Instruction.ofByte b)
    (hdata : 0 < (Instruction.ofByte b).pushBytes) : a = b := by
  have hbytes := congrArg Instruction.pushBytes h
  rw [pushBytes_ofByte] at hdata
  rw [pushBytes_ofByte, pushBytes_ofByte] at hbytes
  apply BitVec.eq_of_toNat_eq
  grind

/-- The edges that a block with this terminator records. -/
def Instruction.edges : Instruction → Nat
  | .JUMP => 1
  | .JUMPI => 2
  | _ => 0

theorem length_bbsTo_edge {d : DryRun} {p : Nat} {bp : BasicBlock} (hp : d.blocks[p]? = some bp)
    (succ : Option Nat) (stk : List Nat) :
    ∃ bp', (d.edge p succ stk).blocks[p]? = some bp' ∧ bp'.bbsTo.length = bp.bbsTo.length + 1 := by
  cases succ with
  | none =>
    refine ⟨_, (getElem?_addNullEdge p p).trans (congrArg _ hp), ?_⟩
    simp
  | some q =>
    refine ⟨_, (getElem?_addEdge p q p).trans (congrArg _ hp), ?_⟩
    simp

variable (code) in
/-- A visit records as many edges as its terminator asks for. -/
theorem length_bbsTo_visitAs {d : DryRun} {p : Nat} {bp : BasicBlock} (hp : d.blocks[p]? = some bp)
    (pc : Nat) (stk : List Nat) (terminator : Instruction) :
    ∃ bp', (DryRun.visitAs code d p pc stk terminator).blocks[p]? =
      some bp' ∧ bp'.bbsTo.length = bp.bbsTo.length + terminator.edges := by
  by_cases hj : terminator = .JUMP
  · subst hj
    exact length_bbsTo_edge hp _ _
  · by_cases hji : terminator = .JUMPI
    · subst hji
      obtain ⟨bp₁, hp₁, hlen₁⟩ :=
        length_bbsTo_edge hp (falloutSucc code d.blocks (pc + 1)) (stk.drop 2)
      obtain ⟨bp₂, hp₂, hlen₂⟩ := length_bbsTo_edge hp₁
        (jumpSucc code (d.edge p (falloutSucc code d.blocks (pc + 1)) (stk.drop 2)).blocks
          (stk.headD 0))
        (stk.drop 2)
      exact ⟨bp₂, hp₂, by rw [hlen₂, hlen₁]; rfl⟩
    · have hsame : DryRun.visitAs code d p pc stk terminator = d := by
        cases terminator <;> first | rfl | exact absurd rfl hj | exact absurd rfl hji
      have hedges : terminator.edges = 0 := by
        cases terminator <;> first | rfl | exact absurd rfl hj | exact absurd rfl hji
      exact ⟨bp, by rw [hsame, hp], by rw [hedges]; rfl⟩

/-- Between two terminators a visit tells only jumps apart. -/
theorem visitAs_eq_iff {d : DryRun} {p : Nat} {bp : BasicBlock} (hp : d.blocks[p]? = some bp)
    (pc : Nat) (stk : List Nat) (a b : Instruction) :
    DryRun.visitAs code d p pc stk a = DryRun.visitAs code d p pc stk b ↔ a.edges = b.edges := by
  constructor
  · intro heq
    obtain ⟨ba, hba, hla⟩ := length_bbsTo_visitAs code hp pc stk a
    obtain ⟨bb, hbb, hlb⟩ := length_bbsTo_visitAs code hp pc stk b
    rw [heq, hbb] at hba
    cases hba
    omega
  · intro hedges
    have hkind : ∀ i : Instruction, (i.edges = 1 → i = .JUMP) ∧ (i.edges = 2 → i = .JUMPI) ∧
        (i.edges = 0 → DryRun.visitAs code d p pc stk i = d) ∧
        (i.edges = 0 ∨ i.edges = 1 ∨ i.edges = 2) := by
      intro i
      cases i <;> simp [Instruction.edges, DryRun.visitAs]
    obtain ⟨ha₁, ha₂, ha₀, hcases⟩ := hkind a
    obtain ⟨hb₁, hb₂, hb₀, -⟩ := hkind b
    rcases hcases with h | h | h
    · rw [ha₀ h, hb₀ (hedges ▸ h)]
    · rw [ha₁ h, hb₁ (hedges ▸ h)]
    · rw [ha₂ h, hb₂ (hedges ▸ h)]

theorem edges_ofByte : ∀ b : Byte, (Instruction.ofByte b).edges = 0 ↔ b ≠ 0x56 ∧ b ≠ 0x57 := by
  decide +kernel

/-- An instruction with data in front of the end of the block has no part in jumps. -/
theorem LastInst.edges_eq_zero {b : BasicBlock} {i : Nat} (h : LastInst code b i)
    (hdata : i + 1 ≠ b.endIdx) : (instAt code i).edges = 0 := by
  have hend := h.end_le
  have hlt := h.lt_end
  cases hi :
    instAt code i <;> first | rfl | (simp only [instrEnd, hi, Instruction.pushBytes] at hend; omega)

/-- **The terminator is the last instruction exactly when the block does not end in push data**, or
that data ends in the byte of its own push. What the visit does is right under less: the last data
byte is neither `0x56` nor `0x57`. -/
theorem terminator_iff (hne : code ≠ []) {d : DryRun} (hd : d.Reached code) {p : Nat}
    {stk : List Nat} {rest : List (Option Nat × List Nat)} {bb : BasicBlock}
    (hdfs : d.dfs = (some p, stk) :: rest) (hp : d.blocks[p]? = some bb) (hnew : p ∉ d.visited) :
    (∃ i, LastInst code bb i) ∧ ∀ i, LastInst code bb i →
      ((instAt code bb.terminatorIdx = instAt code i ∧
        dryRunBody code d =
          some (DryRun.visitAs code { d with dfs := rest, visited := p :: d.visited } p
          bb.terminatorIdx (dryRunBb code bb stk) (instAt code i))) ↔
        (i + 1 = bb.endIdx ∨ codeAt code bb.terminatorIdx = codeAt code i)) ∧
      (dryRunBody code d =
        some (DryRun.visitAs code { d with dfs := rest, visited := p :: d.visited } p
          bb.terminatorIdx (dryRunBb code bb stk) (instAt code i)) ↔
        (i + 1 = bb.endIdx ∨
          (codeAt code bb.terminatorIdx ≠ 0x56 ∧ codeAt code bb.terminatorIdx ≠ 0x57))) := by
  refine ⟨exists_lastInst ((hd.cfgInv hne).toEdgeInv.good hne hp), fun i hi => ?_⟩
  have hlast : i + 1 = bb.endIdx → bb.terminatorIdx = i := fun h => by
    rw [BasicBlock.terminatorIdx, ← h, Nat.add_sub_cancel]
  have hbody : dryRunBody code d = _ := dryRunBody_visit hdfs hp hnew
  constructor
  · constructor
    · rintro ⟨hinst, -⟩
      by_cases hdata : i + 1 = bb.endIdx
      · exact Or.inl hdata
      · -- what stands between `i` and the end is the data of a push
        have hend : bb.endIdx ≤ i + 1 + (instAt code i).pushBytes := hi.end_le
        have hlt := hi.lt_end
        have hpush : 0 < (instAt code i).pushBytes := by omega
        exact Or.inr (byte_eq_of_push hinst hpush)
    · intro hcond
      have hinst : instAt code bb.terminatorIdx = instAt code i := by
        rcases hcond with h | h
        · rw [hlast h]
        · rw [instAt, h]
          rfl
      exact ⟨hinst, hinst ▸ hbody⟩
  · have hp' :
        ({ d with dfs := rest, visited := p :: d.visited } : DryRun).blocks[p]? = some bb := hp
    rw [hbody, Option.some_inj, visitAs_eq_iff hp']
    by_cases hdata : i + 1 = bb.endIdx
    · rw [hlast hdata]
      exact ⟨fun _ => Or.inl hdata, fun _ => rfl⟩
    · rw [hi.edges_eq_zero hdata, instAt, edges_ofByte]
      exact ⟨Or.inr, fun h => h.resolve_left hdata⟩

/-- `JUMPDEST; PUSH1 0; JUMP`: the block ends in its last instruction, and the visit records its
edge. -/
theorem terminator_iff_jump : LastInst [0x5b, 0x60, 0, 0x56] ⟨0, 4, 0, 0, [], []⟩ 3 ∧
    dryRunBody [0x5b, 0x60, 0, 0x56] (.start [0x5b, 0x60, 0, 0x56]) =
      some ((⟨[⟨0, 4, 0, 0, [], []⟩], [], [0]⟩ : DryRun).edge 0 (some 0) []) := by
  have hne : ([0x5b, 0x60, 0, 0x56] : List Byte) ≠ [] := by simp
  have hpush : Boundary [0x5b, 0x60, 0, 0x56] 1 := (boundary_zero hne).next (by decide)
  have hlast : LastInst [0x5b, 0x60, 0, 0x56] ⟨0, 4, 0, 0, [], []⟩ 3 :=
    ⟨hpush.next (by decide), Nat.zero_le _, by decide, by decide⟩
  obtain ⟨-, hvisit⟩ :=
    ((terminator_iff hne ⟨0, rfl⟩ rfl (by decide) List.not_mem_nil).2 3 hlast).1.mpr (.inl rfl)
  exact ⟨hlast, hvisit⟩

/-- `PUSH1 0x56`: the data is taken for a `JUMP`, and an edge is recorded. -/
theorem terminator_pushData :
    createBasicBlocks [0x60, 0x56] = [⟨0, 2, 0, 1, [], []⟩] ∧
    LastInst [0x60, 0x56] ⟨0, 2, 0, 1, [], []⟩ 0 ∧
      instAt [0x60, 0x56] (BasicBlock.terminatorIdx ⟨0, 2, 0, 1, [], []⟩) ≠ instAt [0x60, 0x56] 0 ∧
      (dryRun [0x60, 0x56] (createBasicBlocks [0x60, 0x56])).map BasicBlock.bbsTo = [[none]] := by
  refine ⟨by decide, ⟨boundary_zero (by simp), Nat.le_refl _, by decide, by decide⟩, by decide,
    by decide⟩

/-! ## §2 — the stack. -/

/-- A word of the vector is unknown, or the right one. -/
def Known (v : Nat) (w : Word) : Prop := v = 0 ∨ v = w.toNat

/-- **The vector abstracts the stack.** -/
structure Abstracts (S : List Nat) (C : List Word) : Prop where
  length_eq : S.length = C.length
  known : ∀ i, Known (S.getD i 0) (C.getD i 0)

theorem Abstracts.nil : Abstracts [] [] := ⟨rfl, fun _ => Or.inl rfl⟩

theorem Abstracts.cons {S : List Nat} {C : List Word} (h : Abstracts S C) {v : Nat} {w : Word}
    (hv : Known v w) : Abstracts (v :: S) (w :: C) where
  length_eq := by rw [List.length_cons, List.length_cons, h.length_eq]
  known
    | 0 => hv
    | i + 1 => h.known i

theorem Abstracts.drop {S : List Nat} {C : List Word} (h : Abstracts S C) (n : Nat) :
    Abstracts (S.drop n) (C.drop n) where
  length_eq := by rw [List.length_drop, List.length_drop, h.length_eq]
  known := by
    intro i
    have hi := h.known (n + i)
    rw [List.getD_eq_getElem?_getD, List.getD_eq_getElem?_getD] at hi ⊢
    rwa [List.getElem?_drop, List.getElem?_drop]

/-- The iteration of `dry_run_bb` on an instruction that it does not return at. -/
def dryStep (code : List Byte) (stop it : Nat) (stk : List Nat) : List Nat :=
  match instAt code it with
  | .PUSH _ =>
    (if (readPushData code it stop).1.toNat < 2 ^ 64 then
      (readPushData code it stop).1.toNat else 0) :: stk
  | .DUP n => stk.getD (n - 1) 0 :: stk
  | .SWAP n =>
    if stk.length > n + 1 then (stk.set (n + 1) (stk.getD 0 0)).set 0 (stk.getD (n + 1) 0) else stk
  | inst => balancedStk stk inst.stkOut inst.stkIn

theorem dryRunBbLoop_plain {stop it : Nat} (hlt : it < stop) (hp : (instAt code it).plain = true)
    (fuel : Nat) (stk : List Nat) : dryRunBbLoop code stop (fuel + 1) it stk =
      dryRunBbLoop code stop fuel (min (instrEnd code it) stop) (dryStep code stop it stk) := by
  have hne : it ≠ stop := Nat.ne_of_lt hlt
  have hone : (∀ n, instAt code it ≠ .PUSH n) → min (instrEnd code it) stop = it + 1 := fun h => by
    rw [instrEnd_of_ne_push h]
    omega
  rw [dryRunBbLoop, if_neg hne, dryStep]
  cases hi : instAt code it with
  | PUSH n => dsimp only; rw [readPushData_snd hlt hi]
  | SWAP n =>
    rw [hone (by simp [hi])]
    dsimp only
    split <;> rfl
  | STOP | JUMP | JUMPI | RETURN | REVERT | SUICIDE => rw [hi] at hp; cases hp
  | _ => rw [hone (by simp [hi])]

/-- The iterations that it returns at: only the instructions that halt take their operands off. -/
theorem dryRunBbLoop_return {stop it fuel : Nat} (hlt : it < stop) (hfuel : stop ≤ it + fuel)
    (stk : List Nat) :
    (instAt code it ∈ [.STOP, .JUMP, .JUMPI] → dryRunBbLoop code stop fuel it stk = stk) ∧
      (instAt code it ∈ [.RETURN, .REVERT, .SUICIDE] →
        dryRunBbLoop code stop fuel it stk = stk.drop (instAt code it).stkOut) := by
  obtain ⟨fuel, rfl⟩ : ∃ k, fuel = k + 1 := ⟨fuel - 1, by omega⟩
  rw [dryRunBbLoop, if_neg (Nat.ne_of_lt hlt)]
  simp only [List.mem_cons, List.not_mem_nil, or_false]
  constructor
  · rintro (hi | hi | hi) <;> rw [hi]
  · rintro (hi | hi | hi) <;> rw [hi] <;> rfl

/-- **When the exchange of `SWAPn` does no harm**: the words it moves are unknown, or equal to those
that the EVM moves to their places. -/
structure SwapHarmless (n : Nat) (S : List Nat) (C : List Word) : Prop where
  top : Known (S.getD (if n + 1 < S.length then n + 1 else 0) 0) (C.getD n 0)
  partner : Known (S.getD n 0) (C.getD 0 0)
  below : n + 1 < S.length → Known (S.getD 0 0) (C.getD (n + 1) 0)

theorem getD_swap {α : Type} {l : List α} {m : Nat} (hm : m < l.length) (hpos : 0 < m) (d : α)
    (i : Nat) :
    ((l.set m (l.getD 0 d)).set 0 (l.getD m d)).getD i d =
      if i = 0 then l.getD m d else if i = m then l.getD 0 d else l.getD i d := by
  rw [List.getD_eq_getElem?_getD, List.getElem?_set, List.length_set]
  by_cases h0 : i = 0
  · subst h0
    rw [if_pos rfl, if_pos rfl, if_pos (by omega), Option.getD_some]
  · rw [if_neg (Ne.symm h0), if_neg h0, List.getElem?_set]
    by_cases hi : i = m
    · subst hi
      rw [if_pos rfl, if_pos rfl, if_pos hm, Option.getD_some]
    · rw [if_neg (Ne.symm hi), if_neg hi, List.getD_eq_getElem?_getD]

theorem length_dryStep_swap {stop it n : Nat} (hi : instAt code it = .SWAP n) (stk : List Nat) :
    (dryStep code stop it stk).length = stk.length := by
  rw [dryStep, hi]
  dsimp only
  split
  · rw [List.length_set, List.length_set]
  · rfl

/-- The vector behind a `SWAPn`, word by word. -/
theorem getD_dryStep_swap {stop it n : Nat} (hi : instAt code it = .SWAP n) (stk : List Nat)
    (i : Nat) :
    (dryStep code stop it stk).getD i 0 =
      if n + 1 < stk.length then
        if i = 0 then stk.getD (n + 1) 0 else if i = n + 1 then stk.getD 0 0 else stk.getD i 0
      else stk.getD i 0 := by
  rw [dryStep, hi]
  dsimp only
  by_cases hlen : n + 1 < stk.length
  · rw [if_pos hlen, if_pos hlen, getD_swap hlen (Nat.succ_pos n)]
  · rw [if_neg hlen, if_neg hlen]

/-- **One `SWAPn`.** -/
theorem abstracts_swap_iff {S : List Nat} {C : List Word} {stop it n : Nat}
    (hi : instAt code it = .SWAP n) (h : Abstracts S C) (hn : n < C.length) :
    Abstracts (dryStep code stop it S) ((C.set n (C.getD 0 0)).set 0 (C.getD n 0)) ↔
    SwapHarmless n S C := by
  have hpos := instAt_swap_pos hi
  have hC := getD_swap hn hpos (0 : Word)
  have hS : ∀ i, (dryStep code stop it S).getD i 0 = _ := getD_dryStep_swap hi S
  constructor
  · -- the three words that either side moves
    intro h'
    have h0 := h'.known 0
    have hn' := h'.known n
    have hb := h'.known (n + 1)
    rw [hS, hC] at h0 hn' hb
    refine ⟨?_, ?_, fun hlen => ?_⟩
    · split
      · rename_i hlen
        simpa [hlen] using h0
      · rename_i hlen
        simpa [hlen] using h0
    · have hne : n ≠ 0 := by omega
      simpa [hne] using hn'
    · simpa [hlen] using hb
  · rintro ⟨htop, hpartner, hbelow⟩
    refine ⟨?_, fun i => ?_⟩
    · rw [length_dryStep_swap hi, h.length_eq, List.length_set, List.length_set]
    · -- any other word is where it was, on both sides
      rw [hS, hC]
      have hrest := h.known i
      by_cases h0 : i = 0
      · subst h0
        by_cases hlen : n + 1 < S.length
        · simpa [hlen] using htop
        · simpa [hlen] using htop
      · by_cases hin : i = n
        · subst hin
          simpa [h0] using hpartner
        · by_cases hlen : n + 1 < S.length
          · by_cases hib : i = n + 1
            · subst hib
              simpa [hlen] using hbelow hlen
            · simpa [hlen, h0, hin, hib] using hrest
          · simpa [hlen, h0, hin] using hrest

section Exec

variable {W : Type} {ops : Ops W} {bb : BasicBlock} {e e' : EvmSt W} {S : List Nat}

theorem Abstracts.balancedStk {C : List Word} (h : Abstracts S C) (out : Nat) (v : Word)
    (adds : Bool) :
    Abstracts (balancedStk S out (if adds then 1 else 0))
      ((if adds then [v] else []) ++ C.drop out) := by
  have hdrop := h.drop out
  cases adds with
  | true => exact hdrop.cons (Or.inl rfl)
  | false => exact hdrop

/-- What the EVM does on the stack, and the vector with it, away from `SWAPn`. -/
theorem abstracts_step (hg : GoodBlock code bb) (hin : InBlock code bb e.pc)
    (hs : StepCase ops code e e') (hp : (instAt code e.pc).plain = true)
    (hswap : ∀ n, instAt code e.pc ≠ .SWAP n) (h : Abstracts S e.stack) :
    Abstracts (dryStep code bb.endIdx e.pc S) e'.stack := by
  cases hs with
  | @push n hi =>
    have hfst := readPushData_fst hin.lt_end hi (hg.zeros_behind hin)
    rw [dryStep, hi]
    -- a datum of more than 64 bits is entered as unknown
    refine h.cons ?_
    rw [hfst]
    split
    · exact Or.inr rfl
    · exact Or.inl rfl
  | pop hi hst =>
    rw [dryStep, hi]
    have hdrop := h.drop 1
    rw [hst] at hdrop
    exact hdrop
  | @dup n v hi hv =>
    rw [dryStep, hi]
    refine h.cons ?_
    have hk := h.known (n - 1)
    rwa [List.getD_eq_getElem?_getD (l := e.stack), hv, Option.getD_some] at hk
  | swap hi => exact absurd hi (hswap _)
  | jumpdest hi =>
    rw [dryStep, hi]
    exact h
  | pc hi =>
    rw [dryStep, hi]
    exact h.cons (Or.inl rfl)
  | jump hi => rw [hi] at hp; cases hp
  | jumpiTaken hi => rw [hi] at hp; cases hp
  | jumpiFall hi => rw [hi] at hp; cases hp
  | @ordinary v w ho hlen hx =>
    obtain ⟨hout, hinn⟩ := removed_eq_stkOut ho
    have hstep : dryStep code bb.endIdx e.pc S =
        EvmTrans.balancedStk S (instAt code e.pc).stkOut (instAt code e.pc).stkIn := by
      rw [dryStep]
      cases hi : instAt code e.pc <;> first | rfl | (rw [hi] at ho; cases ho)
    rw [hstep, hout, hinn]
    exact h.balancedStk _ v _

/-- **One instruction**: the vector stays right exactly when a `SWAPn` does no harm. -/
theorem abstracts_step_iff (hg : GoodBlock code bb) (hin : InBlock code bb e.pc)
    (hs : StepCase ops code e e') (hp : (instAt code e.pc).plain = true) (h : Abstracts S e.stack) :
    Abstracts (dryStep code bb.endIdx e.pc S) e'.stack ↔
      ∀ n, instAt code e.pc = .SWAP n → SwapHarmless n S e.stack := by
  by_cases hswap : ∃ n, instAt code e.pc = .SWAP n
  · obtain ⟨n, hi⟩ := hswap
    have hstack : n < e.stack.length ∧
        e'.stack = (e.stack.set n (e.stack.getD 0 0)).set 0 (e.stack.getD n 0) := by
      cases hs with
      | @swap m a b hi' ha hb =>
        obtain rfl : m = n := by simpa [hi'] using hi
        refine ⟨(List.getElem?_eq_some_iff.mp hb).1, ?_⟩
        rw [List.getD_eq_getElem?_getD, List.getD_eq_getElem?_getD, ha, hb, Option.getD_some,
          Option.getD_some]
      | ordinary ho => rw [hi] at ho; cases ho
      | push hi' | pop hi' | dup hi' | jumpdest hi' | pc hi' | jump hi' | jumpiTaken hi'
      | jumpiFall hi' =>
        rw [hi] at hi'
        cases hi'
    rw [hstack.2, abstracts_swap_iff hi h hstack.1]
    constructor
    · intro hharm m hm
      obtain rfl : n = m := by simpa [hi] using hm
      exact hharm
    · exact fun hall => hall n hi
  · have hno : ∀ n, instAt code e.pc ≠ .SWAP n := fun n hn => hswap ⟨n, hn⟩
    exact ⟨fun _ n hn => absurd hn (hno n), fun _ => abstracts_step hg hin hs hp hno h⟩

/-- **The EVM executes the block up to the point where `dry_run_bb` returns**: the states it passes,
that point the last of them, and the stack there. The operands of `RETURN`, `REVERT` and `SUICIDE`
are gone from it, those of `JUMP` and `JUMPI` are not. -/
inductive BlockExec (ops : Ops W) (code : List Byte) (bb : BasicBlock) :
    EvmSt W → List (EvmSt W) → List Word → Prop
  | ends {s} (hend : bb.endIdx ≤ s.pc) : BlockExec ops code bb s [s] s.stack
  | stops {s} (hlt : s.pc < bb.endIdx) (hi : instAt code s.pc ∈ [.STOP, .JUMP, .JUMPI]) :
      BlockExec ops code bb s [s] s.stack
  | halts {s} (hlt : s.pc < bb.endIdx) (hi : instAt code s.pc ∈ [.RETURN, .REVERT, .SUICIDE])
      (hlen : (instAt code s.pc).stkOut ≤ s.stack.length) :
      BlockExec ops code bb s [s] (s.stack.drop (instAt code s.pc).stkOut)
  | step {s s' trace C} (hlt : s.pc < bb.endIdx) (hp : (instAt code s.pc).plain = true)
      (hs : StepCase ops code s s') (h : BlockExec ops code bb s' trace C) :
      BlockExec ops code bb s (s :: trace) C

/-- The states passed, each with the vector that `dry_run_bb` has there. -/
def dryAlong (code : List Byte) (stop : Nat) : List Nat → List (EvmSt W) → List (EvmSt W × List Nat)
  | _, [] => []
  | S, s :: trace => (s, S) :: dryAlong code stop (dryStep code stop s.pc S) trace

/-- No `SWAPn` that the block executes does harm. -/
def SwapsHarmless (code : List Byte) (bb : BasicBlock) (S : List Nat)
    (trace : List (EvmSt W)) : Prop :=
  ∀ p ∈ dryAlong code bb.endIdx S trace, p.1.pc < bb.endIdx → ∀ n, instAt code p.1.pc = .SWAP n →
    SwapHarmless n p.2 p.1.stack

/-- The vector is right all the way. -/
def AbstractsAlong (code : List Byte) (bb : BasicBlock) (S : List Nat)
    (trace : List (EvmSt W)) : Prop :=
  ∀ p ∈ dryAlong code bb.endIdx S trace, Abstracts p.2 p.1.stack

/-- A state is passed first. -/
theorem BlockExec.head_mem {trace : List (EvmSt W)} {C' : List Word}
    (hrun : BlockExec ops code bb e trace C') : (e, S) ∈ dryAlong code bb.endIdx S trace := by
  cases hrun <;> exact List.mem_cons_self

/-- Where a plain step of the block goes. -/
theorem InBlock.next (hg : GoodBlock code bb) (hin : InBlock code bb e.pc)
    (hs : StepCase ops code e e') (hp : (instAt code e.pc).plain = true) : InBlock code bb e'.pc ∨
    bb.endIdx ≤ e'.pc := by
  have hgt := lt_instrEnd code e.pc
  have hcode := hg.end_le
  have hfirst := hin.first_le
  rw [hs.pc_of_plain hp]
  by_cases hend : bb.endIdx ≤ instrEnd code e.pc
  · exact Or.inr hend
  · exact Or.inl ⟨hin.boundary.next (by omega), by omega, by omega⟩

/-- **The rest of a block**: the vector is right all the way exactly when every `SWAPn` on it is
harmless. -/
theorem BlockExec.along_iff (hg : GoodBlock code bb) {trace : List (EvmSt W)} {C' : List Word}
    (hrun : BlockExec ops code bb e trace C') (hin : InBlock code bb e.pc ∨ bb.endIdx ≤ e.pc)
    (h : Abstracts S e.stack) : SwapsHarmless code bb S trace ↔ AbstractsAlong code bb S trace := by
  -- at the point of return no `SWAPn` is executed any more
  have hlast : ∀ s : EvmSt W, (s.pc < bb.endIdx → ∀ n, instAt code s.pc ≠ .SWAP n) → ∀ S : List Nat,
      Abstracts S s.stack → (SwapsHarmless code bb S [s] ↔ AbstractsAlong code bb S [s]) := by
    intro s hno S h
    show (∀ p ∈ [(s, S)], _) ↔ ∀ p ∈ [(s, S)], _
    simp only [List.forall_mem_singleton]
    exact ⟨fun _ => h, fun _ hlt n hn => absurd hn (hno hlt n)⟩
  induction hrun generalizing S with
  | ends hend => exact hlast _ (fun hlt => absurd hend (Nat.not_le.mpr hlt)) S h
  | stops hlt hi =>
    refine hlast _ (fun _ n hn => ?_) S h
    simp [hn] at hi
  | halts hlt hi hlen =>
    refine hlast _ (fun _ n hn => ?_) S h
    simp [hn] at hi
  | @step s s' trace C hlt hp hs hrest ih =>
    have hin : InBlock code bb s.pc := hin.resolve_right (Nat.not_le.mpr hlt)
    have hone := abstracts_step_iff hg hin hs hp h
    show (∀ p ∈ (s, S) :: dryAlong code bb.endIdx _ trace, _) ↔
      ∀ p ∈ (s, S) :: dryAlong code bb.endIdx _ trace, _
    rw [List.forall_mem_cons, List.forall_mem_cons]
    constructor
    · rintro ⟨hswap, hswaps⟩
      have h' := hone.mpr (hswap hlt)
      exact ⟨h, (ih (hin.next hg hs hp) h').mp hswaps⟩
    · rintro ⟨-, halong⟩
      have h' : Abstracts (dryStep code bb.endIdx s.pc S) s'.stack := halong _ hrest.head_mem
      exact ⟨fun _ => hone.mp h', (ih (hin.next hg hs hp) h').mpr halong⟩

/-- At the end of the rest of a block the loop of `dry_run_bb` has the vector that abstracts the
stack. -/
theorem BlockExec.abstracts_of_along {trace : List (EvmSt W)} {C' : List Word}
    (hrun : BlockExec ops code bb e trace C') (halong : AbstractsAlong code bb S trace) {fuel : Nat}
    (hfuel : bb.endIdx ≤ min e.pc bb.endIdx + fuel) :
    Abstracts (dryRunBbLoop code bb.endIdx fuel (min e.pc bb.endIdx) S) C' := by
  induction hrun generalizing S fuel with
  | @ends s hend =>
    have hstop : dryRunBbLoop code bb.endIdx fuel (min s.pc bb.endIdx) S = S := by
      rw [Nat.min_eq_right hend]
      cases fuel with
      | zero => rfl
      | succ fuel => rw [dryRunBbLoop, if_pos rfl]
    rw [hstop]
    exact halong (s, S) List.mem_cons_self
  | @stops s hlt hi =>
    rw [Nat.min_eq_left hlt.le] at hfuel ⊢
    rw [(dryRunBbLoop_return hlt hfuel S).1 hi]
    exact halong (s, S) List.mem_cons_self
  | @halts s hlt hi hlen =>
    rw [Nat.min_eq_left hlt.le] at hfuel ⊢
    rw [(dryRunBbLoop_return hlt hfuel S).2 hi]
    exact (halong (s, S) List.mem_cons_self).drop _
  | @step s s' trace C hlt hp hs hrest ih =>
    rw [Nat.min_eq_left hlt.le] at hfuel ⊢
    obtain ⟨fuel, rfl⟩ : ∃ k, fuel = k + 1 := ⟨fuel - 1, by omega⟩
    have hgt := lt_instrEnd code s.pc
    rw [dryRunBbLoop_plain hlt hp, ← hs.pc_of_plain hp]
    have hfuel' : bb.endIdx ≤ min s'.pc bb.endIdx + fuel := by
      rw [hs.pc_of_plain hp]
      omega
    exact ih (fun p hp => halong p (List.mem_cons_of_mem _ hp)) hfuel'

/-- A target that is read off an abstracting vector is the top of the stack. -/
theorem Abstracts.headD {C : List Word} (h : Abstracts S C) (hne : S.headD 0 ≠ 0) :
    ∃ d rest, C = d :: rest ∧ S.headD 0 = d.toNat := by
  have hlen := h.length_eq
  cases S with
  | nil => exact absurd rfl hne
  | cons v S =>
    cases C with
    | nil => cases hlen
    | cons d rest => exact ⟨d, rest, rfl, (h.known 0).resolve_left hne⟩

/-- **`dry_run_bb`**: when every `SWAPn` on the way is harmless, the vector it leaves abstracts the
stack at the point where it returns, and a target other than 0 is the real one. And it is right all
the way ONLY when they are. -/
theorem dryRunBb_abstracts (hbb : bb ∈ createBasicBlocks code) {C : List Word} {w : W}
    {trace : List (EvmSt W)} {C' : List Word}
    (hrun : BlockExec ops code bb ⟨bb.firstInstrIdx, C, w⟩ trace C') (h : Abstracts S C) :
    (SwapsHarmless code bb S trace → Abstracts (dryRunBb code bb S) C' ∧
      ((dryRunBb code bb S).headD 0 ≠ 0 →
        ∃ d rest, C' = d :: rest ∧ (dryRunBb code bb S).headD 0 = d.toNat)) ∧
      (SwapsHarmless code bb S trace ↔ AbstractsAlong code bb S trace) := by
  have hne : code ≠ [] := by
    rintro rfl
    cases hbb
  have hg : GoodBlock code bb := ((createBasicBlocks_loopSpec hne).good bb hbb).1
  have hin : InBlock code bb bb.firstInstrIdx := ⟨hg.first_boundary, Nat.le_refl _, hg.first_lt⟩
  have hiff := hrun.along_iff hg (Or.inl hin) h
  refine ⟨fun hswaps => ?_, hiff⟩
  have hfirst : min bb.firstInstrIdx bb.endIdx = bb.firstInstrIdx := Nat.min_eq_left hg.first_lt.le
  have hfuel : bb.endIdx ≤ min bb.firstInstrIdx bb.endIdx + (bb.endIdx - bb.firstInstrIdx) := by
    omega
  have hlast : Abstracts (dryRunBbLoop code bb.endIdx _ (min bb.firstInstrIdx bb.endIdx) S) C' :=
    hrun.abstracts_of_along (hiff.mp hswaps) hfuel
  rw [hfirst] at hlast
  exact ⟨hlast, hlast.headD⟩

/-- `SWAP1; PUSH1 3; JUMP` on two unknown words and a 5: the 5 comes to the top, as the EVM's own 5
does. -/
theorem dryRunBb_abstracts_swap :
    Abstracts (dryRunBb [0x90, 0x60, 0x03, 0x56] ⟨0, 4, 2, 2, [], []⟩ [0, 0, 5]) [3, 5, 7, 5] := by
  have hbb : (⟨0, 4, 2, 2, [], []⟩ : BasicBlock) ∈ createBasicBlocks [0x90, 0x60, 0x03, 0x56] := by
    decide
  have hrun :
      BlockExec (trivialOps [0x90, 0x60, 0x03, 0x56]) [0x90, 0x60, 0x03, 0x56] ⟨0, 4, 2, 2, [], []⟩
      ⟨0, [7, 5, 5], ()⟩ [⟨0, [7, 5, 5], ()⟩, ⟨1, [5, 7, 5], ()⟩, ⟨3, [3, 5, 7, 5], ()⟩]
      [3, 5, 7, 5] :=
    .step (by decide) (by decide) (evmStep_cases rfl)
      (.step (by decide) (by decide) (evmStep_cases rfl) (.stops (by decide) (by decide)))
  have hentry : Abstracts [0, 0, 5] [7, 5, 5] :=
    ((Abstracts.nil.cons (w := 5) (.inr rfl)).cons (.inl rfl)).cons (.inl rfl)
  refine ((dryRunBb_abstracts hbb hrun hentry).1 fun p hp _ n hn => ?_).1
  simp only [dryAlong, List.mem_cons, List.not_mem_nil, or_false] at hp
  rcases hp with rfl | rfl | rfl
  · obtain rfl : 1 = n := Instruction.SWAP.inj hn
    exact ⟨.inr (by decide), .inl (by decide), fun _ => .inl (by decide)⟩
  · cases hn
  · cases hn

/-- `PUSH1 11; PUSH1 8; PUSH1 5; SWAP1; JUMP; JUMPDEST`: the EVM jumps to 8, and the vector
says 11. -/
theorem dryRunBb_swap : (⟨0, 8, 0, 2, [], []⟩ : BasicBlock) ∈
      createBasicBlocks [0x60, 0x0b, 0x60, 0x08, 0x60, 0x05, 0x90, 0x56, 0x5b] ∧
    BlockExec (trivialOps [0x60, 0x0b, 0x60, 0x08, 0x60, 0x05, 0x90, 0x56, 0x5b])
      [0x60, 0x0b, 0x60, 0x08, 0x60, 0x05, 0x90, 0x56, 0x5b] ⟨0, 8, 0, 2, [], []⟩ ⟨0, [], ()⟩
      [⟨0, [], ()⟩, ⟨2, [11], ()⟩, ⟨4, [8, 11], ()⟩, ⟨6, [5, 8, 11], ()⟩, ⟨7, [8, 5, 11], ()⟩]
      [8, 5, 11] ∧
    dryRunBb [0x60, 0x0b, 0x60, 0x08, 0x60, 0x05, 0x90, 0x56, 0x5b] ⟨0, 8, 0, 2, [], []⟩ [] =
      [11, 8, 5] ∧
    ¬ Abstracts [11, 8, 5] [8, 5, 11] := by
  refine ⟨by decide, ?_, by decide, fun h => ?_⟩
  · exact .step (by decide) (by decide) (evmStep_cases rfl)
      (.step (by decide) (by decide) (evmStep_cases rfl)
        (.step (by decide) (by decide) (evmStep_cases rfl)
          (.step (by decide) (by decide) (evmStep_cases rfl) (.stops (by decide) (by decide)))))
  · have hknown := h.known 0
    revert hknown
    simp [Known]

end Exec

end EvmTrans
