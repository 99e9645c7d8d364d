/-
# `EvmTrans.JumpResolution` — where jumps go, by the static route and by the jump table.

A jump has two implementations. With a constant destination `resolveJumps` rewrites the branch and
erases the store to `target`; otherwise the destination travels through `target` to the `switch` of
`JumpTable`. §1 pins the table down — its cases are exactly the `JUMPDEST`s on instruction
boundaries — §2 shows that the code behind the store cannot disturb the destination, §3 that BOTH
routes end in the same block for every one of the 2^256 destinations, and §4 carries a run on to the
next code block.
-/
import EvmTrans.EmittedFunction

namespace EvmTrans

/-- A non-empty `std::vector<uint8_t>` of bytecode. -/
structure Bytecode where
  bytes : List Byte
  ne : bytes ≠ []
  lt : bytes.length < 2 ^ 63

/-! ## §1 — the jump table. -/

section Table

variable {env : CompileEnv} {code : List Byte}

/-- Blocks stand in the order of their offsets. -/
theorem blockTable_end_le_first (hne : code ≠ []) {i j : Nat} {bi bj : BasicBlock}
    (hi : (blockTable code)[i]? = some bi) (hj : (blockTable code)[j]? = some bj) (h : i < j) :
    bi.endIdx ≤ bj.firstInstrIdx :=
  (blockTable_edgeInv hne).end_le_first hne hi hj h

/-- Blocks are told apart by where they start. -/
theorem blockTable_first_inj (hne : code ≠ []) {i j : Nat} {bi bj : BasicBlock}
    (hi : (blockTable code)[i]? = some bi) (hj : (blockTable code)[j]? = some bj)
    (h : bi.firstInstrIdx = bj.firstInstrIdx) : i = j := by
  have hlti := (blockTable_good hne hi).first_lt
  have hltj := (blockTable_good hne hj).first_lt
  apply (blockTable_edgeInv hne).eq_of_overlap hne hi hj
  · omega
  · omega

/-- The blocks that open with `JUMPDEST` are those of the valid jump destinations. -/
theorem isJumpDest_iff_block (hne : code ≠ []) {d : Nat} : isJumpDest code d = true ↔
    ∃ (i : Nat) (bb : BasicBlock), (blockTable code)[i]? = some bb ∧ bb.firstInstrIdx = d ∧
      instAt code bb.firstInstrIdx = .JUMPDEST := by
  rw [isJumpDest_iff]
  constructor
  · rintro ⟨hb, hj⟩
    obtain ⟨b, hmem, rfl⟩ := exists_block_of_jumpDest hne hb hj
    obtain ⟨i, hi⟩ := List.getElem?_of_mem hmem
    obtain ⟨bb, hbb, hs⟩ := (blockTable_edgeInv hne).getElem?_of_created hi
    refine ⟨i, bb, hbb, BasicBlock.first_eq hs, ?_⟩
    rw [BasicBlock.first_eq hs]
    exact hj
  · rintro ⟨i, bb, hbb, rfl, hj⟩
    exact ⟨(blockTable_good hne hbb).first_boundary, hj⟩

theorem mem_jumpCases (hne : code ≠ []) {d : Word} {l : Label} : (d, l) ∈ jumpCases env code ↔
    ∃ (i : Nat) (bb : BasicBlock), (blockTable code)[i]? = some bb ∧
      instAt code bb.firstInstrIdx = .JUMPDEST ∧ d = BitVec.ofNat 256 bb.firstInstrIdx ∧
      l = .code i := by
  obtain ⟨calls, hf⟩ := compileMain_spec env hne
  rw [jumpCases, hf.inv.cases, List.mem_flatMap]
  constructor
  · rintro ⟨c, hc, hmem⟩
    rw [List.mem_reverse] at hc
    unfold Call.case at hmem
    split at hmem
    · rename_i hj
      cases List.mem_singleton.mp hmem
      exact ⟨c.i, c.bb, hf.inv.block c hc, hj, rfl, rfl⟩
    · exact absurd hmem List.not_mem_nil
  · rintro ⟨i, bb, hbb, hj, rfl, rfl⟩
    obtain ⟨c, hc, rfl⟩ := hf.all i (List.getElem?_eq_some_iff.mp hbb).1
    obtain rfl : c.bb = bb := Option.some.inj ((hf.inv.block c hc).symm.trans hbb)
    refine ⟨c, List.mem_reverse.mpr hc, ?_⟩
    rw [Call.case, if_pos hj]
    exact List.mem_singleton.mpr rfl

/-- Offsets of blocks fit a word. -/
theorem first_lt_two_pow (code : Bytecode) {i : Nat} {bb : BasicBlock}
    (h : (blockTable code.bytes)[i]? = some bb) : bb.firstInstrIdx < 2 ^ 256 := by
  have hb := (blockTable_good code.ne h).first_boundary.1
  have := code.lt
  omega

theorem toNat_first (code : Bytecode) {i : Nat} {bb : BasicBlock}
    (h : (blockTable code.bytes)[i]? = some bb) :
    (BitVec.ofNat 256 bb.firstInstrIdx).toNat = bb.firstInstrIdx := by
  rw [BitVec.toNat_ofNat, Nat.mod_eq_of_lt (first_lt_two_pow code h)]

/-- No offset has two cases. -/
theorem jumpCases_nodup (env : CompileEnv) (code : Bytecode) :
    ((jumpCases env code.bytes).map Prod.fst).Nodup := by
  obtain ⟨calls, hf⟩ := compileMain_spec env code.ne
  rw [jumpCases, hf.inv.cases, List.map_flatMap, List.nodup_flatMap]
  constructor
  · intro c _
    unfold Call.case
    split <;> simp
  · -- two calls compile two blocks, and two blocks start at two offsets
    have hnd : calls.reverse.Pairwise fun c d => c.i ≠ d.i := by
      rw [List.pairwise_reverse]
      exact (List.pairwise_map.mp hf.inv.nodup).imp fun h => h.symm
    refine hnd.imp_of_mem fun {c d} hc hd hne => ?_
    rw [List.mem_reverse] at hc hd
    have hcb := hf.inv.block c hc
    have hdb := hf.inv.block d hd
    intro x hx hx'
    obtain ⟨p, hp, rfl⟩ := List.mem_map.mp hx
    obtain ⟨q, hq, heq⟩ := List.mem_map.mp hx'
    unfold Call.case at hp hq
    split at hp
    · split at hq
      · rw [List.mem_singleton.mp hp, List.mem_singleton.mp hq] at heq
        have hn := congrArg BitVec.toNat heq
        rw [caseFor, caseFor, toNat_first code hcb, toNat_first code hdb] at hn
        exact hne (blockTable_first_inj code.ne hcb hdb hn.symm)
      · exact List.not_mem_nil hq
    · exact List.not_mem_nil hp

/-- **Where a jump to the word `d` belongs**: the block that starts at `d` when `d` is a valid jump
destination, `Abort` otherwise. -/
def TransfersTo (code : List Byte) (d : Word) (l : Label) : Prop :=
  (isJumpDest code d.toNat = true ∧ ∃ (i : Nat) (bb : BasicBlock),
    (createBasicBlocks code)[i]? = some bb ∧ bb.firstInstrIdx = d.toNat ∧ l = .code i) ∨
  (isJumpDest code d.toNat = false ∧ l = .abort)

/-- A case of the table leads where it belongs. -/
theorem transfersTo_of_mem_jumpCases {code : Bytecode} {d : Word} {l : Label}
    (h : (d, l) ∈ jumpCases env code.bytes) : TransfersTo code.bytes d l := by
  obtain ⟨i, bb, hbb, hj, hfirst, hl⟩ := (mem_jumpCases code.ne).mp h
  have hnat : bb.firstInstrIdx = d.toNat := by rw [hfirst, toNat_first code hbb]
  obtain ⟨b₀, hb₀, hs⟩ := (blockTable_edgeInv code.ne).getElem? hbb
  refine Or.inl ⟨(isJumpDest_iff_block code.ne).mpr ⟨i, bb, hbb, hnat, hj⟩, i, b₀, hb₀, ?_, hl⟩
  rw [← BasicBlock.first_eq hs, hnat]

/-- The keys of the table are the valid jump destinations. -/
theorem mem_jumpCases_fst (env : CompileEnv) (code : Bytecode) (d : Word) :
    d ∈ (jumpCases env code.bytes).map Prod.fst ↔ isJumpDest code.bytes d.toNat = true := by
  constructor
  · intro h
    obtain ⟨⟨d, l⟩, hmem, rfl⟩ := List.mem_map.mp h
    rcases transfersTo_of_mem_jumpCases hmem with ⟨hj, -⟩ | ⟨-, rfl⟩
    · exact hj
    · -- no case leads to `Abort`
      obtain ⟨i, bb, -, -, -, hl⟩ := (mem_jumpCases code.ne).mp hmem
      cases hl
  · intro h
    obtain ⟨i, bb, hbb, hnat, hj⟩ := (isJumpDest_iff_block code.ne).mp h
    refine List.mem_map.mpr ⟨(d, .code i),
      (mem_jumpCases code.ne).mpr ⟨i, bb, hbb, hj, ?_, rfl⟩, rfl⟩
    rw [hnat, BitVec.ofNat_toNat, BitVec.setWidth_eq]

/-- The switch, and `findCaseValue` on a 256-bit constant, choose the block where the jump
belongs. -/
theorem caseSuccessor_transfersTo (env : CompileEnv) (code : Bytecode) (d : Word) :
    TransfersTo code.bytes d (caseSuccessor (jumpCases env code.bytes) .i256 d) := by
  rw [caseSuccessor, if_pos rfl]
  cases hfind : (jumpCases env code.bytes).find? fun c => c.1 == d with
  | some c =>
    have hmem := List.mem_of_find?_eq_some hfind
    obtain rfl : c.1 = d := by simpa using List.find?_some hfind
    exact transfersTo_of_mem_jumpCases hmem
  | none =>
    refine Or.inr ⟨?_, rfl⟩
    by_contra hjd
    obtain ⟨c, hc, rfl⟩ := List.mem_map.mp ((mem_jumpCases_fst env code d).mpr (by simpa using hjd))
    have := List.find?_eq_none.mp hfind c hc
    simp at this

end Table

/-! ## §2 — quiet code cannot disturb a pending jump. -/

section Quiet

variable {W : Type} {ops : Ops W} {n : Nat}

theorem define_quiet {x : Instr} {d : Nat} (s : St W) (v : Word) (hq : x.Quiet n)
    (hd : x.dst? = some d) : ∀ r, r < n → (s.define d v).env r = s.env r := by
  intro r hr
  have := hq.dst d hd
  exact define_env_of_ne s v (by omega)

theorem write_frame {s s' : St W} {v : Word} {p : Ptr} (h : s.write v p = .ok s')
    (hp : p ≠ .target) : s'.target = s.target ∧ s'.env = s.env := by
  cases p with
  | target => exact absurd rfl hp
  | spPtr => cases h; exact ⟨rfl, rfl⟩
  | mstk idx =>
    simp only [St.write] at h
    split at h
    · cases h; exact ⟨rfl, rfl⟩
    · cases h

/-- One quiet instruction leaves `target` and the registers below `n` alone. -/
theorem execInstr_quiet {x : Instr} {s s' : St W} (hq : x.Quiet n)
    (h : execInstr ops x s = .ok s') : s'.target = s.target ∧ ∀ r, r < n → s'.env r = s.env r := by
  cases x with
  | load d p =>
    simp only [execInstr] at h
    cases hr : s.read p with
    | error e => rw [hr] at h; cases h
    | ok v => rw [hr] at h; cases h; exact ⟨rfl, define_quiet s v hq rfl⟩
  | store v p =>
    have hp : p ≠ .target := by
      rintro rfl
      exact Bool.noConfusion (show true = false from hq.stores)
    obtain ⟨ht, he⟩ := write_frame h hp
    exact ⟨ht, fun r _ => by rw [he]⟩
  | opcode d op args =>
    simp only [execInstr] at h
    cases he : ops.exec op (args.map (Value.denote s.env)) s.world with
    | none => rw [he] at h; cases h
    | some r =>
      rw [he] at h
      cases h
      exact ⟨rfl, define_quiet s r.1 hq rfl⟩
  | add d a b => cases h; exact ⟨rfl, define_quiet s _ hq rfl⟩
  | sub d a b => cases h; exact ⟨rfl, define_quiet s _ hq rfl⟩
  | zext d v => cases h; exact ⟨rfl, define_quiet s _ hq rfl⟩
  | icmpNE d v => cases h; exact ⟨rfl, define_quiet s _ hq rfl⟩
  | _ => cases h

theorem execAll_quiet : ∀ {is : List Instr} {s s' : St W}, (∀ x ∈ is, x.Quiet n) →
    execAll ops is s = .ok s' → s'.target = s.target ∧ ∀ r, r < n → s'.env r = s.env r := by
  intro is
  induction is with
  | nil => intro s s' _ h; cases h; exact ⟨rfl, fun _ _ => rfl⟩
  | cons x is ih =>
    intro s s' hq h
    unfold execAll at h
    cases hx : execInstr ops x s with
    | error e => rw [hx] at h; cases h
    | ok s₁ =>
      rw [hx] at h
      obtain ⟨ht, he⟩ := execInstr_quiet (hq x List.mem_cons_self) hx
      obtain ⟨ht', he'⟩ := ih (fun y hy => hq y (List.mem_cons_of_mem _ hy)) h
      exact ⟨ht'.trans ht, fun r hr => (he' r hr).trans (he r hr)⟩

theorem read_retarget {s : St W} {p : Ptr} (hp : p ≠ .target) (t : Word) :
    ({ s with target := t } : St W).read p = s.read p := by
  cases p with
  | target => exact absurd rfl hp
  | spPtr => rfl
  | mstk idx => rfl

theorem write_retarget {s s' : St W} {v : Word} {p : Ptr} (h : s.write v p = .ok s')
    (hp : p ≠ .target) (t : Word) :
    ({ s with target := t } : St W).write v p = .ok { s' with target := t } := by
  cases p with
  | target => exact absurd rfl hp
  | spPtr => cases h; rfl
  | mstk idx =>
    simp only [St.write] at h ⊢
    split at h
    · rename_i hlt
      cases h
      rw [if_pos hlt]
    · cases h

/-- Quiet code runs the same whatever `target` holds. -/
theorem execInstr_retarget {x : Instr} {s s' : St W} (hq : x.Quiet n)
    (h : execInstr ops x s = .ok s') (t : Word) :
    execInstr ops x { s with target := t } = .ok { s' with target := t } := by
  cases x with
  | load d p =>
    have hp : p ≠ .target := by
      rintro rfl
      exact Bool.noConfusion (show true = false from hq.loads)
    simp only [execInstr, read_retarget hp] at h ⊢
    cases hr : s.read p with
    | error e => rw [hr] at h; cases h
    | ok v => rw [hr] at h; cases h; rfl
  | store v p =>
    have hp : p ≠ .target := by
      rintro rfl
      exact Bool.noConfusion (show true = false from hq.stores)
    exact write_retarget h hp t
  | opcode d op args =>
    simp only [execInstr] at h ⊢
    cases he : ops.exec op (args.map (Value.denote s.env)) s.world with
    | none => rw [he] at h; cases h
    | some r => rw [he] at h; cases h; rfl
  | add d a b => cases h; rfl
  | sub d a b => cases h; rfl
  | zext d v => cases h; rfl
  | icmpNE d v => cases h; rfl
  | _ => cases h

theorem execAll_retarget (t : Word) : ∀ {is : List Instr} {s s' : St W}, (∀ x ∈ is, x.Quiet n) →
    execAll ops is s = .ok s' →
    execAll ops is { s with target := t } = .ok { s' with target := t } := by
  intro is
  induction is with
  | nil => intro s s' _ h; cases h; rfl
  | cons x is ih =>
    intro s s' hq h
    unfold execAll at h ⊢
    cases hx : execInstr ops x s with
    | error e => rw [hx] at h; cases h
    | ok s₁ =>
      rw [hx] at h
      rw [execInstr_retarget (hq x List.mem_cons_self) hx t]
      exact ih (fun y hy => hq y (List.mem_cons_of_mem _ hy)) h

/-- The store to `target` can be left out of a run: `target` is then what it was in front of it. -/
theorem execAll_erase_store {pre post : List Instr} {idx : Value} {s s₁ s' : St W}
    (hq : ∀ x ∈ post, x.Quiet n) (hpre : execAll ops pre s = .ok s₁)
    (h : execAll ops (pre ++ .store idx .target :: post) s = .ok s') :
    execAll ops (pre ++ post) s = .ok { s' with target := s₁.target } := by
  rw [execAll_append, hpre] at h ⊢
  have h : execAll ops post { s₁ with target := idx.denote s₁.env } = .ok s' := h
  have hback := execAll_retarget s₁.target hq h
  exact hback

/-- A run of a concatenation passes through the middle. -/
theorem execAll_append_ok {xs ys : List Instr} {s s' : St W}
    (h : execAll ops (xs ++ ys) s = .ok s') :
    ∃ s₁, execAll ops xs s = .ok s₁ ∧ execAll ops ys s₁ = .ok s' := by
  rw [execAll_append] at h
  cases hx : execAll ops xs s with
  | error e => rw [hx] at h; cases h
  | ok s₁ => rw [hx] at h; exact ⟨s₁, rfl, h⟩

end Quiet

/-! ## §3 — leaving a block by a jump. -/

section Leave

variable {W : Type} {ops : Ops W} {env : CompileEnv}

/-- The label that control goes to when it leaves code block `i`, seen through the jump table. -/
def leave (ops : Ops W) (f : List IRBlock) (i : Nat) (s : St W) : Except (Stop W) (Label × St W) :=
  match runBlock ops f (.code i) s with
  | .ok (.jumpTable, s') => runBlock ops f .jumpTable s'
  | r => r

/-- A block that is found, runs and branches. -/
theorem runBlock_ok {f : List IRBlock} {l l' : Label} {b : IRBlock} {t : Term} {s r : St W}
    (hfind : f.find? (fun x => x.label == l) = some b) (hrun : execAll ops b.code s = .ok r)
    (hterm : b.term = some t) (ht : execTerm t r = .ok l') :
    runBlock ops f l s = .ok (l', r) := by
  simp only [runBlock, hfind, hrun, hterm, ht]

/-- The jump table dispatches on `target`. -/
theorem runBlock_jumpTable {code : List Byte} {calls : List Call}
    (hf : FunctionSpec env code calls) (s : St W) :
    runBlock ops (compileMain env code) .jumpTable s =
      .ok (caseSuccessor (jumpCases env code) .i256 s.target, s.define 0 s.target) := by
  apply runBlock_ok hf.jumpTable (r := s.define 0 s.target) rfl rfl
  simp only [execTerm, Value.denote_reg, define_env_self, caseSuccessor, if_true]

theorem leave_of_ne {f : List IRBlock} {i : Nat} {l : Label} {s s' : St W}
    (h : runBlock ops f (.code i) s = .ok (l, s')) (hl : l ≠ .jumpTable) :
    leave ops f i s = .ok (l, s') := by
  unfold leave
  rw [h]
  cases l with
  | jumpTable => exact absurd rfl hl
  | _ => rfl

theorem TransfersTo.ne_jumpTable {code : List Byte} {d : Word} {l : Label}
    (h : TransfersTo code d l) : l ≠ .jumpTable := by
  rcases h with ⟨-, i, bb, -, -, rfl⟩ | ⟨-, rfl⟩
  · exact Label.noConfusion
  · exact Label.noConfusion

/-- A destination that `resolveJumps` can place, or leaves to the table: a 256-bit constant, or a
computed value. -/
def Value.Wide : Value → Prop
  | .const w _ => w = .i256
  | .reg _ _ => True

/-- The code of a block that stores its destination, run to its end: `target` holds the destination,
and the destination means what it meant. -/
theorem target_of_store {pre post : List Instr} {idx : Value} {n : Nat} {s s' : St W}
    (hq : ∀ x ∈ post, x.Quiet n) (hb : idx.below n)
    (h : execAll ops (pre ++ .store idx .target :: post) s = .ok s') :
    s'.target = idx.denote s'.env := by
  obtain ⟨s₁, -, h₁⟩ := execAll_append_ok h
  have h₂ : execAll ops post { s₁ with target := idx.denote s₁.env } = .ok s' := h₁
  obtain ⟨ht, he⟩ := execAll_quiet hq h₂
  rw [ht]
  exact (Value.denote_congr hb he).symm

/-- The label a resolved jump branches to. -/
def jumpLabel (cases : List (Word × Label)) : Value → Label
  | .const w v => caseSuccessor cases w v
  | .reg _ _ => .jumpTable

theorem eraseTargetStore_eq {pre post : List Instr} {idx : Value}
    (hq : ∀ x ∈ post, x.storesTarget = false) :
    eraseTargetStore (pre ++ .store idx .target :: post) = pre ++ post := by
  have hrev : ∀ x ∈ post.reverse, ¬ x.storesTarget = true := by
    intro x hx
    rw [hq x (List.mem_reverse.mp hx)]
    exact Bool.false_ne_true
  rw [eraseTargetStore, List.reverse_append, List.reverse_cons, List.append_assoc,
    List.eraseP_append_right _ hrev, List.singleton_append, List.eraseP_cons_of_pos rfl,
    List.reverse_append, List.reverse_reverse, List.reverse_reverse]

/-- The code of a resolved jump: without the store when the destination is a constant. -/
theorem resolve_jump (cases : List (Word × Label)) (next : Label) (i : Nat) {b : Builder}
    {idx : Value} (h : EndsInJump b idx) :
    (resolveBlock cases next (b.block i)).term = some (.br (jumpLabel cases idx) (some idx)) ∧
      ∃ pre post n, (∀ x ∈ post, x.Quiet n) ∧ idx.below n ∧
        b.code = pre ++ .store idx .target :: post ∧
        (resolveBlock cases next (b.block i)).code =
          match idx with
          | .const _ _ => pre ++ post
          | .reg _ _ => pre ++ .store idx .target :: post := by
  obtain ⟨pre, post, n, hcode, hq, hb, hterm⟩ := h
  cases idx with
  | const w v =>
    have hres : resolveBlock cases next (b.block i) =
        ⟨.code i, eraseTargetStore b.code,
          some (.br (caseSuccessor cases w v) (some (.const w v)))⟩ := by
      simp only [resolveBlock, Builder.block, hterm]
    refine ⟨by rw [hres]; rfl, pre, post, n, hq, hb, hcode, ?_⟩
    rw [hres]
    show eraseTargetStore b.code = _
    rw [hcode, eraseTargetStore_eq fun x hx => (hq x hx).stores]
  | reg w r =>
    have hres : resolveBlock cases next (b.block i) = b.block i := by
      simp only [resolveBlock, Builder.block, hterm]
    rw [hres]
    exact ⟨hterm, pre, post, n, hq, hb, hcode, hcode⟩

/-- The same for `JUMPI`; the other successor is the next block. -/
theorem resolve_jumpi (cases : List (Word × Label)) (next : Label) (i : Nat) {next' : Label}
    {b : Builder} {idx rawCond : Value} (h : EndsInJumpi b next' idx rawCond) :
    ∃ pre post n, (resolveBlock cases next (b.block i)).term =
        some (.condBr (.reg .i1 n) (jumpLabel cases idx) next (some idx)) ∧
      (∀ x ∈ post, x.Quiet (n + 1)) ∧ idx.below n ∧ rawCond.below n ∧
      b.code = pre ++ .icmpNE n rawCond :: .store idx .target :: post ∧
      (resolveBlock cases next (b.block i)).code =
        match idx with
        | .const _ _ => pre ++ .icmpNE n rawCond :: post
        | .reg _ _ => pre ++ .icmpNE n rawCond :: .store idx .target :: post := by
  obtain ⟨pre, post, n, hcode, hq, hb, hc, hterm⟩ := h
  refine ⟨pre, post, n, ?_⟩
  cases idx with
  | const w v =>
    have hres : resolveBlock cases next (b.block i) = ⟨.code i, eraseTargetStore b.code,
        some (.condBr (.reg .i1 n) (caseSuccessor cases w v) next (some (.const w v)))⟩ := by
      simp only [resolveBlock, Builder.block, hterm]
    refine ⟨by rw [hres]; rfl, hq, hb, hc, hcode, ?_⟩
    rw [hres]
    show eraseTargetStore b.code = pre ++ .icmpNE n rawCond :: post
    have happ : b.code = (pre ++ [.icmpNE n rawCond]) ++ .store (.const w v) .target :: post := by
      rw [hcode, List.append_assoc]
      rfl
    rw [happ, eraseTargetStore_eq fun x hx => (hq x hx).stores, List.append_assoc]
    rfl
  | reg w r =>
    have hres : resolveBlock cases next (b.block i) =
        ⟨.code i, b.code, some (.condBr (.reg .i1 n) .jumpTable next (some (.reg w r)))⟩ := by
      simp only [resolveBlock, Builder.block, hterm]
    rw [hres]
    exact ⟨rfl, hq, hb, hc, hcode, hcode⟩

/-- The register of the test, at the end of the block: non-zero exactly when the condition is. -/
theorem cond_of_icmpNE {pre post : List Instr} {rawCond idx : Value} {n : Nat} {s s' : St W}
    (hq : ∀ x ∈ post, x.Quiet (n + 1)) (hc : rawCond.below n)
    (h : execAll ops (pre ++ .icmpNE n rawCond :: post) s = .ok s' ∨
      execAll ops (pre ++ .icmpNE n rawCond :: .store idx .target :: post) s = .ok s') :
    s'.env n ≠ 0 ↔ rawCond.denote s'.env ≠ 0 := by
  obtain ⟨s₁, s₂, he, h₂⟩ : ∃ s₁ s₂ : St W,
      s₂.env = (s₁.define n (if rawCond.denote s₁.env ≠ 0 then 1 else 0)).env ∧
        execAll ops post s₂ = .ok s' := by
    rcases h with h | h
    · obtain ⟨s₁, -, h₁⟩ := execAll_append_ok h
      exact ⟨s₁, _, rfl, h₁⟩
    · obtain ⟨s₁, -, h₁⟩ := execAll_append_ok h
      exact ⟨s₁, { s₁.define n _ with target := idx.denote (s₁.define n _).env }, rfl, h₁⟩
  obtain ⟨-, hframe⟩ := execAll_quiet hq h₂
  have hn : s'.env n = if rawCond.denote s₁.env ≠ 0 then 1 else 0 := by
    rw [hframe n (Nat.lt_succ_self n), he, define_env_self]
  have hr : rawCond.denote s'.env = rawCond.denote s₁.env := by
    refine Value.denote_congr hc fun r hlt => ?_
    rw [hframe r (by omega), he, define_env_of_ne _ _ (by omega)]
  rw [hn, hr]
  split <;> simp_all

/-- The part of the state that a dispatch leaves alone. -/
structure SameStack (s s' : St W) : Prop where
  sp : s'.sp = s.sp
  mstk : s'.mstk = s.mstk
  target : s'.target = s.target
  world : s'.world = s.world

/-- **Both routes of a jump agree.** Control that branches to the label of a resolved jump ends up
where the jump belongs; a constant of another width goes to `Abort`. -/
theorem leave_jumpLabel {code : Bytecode} {calls : List Call}
    (hf : FunctionSpec env code.bytes calls) {i : Nat} {idx : Value} {s s' : St W}
    (hrun : runBlock ops (compileMain env code.bytes) (.code i) s =
      .ok (jumpLabel (jumpCases env code.bytes) idx, s'))
    (ht : ∀ w r, idx = .reg w r → s'.target = idx.denote s'.env) :
    ∃ l s'', leave ops (compileMain env code.bytes) i s = .ok (l, s'') ∧ SameStack s' s'' ∧
      (idx.Wide → TransfersTo code.bytes (idx.denote s'.env) l) ∧ (¬ idx.Wide → l = .abort) := by
  cases idx with
  | const w v =>
    by_cases hw : w = .i256
    · subst hw
      have htr := caseSuccessor_transfersTo env code v
      exact ⟨_, s', leave_of_ne hrun htr.ne_jumpTable, ⟨rfl, rfl, rfl, rfl⟩, fun _ => htr,
        fun hn => absurd rfl hn⟩
    · have hab : jumpLabel (jumpCases env code.bytes) (.const w v) = .abort := if_neg hw
      rw [hab] at hrun
      exact ⟨.abort, s', leave_of_ne hrun Label.noConfusion, ⟨rfl, rfl, rfl, rfl⟩,
        fun h => absurd h hw, fun _ => rfl⟩
  | reg w r =>
    have htarget := ht w r rfl
    refine ⟨caseSuccessor (jumpCases env code.bytes) .i256 s'.target, s'.define 0 s'.target, ?_,
      ⟨rfl, rfl, rfl, rfl⟩, fun _ => ?_, fun hn => absurd trivial hn⟩
    · unfold leave
      rw [hrun]
      exact runBlock_jumpTable hf s'
    · rw [← htarget]
      exact caseSuccessor_transfersTo env code s'.target

/-- What `target` holds behind a block that jumps to `v`: the destination, unless `resolveJumps` has
erased the store. -/
def Value.stored (env : Nat → Word) (t : Word) : Value → Word
  | .const _ _ => t
  | .reg _ id => env id

/-- The block without its store to `target`, run to its end. -/
def RunsErased (ops : Ops W) (b : Builder) (s r : St W) : Prop :=
  execAll ops (eraseTargetStore b.code) s = .ok { r with target := s.target }

/-- The spill behind the store to `target`; nothing in front of it has touched `target`. -/
theorem runsErased_spill {e : Builder} {pre : List Instr} {idx : Value} {s s₁ r : St W}
    (hcode : e.code = pre ++ [.store idx .target]) (hpre : execAll ops pre s = .ok s₁)
    (ht : s₁.target = s.target) (hrun : execAll ops (spill e).code s = .ok r) :
    RunsErased ops (spill e) s r := by
  obtain ⟨post, hpost, hq⟩ := (spill_quiet e).code
  have hspill : (spill e).code = pre ++ .store idx .target :: post := by
    rw [hpost, hcode, List.append_assoc]
    rfl
  rw [hspill] at hrun
  rw [RunsErased, hspill, eraseTargetStore_eq fun x hx => (hq x hx).stores, ← ht]
  exact execAll_erase_store hq hpre hrun

/-- **A finished block that ends in `JUMP`**, resolved and left. -/
theorem leave_jump {code : Bytecode} {calls : List Call} (hf : FunctionSpec env code.bytes calls)
    {c : Call} (hc : c ∈ calls) {idx : Value} {s r : St W}
    (hj : EndsInJump (c.final env code.bytes (blockTable code.bytes)) idx)
    (hrun : execAll ops (c.final env code.bytes (blockTable code.bytes)).code s = .ok r)
    (herased : RunsErased ops (c.final env code.bytes (blockTable code.bytes)) s r) :
    ∃ l s'', leave ops (compileMain env code.bytes) c.i s = .ok (l, s'') ∧
      SameStack { r with target := idx.stored r.env s.target } s'' ∧
      (idx.Wide → TransfersTo code.bytes (idx.denote r.env) l) ∧ (¬ idx.Wide → l = .abort) := by
  obtain ⟨hterm, pre, post, n, hq, hb, hcode, hres⟩ := resolve_jump (jumpCases env code.bytes)
    (nextNode (blockTable code.bytes).length c.i) c.i hj
  have hrest : execAll ops (resolveBlock (jumpCases env code.bytes)
      (nextNode (blockTable code.bytes).length c.i)
      ((c.final env code.bytes (blockTable code.bytes)).block c.i)).code s =
        .ok { r with target := idx.stored r.env s.target } := by
    rw [hres]
    cases idx with
    | const w v =>
      rw [RunsErased, hcode, eraseTargetStore_eq fun x hx => (hq x hx).stores] at herased
      exact herased
    | reg w id =>
      rw [hcode] at hrun
      have ht : r.target = r.env id := target_of_store hq hb hrun
      exact hrun.trans (congrArg (fun t => Except.ok { r with target := t }) ht)
  have hleft : runBlock ops (compileMain env code.bytes) (.code c.i) s =
      .ok (jumpLabel (jumpCases env code.bytes) idx,
        { r with target := idx.stored r.env s.target }) :=
    runBlock_ok (hf.block c hc) hrest hterm rfl
  exact leave_jumpLabel hf hleft fun w id hreg => by rw [hreg]; rfl

/-- **A finished block that ends in `JUMPI`.** -/
theorem leave_jumpi {code : Bytecode} {calls : List Call} (hf : FunctionSpec env code.bytes calls)
    {c : Call} (hc : c ∈ calls) {next' : Label} {idx rawCond : Value} {s r : St W}
    (hj : EndsInJumpi (c.final env code.bytes (blockTable code.bytes)) next' idx rawCond)
    (hrun : execAll ops (c.final env code.bytes (blockTable code.bytes)).code s = .ok r)
    (herased : RunsErased ops (c.final env code.bytes (blockTable code.bytes)) s r) :
    (rawCond.denote r.env ≠ 0 →
      ∃ l s'', leave ops (compileMain env code.bytes) c.i s = .ok (l, s'') ∧
        SameStack { r with target := idx.stored r.env s.target } s'' ∧
        (idx.Wide → TransfersTo code.bytes (idx.denote r.env) l) ∧ (¬ idx.Wide → l = .abort)) ∧
    (rawCond.denote r.env = 0 → leave ops (compileMain env code.bytes) c.i s =
      .ok (nextNode (blockTable code.bytes).length c.i,
        { r with target := idx.stored r.env s.target })) := by
  obtain ⟨pre, post, n, hterm, hq, hb, hbc, hcode, hres⟩ := resolve_jumpi
    (jumpCases env code.bytes) (nextNode (blockTable code.bytes).length c.i) c.i hj
  rw [hcode] at hrun
  have hcond := cond_of_icmpNE hq hbc (Or.inr hrun)
  have hrest : execAll ops (resolveBlock (jumpCases env code.bytes)
      (nextNode (blockTable code.bytes).length c.i)
      ((c.final env code.bytes (blockTable code.bytes)).block c.i)).code s =
        .ok { r with target := idx.stored r.env s.target } := by
    rw [hres]
    have happ : ∀ l,
        pre ++ .icmpNE n rawCond :: l = (pre ++ [.icmpNE n rawCond]) ++ l := fun l => by
      rw [List.append_assoc]
      rfl
    rw [happ] at hrun hcode
    cases idx with
    | const w v =>
      rw [RunsErased, hcode, eraseTargetStore_eq fun x hx => (hq x hx).stores] at herased
      show execAll ops (pre ++ .icmpNE n rawCond :: post) s = _
      rw [happ]
      exact herased
    | reg w id =>
      have ht : r.target = r.env id := target_of_store hq (Value.below_mono hb (Nat.le_succ n)) hrun
      show execAll ops (pre ++ .icmpNE n rawCond :: .store (.reg w id) .target :: post) s = _
      rw [happ]
      exact hrun.trans (congrArg (fun t => Except.ok { r with target := t }) ht)
  have hblock := hf.block c hc
  constructor
  · intro hne
    have hleft : runBlock ops (compileMain env code.bytes) (.code c.i) s =
        .ok (jumpLabel (jumpCases env code.bytes) idx,
          { r with target := idx.stored r.env s.target }) :=
      runBlock_ok hblock hrest hterm (congrArg Except.ok (if_pos (hcond.mpr hne)))
    exact leave_jumpLabel hf hleft fun w id hreg => by rw [hreg]; rfl
  · intro hz
    have hzero : ¬ r.env n ≠ 0 := fun h => hcond.mp h hz
    refine leave_of_ne (runBlock_ok hblock hrest hterm (congrArg Except.ok (if_neg hzero))) ?_
    unfold nextNode
    split <;> exact Label.noConfusion

/-- **A finished block without terminator** falls into the next node. -/
theorem leave_plain {code : List Byte} {calls : List Call} (hf : FunctionSpec env code calls)
    {c : Call} (hc : c ∈ calls) {s r : St W}
    (ht : (c.final env code (blockTable code)).term = none)
    (hrun : execAll ops (c.final env code (blockTable code)).code s = .ok r) :
    leave ops (compileMain env code) c.i s = .ok (nextNode (blockTable code).length c.i, r) := by
  have hres : resolveBlock (jumpCases env code) (nextNode (blockTable code).length c.i)
      ((c.final env code (blockTable code)).block c.i) = ⟨.code c.i,
        (c.final env code (blockTable code)).code,
        some (.br (nextNode (blockTable code).length c.i) none)⟩ := by
    simp only [resolveBlock, Builder.block, ht]
  have hblock := hf.block c hc
  rw [hres] at hblock
  apply leave_of_ne (runBlock_ok hblock hrun rfl rfl)
  unfold nextNode
  split <;> exact Label.noConfusion

/-! ## §4 — the next code block. -/

/-- A run that leaves for a code block enters it. -/
theorem step_of_leave {f : List IRBlock} {i j : Nat} {s s' : St W}
    (h : leave ops f i s = .ok (.code j, s')) : step ops f i s = .ok (j, s') := by
  unfold leave at h
  unfold step
  cases hr : runBlock ops f (.code i) s with
  | error x => rw [hr] at h; cases h
  | ok r =>
    obtain ⟨l, s₁⟩ := r
    rw [hr] at h
    cases l with
    | jumpTable =>
      have h : runBlock ops f .jumpTable s₁ = .ok (.code j, s') := h
      simp only [settle, h]
    | code j' => cases h; rfl
    | _ => cases h

theorem output_zero (ops : Ops W) (w : W) : ops.output w 0 0 = [] :=
  List.eq_nil_of_length_eq_zero (ops.length_output w 0 0)

theorem runBlock_abort {code : List Byte} {calls : List Call} (hf : FunctionSpec env code calls)
    (s : St W) : runBlock ops (compileMain env code) .abort s =
      .error (.outcome (.revert []) s.world) := by
  have hout : ops.output s.world ((constWord 0).denote s.env) ((constWord 0).denote s.env) = [] :=
    output_zero ops s.world
  simp only [runBlock, hf.abort, execAll, execInstr, hout]

/-- A run that leaves for `Abort` reverts with empty output. -/
theorem step_of_leave_abort {code : List Byte} {calls : List Call}
    (hf : FunctionSpec env code calls) {i : Nat} {s s' : St W}
    (h : leave ops (compileMain env code) i s = .ok (.abort, s')) :
    step ops (compileMain env code) i s = .error (.outcome (.revert []) s'.world) := by
  have habort : runBlock ops (compileMain env code) .abort s' = _ := runBlock_abort hf s'
  unfold leave at h
  unfold step
  cases hr : runBlock ops (compileMain env code) (.code i) s with
  | error x => rw [hr] at h; cases h
  | ok r =>
    obtain ⟨l, s₁⟩ := r
    rw [hr] at h
    cases l with
    | jumpTable =>
      have h : runBlock ops (compileMain env code) .jumpTable s₁ = .ok (.abort, s') := h
      simp only [settle, h, habort]
    | abort => cases h; simp only [settle, habort]
    | _ => cases h

end Leave

end EvmTrans
