/-
# `EvmTrans.RollbackPass` — `EstimateRollbackPass`: a `main` for the origin of the transaction only.

`detectBug` looks for a comparison of `msg.sender` with `tx.origin`, so as to leave a `main` alone
that makes one. It never finds any: the branch that collects the senders tests for the SAME call as
the branch in front of it, the list of senders stays empty, and the answer is always yes.
`runOnFunction` then puts in front of `main`

    ValPtr <- getCaller; m_sender <- load ValPtr; ValPtr <- getTxOrigin; m_origin <- load ValPtr
    if m_sender != m_origin: unreachable

The function may already carry a mutex: `prepare` runs this pass behind `EstimateReenrancePass`. So
what is said here holds of functions over any instructions, and of any environment.
-/
import EvmTrans.ReentrancyTransparent

namespace EvmTrans.Llvm.EstimateRollbackPass

open Lib (ofLE Ends EndsAlike Simulation runFor runFor_add_of_inl runFor_succ_of_inl
  ends_iff_of_runFor)

variable {I L B E V : Type}

/-! ## §1 — `detectBug`. -/

/-- What the search reads of an instruction: itself as a value, whether it is an `ICmp`, and its
operands with their names. -/
structure Inst (V : Type) where
  value : V
  isICmp : Bool
  operands : List (V × String)

/-- `icmpInstList`, `originValList` and `senderValList`. -/
structure Lists (V : Type) where
  icmpInstList : List (Inst V)
  originValList : List (Option V)
  senderValList : List (Option V)

/-- `inst.getNumOperands() == 3 && inst.getOperand(2)->getName() == "ethereum.getTxOrigin"`. -/
def isOriginCall (inst : Inst V) : Bool :=
  inst.operands.length == 3 && (inst.operands[2]?.map Prod.snd) == some "ethereum.getTxOrigin"

/-- The scan of one block. `std::next(it, 7)` is `none` behind the end of the block. -/
def scanBlock : List (Inst V) → Lists V → Lists V
  | [], s => s
  | inst :: rest, s =>
    let value := (inst :: rest)[7]?.map Inst.value
    if inst.isICmp && inst.operands.length == 2 then
      scanBlock rest { s with icmpInstList := s.icmpInstList ++ [inst] }
    else if isOriginCall inst then scanBlock rest { s with originValList :=
      s.originValList ++ [value] }
    -- the source repeats the test
    else if isOriginCall inst then scanBlock rest { s with senderValList :=
      s.senderValList ++ [value] }
    else scanBlock rest s

/-- `EstimateRollbackPass::detectBug`. -/
def detectBug [DecidableEq V] (blocks : List (List (Inst V))) : Bool :=
  let s := blocks.foldl (fun s block => scanBlock block s) ⟨[], [], []⟩
  if s.senderValList.length == 0 || s.originValList.length == 0 then true
  else
    !s.icmpInstList.any fun icmpInst =>
      let lhs := icmpInst.operands[0]?.map Prod.fst
      let rhs := icmpInst.operands[1]?.map Prod.fst
      (s.originValList.contains lhs && s.senderValList.contains rhs) ||
        (s.originValList.contains rhs && s.senderValList.contains lhs)

theorem scanBlock_senders (block : List (Inst V)) : ∀ s : Lists V,
    (scanBlock block s).senderValList = s.senderValList := by
  induction block with
  | nil => exact fun _ => rfl
  | cons inst rest ih =>
    intro s
    unfold scanBlock
    dsimp only
    by_cases hcmp : (inst.isICmp && inst.operands.length == 2) = true
    · rw [if_pos hcmp, ih]
    rw [if_neg hcmp]
    by_cases horigin : isOriginCall inst = true
    · rw [if_pos horigin, ih]
    · rw [if_neg horigin, if_neg horigin, ih]

/-- **No comparison is ever found.** -/
theorem detectBug_eq [DecidableEq V] (blocks : List (List (Inst V))) : detectBug blocks = true := by
  have hsenders : ∀ s : Lists V, (blocks.foldl (fun s block => scanBlock block s) s).senderValList =
      s.senderValList := by
    induction blocks with
    | nil => exact fun _ => rfl
    | cons block blocks ih => exact fun s => (ih _).trans (scanBlock_senders block s)
  unfold detectBug
  dsimp only
  rw [hsenders]
  rfl

/-! ## §2 — the rewritten function. -/

/-- The local state of the rewritten function: what it had, the bytes at `ValPtr`, and the registers
of the check. -/
structure Checked (L : Type) where
  inner : L
  valPtr : List Byte
  m_sender : BitVec 160
  m_origin : BitVec 160
  cond : Bool

/-- The instructions of the rewritten function: those inserted, and those that it had. -/
inductive CheckInstr (I : Type) where
  | getCaller
  | loadSender
  | getTxOrigin
  | loadOrigin
  | icmpNE
  | original (i : I)

/-- The `i160` that the bytes at `ValPtr` denote. -/
def loadValPtr (l : Checked L) : BitVec 160 := BitVec.ofNat 160 (ofLE l.valPtr)

/-- What the host sees of an instruction. -/
def CheckInstr.effect (exec : I → L → Effect L) (i : CheckInstr I) (l : Checked L) :
    Effect (Checked L) :=
  match i with
  | .getCaller => .query .getCaller [] fun r => some { l with valPtr := r.data }
  | .loadSender => .internal { l with m_sender := loadValPtr l }
  | .getTxOrigin => .query .getTxOrigin [] fun r => some { l with valPtr := r.data }
  | .loadOrigin => .internal { l with m_origin := loadValPtr l }
  | .icmpNE => .internal { l with cond := l.m_sender != l.m_origin }
  | .original i => (exec i l.inner).map fun inner => { l with inner := inner }

/-- A block of `main` in the rewritten function. -/
def checkedBlock (b : Block I L B) : Block (CheckInstr I) (Checked L) (GuardLabel B) where
  code := b.code.map .original
  succs := b.succs.map .code
  next l := (b.next l.inner).map .code
  next_mem l c h := by
    obtain ⟨b', hb', rfl⟩ := Option.map_eq_some_iff.mp h
    exact List.mem_map_of_mem (b.next_mem _ _ hb')

/-- `main` behind the check. The block `locked` is the one that `SplitBlockAndInsertIfThen` ends in
`unreachable`. -/
def insertCheck (f : Function I L B) : Function (CheckInstr I) (Checked L) (GuardLabel B) where
  entry :=
    { code := [.getCaller, .loadSender, .getTxOrigin, .loadOrigin, .icmpNE]
      succs := [.locked, .tail]
      next := fun l => some (if l.cond then .locked else .tail)
      next_mem := by intro l b h; cases h; split <;> simp }
  block
    | .locked => { code := [], succs := [], next := fun _ => none, next_mem := nofun }
    | .tail => checkedBlock f.entry
    | .code b => checkedBlock (f.block b)
  body := .locked :: .tail :: f.body.map .code
  mem_body
    | .locked => by simp
    | .tail => by simp
    | .code b => by simp [f.mem_body b]

/-- What `runOnFunction` leaves: whether it reports a modification, and the function, as it was or
rewritten. -/
structure PassResult (I L B : Type) where
  modified : Bool
  function : Function I L B ⊕ Function (CheckInstr I) (Checked L) (GuardLabel B)

/-- `EstimateRollbackPass::runOnFunction`; `insts` is what `detectBug` reads of the function. -/
def runOnFunction [DecidableEq V] (name : String) (insts : List (List (Inst V)))
    (f : Function I L B) : PassResult I L B :=
  if name != "main" then ⟨false, .inl f⟩
  else if !detectBug insts then ⟨false, .inl f⟩
  else ⟨true, .inr (insertCheck f)⟩

/-! ## §3 — behind the check. -/

section Behind

variable {exec : I → L → Effect L} {f : Function I L B} {H : Outside E} {isStatic : Bool}
  {s : Storage}

/-- The function between two instructions, and the rewritten one at the same place. -/
structure Follows (a : Activation E I L B)
    (a' : Activation E (CheckInstr I) (Checked L) (GuardLabel B)) : Prop where
  env : a'.env = a.env
  storage : a'.storage = a.storage
  point : ∃ b l, b.source = some a.point.block ∧ l.inner = a.point.loc ∧
    a'.point = ⟨some b, a.point.rest.map .original, l⟩

variable (exec f) in
/-- Both have one effect there, and go on to the same place. -/
theorem Follows.effect {a : Activation E I L B}
    {a' : Activation E (CheckInstr I) (Checked L) (GuardLabel B)}
    (h : Follows a a') : ∃ (X : Type) (eff : Effect X) (φ : X → Point I L B)
      (φ' : X → Point (CheckInstr I) (Checked L) (GuardLabel B)), f.next exec a.point = eff.map φ ∧
        (insertCheck f).next (CheckInstr.effect exec) a'.point = eff.map φ' ∧
        ∀ env storage x, Follows (E := E) ⟨env, storage, φ x⟩ ⟨env, storage, φ' x⟩ := by
  obtain ⟨b, l, hb, hinner, hpoint⟩ := h.point
  obtain ⟨env, storage, b₀, rest, loc⟩ := a
  dsimp only at hb hinner hpoint
  rw [hpoint]
  cases rest with
  | nil =>
    refine ⟨B, ((f.at b₀).next loc).elim .trap .internal, fun c => f.point (some c) loc,
      fun c => ⟨some (.code c), (f.block c).code.map .original, l⟩, ?_, ?_, ?_⟩
    · simp only [Function.next]
      cases (f.at b₀).next loc <;> rfl
    · have hgo : ((insertCheck f).at (some b)).next l = ((f.at b₀).next l.inner).map .code := by
        cases b with
        | locked => cases hb
        | tail => cases hb; rfl
        | code b => cases hb; rfl
      rw [List.map_nil, Function.next, hgo, hinner]
      cases (f.at b₀).next loc <;> rfl
    · exact fun _ _ c => ⟨rfl, rfl, .code c, l, rfl, hinner, rfl⟩
  | cons i is =>
    refine ⟨L, exec i loc, fun x => ⟨b₀, is, x⟩,
      fun x => ⟨some b, is.map .original, { l with inner := x }⟩, rfl, ?_,
      fun _ _ x => ⟨rfl, rfl, b, _, hb, rfl, rfl⟩⟩
    rw [List.map_cons, ← hinner]
    exact Effect.map_map _ _ _

/-- They step together, or end together. -/
theorem Follows.alike {a : Activation E I L B}
    {a' : Activation E (CheckInstr I) (Checked L) (GuardLabel B)}
    (h : Follows a a') :
    (∃ a₁ a₁', runStep exec f H isStatic s a = .inl a₁ ∧
      runStep (CheckInstr.effect exec) (insertCheck f) H isStatic s a' = .inl a₁' ∧
      Follows a₁ a₁') ∨
    ∃ r, runStep exec f H isStatic s a = .inr r ∧
      runStep (CheckInstr.effect exec) (insertCheck f) H isStatic s a' = .inr r := by
  obtain ⟨X, eff, φ, φ', hnext, hnext', hfollows⟩ := h.effect exec f
  unfold runStep
  rw [hnext, hnext', h.env, h.storage, respond_map, respond_map]
  cases H.respond isStatic s a.env a.storage eff with
  | inl x => exact .inl ⟨_, _, rfl, rfl, hfollows _ _ _⟩
  | inr r => exact .inr ⟨r, rfl, rfl⟩

/-- **The rewritten function follows the function** behind the check. -/
theorem simulation : Simulation (runStep exec f H isStatic s)
    (runStep (CheckInstr.effect exec) (insertCheck f) H isStatic s) Follows (· = ·) where
  next := by
    intro a a' a₁ h hstep
    rcases h.alike with ⟨b₁, b₁', hinl, hinl', hfollows⟩ | ⟨r, hend, -⟩
    · cases hstep.symm.trans hinl
      exact ⟨0, b₁', runFor_succ_of_inl hinl' 0, hfollows⟩
    · cases hstep.symm.trans hend
  last := by
    intro a a' r h hstep
    rcases h.alike with ⟨a₁, a₁', hinl, -⟩ | ⟨r₁, hend, hend'⟩
    · cases hstep.symm.trans hinl
    · cases hstep.symm.trans hend
      exact ⟨r, .of_step hend', rfl⟩

end Behind

/-! ## §4 — the check, and how the call ends. -/

/-- The two loads tell two addresses apart. -/
theorem load_inj {a b : Address}
    (h : BitVec.ofNat 160 (ofLE a.bytes) = BitVec.ofNat 160 (ofLE b.bytes)) : a = b := by
  have hlt : ∀ x : Address, ofLE x.bytes < 2 ^ 160 := by
    intro x
    have hx := Lib.ofLE_lt x.bytes
    rw [x.length_eq] at hx
    exact hx.trans_eq (by decide)
  have hnat := congrArg BitVec.toNat h
  rw [BitVec.toNat_ofNat, BitVec.toNat_ofNat, Nat.mod_eq_of_lt (hlt a),
    Nat.mod_eq_of_lt (hlt b)] at hnat
  apply FixedBytes.ext
  rw [← Lib.leBytes_ofLE a.bytes, ← Lib.leBytes_ofLE b.bytes, hnat, a.length_eq, b.length_eq]

section Check

variable {exec : I → L → Effect L} {f : Function I L B} {H : Outside E} {isStatic : Bool}
  {s : Storage} {e e₁ e₂ : E} {l : Checked L} {caller origin : Address} {c c' : Nat}

variable (exec f isStatic s l) in
/-- The check runs, and branches. -/
theorem check_runs (hcaller : H.answer e .getCaller [] = some (e₁, ⟨c, caller.bytes⟩))
    (horigin : H.answer e₁ .getTxOrigin [] = some (e₂, ⟨c', origin.bytes⟩)) :
    ∃ l' : Checked L, l'.inner = l.inner ∧
      runFor (runStep (CheckInstr.effect exec) (insertCheck f) H isStatic s) 6 ⟨e, s,
        (insertCheck f).point none l⟩ = .inl ⟨e₂, s,
        (insertCheck f).point (some (if caller = origin then .tail else .locked)) l'⟩ := by
  let l₁ : Checked L := { l with valPtr := caller.bytes }
  let l₂ : Checked L := { l₁ with m_sender := loadValPtr l₁, valPtr := origin.bytes }
  let l₃ : Checked L := { l₂ with m_origin := loadValPtr l₂ }
  let l₄ : Checked L := { l₃ with cond := l₃.m_sender != l₃.m_origin }
  have hfirst : runFor (runStep (CheckInstr.effect exec) (insertCheck f) H isStatic s) 2
      ⟨e, s, (insertCheck f).point none l⟩ =
        .inl ⟨e₁, s, none, [.getTxOrigin, .loadOrigin, .icmpNE],
          { l₁ with m_sender := loadValPtr l₁ }⟩ := by
    simp [runFor, runStep, insertCheck, Function.point, Function.at, Function.next,
      CheckInstr.effect, Outside.respond, Effect.map, hcaller, l₁]
  have hsecond : runFor (runStep (CheckInstr.effect exec) (insertCheck f) H isStatic s) 3
      ⟨e₁, s, none, [.getTxOrigin, .loadOrigin, .icmpNE], { l₁ with m_sender := loadValPtr l₁ }⟩ =
        .inl ⟨e₂, s, none, [], l₄⟩ := by
    simp [runFor, runStep, Function.next, CheckInstr.effect, Outside.respond, Effect.map, horigin,
      l₁, l₂, l₃, l₄]
  have hbranch : (if l₄.cond then GuardLabel.locked else .tail) =
      (if caller = origin then .tail else .locked : GuardLabel B) := by
    have hcond : l₄.cond = true ↔ caller ≠ origin :=
      bne_iff_ne.trans
        (not_congr ⟨load_inj, congrArg fun a : Address => BitVec.ofNat 160 (ofLE a.bytes)⟩)
    by_cases h : caller = origin
    · rw [if_pos h, if_neg (fun hc => hcond.mp hc h)]
    · rw [if_neg h, if_pos (hcond.mpr h)]
  refine ⟨l₄, rfl, ?_⟩
  rw [show 6 = 2 + (3 + 1) from rfl, runFor_add_of_inl hfirst, runFor_add_of_inl hsecond, ← hbranch]
  rfl

/-- **How a call of the rewritten function ends**: as a call of the function does behind the two
queries, if the caller is the origin, and with a trap otherwise. -/
theorem ends_insertCheck (exec : I → L → Effect L) (f : Function I L B) (H : Outside E)
    (isStatic : Bool) (e : E) (s : Storage) (l : Checked L)
    (hcaller : H.answer e .getCaller [] = some (e₁, ⟨c, caller.bytes⟩))
    (horigin : H.answer e₁ .getTxOrigin [] = some (e₂, ⟨c', origin.bytes⟩)) (r : Result) :
    Ends (runStep (CheckInstr.effect exec) (insertCheck f) H isStatic s) ⟨e, s,
      (insertCheck f).point none l⟩ r ↔
      if caller = origin then Ends (runStep exec f H isStatic s) ⟨e₂, s, f.point none l.inner⟩ r
      else r = (.trap, s) := by
  obtain ⟨l', hinner, hrun⟩ := check_runs exec f isStatic s l hcaller horigin
  rw [ends_iff_of_runFor hrun]
  by_cases h : caller = origin
  · rw [if_pos h, if_pos h]
    have hfollows : Follows (⟨e₂, s, f.point none l.inner⟩ : Activation E I L B)
        ⟨e₂, s, (insertCheck f).point (some .tail) l'⟩ := ⟨rfl, rfl, .tail, l', rfl, hinner, rfl⟩
    have halike : EndsAlike (· = ·) (Ends (runStep exec f H isStatic s) _)
        (Ends (runStep (CheckInstr.effect exec) (insertCheck f) H isStatic s) _) :=
      simulation.endsAlike hfollows
    exact (halike.same r).symm
  · rw [if_neg h, if_neg h]
    have htrap : Ends (runStep (CheckInstr.effect exec) (insertCheck f) H isStatic s)
        ⟨e₂, s, (insertCheck f).point (some .locked) l'⟩ (.trap, s) := .of_step rfl
    exact ⟨fun hr => hr.unique htrap, fun hr => hr ▸ htrap⟩

/-- **Behind a mutex**, which `prepare` inserts first, the check comes before the lock: a call that
is turned away leaves the mutex alone. -/
theorem ends_behind_mutex (f : Function (Instr L) L B) (H : Outside E) (isStatic : Bool) (e : E)
    (s : Storage) (l : Checked (Guarded L))
    (hcaller : H.answer e .getCaller [] = some (e₁, ⟨c, caller.bytes⟩))
    (horigin : H.answer e₁ .getTxOrigin [] = some (e₂, ⟨c', origin.bytes⟩)) (r : Result) :
    Ends (runStep (CheckInstr.effect GuardInstr.effect) (insertCheck (insertMutex f)) H isStatic s)
        ⟨e, s, (insertCheck (insertMutex f)).point none l⟩ r ↔
      if caller = origin then
        Ends (runStep GuardInstr.effect (insertMutex f) H isStatic s) ⟨e₂, s,
          (insertMutex f).point none l.inner⟩ r
      else r = (.trap, s) :=
  ends_insertCheck _ _ _ _ _ _ _ hcaller horigin r

/-- **`main` for the origin only.** The pass takes every `main` for unprotected. In whatever
environment the function that it leaves is called, provided that the host answers both queries: if
the caller is the origin of the transaction, the call ends as a call of `main` does in the
environment that the queries leave (a host that meters has taken their gas), or not at all if that
does not end; and from anyone else it traps and changes nothing. -/
theorem main_for_origin_only [DecidableEq V] (exec : I → L → Effect L) (f : Function I L B)
    (insts : List (List (Inst V))) (H : Outside E) (isStatic : Bool) (e : E) (s : Storage)
    (l : Checked L) (hcaller : H.answer e .getCaller [] = some (e₁, ⟨c, caller.bytes⟩))
    (horigin : H.answer e₁ .getTxOrigin [] = some (e₂, ⟨c', origin.bytes⟩)) :
    ∃ g, runOnFunction "main" insts f = ⟨true, .inr g⟩ ∧ ∀ r,
      Ends (runStep (CheckInstr.effect exec) g H isStatic s) ⟨e, s, g.point none l⟩ r ↔
        if caller = origin then Ends (runStep exec f H isStatic s) ⟨e₂, s, f.point none l.inner⟩ r
        else r = (.trap, s) := by
  refine ⟨insertCheck f, ?_, ends_insertCheck exec f H isStatic e s l hcaller horigin⟩
  unfold runOnFunction
  rw [if_neg (by decide), detectBug_eq]
  rfl

end Check

/-- A contract in between: the caller is not the origin. A query costs 2. -/
def forwarded : Outside Int :=
  { meteredEnv.toOutside with
    answer := fun gas fn _ =>
      if 2 ≤ gas then some (gas - 2,
          ⟨0, (if fn = .getTxOrigin then Address.of 2 else Address.of 1).bytes⟩) else none }

/-- Not even `balances` can be read from another contract. The `main` here compares the origin with
something. -/
theorem main_for_origin_only_forwarded :
    ∃ g, runOnFunction "main" [[⟨0, false, [(7, ""), (8, "ethereum.getTxOrigin")]⟩,
      ⟨1, true, [(0, ""), (7, "")]⟩]]
        etherStore = ⟨true, .inr g⟩ ∧
      ∀ r, Ends (runStep (CheckInstr.effect Instr.effect) g forwarded false emptyStorage)
        ⟨30000, emptyStorage, g.point none ⟨true, [], 0, 0, false⟩⟩ r ↔
        r = (.trap, emptyStorage) := by
  obtain ⟨g, hg, hends⟩ := main_for_origin_only Instr.effect etherStore
    [[⟨0, false, [(7, ""), (8, "ethereum.getTxOrigin")]⟩, ⟨1, true, [(0, ""), (7, "")]⟩]] forwarded
    false 30000 emptyStorage ⟨true, [], 0, 0, false⟩
    (rfl : forwarded.answer 30000 .getCaller [] = some (29998, ⟨0, (Address.of 1).bytes⟩))
    (rfl : forwarded.answer 29998 .getTxOrigin [] = some (29996, ⟨0, (Address.of 2).bytes⟩))
  refine ⟨g, hg, fun r => (hends r).trans ?_⟩
  rw [if_neg (by decide)]

end EvmTrans.Llvm.EstimateRollbackPass
