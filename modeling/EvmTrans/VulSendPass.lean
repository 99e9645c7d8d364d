/-
# `EvmTrans.VulSendPass` — `EstimateVulSendPass`: a send whose failure is not ignored.

The pass looks for the calls of `ethereum.call` that were compiled from the bytecode at `vulPC`, and
puts behind each

    new_ret_check = retReg != 0; if new_ret_check: unreachable

`sends_protected` is about whole runs: nothing changes in a run in which every such call succeeds,
and the first one that fails is the end of any other, with the storage that the activation was
entered with.
-/
import EvmTrans.AnyEnvironment

namespace EvmTrans.Llvm.EstimateVulSendPass

open Lib (Ends Simulation runFor runFor_add_of_inl runFor_succ_of_inl ends_iff_of_runFor)

variable {L B E : Type}

/-! ## §1 — the pass. -/

/-- An instruction, and the `pc` of its metadata. -/
structure Tagged (L : Type) where
  inst : Instr L
  bytecodePC : Option Int

/-- What the host sees of it. -/
def Tagged.effect (i : Tagged L) (l : L) : Effect L := i.inst.effect l

/-- `pc == vulPC`, and the instruction is a call of `ethereum.call`. -/
def isVulSend (vulPC : Int) (i : Tagged L) : Bool :=
  i.bytecodePC == some vulPC && isExtCall i.inst.operandNames

/-- The local state of the rewritten function: what `main` had, what the last external call has
returned, and the register `new_ret_check`. -/
structure Protected (L : Type) where
  inner : L
  retReg : Nat
  new_ret_check : Bool

/-- The instructions of the rewritten function: those of `main`, the comparison, and the branch in
which `SplitBlockAndInsertIfThen` ends the block; on the one side there is `unreachable`, on the
other the code goes on. -/
inductive SendInstr (L : Type) where
  | original (i : Tagged L)
  | icmpNE
  | condBr

/-- An effect of `main` in the rewritten function. -/
def record (l : Protected L) (eff : Effect L) : Effect (Protected L) :=
  match eff with
  | .call fn args k => .call fn args fun r => { l with inner := k r, retReg := r.code }
  | eff => eff.map fun inner => { l with inner := inner }

/-- What the host sees of an instruction. -/
def SendInstr.effect (i : SendInstr L) (l : Protected L) : Effect (Protected L) :=
  match i with
  | .original i => record l (i.effect l.inner)
  | .icmpNE => .internal { l with new_ret_check := l.retReg != 0 }
  | .condBr => if l.new_ret_check then .trap else .internal l

/-- The code of a block, with a check behind every call of `vulSendRetList`. -/
def checkSends (vulPC : Int) : List (Tagged L) → List (SendInstr L)
  | [] => []
  | i :: is =>
    if isVulSend vulPC i then .original i :: .icmpNE :: .condBr :: checkSends vulPC is
    else .original i :: checkSends vulPC is

/-- A block of `main` in the rewritten function. -/
def checkedBlock (vulPC : Int) (b : Block (Tagged L) L B) :
    Block (SendInstr L) (Protected L) B where
  code := checkSends vulPC b.code
  succs := b.succs
  next l := b.next l.inner
  next_mem l := b.next_mem l.inner

/-- `main` with the checks. -/
def protectSends (vulPC : Int) (f : Function (Tagged L) L B) :
    Function (SendInstr L) (Protected L) B where
  entry := checkedBlock vulPC f.entry
  block b := checkedBlock vulPC (f.block b)
  body := f.body
  mem_body := f.mem_body

/-- What `runOnFunction` leaves: whether it reports a modification, and the function, as it was or
rewritten. -/
structure PassResult (L B : Type) where
  modified : Bool
  function : Function (Tagged L) L B ⊕ Function (SendInstr L) (Protected L) B

/-- `EstimateVulSendPass::runOnFunction`. In a `main` without such a call there is nothing to
insert. -/
def runOnFunction (name : String) (vulPC : Int) (f : Function (Tagged L) L B) : PassResult L B :=
  if name != "main" then ⟨false, .inl f⟩
  else ⟨(none :: f.body.map some).any fun b => (f.at b).code.any (isVulSend vulPC),
    .inr (protectSends vulPC f)⟩

/-- Only `ethereum.call` has this name and this many operands. -/
theorem isExtCall_iff (i : Instr L) : isExtCall i.operandNames = true ↔
    ∃ args ret, i = .call .call args ret := by
  cases i with
  | internal operands exec => simp [isExtCall, Instr.operandNames, List.getElem?_replicate]
  | query fn args ret =>
    cases fn <;> simp [isExtCall, Instr.operandNames, callOperands, HostQuery.params,
      HostQuery.name]
  | call fn args ret =>
    cases fn <;> simp [isExtCall, Instr.operandNames, callOperands, ExtCall.params, ExtCall.name]
  | _ => simp [isExtCall, Instr.operandNames, callOperands, List.replicate]

/-- It calls, or it traps. -/
theorem effect_of_isVulSend {vulPC : Int} {i : Tagged L} (h : isVulSend vulPC i = true) (l : L) :
    (∃ args k, i.effect l = .call .call args k) ∨ i.effect l = .trap := by
  obtain ⟨args, ret, hi⟩ := (isExtCall_iff i.inst).mp (Bool.and_eq_true_iff.mp h).2
  unfold Tagged.effect
  rw [hi]
  unfold Instr.effect
  dsimp only
  cases args l with
  | some bytes => exact .inl ⟨bytes, ret l, rfl⟩
  | none => exact .inr rfl

/-! ## §2 — one instruction. -/

section Step

variable {f : Function (Tagged L) L B} {vulPC : Int} {H : Outside E} {isStatic : Bool} {s : Storage}
  {a a₁ : Activation E (Tagged L) L B} {a' : Activation E (SendInstr L) (Protected L) B}

/-- The answer to an effect of `main` in the rewritten function. -/
theorem respond_record (l : Protected L) (env : E) (now : Storage) (eff : Effect L) :
    (∃ env' now' x, ∃ l' : Protected L, H.respond isStatic s env now eff = .inl (env', now', x) ∧
      H.respond isStatic s env now (record l eff) = .inl (env', now', l') ∧ l'.inner = x) ∨
    ∃ r, H.respond isStatic s env now eff = .inr r ∧
      H.respond isStatic s env now (record l eff) = .inr r := by
  by_cases hcall : ∃ fn args k, eff = .call fn args k
  · obtain ⟨fn, args, k, rfl⟩ := hcall
    unfold Outside.respond record
    dsimp only
    cases H.call env fn args now with
    | some answer => exact .inl ⟨_, _, _, _, rfl, rfl, rfl⟩
    | none => exact .inr ⟨_, rfl, rfl⟩
  · have hmap : record l eff = eff.map fun inner => { l with inner := inner } := by
      cases eff with
      | call fn args k => exact absurd ⟨fn, args, k, rfl⟩ hcall
      | _ => rfl
    rw [hmap, respond_map]
    cases H.respond isStatic s env now eff with
    | inl x => exact .inl ⟨_, _, _, _, rfl, rfl, rfl⟩
    | inr r => exact .inr ⟨r, rfl, rfl⟩

/-- `main` between two instructions, and the rewritten function at the same place. -/
structure Follows (vulPC : Int) (a : Activation E (Tagged L) L B)
    (a' : Activation E (SendInstr L) (Protected L) B) : Prop where
  env : a'.env = a.env
  storage : a'.storage = a.storage
  point : ∃ l : Protected L, a'.point = ⟨a.point.block, checkSends vulPC a.point.rest, l⟩ ∧
    l.inner = a.point.loc

theorem Follows.eq (h : Follows vulPC a a') : ∃ l : Protected L, l.inner = a.point.loc ∧
    a' = ⟨a.env, a.storage, a.point.block, checkSends vulPC a.point.rest, l⟩ := by
  obtain ⟨env', now', point'⟩ := a'
  obtain ⟨henv, hstorage, l, hpoint, hinner⟩ := h
  dsimp only at henv hstorage hpoint
  subst henv hstorage hpoint
  exact ⟨l, hinner, rfl⟩

/-- **A call that the pass has found fails**: it is next, and the host answers, but not with 0. -/
def SendFails (vulPC : Int) (H : Outside E) (a : Activation E (Tagged L) L B) : Prop :=
  ∃ i is args k answer, a.point.rest = i :: is ∧ isVulSend vulPC i = true ∧
    i.effect a.point.loc = .call .call args k ∧ H.call a.env .call args a.storage = some answer ∧
    answer.2.1.code ≠ 0

/-- The three instructions at a call that the host answers. -/
theorem runFor_send {i : Tagged L} (hi : isVulSend vulPC i = true) {is : List (Tagged L)}
    {b : Option B} {env : E} {now : Storage} {l : Protected L} {args : List Byte} {k : Reply → L}
    {answer : E × Reply × Storage} (heff : i.effect l.inner = .call .call args k)
    (hanswer : H.call env .call args now = some answer) :
    runFor (runStep SendInstr.effect (protectSends vulPC f) H isStatic s) 2
        ⟨env, now, b, checkSends vulPC (i :: is), l⟩ =
      .inl ⟨answer.1, answer.2.2, b, .condBr :: checkSends vulPC is,
        ⟨k answer.2.1, answer.2.1.code, answer.2.1.code != 0⟩⟩ := by
  have hcode :
      checkSends vulPC (i :: is) = .original i :: .icmpNE :: .condBr :: checkSends vulPC is := by
    rw [checkSends, if_pos hi]
  have hcall : runStep SendInstr.effect (protectSends vulPC f) H isStatic s
      ⟨env, now, b, .original i :: .icmpNE :: .condBr :: checkSends vulPC is, l⟩ =
        .inl ⟨answer.1, answer.2.2, b, .icmpNE :: .condBr :: checkSends vulPC is,
          { l with inner := k answer.2.1, retReg := answer.2.1.code }⟩ := by
    rw [runStep_cons, SendInstr.effect, heff]
    simp only [record, Outside.respond, hanswer]
  rw [hcode, runFor_succ_of_inl hcall]
  rfl

/-- Everywhere else the rewritten function goes on, or ends, as the original one does. -/
theorem Follows.step (h : Follows vulPC a a') (hok : ¬ SendFails vulPC H a) :
    (∃ a₁ n a₁', runStep Tagged.effect f H isStatic s a = .inl a₁ ∧
      runFor (runStep SendInstr.effect (protectSends vulPC f) H isStatic s) (n + 1) a' = .inl a₁' ∧
      Follows vulPC a₁ a₁') ∨
    ∃ r, runStep Tagged.effect f H isStatic s a = .inr r ∧
      runStep SendInstr.effect (protectSends vulPC f) H isStatic s a' = .inr r := by
  obtain ⟨l, hinner, rfl⟩ := h.eq
  obtain ⟨env, now, b, rest, loc⟩ := a
  dsimp only at hinner ⊢
  subst hinner
  cases rest with
  | nil =>
    have hnext : ((protectSends vulPC f).at b).next l = (f.at b).next l.inner := by
      cases b <;> rfl
    rw [checkSends, runStep_nil, runStep_nil, hnext]
    cases hc : (f.at b).next l.inner with
    | some c =>
      refine .inl ⟨_, 0, ⟨env, now, (protectSends vulPC f).point (some c) l⟩, rfl, ?_, rfl, rfl,
        l, rfl, rfl⟩
      refine runFor_succ_of_inl ?_ 0
      rw [runStep_nil, hnext, hc]
    | none => exact .inr ⟨_, rfl, rfl⟩
  | cons i is =>
    rw [runStep_cons]
    by_cases hi : isVulSend vulPC i = true
    · rcases effect_of_isVulSend hi l.inner with ⟨args, k, heff⟩ | heff
      · cases hanswer : H.call env .call args now with
        | some answer =>
          have hzero : answer.2.1.code = 0 := by
            by_contra hne
            exact hok ⟨i, is, args, k, answer, rfl, hi, heff, hanswer, hne⟩
          refine .inl ⟨⟨answer.1, answer.2.2, b, is, k answer.2.1⟩, 2,
            ⟨answer.1, answer.2.2, b, checkSends vulPC is, ⟨k answer.2.1, 0, false⟩⟩, ?_, ?_, rfl,
            rfl, _, rfl, rfl⟩
          · simp only [heff, Outside.respond, hanswer]
          · rw [runFor_add_of_inl (runFor_send hi heff hanswer) 1, hzero]
            exact runFor_succ_of_inl (by rw [runStep_cons]; rfl) 0
        | none =>
          rw [heff, checkSends, if_pos hi, runStep_cons, SendInstr.effect, heff]
          refine .inr ⟨(.trap, s), ?_, ?_⟩
          · simp only [Outside.respond, hanswer]
            rfl
          · simp only [record, Outside.respond, hanswer]
            rfl
      · rw [heff, checkSends, if_pos hi, runStep_cons, SendInstr.effect, heff]
        exact .inr ⟨_, rfl, rfl⟩
    · rw [checkSends, if_neg hi]
      rcases respond_record l env now (i.effect l.inner) with
        ⟨env₁, now₁, x, l₁, hinl, hinl', rfl⟩ | ⟨r, hinr, hinr'⟩
      · refine .inl ⟨_, 0, ⟨env₁, now₁, b, checkSends vulPC is, l₁⟩,
          by rw [hinl], ?_, rfl, rfl, l₁, rfl, rfl⟩
        refine runFor_succ_of_inl ?_ 0
        rw [runStep_cons, SendInstr.effect, hinl']
      · refine .inr ⟨r, by rw [hinr], ?_⟩
        rw [runStep_cons, SendInstr.effect, hinr']

/-- The rewritten function ends at a call that fails. -/
theorem Follows.fails (h : Follows vulPC a a') (hfails : SendFails vulPC H a) :
    Ends (runStep SendInstr.effect (protectSends vulPC f) H isStatic s) a' (.trap, s) := by
  obtain ⟨l, hinner, rfl⟩ := h.eq
  obtain ⟨env, now, b, rest, loc⟩ := a
  dsimp only at hinner ⊢
  subst hinner
  obtain ⟨i, is, args, k, answer, hrest, hi, heff, hanswer, hcode⟩ := hfails
  dsimp only at hrest heff hanswer
  subst hrest
  have hcheck : (answer.2.1.code != 0) = true := bne_iff_ne.mpr hcode
  refine (ends_iff_of_runFor (runFor_send hi heff hanswer) _).mpr (.of_step ?_)
  rw [runStep_cons, SendInstr.effect, hcheck]
  rfl

end Step

/-! ## §3 — whole runs. -/

section Runs

variable {f : Function (Tagged L) L B} {vulPC : Int} {H : Outside E} {isStatic : Bool} {s : Storage}

/-- Also where the call comes later in the run. -/
theorem Follows.fails_later {a₁ : Activation E (Tagged L) L B} (hfails : SendFails vulPC H a₁)
    (n : Nat) :
    ∀ {a : Activation E (Tagged L) L B} {a' : Activation E (SendInstr L) (Protected L) B},
      Follows vulPC a a' → runFor (runStep Tagged.effect f H isStatic s) n a = .inl a₁ →
      Ends (runStep SendInstr.effect (protectSends vulPC f) H isStatic s) a' (.trap, s) := by
  induction n with
  | zero =>
    intro a a' h hrun
    cases hrun
    exact h.fails hfails
  | succ n ih =>
    intro a a' h hrun
    by_cases hnow : SendFails vulPC H a
    · exact h.fails hnow
    rcases h.step hnow with ⟨a₂, m, a₂', hstep, hm, h₂⟩ | ⟨r, hend, -⟩
    · rw [runFor_succ_of_inl hstep] at hrun
      exact (ends_iff_of_runFor hm _).mpr (ih h₂ hrun)
    · rw [Lib.runFor_succ_of_inr hend] at hrun
      cases hrun

/-- No call that the pass has found fails from `a` on. -/
def SendsSucceed (f : Function (Tagged L) L B) (vulPC : Int) (H : Outside E) (isStatic : Bool)
    (s : Storage) (a : Activation E (Tagged L) L B) : Prop :=
  ∀ n a₁, runFor (runStep Tagged.effect f H isStatic s) n a = .inl a₁ → ¬ SendFails vulPC H a₁

/-- **Where none fails**, the rewritten function follows the original one. -/
theorem simulation : Simulation (runStep Tagged.effect f H isStatic s)
    (runStep SendInstr.effect (protectSends vulPC f) H isStatic s)
    (fun a a' => Follows vulPC a a' ∧ SendsSucceed f vulPC H isStatic s a) (· = ·) where
  next := by
    intro a a' a₁ ⟨h, hok⟩ hstep
    rcases h.step (hok 0 a rfl) with ⟨a₂, n, a₂', hinl, hrun, h₂⟩ | ⟨r, hend, -⟩
    · cases hstep.symm.trans hinl
      exact ⟨n, a₂', hrun, h₂, fun m a₃ hm => hok (m + 1) a₃ ((runFor_succ_of_inl hinl m).trans hm)⟩
    · cases hstep.symm.trans hend
  last := by
    intro a a' r ⟨h, hok⟩ hstep
    rcases h.step (hok 0 a rfl) with ⟨a₂, n, a₂', hinl, -⟩ | ⟨r', hend, hend'⟩
    · cases hstep.symm.trans hinl
    · cases hstep.symm.trans hend
      exact ⟨r, .of_step hend', rfl⟩

/-- How a call of what the pass leaves ends. -/
def PassedEnds (res : PassResult L B) (H : Outside E) (isStatic : Bool) (e : E) (s : Storage)
    (l : Protected L) : Result → Prop :=
  match res.function with
  | .inl f => Ends (runStep Tagged.effect f H isStatic s) ⟨e, s, f.point none l.inner⟩
  | .inr g => Ends (runStep SendInstr.effect g H isStatic s) ⟨e, s, g.point none l⟩

/-- **A failed send is not ignored.** In whatever environment the function that the pass leaves is
called: if no call compiled from `vulPC` fails in the run of `main`, it ends as `main` does, and not
at all if `main` does not; and if one fails, it traps and changes nothing, whatever `main` makes of
the failure. -/
theorem sends_protected (f : Function (Tagged L) L B) (vulPC : Int) (H : Outside E)
    (isStatic : Bool) (e : E) (s : Storage) (l : Protected L) (r : Result) :
    PassedEnds (runOnFunction "main" vulPC f) H isStatic e s l r ↔
      SendsSucceed f vulPC H isStatic s ⟨e, s, f.point none l.inner⟩ ∧
          Ends (runStep Tagged.effect f H isStatic s) ⟨e, s, f.point none l.inner⟩ r ∨
        ¬ SendsSucceed f vulPC H isStatic s ⟨e, s, f.point none l.inner⟩ ∧ r = (.trap, s) := by
  have hstart : Follows vulPC (⟨e, s, f.point none l.inner⟩ : Activation E (Tagged L) L B)
      ⟨e, s, (protectSends vulPC f).point none l⟩ := ⟨rfl, rfl, l, rfl, rfl⟩
  show Ends (runStep SendInstr.effect (protectSends vulPC f) H isStatic s)
    ⟨e, s, (protectSends vulPC f).point none l⟩ r ↔ _
  by_cases hok : SendsSucceed f vulPC H isStatic s ⟨e, s, f.point none l.inner⟩
  · have halike := simulation.endsAlike ⟨hstart, hok⟩
    constructor
    · exact fun hr => .inl ⟨hok, (halike.same r).mpr hr⟩
    · rintro (⟨-, hr⟩ | ⟨hno, -⟩)
      · exact (halike.same r).mp hr
      · exact absurd hok hno
  · have hfails : ∃ n a,
        runFor (runStep Tagged.effect f H isStatic s) n ⟨e, s, f.point none l.inner⟩ = .inl a ∧
        SendFails vulPC H a := by
      unfold SendsSucceed at hok
      push Not at hok
      exact hok
    obtain ⟨n, a, hrun, ha⟩ := hfails
    have htrap := hstart.fails_later ha n hrun
    constructor
    · exact fun hr => .inr ⟨hok, hr.unique htrap⟩
    · rintro (⟨hyes, -⟩ | ⟨-, rfl⟩)
      · exact absurd hyes hok
      · exact htrap

end Runs

end EvmTrans.Llvm.EstimateVulSendPass
