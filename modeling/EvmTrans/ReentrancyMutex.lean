/-
# `EvmTrans.ReentrancyMutex` — nested activations of a guarded `main`, and the mutex cell between
them.

The host keeps a stack of frames. A frame is an activation of OUR contract, at a point of the
rewritten `main`, or it is foreign: another contract, a library run on our storage, or the
transaction itself. Every frame remembers the storage it was entered with, because a revert or a
trap puts that storage back. Between two steps of an activation anything may happen that its
external call allows: foreign frames nest, fail and return, and call the contract again.

What ties cell, snapshots and program points together is `Invariant`. An activation past the guard
found the cell free; while one is suspended in a call, the cell is taken, in the storage of now and
in the storage that every frame above it would put back.
-/
import EvmTrans.ReentrancyPass
import EvmTrans.Lib.Transition

namespace EvmTrans.Llvm

open Lib (Reachable Inevitably)

variable {L B : Type}

/-! ## §1 — the host. -/

/-- A frame of the call stack, with the storage of the contract when it was entered. -/
inductive Frame (L B : Type) where
  | own (onEntry : Storage) (isStatic : Bool) (p : GuardPoint L B)
  | foreign (onEntry : Storage)

/-- The storage of the contract and the frames, the running one first. -/
structure World (L B : Type) where
  storage : Storage
  frames : List (Frame L B)

/-- What a step is: an activation is entered, foreign code acts, an activation executes an
instruction, an activation ends. -/
inductive Event where
  | enter
  | outside
  | exec
  | ended (e : Ending)

/-- Who may make a call: the next transaction, foreign code, and an activation at an external
call. -/
def MayCall (g : GuardedMain L B) : List (Frame L B) → Prop
  | [] => True
  | .foreign _ :: _ => True
  | .own _ _ p :: _ => ∃ fn args k, g.next p = .call fn args k

/-- The frames below one that has ended; a suspended activation goes on behind its call. -/
def resume (g : GuardedMain L B) (reply : Reply) : List (Frame L B) → List (Frame L B)
  | [] => []
  | .foreign t :: fs => .foreign t :: fs
  | .own t isStatic p :: fs =>
    match g.next p with
    | .call _ _ k => .own t isStatic (k reply) :: fs
    | _ => .own t isStatic p :: fs

/-- The next instruction is one of the inserted stores. -/
def StoresMutex (p : GuardPoint L B) : Prop := ∃ rest, p.rest = .storeMutex :: rest

/-- An activation executes one instruction. A store is refused in static mode, and the code of
`main` does not store to the slot of the mutex. -/
inductive Executes (g : GuardedMain L B) (isStatic : Bool) (s : Storage) (p : GuardPoint L B) :
    Storage → GuardPoint L B → Prop
  | internal {p' : GuardPoint L B} (h : g.next p = .internal p') : Executes g isStatic s p s p'
  | storageLoad {path : Bytes32} {k : Bytes32 → Option (GuardPoint L B)} {p' : GuardPoint L B}
      (h : g.next p = .storageLoad path k) (hk : k (s path) = some p') :
      Executes g isStatic s p s p'
  | query {fn : HostQuery} {args : List Byte} {k : Reply →
      Option (GuardPoint L B)} {p' : GuardPoint L B}
      (h : g.next p = .query fn args k) (reply : Reply) (hk : k reply = some p') :
      Executes g isStatic s p s p'
  | storageStore {path value : Bytes32} {p' : GuardPoint L B} (h : g.next p =
      .storageStore path value p')
      (hstatic : isStatic = false) (hpath : StoresMutex p ∨ path ≠ mutexSlot) :
      Executes g isStatic s p (Function.update s path value) p'

/-- An activation ends. A trap may come at every instruction: `unreachable`, a refused request, an
access outside linear memory, no gas left. -/
inductive Stops (g : GuardedMain L B) (isStatic : Bool) (p : GuardPoint L B) : Ending → Prop
  | finish {out : List Byte} (h : g.next p = .finish out) : Stops g isStatic p (.finish out)
  | revert {out : List Byte} (h : g.next p = .revert out) : Stops g isStatic p (.revert out)
  | selfDestruct {dest : Address} (h : g.next p = .selfDestruct dest) (hstatic : isStatic = false) :
      Stops g isStatic p (.selfDestruct dest)
  | trap : Stops g isStatic p .trap

/-- **The steps of the host.** -/
inductive Step (g : GuardedMain L B) : World L B → Event → World L B → Prop
  | enter {s : Storage} {fs : List (Frame L B)} (h : MayCall g fs) (isStatic : Bool)
      (l : Guarded L) :
      Step g ⟨s, fs⟩ .enter ⟨s, .own s isStatic (g.point none l) :: fs⟩
  | foreignEnter {s : Storage} {fs : List (Frame L B)} (h : MayCall g fs) :
      Step g ⟨s, fs⟩ .outside ⟨s, .foreign s :: fs⟩
  | foreignStore {s t : Storage} {fs : List (Frame L B)} {path : Bytes32} (h : path ≠ mutexSlot)
      (value : Bytes32) :
      Step g ⟨s, .foreign t :: fs⟩ .outside ⟨Function.update s path value, .foreign t :: fs⟩
  | foreignReturn {s t : Storage} {fs : List (Frame L B)} (reply : Reply) :
      Step g ⟨s, .foreign t :: fs⟩ .outside ⟨s, resume g reply fs⟩
  | foreignFail {s t : Storage} {fs : List (Frame L B)} (reply : Reply) :
      Step g ⟨s, .foreign t :: fs⟩ .outside ⟨t, resume g reply fs⟩
  | exec {s t s' : Storage} {isStatic : Bool} {p p' : GuardPoint L B} {fs : List (Frame L B)}
      (h : Executes g isStatic s p s' p') :
      Step g ⟨s, .own t isStatic p :: fs⟩ .exec ⟨s', .own t isStatic p' :: fs⟩
  | ended {s t : Storage} {isStatic : Bool} {p : GuardPoint L B} {fs : List (Frame L B)}
      {e : Ending} (h : Stops g isStatic p e) (reply : Reply) :
      Step g ⟨s, .own t isStatic p :: fs⟩ (.ended e) ⟨e.storage t s, resume g reply fs⟩

/-- Past the guard: out of the two blocks that hold nothing of the original `main`. -/
def Point.past (p : GuardPoint L B) : Prop := p.block ≠ none ∧ p.block ≠ some .locked

/-- An activation past the guard. -/
def Frame.past : Frame L B → Prop
  | .own _ _ p => Point.past p
  | .foreign _ => False

/-- The running activation was entered from inside an external call of another one. -/
def ReEntered (w : World L B) : Prop :=
  ∃ t isStatic p fs, w.frames = .own t isStatic p :: fs ∧ ∃ t' isStatic' p',
    Frame.own t' isStatic' p' ∈ fs

/-- The running activation is one that has not passed the guard. -/
def AtGuard (w : World L B) : Prop :=
  ∃ t isStatic p fs, w.frames = .own t isStatic p :: fs ∧ ¬ Point.past p

/-! ## §2 — the stages of an activation. -/

/-- **Where an activation of the rewritten `main` can be**, with the cell of the mutex `now` and
`onEntry`. -/
inductive Stage (now onEntry : Bytes32) : GuardPoint L B → Prop
  | entered {l : Guarded L} (hcell : now = onEntry) :
      Stage now onEntry ⟨none, [.storeSlot, .loadMutex, .icmpNE], l⟩
  | addressed {l : Guarded L} (hcell : now = onEntry) (hslot : l.slot = mutexAddress) :
      Stage now onEntry ⟨none, [.loadMutex, .icmpNE], l⟩
  | loaded {l : Guarded L} (hcell : now = onEntry) (hslot : l.slot = mutexAddress)
      (hvalue : l.value = memWord now) : Stage now onEntry ⟨none, [.icmpNE], l⟩
  | compared {l : Guarded L} (hcell : now = onEntry) (hslot : l.slot = mutexAddress)
      (hcheck : l.check = (memWord now != 0)) : Stage now onEntry ⟨none, [], l⟩
  | refused {l : Guarded L} : Stage now onEntry ⟨some .locked, [], l⟩
  | passed {l : Guarded L} {is : List (Instr L)} (hfree : onEntry = Bytes32.of 0)
      (hslot : l.slot = mutexAddress) :
      Stage now onEntry ⟨some .tail, .storeValue 1 :: .storeMutex :: unlockBeforeTerminators is, l⟩
  | locking {l : Guarded L} {is : List (Instr L)} (hfree : onEntry = Bytes32.of 0)
      (hslot : l.slot = mutexAddress) (hvalue : l.value = 1) :
      Stage now onEntry ⟨some .tail, .storeMutex :: unlockBeforeTerminators is, l⟩
  | holding {b : GuardLabel B} {l : Guarded L} {is : List (Instr L)} (hb : b ≠ .locked)
      (hfree : onEntry = Bytes32.of 0) (hslot : l.slot = mutexAddress)
      (htaken : now ≠ Bytes32.of 0) :
      Stage now onEntry ⟨some b, unlockBeforeTerminators is, l⟩
  | releasing {b : GuardLabel B} {l : Guarded L} {i : Instr L} {is : List (Instr L)}
      (hb : b ≠ .locked) (hfree : onEntry = Bytes32.of 0) (hslot : l.slot = mutexAddress)
      (hvalue : l.value = 0) (hi : isTerminator i.operandNames = true) :
      Stage now onEntry ⟨some b, .storeMutex :: .original i :: unlockBeforeTerminators is, l⟩
  | released {b : GuardLabel B} {l : Guarded L} {i : Instr L} {is : List (Instr L)}
      (hb : b ≠ .locked) (hfree : onEntry = Bytes32.of 0) (hcell : now = Bytes32.of 0)
      (hi : isTerminator i.operandNames = true) :
      Stage now onEntry ⟨some b, .original i :: unlockBeforeTerminators is, l⟩

variable {g : GuardedMain L B} {isStatic : Bool} {s s' : Storage} {p p' : GuardPoint L B}

theorem Executes.of_internal {q : GuardPoint L B} (hnext : g.next p = .internal q)
    (h : Executes g isStatic s p s' p') : s' = s ∧ p' = q := by
  cases h with
  | internal h => exact ⟨rfl, (Effect.internal.inj (hnext.symm.trans h)).symm⟩
  | storageLoad h hk => cases hnext.symm.trans h
  | query h reply hk => cases hnext.symm.trans h
  | storageStore h hstatic hpath => cases hnext.symm.trans h

theorem Executes.of_storageLoad {path : Bytes32} {k : Bytes32 → Option (GuardPoint L B)}
    (hnext : g.next p = .storageLoad path k) (h : Executes g isStatic s p s' p') :
    s' = s ∧ k (s path) = some p' := by
  cases h with
  | internal h => cases hnext.symm.trans h
  | storageLoad h hk =>
    cases hnext.symm.trans h
    exact ⟨rfl, hk⟩
  | query h reply hk => cases hnext.symm.trans h
  | storageStore h hstatic hpath => cases hnext.symm.trans h

theorem Executes.of_storageStore {path value : Bytes32} {q : GuardPoint L B}
    (hnext : g.next p = .storageStore path value q) (h : Executes g isStatic s p s' p') :
    s' = Function.update s path value ∧ p' = q := by
  cases h with
  | internal h => cases hnext.symm.trans h
  | storageLoad h hk => cases hnext.symm.trans h
  | query h reply hk => cases hnext.symm.trans h
  | storageStore h hstatic hpath =>
    cases hnext.symm.trans h
    exact ⟨rfl, rfl⟩

/-- **An instruction of `main` moves on by one, keeps the cells in memory and the mutex in
storage.** -/
theorem Executes.of_original {b : Option (GuardLabel B)} {i : Instr L} {rest : List (GuardInstr L)}
    {l : Guarded L} (h : Executes g isStatic s ⟨b, .original i :: rest, l⟩ s' p') :
    s' mutexSlot = s mutexSlot ∧ ∃ x, p' = ⟨b, rest, l.with x⟩ := by
  have hnext := next_original g b i rest l
  cases h with
  | internal h =>
    rw [hnext] at h
    cases he : i.effect l.inner with
    | internal x =>
      rw [he] at h
      exact ⟨rfl, x, (Effect.internal.inj h).symm⟩
    | _ => rw [he] at h; cases h
  | storageLoad h hk =>
    rw [hnext] at h
    cases he : i.effect l.inner with
    | storageLoad path k =>
      rw [he] at h
      cases h
      obtain ⟨x, -, hx⟩ := Option.map_eq_some_iff.mp hk
      exact ⟨rfl, x, hx.symm⟩
    | _ => rw [he] at h; cases h
  | query h reply hk =>
    rw [hnext] at h
    cases he : i.effect l.inner with
    | query fn args k =>
      rw [he] at h
      cases h
      obtain ⟨x, -, hx⟩ := Option.map_eq_some_iff.mp hk
      exact ⟨rfl, x, hx.symm⟩
    | _ => rw [he] at h; cases h
  | @storageStore path value q h hstatic hpath =>
    rw [hnext] at h
    cases he : i.effect l.inner with
    | storageStore path' value' x =>
      rw [he] at h
      cases h
      -- `main` itself does not write the slot
      have hne : path ≠ mutexSlot := by
        rcases hpath with ⟨rest', hrest'⟩ | hne
        · cases hrest'
        · exact hne
      exact ⟨Function.update_of_ne hne.symm _ _, x, rfl⟩
    | _ => rw [he] at h; cases h

variable {f : Function (Instr L) L B} {t : Storage}

/-- An activation that holds the mutex executes an instruction. -/
theorem Stage.exec_holding {b : GuardLabel B} {l : Guarded L} {is : List (Instr L)}
    (hb : b ≠ .locked) (hfree : t mutexSlot = Bytes32.of 0) (hslot : l.slot = mutexAddress)
    (htaken : s mutexSlot ≠ Bytes32.of 0)
    (h : Executes (insertMutex f) isStatic s ⟨some b, unlockBeforeTerminators is, l⟩ s' p') :
    Stage (s' mutexSlot) (t mutexSlot) p' := by
  cases is with
  | nil =>
    obtain ⟨b₀, hb₀⟩ := exists_source hb
    have hnext := next_blockEnd (f := f) hb₀ l
    cases hgo : (f.at b₀).next l.inner with
    | none =>
      rw [hgo] at hnext
      cases h with
      | _ h => cases hnext.symm.trans h
    | some c =>
      rw [hgo] at hnext
      obtain ⟨rfl, rfl⟩ := h.of_internal hnext
      exact .holding (by simp) hfree hslot htaken
  | cons i is =>
    by_cases hi : isTerminator i.operandNames = true
    · rw [unlockBeforeTerminators, if_pos hi] at h
      obtain ⟨rfl, rfl⟩ := h.of_internal rfl
      exact .releasing hb hfree hslot rfl hi
    · rw [unlockBeforeTerminators, if_neg hi] at h
      obtain ⟨hcell, x, rfl⟩ := h.of_original
      exact .holding hb hfree hslot (by rwa [hcell])

/-- A terminator of the list ends the activation. -/
theorem Executes.not_terminator {b : Option (GuardLabel B)} {i : Instr L}
    {rest : List (GuardInstr L)} {l : Guarded L} (hi : isTerminator i.operandNames = true) :
    ¬ Executes g isStatic s ⟨b, .original i :: rest, l⟩ s' p' := by
  intro h
  have hnext := next_original g b i rest l
  have hends : (∃ out, i.effect l.inner = .finish out) ∨ (∃ out, i.effect l.inner = .revert out) ∨
      i.effect l.inner = .trap := by
    rcases (isTerminator_iff i).mp hi with ⟨out, rfl⟩ | ⟨out, rfl⟩ <;> cases ho : out l.inner <;>
      simp [Instr.effect, ho]
  rcases hends with ⟨out, he⟩ | ⟨out, he⟩ | he <;> rw [he] at hnext
  all_goals
    cases h with
    | _ h => cases hnext.symm.trans h

/-- **One instruction leads from stage to stage.** -/
theorem Stage.exec (hstage : Stage (s mutexSlot) (t mutexSlot) p)
    (h : Executes (insertMutex f) isStatic s p s' p') : Stage (s' mutexSlot) (t mutexSlot) p' := by
  cases hstage with
  | entered hcell =>
    obtain ⟨rfl, rfl⟩ := h.of_internal rfl
    exact .addressed hcell rfl
  | addressed hcell hslot =>
    obtain ⟨rfl, hk⟩ := h.of_storageLoad rfl
    cases hk
    refine .loaded hcell hslot ?_
    rw [hslot]
    rfl
  | loaded hcell hslot hvalue =>
    obtain ⟨rfl, rfl⟩ := h.of_internal rfl
    exact .compared hcell hslot (by rw [← hvalue])
  | @compared l hcell hslot hcheck =>
    obtain ⟨rfl, rfl⟩ := h.of_internal rfl
    by_cases hzero : memWord (s' mutexSlot) = 0
    · have hc : l.check = false := by simpa [hzero] using hcheck
      rw [hc]
      exact .passed (hcell.symm.trans ((memWord_eq_zero_iff _).mp hzero)) hslot
    · have hc : l.check = true := hcheck.trans (bne_iff_ne.mpr hzero)
      rw [hc]
      exact .refused
  | refused => cases h with
    | _ h => cases h
  | passed hfree hslot =>
    obtain ⟨rfl, rfl⟩ := h.of_internal rfl
    exact .locking hfree hslot rfl
  | locking hfree hslot hvalue =>
    obtain ⟨rfl, rfl⟩ := h.of_storageStore rfl
    refine .holding (by simp) hfree hslot ?_
    rw [hslot, hvalue]
    exact memBytes_one_ne
  | holding hb hfree hslot htaken => exact exec_holding hb hfree hslot htaken h
  | releasing hb hfree hslot hvalue hi =>
    obtain ⟨rfl, rfl⟩ := h.of_storageStore rfl
    refine .released hb hfree ?_ hi
    rw [hslot, hvalue]
    exact memBytes_zero
  | released hb hfree hcell hi => exact absurd h (Executes.not_terminator hi)

/-! ## §3 — the invariant. -/

/-- Some activation of these is past the guard. -/
def Held (fs : List (Frame L B)) : Prop := ∃ fr ∈ fs, fr.past

/-- An activation suspended in an external call. -/
inductive Suspended (onEntry : Bytes32) : GuardPoint L B → Prop
  | intro {b : GuardLabel B} {fn : ExtCall} {args : L → Option (List Byte)} {ret : L → Reply → L}
      {is : List (Instr L)} {l : Guarded L} (hb : b ≠ .locked) (hfree : onEntry = Bytes32.of 0)
      (hslot : l.slot = mutexAddress) :
      Suspended onEntry ⟨some b, .original (.call fn args ret) :: unlockBeforeTerminators is, l⟩

/-- Frames that wait for a call to return: of the activations among them only one can be past the
guard, and the frames above it would put a TAKEN cell back. -/
def Stacked : List (Frame L B) → Prop
  | [] => True
  | .own t _ p :: fs => Suspended (t mutexSlot) p ∧ ¬ Held fs ∧ Stacked fs
  | .foreign t :: fs => (Held fs → t mutexSlot ≠ Bytes32.of 0) ∧ Stacked fs

/-- Frames to which a call may return with the storage `s`. -/
structure Awaiting (s : Storage) (fs : List (Frame L B)) : Prop where
  stacked : Stacked fs
  taken : Held fs → s mutexSlot ≠ Bytes32.of 0

/-- **The invariant.** Both the storage of now and the storage that the running frame would put back
may be returned to the frames below it. -/
def Invariant (w : World L B) : Prop :=
  match w.frames with
  | [] => True
  | .foreign t :: fs => Awaiting t fs ∧ Awaiting w.storage fs
  | .own t _ p :: fs =>
    Awaiting t fs ∧ (Held fs → w.storage mutexSlot ≠ Bytes32.of 0 ∧ ¬ Point.past p) ∧
      Stage (w.storage mutexSlot) (t mutexSlot) p

theorem held_foreign {t : Storage} {fs : List (Frame L B)} : Held (.foreign t :: fs) ↔ Held fs := by
  simp [Held, Frame.past]

theorem held_own_of_past {fs : List (Frame L B)} (h : Point.past p) :
    Held (.own t isStatic p :: fs) :=
  ⟨_, List.mem_cons_self, h⟩

theorem Suspended.past {onEntry : Bytes32} (h : Suspended onEntry p) : Point.past p := by
  cases h with
  | intro hb hfree hslot => exact ⟨by simp, by simpa using hb⟩

/-- A call is no terminator of the list. -/
theorem unlockBeforeTerminators_call {fn : ExtCall} {args : L → Option (List Byte)}
    {ret : L → Reply → L} (is : List (Instr L)) :
    unlockBeforeTerminators (.call fn args ret :: is) =
      .original (.call fn args ret) :: unlockBeforeTerminators is := by
  have hi : ¬ isTerminator (Instr.call fn args ret).operandNames = true := by
    rw [isTerminator_iff]
    simp
  rw [unlockBeforeTerminators, if_neg hi]

/-- A suspended activation goes on holding the mutex. -/
theorem Suspended.stage (g : GuardedMain L B) (t : Storage) (isStatic : Bool)
    {onEntry now : Bytes32} (h : Suspended onEntry p) (htaken : now ≠ Bytes32.of 0)
    (fs : List (Frame L B)) (reply : Reply) :
    ∃ p', resume g reply (.own t isStatic p :: fs) = .own t isStatic p' :: fs ∧
      Stage now onEntry p' := by
  cases h with
  | @intro b fn args ret is l hb hfree hslot =>
    have hnext := next_original g (some b) (.call fn args ret) (unlockBeforeTerminators is) l
    rw [resume]
    cases hargs : args l.inner with
    | none =>
      simp only [Instr.effect, hargs, Effect.map] at hnext
      rw [hnext]
      refine ⟨_, rfl, ?_⟩
      rw [← unlockBeforeTerminators_call]
      exact .holding hb hfree hslot htaken
    | some a =>
      simp only [Instr.effect, hargs, Effect.map] at hnext
      rw [hnext]
      exact ⟨_, rfl, .holding hb hfree hslot htaken⟩

/-- **A frame ends**: the invariant holds of the frames below it. -/
theorem Awaiting.resume {fs : List (Frame L B)} (h : Awaiting s fs) (reply : Reply) :
    Invariant ⟨s, Llvm.resume g reply fs⟩ := by
  match fs, h with
  | [], _ => exact trivial
  | .foreign t :: fs, ⟨⟨hback, hstacked⟩, htaken⟩ =>
    exact ⟨⟨hstacked, hback⟩, ⟨hstacked, fun hheld => htaken (held_foreign.mpr hheld)⟩⟩
  | .own t isStatic p :: fs, ⟨⟨hsusp, hnot, hstacked⟩, htaken⟩ =>
    have hcell := htaken (held_own_of_past hsusp.past)
    obtain ⟨p', hres, hstage⟩ := hsusp.stage g t isStatic hcell fs reply
    rw [hres]
    exact ⟨⟨hstacked, fun hheld => absurd hheld hnot⟩, fun hheld => absurd hheld hnot, hstage⟩

/-- The effects by which control leaves the activation. -/
def Effect.Leaves {P : Type} : Effect P → Prop
  | .call _ _ _ | .finish _ | .revert _ | .selfDestruct _ => True
  | _ => False

/-- Control leaves from an instruction of `main` only, and the cell is free exactly when that is a
terminator of the list. -/
theorem Stage.leaves {now onEntry : Bytes32} (hstage : Stage now onEntry p)
    (h : (GuardedMain.next (insertMutex f) p).Leaves) :
    ∃ b i is l, p = ⟨some b, .original i :: unlockBeforeTerminators is, l⟩ ∧ b ≠ .locked ∧
      ((isTerminator i.operandNames = true ∧ now = Bytes32.of 0) ∨
        (¬ isTerminator i.operandNames = true ∧ l.slot = mutexAddress ∧ now ≠ Bytes32.of 0)) := by
  cases hstage with
  | @holding b l is hb hfree hslot htaken =>
    cases is with
    | nil =>
      obtain ⟨b₀, hb₀⟩ := exists_source hb
      rw [unlockBeforeTerminators, next_blockEnd hb₀ l] at h
      split at h <;> cases h
    | cons i is =>
      by_cases hi : isTerminator i.operandNames = true
      · rw [unlockBeforeTerminators, if_pos hi] at h
        cases h
      · rw [unlockBeforeTerminators, if_neg hi]
        exact ⟨b, i, is, l, rfl, hb, .inr ⟨hi, hslot, htaken⟩⟩
  | @released b l i is hb hfree hcell hi => exact ⟨b, i, is, l, rfl, hb, .inl ⟨hi, hcell⟩⟩
  | _ => cases h

/-- Past the guard, the activation found the cell free. -/
theorem Stage.free {now onEntry : Bytes32} (hstage : Stage now onEntry p) (hpast : Point.past p) :
    onEntry = Bytes32.of 0 := by
  cases hstage with
  | refused => exact absurd rfl hpast.2
  | entered hcell => exact absurd rfl hpast.1
  | addressed hcell hslot => exact absurd rfl hpast.1
  | loaded hcell hslot hvalue => exact absurd rfl hpast.1
  | compared hcell hslot hcheck => exact absurd rfl hpast.1
  | _ => assumption

/-- Only an activation that holds the mutex is at an external call. -/
theorem Stage.call {now onEntry : Bytes32} (hstage : Stage now onEntry p) {fn : ExtCall}
    {args : List Byte} {k : Reply → GuardPoint L B}
    (hcall : GuardedMain.next (insertMutex f) p = .call fn args k) :
    Suspended onEntry p ∧ now ≠ Bytes32.of 0 := by
  obtain ⟨b, i, is, l, rfl, hb, hcell⟩ := hstage.leaves (f := f) (by rw [hcall]; trivial)
  have hfree := hstage.free ⟨by simp, by simpa using hb⟩
  rw [next_original] at hcall
  obtain ⟨fn', args', ret', rfl⟩ : ∃ fn args ret, i = .call fn args ret := by
    cases i with
    | call fn args ret => exact ⟨fn, args, ret, rfl⟩
    | _ => simp only [Instr.effect] at hcall; split at hcall <;> cases hcall
  rcases hcell with ⟨hi, -⟩ | ⟨-, hslot, htaken⟩
  · simp [isTerminator_iff] at hi
  · exact ⟨.intro hb hfree hslot, htaken⟩

/-- **A call is made**: whoever makes it waits for it with the storage of now. -/
theorem Invariant.awaiting {fs : List (Frame L B)} (h : Invariant ⟨s, fs⟩)
    (hcall : MayCall (insertMutex f) fs) : Awaiting s fs := by
  match fs, h, hcall with
  | [], _, _ => exact ⟨trivial, fun ⟨_, hmem, _⟩ => absurd hmem List.not_mem_nil⟩
  | .foreign t :: fs, ⟨hback, hnow⟩, _ =>
    exact ⟨⟨hback.taken, hback.stacked⟩, fun hheld => hnow.taken (held_foreign.mp hheld)⟩
  | .own t isStatic p :: fs, ⟨hback, hguard, hstage⟩, ⟨fn, args, k, hcall⟩ =>
    obtain ⟨hsusp, htaken⟩ := hstage.call hcall
    exact ⟨⟨hsusp, fun hheld => (hguard hheld).2 hsusp.past, hback.stacked⟩, fun _ => htaken⟩

/-- How far an activation is from the end of the guard. -/
def Point.guardLeft (p : GuardPoint L B) : Nat := p.rest.length + p.block.elim 1 fun _ => 0

/-- Before the guard, an activation that finds the cell taken goes to the block that traps. -/
theorem Stage.exec_guard (hstage : Stage (s mutexSlot) (t mutexSlot) p)
    (htaken : s mutexSlot ≠ Bytes32.of 0) (hpast : ¬ Point.past p)
    (h : Executes (insertMutex f) isStatic s p s' p') :
    s' = s ∧ ¬ Point.past p' ∧ Point.guardLeft p' < Point.guardLeft p := by
  cases hstage with
  | entered hcell =>
    obtain ⟨rfl, rfl⟩ := h.of_internal rfl
    exact ⟨rfl, fun hp => hp.1 rfl, by simp [Point.guardLeft]⟩
  | addressed hcell hslot =>
    obtain ⟨rfl, hk⟩ := h.of_storageLoad rfl
    cases hk
    exact ⟨rfl, fun hp => hp.1 rfl, by simp [Point.guardLeft]⟩
  | loaded hcell hslot hvalue =>
    obtain ⟨rfl, rfl⟩ := h.of_internal rfl
    exact ⟨rfl, fun hp => hp.1 rfl, by simp [Point.guardLeft]⟩
  | @compared l hcell hslot hcheck =>
    obtain ⟨rfl, rfl⟩ := h.of_internal rfl
    have hne : memWord (s' mutexSlot) ≠ 0 := fun hzero => htaken ((memWord_eq_zero_iff _).mp hzero)
    have hc : l.check = true := hcheck.trans (bne_iff_ne.mpr hne)
    rw [hc]
    exact ⟨rfl, fun hp => hp.2 rfl,
      by simp [Point.guardLeft, Function.point, Function.at, insertMutex]⟩
  | refused => cases h with
    | _ h => cases h
  | passed hfree hslot => exact absurd ⟨by simp, by simp⟩ hpast
  | locking hfree hslot hvalue => exact absurd ⟨by simp, by simp⟩ hpast
  | holding hb hfree hslot htaken => exact absurd ⟨by simp, by simpa using hb⟩ hpast
  | releasing hb hfree hslot hvalue hi => exact absurd ⟨by simp, by simpa using hb⟩ hpast
  | released hb hfree hcell hi => exact absurd ⟨by simp, by simpa using hb⟩ hpast

/-- **Every step of the host keeps the invariant.** -/
theorem Invariant.step {w w' : World L B} {e : Event} (h : Invariant w)
    (hstep : Step (insertMutex f) w e w') : Invariant w' := by
  cases hstep with
  | enter hcall isStatic l =>
    have hwait := h.awaiting hcall
    exact ⟨hwait, fun hheld => ⟨hwait.taken hheld, fun hp => hp.1 rfl⟩, .entered rfl⟩
  | foreignEnter hcall => exact ⟨h.awaiting hcall, h.awaiting hcall⟩
  | foreignStore hpath value =>
    obtain ⟨hback, hnow⟩ := h
    refine ⟨hback, hnow.stacked, fun hheld => ?_⟩
    simpa [Function.update_of_ne hpath.symm] using hnow.taken hheld
  | foreignReturn reply => exact h.2.resume reply
  | foreignFail reply => exact h.1.resume reply
  | exec hexec =>
    obtain ⟨hback, hguard, hstage⟩ := h
    refine ⟨hback, fun hheld => ?_, hstage.exec hexec⟩
    obtain ⟨htaken, hpast⟩ := hguard hheld
    obtain ⟨rfl, hpast', -⟩ := hstage.exec_guard htaken hpast hexec
    exact ⟨htaken, hpast'⟩
  | ended hstops reply =>
    obtain ⟨hback, hguard, hstage⟩ := h
    have hnow : Awaiting _ _ := ⟨hback.stacked, fun hheld => (hguard hheld).1⟩
    cases hstops with
    | finish h => exact hnow.resume reply
    | revert h => exact hback.resume reply
    | selfDestruct h hstatic => exact hnow.resume reply
    | trap => exact hback.resume reply

theorem invariant_reachable {w : World L B} (h : Reachable (Step (insertMutex f)) ⟨s, []⟩ w) :
    Invariant w :=
  h.invariant (fun _ _ _ hw hstep => hw.step hstep) trivial

/-! ## §4 — mutual exclusion. -/

theorem Stacked.held {fs : List (Frame L B)} (h : Stacked fs) {t : Storage} {isStatic : Bool}
    {p : GuardPoint L B} (hmem : .own t isStatic p ∈ fs) : Held fs := by
  match fs, h with
  | [], _ => exact absurd hmem List.not_mem_nil
  | .own t' isStatic' p' :: fs, ⟨hsusp, _, _⟩ => exact held_own_of_past hsusp.past
  | .foreign t' :: fs, ⟨_, hstacked⟩ =>
    rcases List.mem_cons.mp hmem with hhead | hmem
    · cases hhead
    · exact held_foreign.mpr (hstacked.held hmem)

theorem Stacked.pairwise {fs : List (Frame L B)} (h : Stacked fs) :
    fs.Pairwise fun a b => ¬ (a.past ∧ b.past) := by
  match fs, h with
  | [], _ => exact .nil
  | .own t isStatic p :: fs, ⟨_, hnot, hstacked⟩ =>
    exact .cons (fun fr hfr hboth => hnot ⟨fr, hfr, hboth.2⟩) hstacked.pairwise
  | .foreign t :: fs, ⟨_, hstacked⟩ => exact .cons (fun fr hfr hboth => hboth.1) hstacked.pairwise

theorem Invariant.pairwise {w : World L B} (h : Invariant w) :
    w.frames.Pairwise fun a b => ¬ (a.past ∧ b.past) := by
  obtain ⟨s, fs⟩ := w
  match fs, h with
  | [], _ => exact .nil
  | .foreign t :: fs, ⟨hback, _⟩ => exact .cons (fun fr hfr hboth => hboth.1) hback.stacked.pairwise
  | .own t isStatic p :: fs, ⟨hback, hguard, _⟩ =>
    exact .cons (fun fr hfr hboth => (hguard ⟨fr, hfr, hboth.2⟩).2 hboth.1) hback.stacked.pairwise

/-- In the guard an activation can only end by a trap. -/
theorem Stage.stops_guard {now onEntry : Bytes32} {e : Ending} (hstage : Stage now onEntry p)
    (hpast : ¬ Point.past p) (h : Stops (insertMutex f) isStatic p e) : e = .trap := by
  cases h with
  | trap => rfl
  | _ h =>
    cases hstage with
    | passed hfree hslot => exact absurd ⟨by simp, by simp⟩ hpast
    | locking hfree hslot hvalue => exact absurd ⟨by simp, by simp⟩ hpast
    | holding hb hfree hslot htaken => exact absurd ⟨by simp, by simpa using hb⟩ hpast
    | releasing hb hfree hslot hvalue hi => exact absurd ⟨by simp, by simpa using hb⟩ hpast
    | released hb hfree hcell hi => exact absurd ⟨by simp, by simpa using hb⟩ hpast
    | _ => cases h

/-- **An activation that finds the cell taken traps**, however far it is from the end of the
guard. -/
theorem inevitably_trap (n : Nat) : ∀ (p : GuardPoint L B), Point.guardLeft p < n →
    s mutexSlot ≠ Bytes32.of 0 → ¬ Point.past p → Stage (s mutexSlot) (t mutexSlot) p →
    ∀ fs : List (Frame L B),
      Inevitably (Step (insertMutex f)) AtGuard (· = .ended .trap) ⟨s,
        .own t isStatic p :: fs⟩ := by
  induction n with
  | zero => intro p hn; exact absurd hn (Nat.not_lt_zero _)
  | succ n ih =>
    intro p hn htaken hpast hstage fs
    refine .intro ⟨t, isStatic, p, fs, rfl, hpast⟩ ⟨_, _, .ended .trap ⟨0, []⟩⟩ ?_
    intro e w' hstep hfinal
    -- nobody calls from inside the guard, so the activation itself makes the step
    have hnocall : ¬ MayCall (insertMutex f) (.own t isStatic p :: fs) := by
      rintro ⟨fn, args, k, hcall⟩
      exact hpast (hstage.call hcall).1.past
    cases hstep with
    | enter hcall isStatic l => exact absurd hcall hnocall
    | foreignEnter hcall => exact absurd hcall hnocall
    | exec hexec =>
      obtain ⟨rfl, hpast', hless⟩ := hstage.exec_guard htaken hpast hexec
      exact ih _ (by omega) htaken hpast' (hstage.exec hexec) fs
    | ended hstops reply =>
      rw [hstage.stops_guard hpast hstops] at hfinal
      exact absurd rfl hfinal

/-- **Mutual exclusion.** In every world that any nesting and any sequence of calls leads to, no two
activations are past the guard, and an activation entered from inside another one traps before it
executes an instruction of the original `main`. -/
theorem mutex_excludes [DecidableEq B] {g : GuardedMain L B} {w : World L B}
    (hg : (runOnFunction "main" f).function = .inr g) (hw : Reachable (Step g) ⟨s, []⟩ w) :
    w.frames.Pairwise (fun a b => ¬ (a.past ∧ b.past)) ∧
      (ReEntered w → Inevitably (Step g) AtGuard (· = .ended .trap) w) := by
  obtain rfl := eq_insertMutex hg
  have hinv := invariant_reachable hw
  refine ⟨hinv.pairwise, ?_⟩
  rintro ⟨t, isStatic, p, fs, hframes, t', isStatic', p', hmem⟩
  obtain ⟨s, frames⟩ := w
  cases hframes
  obtain ⟨hback, hguard, hstage⟩ := hinv
  obtain ⟨htaken, hpast⟩ := hguard (hback.stacked.held hmem)
  exact inevitably_trap (Point.guardLeft p + 1) p (Nat.lt_succ_self _) htaken hpast hstage fs

/-- The local state and the storage of an activation that has just taken the mutex. -/
def Guarded.locked (l : L) : Guarded L := ⟨l, mutexAddress, 1, false⟩

@[inherit_doc Guarded.locked]
def lockedStorage (s : Storage) : Storage := Function.update s mutexSlot (memBytes 1)

/-- **A call that finds the cell free takes the mutex** and comes to the code of `main`. -/
theorem takes_mutex (hfree : s mutexSlot = Bytes32.of 0) (l : Guarded L) (fs : List (Frame L B)) :
    Reachable (Step (insertMutex f)) ⟨s, .own t false ((insertMutex f).point none l) :: fs⟩
      ⟨lockedStorage s,
        .own t false ⟨some .tail, unlockBeforeTerminators f.entry.code,
          .locked l.inner⟩ :: fs⟩ := by
  have hzero : memWord (s (memBytes mutexAddress)) = 0 := (memWord_eq_zero_iff _).mpr hfree
  -- the guard
  refine .head (.exec (.internal rfl)) ?_
  refine .head (.exec (.storageLoad rfl rfl)) ?_
  refine .head (.exec (.internal rfl)) ?_
  simp only [hzero]
  refine .head (.exec (.internal rfl)) ?_
  -- the lock
  refine .head (.exec (.internal rfl)) ?_
  refine .head (.exec (.storageStore rfl rfl (.inl ⟨_, rfl⟩))) ?_
  exact .refl _

/-- The first call of a transaction. -/
theorem first_call_takes_mutex (hfree : s mutexSlot = Bytes32.of 0) (l : L) :
    Reachable (Step (insertMutex f)) ⟨s, []⟩
      ⟨lockedStorage s,
        [.own s false ⟨some .tail, unlockBeforeTerminators f.entry.code, .locked l⟩]⟩ := by
  have hcall : MayCall (insertMutex f) [] := trivial
  exact .head (.enter hcall false ⟨l, 0, 0, false⟩) (takes_mutex hfree _ [])

/-- The contract of the test, `withdrawFunds`: it calls, writes the balance, and returns. -/
def withdraw : Function (Instr Unit) Unit Empty where
  entry :=
    { code :=
        [.call .call (fun _ => some []) (fun _ _ => ()),
          .storageStore (fun _ => some (Bytes32.of 0)) (fun _ => some (Bytes32.of 7)),
          .finish (fun _ => some [])]
      succs := []
      next := fun _ => none
      next_mem := nofun }
  block := Empty.elim
  body := []
  mem_body := nofun

/-- The callee of the call in `withdraw` calls the contract again. -/
theorem mutex_excludes_withdraw : ∃ w : World Unit Empty, ReEntered w ∧
    w.frames.Pairwise (fun a b => ¬ (a.past ∧ b.past)) ∧
    Inevitably (Step (insertMutex withdraw)) AtGuard (· = .ended .trap) w := by
  have hfirst := first_call_takes_mutex (f := withdraw) (s := emptyStorage) rfl ()
  have hcallee := hfirst.tail (.foreignEnter ⟨_, _, _, rfl⟩)
  have hcall : MayCall (insertMutex withdraw) (.foreign (lockedStorage emptyStorage) ::
      [.own emptyStorage false ⟨some .tail, unlockBeforeTerminators withdraw.entry.code,
        .locked ()⟩]) := trivial
  have hagain := hcallee.tail (.enter hcall false ⟨(), 0, 0, false⟩)
  have hmain := mutex_excludes (f := withdraw) (runOnFunction_main withdraw) hagain
  refine ⟨_, ?hre, hmain.1, hmain.2 ?hre⟩
  exact ⟨_, _, _, _, rfl, _, _, _, List.mem_cons_of_mem _ List.mem_cons_self⟩

/-! ## §5 — the release. -/

/-- A return is a terminator of the list. -/
theorem Stage.finish {now onEntry : Bytes32} (hstage : Stage now onEntry p) {out : List Byte}
    (h : GuardedMain.next (insertMutex f) p = .finish out) : now = Bytes32.of 0 := by
  obtain ⟨b, i, is, l, rfl, hb, hcell⟩ := hstage.leaves (f := f) (by rw [h]; trivial)
  rw [next_original] at h
  obtain ⟨out', rfl⟩ : ∃ out, i = .finish out := by
    cases i with
    | finish out => exact ⟨out, rfl⟩
    | _ => simp only [Instr.effect] at h; split at h <;> cases h
  rcases hcell with ⟨-, hzero⟩ | ⟨hi, -⟩
  · exact hzero
  · simp [isTerminator_iff] at hi

/-- `selfDestruct` is not. -/
theorem Stage.selfDestruct {now onEntry : Bytes32} (hstage : Stage now onEntry p) {dest : Address}
    (h : GuardedMain.next (insertMutex f) p = .selfDestruct dest) : now ≠ Bytes32.of 0 := by
  obtain ⟨b, i, is, l, rfl, hb, hcell⟩ := hstage.leaves (f := f) (by rw [h]; trivial)
  rw [next_original] at h
  obtain ⟨dest', rfl⟩ : ∃ dest, i = .selfDestruct dest := by
    cases i with
    | selfDestruct dest => exact ⟨dest, rfl⟩
    | _ => simp only [Instr.effect] at h; split at h <;> cases h
  rcases hcell with ⟨hi, -⟩ | ⟨-, -, htaken⟩
  · simp [isTerminator_iff] at hi
  · exact htaken

/-- **An activation past the guard leaves the cell free, unless it destroys the contract.** -/
theorem Stage.stops (hstage : Stage (s mutexSlot) (t mutexSlot) p) (hpast : Point.past p)
    {e : Ending} (h : Stops (insertMutex f) isStatic p e) :
    e.storage t s mutexSlot = Bytes32.of 0 ↔ ∀ dest, e ≠ .selfDestruct dest := by
  cases h with
  | finish h => exact iff_of_true (hstage.finish h) nofun
  | revert h => exact iff_of_true (hstage.free hpast) nofun
  | @selfDestruct dest h hstatic =>
    exact iff_of_false (hstage.selfDestruct h) fun hne => hne dest rfl
  | trap => exact iff_of_true (hstage.free hpast) nofun

/-- **The release.** In every world reached, when an activation past the guard ends, the slot of the
mutex holds 0 afterwards if and only if the activation did not end through `selfDestruct`. The
memory writes of `main` stay off the two cells of the pass, as `Guarded` has it. -/
theorem mutex_released_iff [DecidableEq B] {g : GuardedMain L B} {s₀ : Storage}
    {fs : List (Frame L B)} {w : World L B} {e : Ending}
    (hg : (runOnFunction "main" f).function = .inr g)
    (hw : Reachable (Step g) ⟨s₀, []⟩ ⟨s, .own t isStatic p :: fs⟩) (hpast : Point.past p)
    (hend : Step g ⟨s, .own t isStatic p :: fs⟩ (.ended e) w) :
    w.storage mutexSlot = Bytes32.of 0 ↔ ∀ dest, e ≠ .selfDestruct dest := by
  obtain rfl := eq_insertMutex hg
  obtain ⟨hback, hguard, hstage⟩ := invariant_reachable hw
  cases hend with
  | ended hstops reply => exact hstage.stops hpast hstops

/-- `withdraw` before its return, and the storage there. -/
def withdrawReturns : GuardPoint Unit Empty :=
  ⟨some .tail, [.original (.finish fun _ => some [])], { Guarded.locked () with value := 0 }⟩

@[inherit_doc withdrawReturns]
def withdrawn : Storage :=
  Function.update (Function.update (lockedStorage emptyStorage) (Bytes32.of 0)
    (Bytes32.of 7)) mutexSlot (memBytes 0)

/-- `withdraw` returns, and the cell is free again. -/
theorem mutex_released_iff_withdraw :
    Reachable (Step (insertMutex withdraw)) ⟨emptyStorage, []⟩
      ⟨withdrawn, [.own emptyStorage false withdrawReturns]⟩ ∧
    Point.past withdrawReturns ∧
    Step (insertMutex withdraw) ⟨withdrawn, [.own emptyStorage false withdrawReturns]⟩
      (.ended (.finish [])) ⟨withdrawn, []⟩ ∧
    withdrawn mutexSlot = Bytes32.of 0 := by
  have hfirst := first_call_takes_mutex (f := withdraw) (s := emptyStorage) rfl ()
  have hcallee := hfirst.tail (.foreignEnter ⟨_, _, _, rfl⟩)
  have hback := hcallee.tail (.foreignReturn ⟨0, []⟩)
  have hstore := hback.tail (.exec (.storageStore rfl rfl (.inr (by decide))))
  have hvalue := hstore.tail (.exec (.internal rfl))
  have hunlock : Reachable (Step (insertMutex withdraw)) ⟨emptyStorage, []⟩
      ⟨withdrawn, [.own emptyStorage false withdrawReturns]⟩ :=
    hvalue.tail (.exec (.storageStore rfl rfl (.inl ⟨_, rfl⟩)))
  have hpast : Point.past withdrawReturns := ⟨by simp [withdrawReturns], by simp [withdrawReturns]⟩
  have hend : Step (insertMutex withdraw) ⟨withdrawn, [.own emptyStorage false withdrawReturns]⟩
      (.ended (.finish [])) ⟨withdrawn, []⟩ := .ended (.finish rfl) ⟨0, []⟩
  exact ⟨hunlock, hpast, hend,
    (mutex_released_iff (runOnFunction_main withdraw) hunlock hpast hend).mpr nofun⟩

/-- `withdraw` in a contract that can also be destroyed; what is called is told by the calldata. -/
def killable : Function (Instr Bool) Bool Bool where
  entry := { code := [], succs := [true, false], next := some, next_mem := mem_branches }
  block
    | true =>
      { code := [.selfDestruct fun _ => some (Address.of 0)]
        succs := []
        next := fun _ => none
        next_mem := mem_no_succs }
    | false =>
      { code :=
          [.call .call (fun _ => some []) (fun l _ => l),
            .storageStore (fun _ => some (Bytes32.of 0)) (fun _ => some (Bytes32.of 7)),
            .finish (fun _ => some [])]
        succs := []
        next := fun _ => none
        next_mem := mem_no_succs }
  body := [true, false]
  mem_body := mem_two_blocks

/-- `killable` before it is destroyed. -/
def killed : GuardPoint Bool Bool :=
  ⟨some (.code true), [.original (.selfDestruct fun _ => some (Address.of 0))], .locked true⟩

/-- **A destroyed contract stays locked**: for the rest of the transaction its slot does not
hold 0. -/
theorem kill_keeps_mutex : (runOnFunction "main" killable).function = .inr (insertMutex killable) ∧
    Reachable (Step (insertMutex killable)) ⟨emptyStorage, []⟩
      ⟨lockedStorage emptyStorage, [.own emptyStorage false killed]⟩ ∧
    Point.past killed ∧
    Step (insertMutex killable) ⟨lockedStorage emptyStorage, [.own emptyStorage false killed]⟩
      (.ended (.selfDestruct (Address.of 0))) ⟨lockedStorage emptyStorage, []⟩ ∧
    lockedStorage emptyStorage mutexSlot ≠ Bytes32.of 0 := by
  have hfirst := first_call_takes_mutex (f := killable) (s := emptyStorage) rfl true
  have hjump : Reachable (Step (insertMutex killable)) ⟨emptyStorage, []⟩
      ⟨lockedStorage emptyStorage, [.own emptyStorage false killed]⟩ :=
    hfirst.tail (.exec (.internal rfl))
  have hcell : lockedStorage emptyStorage mutexSlot = memBytes 1 := Function.update_self _ _ _
  refine ⟨runOnFunction_main killable, hjump, ⟨by simp [killed], by simp [killed]⟩, ?_, ?_⟩
  · exact .ended (.selfDestruct rfl rfl) ⟨0, []⟩
  · rw [hcell]
    exact memBytes_one_ne

end EvmTrans.Llvm
