/-
# `EvmTrans.ReentrancyTransparent` — what the mutex changes for a call that nobody re-enters.

One activation runs alone: its external calls and its queries are answered by an environment that
cannot tell the mutex cell from any other storage it does not touch. `transparent_iff` compares how
`main` ends with how the function left by the pass ends, over all runs.

The guard and the unlock go unnoticed but for two things. Under `EVMC_STATIC` the host refuses every
store, and the lock is a store, so every static call of a guarded `main` fails, also one that only
reads. And the accesses to the mutex cost gas, 20200 at the entry and 5000 at the end: what the
guarded `main` does is what `main` itself does when it has to pay that.
-/
import EvmTrans.AnyEnvironment

namespace EvmTrans.Llvm

open Lib (runFor Ends EndsAlike Simulation)
open Hera (GasSchedule.storageLoad GasSchedule.storageStoreChange)

variable {I L B E : Type}

/-! ## §1 — one activation. -/

/-- An environment that leaves the mutex alone. An external call may run code on the storage of the
contract (a library), but none that reads or writes the slot of the mutex: it does the same whatever
the cell holds, and keeps it. -/
structure Env (E : Type) extends Outside E where
  call_update : ∀ e fn args s v, call e fn args (Function.update s mutexSlot v) =
    (call e fn args s).map fun r => (r.1, r.2.1, Function.update r.2.2 mutexSlot v)

/-- The slot of the mutex is not the one that the next instruction loads or stores. -/
def Effect.AvoidsMutex {P : Type} : Effect P → Prop
  | .storageLoad path _ => path ≠ mutexSlot
  | .storageStore path _ _ => path ≠ mutexSlot
  | _ => True

/-- The same way, with the same output, and the same storage outside the slot of the mutex. -/
def SameOutside (r r' : Result) : Prop :=
  r.1 = r'.1 ∧ ∀ path, path ≠ mutexSlot → r.2 path = r'.2 path

/-- How the original function ends when it is called. -/
def OriginalEnds (f : Function (Instr L) L B) (H : Env E) (isStatic : Bool) (e : E)
    (s : Storage) (l : L) : Result → Prop :=
  Ends (runStep Instr.effect f H.toOutside isStatic s) ⟨e, s, f.point none l⟩

/-- How the function that the pass leaves ends; the cells and the register of the guard start with
`u`, `v` and `c`, which nothing has written. -/
def PassedEnds (res : PassResult L B) (H : Env E) (isStatic : Bool) (e : E) (s : Storage) (l : L)
    (u v : Word) (c : Bool) : Result → Prop :=
  match res.function with
  | .inl f => Ends (runStep Instr.effect f H.toOutside isStatic s) ⟨e, s, f.point none l⟩
  | .inr g =>
    Ends (runStep GuardInstr.effect g H.toOutside isStatic s) ⟨e, s, g.point none ⟨l, u, v, c⟩⟩

/-! ## §2 — `main`, when it pays for the mutex. -/

/-- What the guard takes: it loads the cell, and the lock creates it. -/
def Outside.payGuard (H : Outside E) (e : E) : Option E := do
  H.chargeStore (← H.takeInterfaceGas e GasSchedule.storageLoad) (Bytes32.of 0) (memBytes 1)

/-- The next instruction is a terminator. -/
def atTerminator (rest : List (Instr L)) : Bool :=
  rest.head?.any fun i => isTerminator i.operandNames

/-- One instruction of the original function, where a terminator takes the gas of the unlock too. -/
def paidStep (f : Function (Instr L) L B) (H : Outside E) (s : Storage)
    (a : Activation E (Instr L) L B) : Activation E (Instr L) L B ⊕ Result :=
  if atTerminator a.point.rest &&
      (H.takeInterfaceGas a.env GasSchedule.storageStoreChange).isNone then
    .inr (.trap, s)
  else runStep Instr.effect f H false s a

/-- **How the original function ends when it pays for the mutex**: it starts with the gas that the
guard leaves, and its terminators take what the unlock takes. -/
def PaidEnds (f : Function (Instr L) L B) (H : Outside E) (e : E) (s : Storage) (l : L)
    (r : Result) : Prop :=
  match H.payGuard e with
  | some e' => Ends (paidStep f H s) ⟨e', s, f.point none l⟩ r
  | none => r = (.trap, s)

/-- Such a run from `a` on does not touch the slot of the mutex. -/
def Untouched (f : Function (Instr L) L B) (H : Outside E) (s : Storage)
    (a : Activation E (Instr L) L B) : Prop :=
  ∀ n a', runFor (paidStep f H s) n a = .inl a' → (f.next Instr.effect a'.point).AvoidsMutex

/-! ## §3 — one effect on two storages. -/

section Alike

variable {I' L' B' X : Type} {exec : I → L → Effect L} {exec' : I' → L' → Effect L'}
  {f : Function I L B} {f' : Function I' L' B'} {s : Storage}

theorem SameOutside.refl (r : Result) : SameOutside r r := ⟨rfl, fun _ _ => rfl⟩

theorem SameOutside.symm {r r' : Result} (h : SameOutside r r') : SameOutside r' r :=
  ⟨h.1.symm, fun path hpath => (h.2 path hpath).symm⟩

theorem SameOutside.trans {r r' r'' : Result} (h : SameOutside r r') (h' : SameOutside r' r'') :
    SameOutside r r'' :=
  ⟨h.1.trans h'.1, fun path hpath => (h.2 path hpath).trans (h'.2 path hpath)⟩

theorem endsAlike_refl (P : Result → Prop) : EndsAlike SameOutside P P :=
  ⟨fun r hr => ⟨r, hr, .refl r⟩, fun r hr => ⟨r, hr, .refl r⟩⟩

theorem sameOutside_storage (e : Ending) (onEntry now : Storage) (v : Bytes32) :
    SameOutside (e, e.storage onEntry now) (e,
      e.storage onEntry (Function.update now mutexSlot v)) := by
  refine ⟨rfl, fun path hpath => ?_⟩
  have hnow : now path = Function.update now mutexSlot v path :=
    (Function.update_of_ne hpath _ _).symm
  cases e with
  | finish out => exact hnow
  | selfDestruct dest => exact hnow
  | revert out => rfl
  | trap => rfl

theorem avoidsMutex_map {P Q : Type} (φ : P → Q) (eff : Effect P) :
    (eff.map φ).AvoidsMutex ↔ eff.AvoidsMutex := by
  cases eff <;> exact Iff.rfl

/-- **One effect, on two storages that differ in the cell of the mutex only**, goes on alike or ends
alike. -/
theorem respond_alike (H : Env E) (isStatic : Bool) (s : Storage) (env : E) (now : Storage)
    (v : Bytes32) {eff : Effect X} (havoid : eff.AvoidsMutex) :
    (∃ e s₁ x, H.respond isStatic s env now eff = .inl (e, s₁, x) ∧
      H.respond isStatic s env (Function.update now mutexSlot v) eff =
        .inl (e, Function.update s₁ mutexSlot v, x)) ∨
    ∃ e : Ending, H.respond isStatic s env now eff = .inr (e, e.storage s now) ∧
      H.respond isStatic s env (Function.update now mutexSlot v) eff =
        .inr (e, e.storage s (Function.update now mutexSlot v)) := by
  unfold Outside.respond
  cases eff with
  | internal x => exact .inl ⟨_, now, x, rfl, rfl⟩
  | storageLoad path k =>
    have hread : Function.update now mutexSlot v path = now path := Function.update_of_ne havoid _ _
    dsimp only
    rw [hread]
    cases H.takeInterfaceGas env GasSchedule.storageLoad with
    | none => exact .inr ⟨.trap, rfl, rfl⟩
    | some env₁ =>
      cases k (now path) with
      | some x => exact .inl ⟨_, now, x, rfl, rfl⟩
      | none => exact .inr ⟨.trap, rfl, rfl⟩
  | storageStore path value x =>
    have hread : Function.update now mutexSlot v path = now path := Function.update_of_ne havoid _ _
    dsimp only
    rw [hread]
    cases isStatic with
    | true => exact .inr ⟨.trap, rfl, rfl⟩
    | false =>
      cases H.chargeStore env (now path) value with
      | none => exact .inr ⟨.trap, rfl, rfl⟩
      | some env₁ =>
        refine .inl ⟨_, Function.update now path value, x, rfl, ?_⟩
        rw [Function.update_comm havoid]
        rfl
  | query fn args k =>
    dsimp only
    cases H.answer env fn args with
    | none => exact .inr ⟨.trap, rfl, rfl⟩
    | some r =>
      cases hk : k r.2 with
      | some x => exact .inl ⟨r.1, now, x, by simp [hk], by simp [hk]⟩
      | none => exact .inr ⟨.trap, by simp [hk], by simp [hk]⟩
  | call fn args k =>
    dsimp only
    rw [H.call_update]
    cases H.call env fn args now with
    | none => exact .inr ⟨.trap, rfl, rfl⟩
    | some r => exact .inl ⟨_, _, _, rfl, rfl⟩
  | finish out => exact .inr ⟨.finish out, rfl, rfl⟩
  | revert out => exact .inr ⟨.revert out, rfl, rfl⟩
  | selfDestruct dest =>
    dsimp only
    cases isStatic with
    | true => exact .inr ⟨.trap, rfl, rfl⟩
    | false =>
      cases H.chargeSelfDestruct env dest with
      | none => exact .inr ⟨.trap, rfl, rfl⟩
      | some env₁ => exact .inr ⟨.selfDestruct dest, rfl, rfl⟩
  | trap => exact .inr ⟨.trap, rfl, rfl⟩

/-- Two activations in front of one effect. -/
theorem runStep_alike (H : Env E) (isStatic : Bool) (s : Storage) (a : Activation E I L B)
    (a' : Activation E I' L' B') {eff : Effect X} {φ : X → Point I L B} {φ' : X → Point I' L' B'}
    {v : Bytes32} (hnext : f.next exec a.point = eff.map φ)
    (hnext' : f'.next exec' a'.point = eff.map φ')
    (henv : a'.env = a.env) (hstorage : a'.storage = Function.update a.storage mutexSlot v)
    (havoid : eff.AvoidsMutex) :
    (∃ e s₁ x, runStep exec f H.toOutside isStatic s a = .inl ⟨e, s₁, φ x⟩ ∧
      runStep exec' f' H.toOutside isStatic s a' = .inl ⟨e, Function.update s₁ mutexSlot v, φ' x⟩) ∨
    ∃ e : Ending, runStep exec f H.toOutside isStatic s a = .inr (e, e.storage s a.storage) ∧
      runStep exec' f' H.toOutside isStatic s a' = .inr (e, e.storage s a'.storage) := by
  unfold runStep
  rw [hnext, hnext', henv, hstorage, respond_map, respond_map]
  rcases respond_alike H isStatic s a.env a.storage v havoid with
    ⟨e, s₁, x, h, h'⟩ | ⟨e, h, h'⟩
  · rw [h, h']
    exact .inl ⟨e, s₁, x, rfl, rfl⟩
  · rw [h, h']
    exact .inr ⟨e, rfl, rfl⟩

end Alike

/-! ## §4 — the simulation. -/

section Simulation

variable {f : Function (Instr L) L B} {H : Env E} {s : Storage} {a : Activation E (Instr L) L B}
  {a' : Activation E (GuardInstr L) (Guarded L) (GuardLabel B)}

/-- The original function between two instructions, and the rewritten one that holds the mutex. -/
structure Follows (f : Function (Instr L) L B) (H : Env E) (s : Storage)
    (a : Activation E (Instr L) L B) (a' : Activation E (GuardInstr L) (Guarded L) (GuardLabel B)) :
    Prop where
  env : a'.env = a.env
  storage : a'.storage = Function.update a.storage mutexSlot (memBytes 1)
  point : ∃ b l, b.source = some a.point.block ∧ l.inner = a.point.loc ∧ l.slot = mutexAddress ∧
    a'.point = ⟨some b, unlockBeforeTerminators a.point.rest, l⟩
  untouched : Untouched f H.toOutside s a

theorem paidStep_of_plain {H : Outside E} (h : atTerminator a.point.rest = false) :
    paidStep f H s a = runStep Instr.effect f H false s a := by
  rw [paidStep, h]
  rfl

theorem atTerminator_cons {i : Instr L} {is : List (Instr L)} (hrest : a.point.rest = i :: is) :
    atTerminator a.point.rest = isTerminator i.operandNames := by
  rw [hrest]
  rfl

theorem Untouched.next {H : Outside E} {a₁ : Activation E (Instr L) L B} (h : Untouched f H s a)
    (hstep : paidStep f H s a = .inl a₁) : Untouched f H s a₁ := by
  intro n a₂ hrun
  exact h (n + 1) a₂ ((Lib.runFor_succ_of_inl hstep n).trans hrun)

/-- A run that leaves the slot alone takes no step that touches it. -/
theorem Untouched.avoids {H : Outside E} (h : Untouched f H s a) {X : Type} {eff : Effect X}
    {φ : X → Point (Instr L) L B} (hnext : f.next Instr.effect a.point = eff.map φ) :
    eff.AvoidsMutex := by
  have h₀ := h 0 a rfl
  rwa [hnext, avoidsMutex_map] at h₀

/-- An instruction that is no terminator, and the end of a block, have one effect in both
functions. -/
theorem Follows.effect (h : Follows f H s a a') (hplain : atTerminator a.point.rest = false) :
    ∃ (X : Type) (eff : Effect X) (φ : X → Point (Instr L) L B) (φ' : X → GuardPoint L B),
      f.next Instr.effect a.point = eff.map φ ∧
      GuardedMain.next (insertMutex f) a'.point = eff.map φ' ∧
      ∀ x, ∃ b l, b.source = some (φ x).block ∧ l.inner = (φ x).loc ∧ l.slot = mutexAddress ∧
        φ' x = ⟨some b, unlockBeforeTerminators (φ x).rest, l⟩ := by
  obtain ⟨b, l, hb, hinner, hslot, hpoint⟩ := h.point
  obtain ⟨env, storage, b₀, rest, loc⟩ := a
  dsimp only at hb hinner hpoint
  rw [hpoint]
  cases rest with
  | nil =>
    refine ⟨B, ((f.at b₀).next loc).elim .trap .internal,
      fun c => f.point (some c) loc,
      fun c => ⟨some (.code c), unlockBeforeTerminators (f.block c).code, l⟩,
      ?_, ?_, ?_⟩
    · simp only [Function.next]
      cases (f.at b₀).next loc <;> rfl
    · rw [unlockBeforeTerminators, next_blockEnd hb, hinner]
      cases (f.at b₀).next loc <;> rfl
    · intro c
      exact ⟨.code c, l, rfl, hinner, hslot, rfl⟩
  | cons i is =>
    have hi : isTerminator i.operandNames = false := hplain
    refine ⟨L, i.effect loc, fun x => ⟨b₀, is, x⟩,
      fun x => ⟨some b, unlockBeforeTerminators is, l.with x⟩, rfl, ?_, ?_⟩
    · rw [unlockBeforeTerminators, if_neg (by rw [hi]; exact Bool.false_ne_true),
        next_original, hinner]
    · intro x
      exact ⟨b, l.with x, hb, rfl, hslot, rfl⟩

/-- A terminator ends the activation, and its environment does not matter. -/
theorem terminator_ends (f : Function (Instr L) L B) (H : Outside E) (s : Storage) {i : Instr L}
    {is : List (Instr L)} (hrest : a.point.rest = i :: is)
    (hi : isTerminator i.operandNames = true) :
    ∃ e : Ending, ∀ env, runStep Instr.effect f H false s { a with env := env } =
      .inr (e, e.storage s a.storage) := by
  obtain ⟨env, storage, b₀, rest, loc⟩ := a
  dsimp only at hrest
  subst hrest
  simp only [runStep_cons]
  rcases (isTerminator_iff i).mp hi with ⟨out, rfl⟩ | ⟨out, rfl⟩
  · cases ho : out loc with
    | none => exact ⟨.trap, fun _ => by rw [Instr.effect, ho]; rfl⟩
    | some bs => exact ⟨.finish bs, fun _ => by rw [Instr.effect, ho]; rfl⟩
  · cases ho : out loc with
    | none => exact ⟨.trap, fun _ => by rw [Instr.effect, ho]; rfl⟩
    | some bs => exact ⟨.revert bs, fun _ => by rw [Instr.effect, ho]; rfl⟩

/-- The unlock takes the price of a change. -/
theorem chargeStore_zero (H : Outside E) (env : E) (current : Bytes32) :
    H.chargeStore env current (memBytes 0) =
      H.takeInterfaceGas env GasSchedule.storageStoreChange := by
  have hno : ¬ (current = Bytes32.of 0 ∧ memBytes 0 ≠ Bytes32.of 0) := fun h => h.2 memBytes_zero
  unfold Outside.chargeStore
  simp only [if_neg hno]
  cases H.takeInterfaceGas env GasSchedule.storageStoreChange <;> rfl

/-- The two instructions inserted before a terminator. -/
theorem unlock_runs (s : Storage) (env : E) (now : Storage) (b : GuardLabel B) {l : Guarded L}
    (is : List (GuardInstr L)) (hslot : l.slot = mutexAddress) (g : GuardedMain L B)
    (H : Outside E) :
    runFor (runStep GuardInstr.effect g H false s) 2
        ⟨env, now, some b, .storeValue 0 :: .storeMutex :: is, l⟩ =
      match H.takeInterfaceGas env GasSchedule.storageStoreChange with
      | some env₁ =>
        .inl ⟨env₁, Function.update now mutexSlot (memBytes 0), some b, is, { l with value := 0 }⟩
      | none => .inr (.trap, s) := by
  have hvalue : runStep GuardInstr.effect g H false s
      ⟨env, now, some b, .storeValue 0 :: .storeMutex :: is, l⟩ =
      .inl ⟨env, now, some b, .storeMutex :: is, { l with value := 0 }⟩ := runStep_cons ..
  rw [Lib.runFor_succ_of_inl hvalue]
  have hpath : memBytes l.slot = mutexSlot := congrArg memBytes hslot
  have hstore : runStep GuardInstr.effect g H false s
      ⟨env, now, some b, .storeMutex :: is, { l with value := 0 }⟩ =
      match H.takeInterfaceGas env GasSchedule.storageStoreChange with
      | some env₁ =>
        .inl ⟨env₁, Function.update now mutexSlot (memBytes 0), some b, is, { l with value := 0 }⟩
      | none => .inr (.trap, s) := by
    rw [runStep_cons]
    simp only [GuardInstr.effect, Outside.respond, hpath, chargeStore_zero,
      Bool.false_eq_true, if_false]
    cases H.takeInterfaceGas env GasSchedule.storageStoreChange <;> rfl
  cases hgas : H.takeInterfaceGas env GasSchedule.storageStoreChange with
  | none =>
    rw [hgas] at hstore
    exact Lib.runFor_succ_of_inr hstore 0
  | some env₁ =>
    rw [hgas] at hstore
    exact Lib.runFor_succ_of_inl hstore 0

/-- Before a terminator the rewritten function releases the mutex, and then ends as the original
does. -/
theorem Follows.terminator (h : Follows f H s a a') {i : Instr L} {is : List (Instr L)}
    (hrest : a.point.rest = i :: is) (hi : isTerminator i.operandNames = true) {r : Result}
    (hstep : paidStep f H.toOutside s a = .inr r) :
    ∃ r', Ends (runStep GuardInstr.effect (insertMutex f) H.toOutside false s) a' r' ∧
      SameOutside r r' := by
  obtain ⟨b, l, hb, hinner, hslot, hpoint⟩ := h.point
  obtain ⟨env', storage', point'⟩ := a'
  have hstorage := h.storage
  have henv := h.env
  dsimp only at hpoint hstorage henv
  rw [hrest, unlockBeforeTerminators, if_pos hi] at hpoint
  subst hpoint henv hstorage
  have hunlock := unlock_runs s a.env (Function.update a.storage mutexSlot (memBytes 1)) b
    (.original i :: unlockBeforeTerminators is) hslot (insertMutex f) H.toOutside
  unfold paidStep at hstep
  rw [atTerminator_cons hrest, hi, Bool.true_and] at hstep
  cases hgas : H.takeInterfaceGas a.env GasSchedule.storageStoreChange with
  | none =>
    rw [hgas] at hunlock hstep
    cases hstep
    exact ⟨_, ⟨2, hunlock⟩, .refl _⟩
  | some env₁ =>
    rw [hgas] at hunlock hstep
    rw [Function.update_idem] at hunlock
    -- the terminator itself
    obtain ⟨e, hends⟩ := terminator_ends f H.toOutside s hrest hi
    obtain rfl : (e, e.storage s a.storage) = r := Sum.inr.inj ((hends a.env).symm.trans hstep)
    have hnext : f.next Instr.effect a.point =
        (i.effect a.point.loc).map fun x => ⟨a.point.block, is, x⟩ := by
      rw [Function.next, hrest]
    have hnext' :
        GuardedMain.next (insertMutex f) ⟨some b, .original i :: unlockBeforeTerminators is,
        { l with value := 0 }⟩ = (i.effect a.point.loc).map fun x =>
          ⟨some b, unlockBeforeTerminators is, { l with value := 0 }.with x⟩ := by
      rw [← hinner]
      exact next_original _ _ _ _ _
    have havoid := h.untouched.avoids hnext
    let a₁ : Activation E (Instr L) L B := { a with env := env₁ }
    let a₂ : Activation E (GuardInstr L) (Guarded L) (GuardLabel B) :=
      ⟨env₁, Function.update a.storage mutexSlot (memBytes 0), some b,
        .original i :: unlockBeforeTerminators is, { l with value := 0 }⟩
    have hlast : runFor (runStep GuardInstr.effect (insertMutex f) H.toOutside false s) 2 _ =
        .inl a₂ := hunlock
    rcases runStep_alike H false s a₁ a₂ hnext hnext' rfl rfl havoid with
      ⟨e', s₁, x, hinl, -⟩ | ⟨e', hend, hend'⟩
    · cases (hends env₁).symm.trans hinl
    · obtain rfl : e = e' := congrArg Prod.fst (Sum.inr.inj ((hends env₁).symm.trans hend))
      exact ⟨_, (Lib.ends_iff_of_runFor hlast _).mpr (.of_step hend'), sameOutside_storage _ _ _ _⟩

/-- **In front of any other instruction** the two functions step, or end, together. -/
theorem Follows.alike (h : Follows f H s a a') (hplain : atTerminator a.point.rest = false) :
    (∃ a₁ a₁', paidStep f H.toOutside s a = .inl a₁ ∧
      runStep GuardInstr.effect (insertMutex f) H.toOutside false s a' = .inl a₁' ∧
      Follows f H s a₁ a₁') ∨
    ∃ r r', paidStep f H.toOutside s a = .inr r ∧
      runStep GuardInstr.effect (insertMutex f) H.toOutside false s a' = .inr r' ∧
      SameOutside r r' := by
  obtain ⟨X, eff, φ, φ', hnext, hnext', hpoints⟩ := h.effect hplain
  have hpaid : paidStep f H.toOutside s a = _ := paidStep_of_plain hplain
  rcases runStep_alike H false s a a' hnext hnext' h.env h.storage (h.untouched.avoids hnext) with
    ⟨e, s₁, x, hinl, hinl'⟩ | ⟨e, hend, hend'⟩
  · rw [hinl] at hpaid
    exact Or.inl ⟨_, _, hpaid, hinl', rfl, rfl, hpoints x, h.untouched.next hpaid⟩
  · rw [hend] at hpaid
    refine Or.inr ⟨_, _, hpaid, hend', ?_⟩
    rw [h.storage]
    exact sameOutside_storage _ _ _ _

theorem paidStep_terminator (f : Function (Instr L) L B) (H : Outside E) (s : Storage)
    (hterm : atTerminator a.point.rest = true) :
    ∃ i is, a.point.rest = i :: is ∧ isTerminator i.operandNames = true ∧
      ∃ r, paidStep f H s a = .inr r := by
  cases hrest : a.point.rest with
  | nil =>
    rw [hrest] at hterm
    cases hterm
  | cons i is =>
    have hi := (atTerminator_cons hrest).symm.trans hterm
    obtain ⟨e, hends⟩ := terminator_ends f H s hrest hi
    refine ⟨i, is, rfl, hi, ?_⟩
    unfold paidStep
    split
    · exact ⟨_, rfl⟩
    · exact ⟨_, hends a.env⟩

/-- **The rewritten function follows the original one that pays for the mutex.** -/
theorem simulation (f : Function (Instr L) L B) (H : Env E) (s : Storage) :
    Simulation (paidStep f H.toOutside s)
      (runStep GuardInstr.effect (insertMutex f) H.toOutside false s)
      (Follows f H s) SameOutside where
  next := by
    intro a a' a₁ h hstep
    cases hterm : atTerminator a.point.rest with
    | true =>
      obtain ⟨i, is, -, -, r, hr⟩ := paidStep_terminator f H.toOutside s hterm
      cases hstep.symm.trans hr
    | false =>
      rcases h.alike hterm with ⟨b₁, b₁', hinl, hinl', hfollows⟩ | ⟨r, r', hend, -⟩
      · cases hstep.symm.trans hinl
        exact ⟨0, b₁', Lib.runFor_succ_of_inl hinl' 0, hfollows⟩
      · cases hstep.symm.trans hend
  last := by
    intro a a' r h hstep
    cases hterm : atTerminator a.point.rest with
    | true =>
      obtain ⟨i, is, hrest, hi, -⟩ := paidStep_terminator f H.toOutside s hterm
      exact h.terminator hrest hi hstep
    | false =>
      rcases h.alike hterm with ⟨a₁, a₁', hinl, -⟩ | ⟨r₁, r₁', hend, hend', hsame⟩
      · cases hstep.symm.trans hinl
      · cases hstep.symm.trans hend
        exact ⟨r₁', .of_step hend', hsame⟩

end Simulation

/-! ## §5 — the guard, and how the call ends. -/

section Guard

variable {f : Function (Instr L) L B} {H : Env E} {isStatic : Bool} {s : Storage} {e e₁ : E} {l : L}
  {u v : Word} {c : Bool}

/-- A call that finds the cell free, and has the gas to look, comes to the lock. -/
theorem guard_runs {H : Outside E} (hfree : s mutexSlot = Bytes32.of 0)
    (hload : H.takeInterfaceGas e GasSchedule.storageLoad = some e₁) :
    runFor (runStep GuardInstr.effect (insertMutex f) H isStatic s) 5
      ⟨e, s, (insertMutex f).point none ⟨l, u, v, c⟩⟩ =
      .inl ⟨e₁, s, some .tail, .storeMutex :: unlockBeforeTerminators f.entry.code,
        ⟨l, mutexAddress, 1, false⟩⟩ := by
  have hzero : memWord (s (memBytes mutexAddress)) = 0 := (memWord_eq_zero_iff _).mpr hfree
  have hslot : runStep GuardInstr.effect (insertMutex f) H isStatic s
      ⟨e, s, (insertMutex f).point none ⟨l, u, v, c⟩⟩ =
      .inl ⟨e, s, none, [.loadMutex, .icmpNE], ⟨l, mutexAddress, v, c⟩⟩ := runStep_cons ..
  have hloaded : runStep GuardInstr.effect (insertMutex f) H isStatic s
      ⟨e, s, none, [.loadMutex, .icmpNE], ⟨l, mutexAddress, v, c⟩⟩ =
      .inl ⟨e₁, s, none, [.icmpNE], ⟨l, mutexAddress, 0, c⟩⟩ := by
    rw [runStep_cons]
    simp only [GuardInstr.effect, Outside.respond, hload, hzero]
  rw [Lib.runFor_succ_of_inl hslot, Lib.runFor_succ_of_inl hloaded]
  rfl

/-- Without the gas to look, the call fails. -/
theorem guard_fails {H : Outside E} (hload : H.takeInterfaceGas e GasSchedule.storageLoad = none) :
    Ends (runStep GuardInstr.effect (insertMutex f) H isStatic s)
      ⟨e, s, (insertMutex f).point none ⟨l, u, v, c⟩⟩ (.trap, s) := by
  have hslot : runStep GuardInstr.effect (insertMutex f) H isStatic s
      ⟨e, s, (insertMutex f).point none ⟨l, u, v, c⟩⟩ =
      .inl ⟨e, s, none, [.loadMutex, .icmpNE], ⟨l, mutexAddress, v, c⟩⟩ := runStep_cons ..
  have hloaded : runStep GuardInstr.effect (insertMutex f) H isStatic s
      ⟨e, s, none, [.loadMutex, .icmpNE], ⟨l, mutexAddress, v, c⟩⟩ = .inr (.trap, s) := by
    rw [runStep_cons]
    simp only [GuardInstr.effect, Outside.respond, hload]
    rfl
  exact ⟨2, (Lib.runFor_succ_of_inl hslot 1).trans (Lib.runFor_succ_of_inr hloaded 0)⟩

/-- The lock, where it is paid for. -/
theorem lock_runs (f : Function (Instr L) L B) (H : Outside E) (isStatic : Bool) (e₂ : E) (l : L)
    (is : List (GuardInstr L)) (hfree : s mutexSlot = Bytes32.of 0) :
    runStep GuardInstr.effect (insertMutex f) H isStatic s
        ⟨e₂, s, some .tail, .storeMutex :: is, ⟨l, mutexAddress, 1, false⟩⟩ =
      if isStatic then .inr (.trap, s)
      else
        match H.chargeStore e₂ (Bytes32.of 0) (memBytes 1) with
        | some e' =>
          .inl ⟨e', Function.update s mutexSlot (memBytes 1), some .tail, is,
            ⟨l, mutexAddress, 1, false⟩⟩
        | none => .inr (.trap, s) := by
  rw [runStep_cons]
  have hcell : s (memBytes mutexAddress) = Bytes32.of 0 := hfree
  simp only [GuardInstr.effect, Outside.respond, hcell]
  cases isStatic with
  | true => rfl
  | false =>
    simp only [Bool.false_eq_true, if_false]
    cases H.chargeStore e₂ (Bytes32.of 0) (memBytes 1) <;> rfl

/-- What the guard takes, in two parts. -/
theorem payGuard_of_load {H : Outside E}
    (hload : H.takeInterfaceGas e GasSchedule.storageLoad = some e₁) :
    H.payGuard e = H.chargeStore e₁ (Bytes32.of 0) (memBytes 1) := by
  unfold Outside.payGuard
  rw [hload]
  rfl

theorem payGuard_of_no_load {H : Outside E}
    (hload : H.takeInterfaceGas e GasSchedule.storageLoad = none) : H.payGuard e = none := by
  unfold Outside.payGuard
  rw [hload]
  rfl

/-- A static call of the rewritten function fails: the lock is a store. -/
theorem static_call_fails {H : Outside E} (hfree : s mutexSlot = Bytes32.of 0) :
    Ends (runStep GuardInstr.effect (insertMutex f) H true s)
      ⟨e, s, (insertMutex f).point none ⟨l, u, v, c⟩⟩ (.trap, s) := by
  cases hload : H.takeInterfaceGas e GasSchedule.storageLoad with
  | none => exact guard_fails hload
  | some e₁ =>
    exact (Lib.ends_iff_of_runFor (guard_runs hfree hload) _).mpr
      (.of_step (lock_runs f H true e₁ l _ hfree))

/-- So does one that cannot pay. -/
theorem poor_call_fails {H : Outside E} (hfree : s mutexSlot = Bytes32.of 0)
    (hpay : H.payGuard e = none) :
    Ends (runStep GuardInstr.effect (insertMutex f) H false s)
      ⟨e, s, (insertMutex f).point none ⟨l, u, v, c⟩⟩ (.trap, s) := by
  cases hload : H.takeInterfaceGas e GasSchedule.storageLoad with
  | none => exact guard_fails hload
  | some e₁ =>
    have hlock := lock_runs f H false e₁ l (unlockBeforeTerminators f.entry.code) hfree
    rw [← payGuard_of_load hload, hpay] at hlock
    exact (Lib.ends_iff_of_runFor (guard_runs hfree hload) _).mpr (.of_step hlock)

/-- Any other call takes the mutex, and follows the original function from its first instruction
on. -/
theorem call_follows {e' : E} (hfree : s mutexSlot = Bytes32.of 0) (hpay : H.payGuard e = some e')
    (h : Untouched f H.toOutside s ⟨e', s, f.point none l⟩) :
    ∃ a', runFor (runStep GuardInstr.effect (insertMutex f) H.toOutside false s) 6
        ⟨e, s, (insertMutex f).point none ⟨l, u, v, c⟩⟩ = .inl a' ∧
      Follows f H s ⟨e', s, f.point none l⟩ a' := by
  refine ⟨⟨e', Function.update s mutexSlot (memBytes 1), some .tail,
    unlockBeforeTerminators f.entry.code, ⟨l, mutexAddress, 1, false⟩⟩, ?_, rfl, rfl, ⟨.tail, _,
    rfl, rfl, rfl, rfl⟩, h⟩
  cases hload : H.takeInterfaceGas e GasSchedule.storageLoad with
  | none =>
    rw [payGuard_of_no_load hload] at hpay
    cases hpay
  | some e₁ =>
    have hlock := lock_runs f H.toOutside false e₁ l (unlockBeforeTerminators f.entry.code) hfree
    rw [← payGuard_of_load hload, hpay] at hlock
    exact (Lib.runFor_add_of_inl (guard_runs hfree hload) 1).trans (Lib.runFor_succ_of_inl hlock 0)

/-- **A call that is not static ends as `main` does when it pays for the mutex.** -/
theorem paid_alike (f : Function (Instr L) L B) (H : Env E) (e : E) (l : L) (u v : Word) (c : Bool)
    (hfree : s mutexSlot = Bytes32.of 0)
    (huntouched : ∀ e', H.payGuard e = some e' →
      Untouched f H.toOutside s ⟨e', s, f.point none l⟩) :
    EndsAlike SameOutside (PaidEnds f H.toOutside e s l)
      (Ends (runStep GuardInstr.effect (insertMutex f) H.toOutside false s)
        ⟨e, s, (insertMutex f).point none ⟨l, u, v, c⟩⟩) := by
  unfold PaidEnds
  cases hpay : H.payGuard e with
  | none =>
    have hfail := poor_call_fails (f := f) (l := l) (u := u) (v := v) (c := c) hfree hpay
    constructor
    · rintro r rfl
      exact ⟨_, hfail, .refl _⟩
    · intro r' hr'
      exact ⟨_, rfl, (hfail.unique hr') ▸ .refl _⟩
  | some e' =>
    obtain ⟨a', hrun, hfollows⟩ :=
      call_follows (u := u) (v := v) (c := c) hfree hpay (huntouched e' hpay)
    have halike := (simulation f H s).endsAlike hfollows
    refine ⟨fun r hr => ?_, fun r' hr' => ?_⟩
    · obtain ⟨r', hr', hsame⟩ := halike.1 r hr
      exact ⟨r', (Lib.ends_iff_of_runFor hrun r').mpr hr', hsame⟩
    · exact halike.2 r' ((Lib.ends_iff_of_runFor hrun r').mp hr')

/-- A call of the function that the pass leaves. -/
theorem transparent_cases [DecidableEq B] (f : Function (Instr L) L B) (H : Env E)
    (isStatic : Bool) (e : E) (l : L) (u v : Word) (c : Bool) (hfree : s mutexSlot = Bytes32.of 0)
    (huntouched : ∀ e', H.payGuard e = some e' →
      Untouched f H.toOutside s ⟨e', s, f.point none l⟩) :
    EndsAlike SameOutside (OriginalEnds f H isStatic e s l)
        (PassedEnds (runOnFunction "main" f) H isStatic e s l u v c) ↔
      detectBug f.cfg = false ∨ (isStatic = true ∧ ∃ t, OriginalEnds f H true e s l (.trap, t)) ∨
        (isStatic = false ∧
          EndsAlike SameOutside (OriginalEnds f H false e s l) (PaidEnds f H.toOutside e s l)) := by
  cases hbug : detectBug f.cfg with
  | false =>
    have hsame : PassedEnds (runOnFunction "main" f) H isStatic e s l u v c =
        OriginalEnds f H isStatic e s l := by
      rw [PassedEnds, runOnFunction_main, hbug]
      rfl
    rw [hsame]
    exact iff_of_true (endsAlike_refl _) (.inl rfl)
  | true =>
    have hpassed : PassedEnds (runOnFunction "main" f) H isStatic e s l u v c =
        Ends (runStep GuardInstr.effect (insertMutex f) H.toOutside isStatic s)
          ⟨e, s, (insertMutex f).point none ⟨l, u, v, c⟩⟩ := by
      rw [PassedEnds, runOnFunction_main, hbug]
      rfl
    rw [hpassed]
    cases isStatic with
    | false =>
      have hpaid := paid_alike f H e l u v c hfree huntouched
      constructor
      · intro h
        exact .inr (.inr ⟨rfl, h.trans (hpaid.symm fun _ _ => .symm) fun _ _ _ => .trans⟩)
      · rintro (h | ⟨h, -⟩ | ⟨-, h⟩)
        · cases h
        · cases h
        · exact h.trans hpaid fun _ _ _ => .trans
    | true =>
      have hfail :=
        static_call_fails (f := f) (H := H.toOutside) (e := e) (l := l) (u := u) (v := v) (c := c)
          hfree
      constructor
      · rintro ⟨-, hback⟩
        obtain ⟨⟨e', t⟩, hr, hsame, -⟩ := hback _ hfail
        cases hsame
        exact .inr (.inl ⟨rfl, t, hr⟩)
      · rintro (h | ⟨-, t, ht⟩ | ⟨h, -⟩)
        · cases h
        · obtain ⟨n, hn⟩ := id ht
          obtain rfl := storage_of_trap hn
          refine ⟨fun r hr => ⟨_, hfail, ?_⟩, fun r hr => ⟨_, ht, ?_⟩⟩
          · rw [Ends.unique hr ht]
            exact .refl _
          · rw [Ends.unique hr hfail]
            exact .refl _
        · cases h

end Guard

/-! ## §6 — gas that nobody misses. -/

section Unnoticed

variable {f : Function (Instr L) L B} {H : Outside E} {s : Storage} {e : E} {l : L}

/-- **Nobody notices that gas is gone**: in every state of the run of `main` the next instruction is
answered as it is with the gas that `less` takes away, and at a terminator there is enough for the
unlock. -/
structure Unnoticed (f : Function (Instr L) L B) (H : Outside E) (s : Storage) (less : E → E)
    (a : Activation E (Instr L) L B) : Prop where
  alike : ∀ n a₁, runFor (runStep Instr.effect f H false s) n a = .inl a₁ →
    runStep Instr.effect f H false s { a₁ with env := less a₁.env } =
      Sum.map (fun a₂ => { a₂ with env := less a₂.env }) id (runStep Instr.effect f H false s a₁)
  unlock : ∀ n a₁, runFor (runStep Instr.effect f H false s) n a = .inl a₁ →
    atTerminator a₁.point.rest = true →
    H.takeInterfaceGas (less a₁.env) GasSchedule.storageStoreChange ≠ none

theorem Unnoticed.next {less : E → E} {a a₁ : Activation E (Instr L) L B}
    (h : Unnoticed f H s less a) (hstep : runStep Instr.effect f H false s a = .inl a₁) :
    Unnoticed f H s less a₁ where
  alike n a₂ hrun := h.alike (n + 1) a₂ ((Lib.runFor_succ_of_inl hstep n).trans hrun)
  unlock n a₂ hrun := h.unlock (n + 1) a₂ ((Lib.runFor_succ_of_inl hstep n).trans hrun)

theorem Unnoticed.paidStep_eq {less : E → E} {a : Activation E (Instr L) L B}
    (h : Unnoticed f H s less a) :
    paidStep f H s { a with env := less a.env } =
      Sum.map (fun a₂ => { a₂ with env := less a₂.env }) id
        (runStep Instr.effect f H false s a) := by
  rw [← h.alike 0 a rfl, paidStep, if_neg]
  intro hno
  obtain ⟨hterm, hgas⟩ := Bool.and_eq_true_iff.mp hno
  exact h.unlock 0 a rfl hterm (Option.isNone_iff_eq_none.mp hgas)

/-- Then `main` ends the same when it pays for the mutex. -/
theorem paid_of_unnoticed {less : E → E} (hpay : H.payGuard e = some (less e))
    (h : Unnoticed f H s less ⟨e, s, f.point none l⟩) :
    EndsAlike (· = ·) (Ends (runStep Instr.effect f H false s) ⟨e, s, f.point none l⟩)
      (PaidEnds f H e s l) := by
  have hsim : Simulation (runStep Instr.effect f H false s) (paidStep f H s)
      (fun a a' => a' = { a with env := less a.env } ∧ Unnoticed f H s less a) (· = ·) := by
    constructor
    · rintro a a' a₁ ⟨rfl, hun⟩ hstep
      have hpaid := hun.paidStep_eq
      rw [hstep] at hpaid
      exact ⟨0, _, Lib.runFor_succ_of_inl hpaid 0, rfl, hun.next hstep⟩
    · rintro a a' r ⟨rfl, hun⟩ hstep
      have hpaid := hun.paidStep_eq
      rw [hstep] at hpaid
      exact ⟨r, .of_step hpaid, rfl⟩
  unfold PaidEnds
  rw [hpay]
  exact hsim.endsAlike ⟨rfl, h⟩

/-- Where interface gas is not metered nothing is ever gone. -/
theorem unnoticed_of_unmetered (hfree : ∀ e n, H.takeInterfaceGas e n = some e)
    (a : Activation E (Instr L) L B) : Unnoticed f H s id a where
  alike n a₁ _ := by
    show runStep Instr.effect f H false s a₁ = _
    cases runStep Instr.effect f H false s a₁ <;> rfl
  unlock n a₁ _ _ := by
    rw [hfree]
    exact Option.some_ne_none _

theorem payGuard_of_unmetered (hfree : ∀ e n, H.takeInterfaceGas e n = some e) :
    H.payGuard e = some (id e) := by
  rw [payGuard_of_load (hfree e _)]
  unfold Outside.chargeStore
  simp only [hfree, Option.bind_eq_bind, Option.bind_some]
  split <;> rfl

end Unnoticed

/-- **When hardening is transparent.** Take a call that finds the slot of the mutex 0, is not
re-entered and does not touch that slot. It ends the same way, with the same output and the same
storage outside the slot, if and only if the pass left `main` alone, or the call is static and
`main` itself fails, or the call is not static and `main` ends the same when it pays for the mutex.
This last is so whenever nobody notices that the gas of the guard is gone. Where interface gas is
not metered, the condition is that the pass left `main` alone, the call is not static, or `main`
itself fails. -/
theorem transparent_iff [DecidableEq B] (f : Function (Instr L) L B) (H : Env E) (isStatic : Bool)
    (e : E) (s : Storage) (l : L) (u v : Word) (c : Bool) (hfree : s mutexSlot = Bytes32.of 0)
    (huntouched : ∀ e', H.payGuard e = some e' →
      Untouched f H.toOutside s ⟨e', s, f.point none l⟩) :
    (EndsAlike SameOutside (OriginalEnds f H isStatic e s l)
        (PassedEnds (runOnFunction "main" f) H isStatic e s l u v c) ↔
      detectBug f.cfg = false ∨ (isStatic = true ∧ ∃ t, OriginalEnds f H true e s l (.trap, t)) ∨
        (isStatic = false ∧
          EndsAlike SameOutside (OriginalEnds f H false e s l) (PaidEnds f H.toOutside e s l))) ∧
    (∀ less, H.payGuard e = some (less e) → Unnoticed f H.toOutside s less ⟨e, s, f.point none l⟩ →
      EndsAlike SameOutside (OriginalEnds f H false e s l) (PaidEnds f H.toOutside e s l)) ∧
    ((∀ e n, H.takeInterfaceGas e n = some e) →
      (EndsAlike SameOutside (OriginalEnds f H isStatic e s l)
          (PassedEnds (runOnFunction "main" f) H isStatic e s l u v c) ↔
        detectBug f.cfg = false ∨ isStatic = false ∨
        ∃ t, OriginalEnds f H true e s l (.trap, t))) := by
  have hspare : ∀ less, H.payGuard e = some (less e) →
      Unnoticed f H.toOutside s less ⟨e, s, f.point none l⟩ →
      EndsAlike SameOutside (OriginalEnds f H false e s l) (PaidEnds f H.toOutside e s l) :=
    fun less hpay hun => (paid_of_unnoticed hpay hun).trans (endsAlike_refl _)
      fun r r' r'' h h' => h ▸ h'
  have hiff := transparent_cases f H isStatic e l u v c hfree huntouched
  refine ⟨hiff, hspare, fun hunmetered => hiff.trans ?_⟩
  have hpaid := hspare id (payGuard_of_unmetered hunmetered) (unnoticed_of_unmetered hunmetered _)
  cases isStatic with
  | true => simp
  | false => simp [hpaid]

/-- The contract of the test: `balances`, which only reads, and `withdrawFunds`; what is called is
told by the calldata. -/
def etherStore : Function (Instr Bool) Bool Bool where
  entry := { code := [], succs := [true, false], next := some, next_mem := mem_branches }
  block
    | true =>
      { code :=
          [.storageLoad (fun _ => some (Bytes32.of 0)) (fun l _ => some l),
            .finish (fun _ => some [])]
        succs := []
        next := fun _ => none
        next_mem := mem_no_succs }
    | false =>
      { code :=
          [.call .call (fun _ => some []) (fun l _ => l),
            .storageStore (fun _ => some (Bytes32.of 0)) (fun _ => some (Bytes32.of 7)),
            .finish (fun _ => some [])]
        succs := []
        next := fun _ => none
        next_mem := mem_no_succs }
  body := [true, false]
  mem_body := mem_two_blocks

/-- An environment that keeps a counter of gas. Calls cost 700, succeed and do nothing. -/
def meteredEnv : Env Int where
  takeInterfaceGas gas n := if n ≤ gas then some (gas - n) else none
  accountExists _ _ := true
  answer gas _ _ := if 2 ≤ gas then some (gas - 2, ⟨0, []⟩) else none
  call gas _ _ s := if 700 ≤ gas then some (gas - 700, ⟨0, []⟩, s) else none
  call_update gas _ _ _ _ := by split <;> rfl

theorem balances_unnoticed : Unnoticed etherStore meteredEnv.toOutside emptyStorage (· - 20200)
    ⟨30000, emptyStorage, etherStore.point none true⟩ where
  alike n a₁ h := by
    match n with
    | 0 => cases h; rfl
    | 1 => cases h; rfl
    | 2 => cases h; rfl
    | n + 3 => cases h
  unlock n a₁ h hterm := by
    match n with
    | 0 => cases h; cases hterm
    | 1 => cases h; cases hterm
    | 2 => cases h; decide
    | n + 3 => cases h

theorem balances_untouched (gas : Int) (hpay : meteredEnv.payGuard 30000 = some gas) :
    Untouched etherStore meteredEnv.toOutside emptyStorage ⟨gas, emptyStorage,
      etherStore.point none true⟩ := by
  obtain rfl : 9800 = gas := Option.some.inj hpay
  intro n a' h
  have hpath : Bytes32.of 0 ≠ mutexSlot := by decide
  match n with
  | 0 => cases h; exact trivial
  | 1 => cases h; exact hpath
  | 2 => cases h; exact trivial
  | n + 3 => cases h

/-- An ordinary call of `balances`, with the gas for the guard. -/
theorem transparent_iff_balances : EndsAlike SameOutside
    (OriginalEnds etherStore meteredEnv false 30000 emptyStorage true)
    (PassedEnds (runOnFunction "main" etherStore) meteredEnv false 30000 emptyStorage true
      0 0 false) := by
  obtain ⟨hiff, hunnoticed, -⟩ :=
    transparent_iff etherStore meteredEnv false 30000 emptyStorage true 0 0 false rfl
      balances_untouched
  exact hiff.mpr (.inr (.inr ⟨rfl, hunnoticed (· - 20200) rfl balances_unnoticed⟩))

/-- **A view call into a guarded contract fails**: `balances` returns, and the guarded `balances`
traps. So does an ordinary call that has the gas for `balances` and not for the guard. -/
theorem static_balances_fails :
    emptyStorage mutexSlot = Bytes32.of 0 ∧
    (∀ gas, meteredEnv.payGuard 30000 = some gas →
      Untouched etherStore meteredEnv.toOutside emptyStorage
        ⟨gas, emptyStorage, etherStore.point none true⟩) ∧
    OriginalEnds etherStore meteredEnv true 30000 emptyStorage true (.finish [], emptyStorage) ∧
    PassedEnds (runOnFunction "main" etherStore) meteredEnv true 30000 emptyStorage true 0 0 false
      (.trap, emptyStorage) ∧
    ¬ EndsAlike SameOutside (OriginalEnds etherStore meteredEnv true 30000 emptyStorage true)
      (PassedEnds (runOnFunction "main" etherStore) meteredEnv true 30000 emptyStorage true
        0 0 false) ∧
    OriginalEnds etherStore meteredEnv false 20000 emptyStorage true (.finish [], emptyStorage) ∧
    PassedEnds (runOnFunction "main" etherStore) meteredEnv false 20000 emptyStorage true 0 0 false
      (.trap, emptyStorage) := by
  have hreturns :
      OriginalEnds etherStore meteredEnv true 30000 emptyStorage true (.finish [], emptyStorage) :=
    ⟨3, rfl⟩
  have hfails :
      PassedEnds (runOnFunction "main" etherStore) meteredEnv true 30000 emptyStorage true 0 0 false
      (.trap, emptyStorage) := static_call_fails rfl
  refine ⟨rfl, balances_untouched, hreturns, hfails, ?_, ⟨3, rfl⟩, poor_call_fails rfl (by decide)⟩
  rintro ⟨-, hback⟩
  obtain ⟨r, hr, hsame, -⟩ := hback _ hfails
  rw [Ends.unique hr hreturns] at hsame
  cases hsame

end EvmTrans.Llvm
