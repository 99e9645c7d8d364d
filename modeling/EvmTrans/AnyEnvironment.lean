/-
# `EvmTrans.AnyEnvironment` — one activation of a function, in any environment.

What `main` runs in is a host with a state of its own, and the gas that is left is part of that
state. `Outside` is without a law: it may answer what it likes, and a host function may throw at any
time. Two things only are fixed, as `eei.cpp` has them: what the accesses to storage and a
self-destruct take, and what they do once they are paid. `Outside.respond` is all that an activation
gets to see.
-/
import EvmTrans.ReentrancyPass
import EvmTrans.Lib.Transition
import EvmTrans.Hera.Interface

namespace EvmTrans.Llvm

open Hera (GasSchedule.storageLoad GasSchedule.storageStoreChange GasSchedule.storageStoreCreate
  GasSchedule.selfdestruct GasSchedule.callNewAccount)

variable {I L B E : Type}

/-! ## §1 — the environment. -/

/-- Everything outside the activation, with a state of its own. A host function that throws (there
is not enough gas, or it refuses the request) answers `none`. -/
structure Outside (E : Type) where
  takeInterfaceGas : E → Int → Option E
  accountExists : E → Address → Bool
  answer : E → HostQuery → List Byte → Option (E × Reply)
  call : E → ExtCall → List Byte → Storage → Option (E × Reply × Storage)

/-- What `eeiStorageStore` takes. -/
def Outside.chargeStore (H : Outside E) (env : E) (current value : Bytes32) : Option E := do
  let env ← H.takeInterfaceGas env GasSchedule.storageStoreChange
  if current = Bytes32.of 0 ∧ value ≠ Bytes32.of 0 then
    H.takeInterfaceGas env (GasSchedule.storageStoreCreate - GasSchedule.storageStoreChange)
  else return env

/-- What `eeiSelfDestruct` takes. -/
def Outside.chargeSelfDestruct (H : Outside E) (env : E) (dest : Address) : Option E := do
  let env ← H.takeInterfaceGas env GasSchedule.selfdestruct
  if H.accountExists env dest then return env else H.takeInterfaceGas env GasSchedule.callNewAccount

/-- An activation between two instructions. -/
structure Activation (E I L B : Type) where
  env : E
  storage : Storage
  point : Point I L B

/-- An activation ends, with the storage that the host keeps. -/
abbrev Result := Ending × Storage

/-- The answer to one effect: where the activation goes on, or how it ends. A throw is a trap
whatever it is about, so that the order in which gas and static mode are checked does not show. -/
def Outside.respond {P : Type} (H : Outside E) (isStatic : Bool) (onEntry : Storage) (env : E)
    (now : Storage) (eff : Effect P) : (E × Storage × P) ⊕ Result :=
  let stop (e : Ending) : (E × Storage × P) ⊕ Result := .inr (e, e.storage onEntry now)
  match eff with
  | .internal p => .inl (env, now, p)
  | .storageLoad path k =>
    match H.takeInterfaceGas env GasSchedule.storageLoad, k (now path) with
    | some env, some p => .inl (env, now, p)
    | _, _ => stop .trap
  | .storageStore path value p =>
    if isStatic then stop .trap
    else
      match H.chargeStore env (now path) value with
      | some env => .inl (env, Function.update now path value, p)
      | none => stop .trap
  | .query fn args k =>
    match H.answer env fn args with
    | some (env, reply) =>
      match k reply with
      | some p => .inl (env, now, p)
      | none => stop .trap
    | none => stop .trap
  | .call fn args k =>
    match H.call env fn args now with
    | some (env, reply, now) => .inl (env, now, k reply)
    | none => stop .trap
  | .finish out => stop (.finish out)
  | .revert out => stop (.revert out)
  | .selfDestruct dest =>
    if isStatic then stop .trap
    else
      match H.chargeSelfDestruct env dest with
      | some _ => stop (.selfDestruct dest)
      | none => stop .trap
  | .trap => stop .trap

/-- One instruction of an activation entered with the storage `onEntry`. -/
def runStep (exec : I → L → Effect L) (f : Function I L B) (H : Outside E) (isStatic : Bool)
    (onEntry : Storage) (a : Activation E I L B) : Activation E I L B ⊕ Result :=
  match H.respond isStatic onEntry a.env a.storage (f.next exec a.point) with
  | .inl (env, storage, point) => .inl ⟨env, storage, point⟩
  | .inr r => .inr r

/-! ## §2 — one effect. -/

section Respond

variable {H : Outside E} {isStatic : Bool} {onEntry : Storage}

/-- The answer does not depend on where the activation goes on. -/
theorem respond_map {P Q : Type} (φ : P → Q) (env : E) (now : Storage) (eff : Effect P) :
    H.respond isStatic onEntry env now (eff.map φ) =
      Sum.map (fun r => (r.1, r.2.1, φ r.2.2)) id (H.respond isStatic onEntry env now eff) := by
  unfold Outside.respond
  cases eff with
  | storageLoad path k =>
    simp only [Effect.map]
    cases H.takeInterfaceGas env GasSchedule.storageLoad <;> cases k (now path) <;> rfl
  | storageStore path value p =>
    simp only [Effect.map]
    cases isStatic <;> cases H.chargeStore env (now path) value <;> rfl
  | query fn args k =>
    simp only [Effect.map]
    cases H.answer env fn args with
    | none => rfl
    | some r => cases hk : k r.2 <;> simp [hk]
  | call fn args k =>
    simp only [Effect.map]
    cases H.call env fn args now <;> rfl
  | selfDestruct dest =>
    simp only [Effect.map]
    cases isStatic <;> cases H.chargeSelfDestruct env dest <;> rfl
  | _ => rfl

/-- An activation that ends leaves one of two storages. -/
theorem respond_inr {P : Type} {env : E} {now : Storage} {eff : Effect P} {r : Result}
    (h : H.respond isStatic onEntry env now eff = .inr r) : r.2 = r.1.storage onEntry now := by
  unfold Outside.respond at h
  cases eff with
  | internal p => cases h
  | storageLoad path k =>
    dsimp only at h
    split at h
    · cases h
    · cases h; rfl
  | storageStore path value p =>
    dsimp only at h
    split at h
    · cases h; rfl
    · split at h
      · cases h
      · cases h; rfl
  | query fn args k =>
    dsimp only at h
    split at h
    · split at h
      · cases h
      · cases h; rfl
    · cases h; rfl
  | call fn args k =>
    dsimp only at h
    split at h
    · cases h
    · cases h; rfl
  | selfDestruct dest =>
    dsimp only at h
    split at h
    · cases h; rfl
    · split at h <;> (cases h; rfl)
  | _ =>
    cases h
    rfl

/-- In front of an instruction. -/
theorem runStep_cons (exec : I → L → Effect L) (f : Function I L B) (env : E) (now : Storage)
    (b : Option B) (i : I) (is : List I) (l : L) :
    runStep exec f H isStatic onEntry ⟨env, now, b, i :: is, l⟩ =
      match H.respond isStatic onEntry env now (exec i l) with
      | .inl (env', now', x) => .inl ⟨env', now', b, is, x⟩
      | .inr r => .inr r := by
  unfold runStep
  rw [Function.next, respond_map]
  cases H.respond isStatic onEntry env now (exec i l) <;> rfl

/-- At the end of a block. -/
theorem runStep_nil (exec : I → L → Effect L) (f : Function I L B) (env : E) (now : Storage)
    (b : Option B) (l : L) :
    runStep exec f H isStatic onEntry ⟨env, now, b, [], l⟩ =
      match (f.at b).next l with
      | some c => .inl ⟨env, now, f.point (some c) l⟩
      | none => .inr (.trap, onEntry) := by
  unfold runStep
  rw [Function.next]
  cases (f.at b).next l <;> rfl

theorem runStep_inr {exec : I → L → Effect L} {f : Function I L B} {a : Activation E I L B}
    {r : Result} (h : runStep exec f H isStatic onEntry a = .inr r) :
    r.2 = r.1.storage onEntry a.storage := by
  unfold runStep at h
  split at h
  · cases h
  · rename_i hresp
    cases h
    exact respond_inr hresp

/-- A failed activation leaves the storage that it was entered with. -/
theorem storage_of_trap {exec : I → L → Effect L} {f : Function I L B} {n : Nat} :
    ∀ {a : Activation E I L B} {t : Storage},
      Lib.runFor (runStep exec f H isStatic onEntry) n a = .inr (.trap, t) → t = onEntry := by
  induction n with
  | zero =>
    intro a t h
    cases h
  | succ n ih =>
    intro a t h
    cases hstep : runStep exec f H isStatic onEntry a with
    | inl a₁ =>
      rw [Lib.runFor_succ_of_inl hstep] at h
      exact ih h
    | inr r =>
      rw [Lib.runFor_succ_of_inr hstep] at h
      cases h
      exact runStep_inr hstep

end Respond

end EvmTrans.Llvm
