/-
# `EvmTrans.Lib.Frozen` — frames over one state, some of which forbid that it changes.

A frame knows the state it started from and whether it is frozen. On a stack of frames frozenness is
INHERITED upwards, so a change by the top frame is allowed exactly when no frame forbids it. Four
rules say how such a stack develops.
-/
import Mathlib.Data.List.Basic

namespace EvmTrans.Lib

variable {σ : Type*}

/-- What a frame promises: if it is frozen, the state is the one it started from. -/
structure Guard (σ : Type*) where
  frozen : Prop
  start : σ

/-- **The promises are kept**, and can be: above a frozen frame all are frozen. The top is the
head. -/
structure Frozen (guards : List (Guard σ)) (s : σ) : Prop where
  inherited : guards.Pairwise fun above below => below.frozen → above.frozen
  kept : ∀ g ∈ guards, g.frozen → s = g.start

theorem Frozen.single (g : Guard σ) : Frozen [g] g.start :=
  ⟨List.pairwise_singleton _ g, fun g' hg _ => by rw [List.mem_singleton.mp hg]⟩

/-- A frame starts, frozen if any below is. -/
theorem Frozen.push {guards : List (Guard σ)} {s : σ} {frozen : Prop} (h : Frozen guards s)
    (hinherited : ∀ g ∈ guards, g.frozen → frozen) : Frozen (⟨frozen, s⟩ :: guards) s :=
  ⟨List.pairwise_cons.mpr ⟨hinherited, h.inherited⟩,
    List.forall_mem_cons.mpr ⟨fun _ => rfl, h.kept⟩⟩

theorem Frozen.pop {g : Guard σ} {guards : List (Guard σ)} {s : σ} (h : Frozen (g :: guards) s) :
    Frozen guards s :=
  ⟨(List.pairwise_cons.mp h.inherited).2, (List.forall_mem_cons.mp h.kept).2⟩

/-- The top changes the state, unless it is frozen: then nobody minds. -/
theorem Frozen.change {g : Guard σ} {guards : List (Guard σ)} {s s' : σ}
    (h : Frozen (g :: guards) s) (hchange : g.frozen → s' = s) : Frozen (g :: guards) s' := by
  refine ⟨h.inherited, fun g' hmem hfrozen => ?_⟩
  have htop : g.frozen := by
    rcases List.mem_cons.mp hmem with rfl | hbelow
    · exact hfrozen
    · exact (List.pairwise_cons.mp h.inherited).1 g' hbelow hfrozen
  rw [hchange htop]
  exact h.kept g' hmem hfrozen

/-- The same from outside the stack, under a promise that covers all frames. -/
theorem Frozen.changeUnder {guards : List (Guard σ)} {s s' : σ} {frozen : Prop}
    (h : Frozen guards s) (hinherited : ∀ g ∈ guards, g.frozen → frozen)
    (hchange : frozen → s' = s) : Frozen guards s' :=
  ((h.push hinherited).change hchange).pop

end EvmTrans.Lib
