/-
# `EvmTrans.Lib.Dominance` — names that are defined before they are read.

An instruction may define a name, and reads some. In straight-line code `Scoped` is the whole
matter: every name that is read was available in front of the code, or is defined further up. In a
flow graph a name is read in one block and defined in another, and the definition has to stand on
every path. `FlowGraph.scoped_on_paths` reduces that to single edges: it is enough to say of each
block which names it may count on, and to check that all that go to it provide them.
-/
import Mathlib.Data.List.Basic
import Mathlib.Tactic.Common

namespace EvmTrans.Lib

/-! ## §1 — straight-line code. -/

/-- What an instruction defines and what it reads. -/
structure Scoping (I R : Type*) where
  defines : I → Option R
  reads : I → List R

namespace Scoping

variable {I R : Type*} (S : Scoping I R) {A B : R → Prop}

/-- The names that code defines, in its order. -/
def definitions (is : List I) : List R := is.filterMap S.defines

/-- **Every name is available or defined before it is read.** -/
def Scoped : (R → Prop) → List I → Prop
  | _, [] => True
  | A, x :: is => (∀ r ∈ S.reads x, A r) ∧ Scoped (fun r => A r ∨ S.defines x = some r) is

variable {S}

@[simp] theorem definitions_nil : S.definitions [] = [] := rfl

@[simp] theorem definitions_append (is js : List I) :
    S.definitions (is ++ js) = S.definitions is ++ S.definitions js :=
  List.filterMap_append

theorem mem_definitions_cons {x : I} {is : List I} {r : R} :
    r ∈ S.definitions (x :: is) ↔ S.defines x = some r ∨ r ∈ S.definitions is := by
  simp only [definitions, List.mem_filterMap, List.mem_cons, exists_eq_or_imp]

/-- More names do no harm. -/
theorem Scoped.mono {is : List I} (h : S.Scoped A is) (hAB : ∀ r, A r → B r) : S.Scoped B is := by
  induction is generalizing A B with
  | nil => trivial
  | cons x is ih =>
    obtain ⟨hx, his⟩ := h
    exact ⟨fun r hr => hAB r (hx r hr), ih his fun r hr => hr.imp_left (hAB r)⟩

/-- What follows may count on what goes before. -/
theorem scoped_append {is js : List I} : S.Scoped A (is ++ js) ↔
    S.Scoped A is ∧ S.Scoped (fun r => A r ∨ r ∈ S.definitions is) js := by
  induction is generalizing A with
  | nil => simp [Scoped]
  | cons x is ih =>
    rw [List.cons_append, Scoped, Scoped, ih, and_assoc]
    refine and_congr_right fun _ => and_congr_right fun _ => ?_
    have hnames : ∀ r, (A r ∨ S.defines x = some r) ∨ r ∈ S.definitions is ↔
        A r ∨ r ∈ S.definitions (x :: is) := fun r => by
      rw [mem_definitions_cons, or_assoc]
    exact ⟨fun h => h.mono fun r => (hnames r).mp, fun h => h.mono fun r => (hnames r).mpr⟩

theorem Scoped.append {is js : List I} (h : S.Scoped A is)
    (hjs : S.Scoped (fun r => A r ∨ r ∈ S.definitions is) js) : S.Scoped A (is ++ js) :=
  scoped_append.mpr ⟨h, hjs⟩

/-- An instruction that defines nothing can be erased. -/
theorem Scoped.erase {is js : List I} {x : I} (h : S.Scoped A (is ++ x :: js))
    (hx : S.defines x = none) : S.Scoped A (is ++ js) := by
  obtain ⟨his, -, hjs⟩ := scoped_append.mp h
  refine his.append (hjs.mono fun r hr => hr.resolve_right fun heq => ?_)
  rw [hx] at heq
  cases heq

theorem definitions_erase {is js : List I} {x : I} (hx : S.defines x = none) :
    S.definitions (is ++ x :: js) = S.definitions (is ++ js) := by
  simp only [definitions, List.filterMap_append, List.filterMap_cons, hx]

end Scoping

/-! ## §2 — the paths of a flow graph. -/

/-- Blocks of straight-line code, and which of them control can go to from which. -/
structure FlowGraph (L I : Type*) where
  entry : L
  code : L → List I
  goes : L → L → Prop

namespace FlowGraph

variable {L I R : Type*} {G : FlowGraph L I} {S : Scoping I R}

/-- **A path from the entry to the block `l`**, and the code of the blocks on the way. -/
inductive Path (G : FlowGraph L I) : L → List I → Prop
  | start : Path G G.entry []
  | next {l l' : L} {done : List I} (h : Path G l done) (hgo : G.goes l l') :
      Path G l' (done ++ G.code l)

/-- What every block counts on has been defined, on whatever path control came. -/
theorem Path.available {avail : L → R → Prop} (hentry : ∀ r, ¬ avail G.entry r)
    (hgoes : ∀ l l' r, G.goes l l' → avail l' r → avail l r ∨ r ∈ S.definitions (G.code l)) {l : L}
    {done : List I} (h : G.Path l done) : ∀ r, avail l r → r ∈ S.definitions done := by
  induction h with
  | start => exact fun r hr => absurd hr (hentry r)
  | next _ hgo ih =>
    intro r hr
    rw [Scoping.definitions_append, List.mem_append]
    exact (hgoes _ _ r hgo hr).imp_left (ih r)

/-- **The rule for graphs.** When each block is scoped over the names it counts on, and every edge
provides them, then on every path every name is defined before it is read. -/
theorem scoped_on_paths {avail : L → R → Prop} (hentry : ∀ r, ¬ avail G.entry r)
    (hgoes : ∀ l l' r, G.goes l l' → avail l' r → avail l r ∨ r ∈ S.definitions (G.code l))
    (hscoped : ∀ l, S.Scoped (avail l) (G.code l)) {l : L} {done : List I} (h : G.Path l done) :
    S.Scoped (fun r => r ∈ S.definitions done) (G.code l) :=
  (hscoped l).mono (h.available hentry hgoes)

end FlowGraph

end EvmTrans.Lib
