/-
# `EvmTrans.Lib.Worklist` — looking for a goal in a graph, with a stack and the nodes pushed so far.

The search keeps two things: a `stack` of nodes still to be scanned, and the nodes `seen`, which
were pushed once and are not pushed again. A node it starts from need not be `seen`. `Explored` says
what is known while no goal has been found; nothing in it depends on where the search started, so
that it carries over from one search to the next when they share what is `seen`.

* `Explored.expand` — one round: the top of the stack is no goal, and its new successors are pushed;
* `Explored.complete` — when the stack is empty, no goal can be reached from any node scanned.

`unseen` is the measure: a round takes one node off the stack, and pushing a node takes it away from
the rest.
-/
import Mathlib.Logic.Relation
import Mathlib.Data.Finset.Card
import Mathlib.Data.Finset.Dedup

namespace EvmTrans.Lib

open Relation (ReflTransGen)

variable {α : Type*}

/-! ## What is known of the graph. -/

/-- **While no goal has been found**: no node scanned is one, its successors have been seen, and a
node seen has been scanned or waits on the stack. -/
structure Explored (edge : α → α → Prop) (goal scanned seen : α → Prop) (stack : List α) :
    Prop where
  clean : ∀ a, scanned a → ¬ goal a
  closed : ∀ a b, scanned a → edge a b → seen b
  covered : ∀ a, seen a → scanned a ∨ a ∈ stack

variable {edge : α → α → Prop} {goal scanned seen seen' : α → Prop}
  {stack stack' : List α} {a b : α}

/-- Before the first search. -/
theorem Explored.start (hseen : ∀ a, ¬ seen a) : Explored edge goal (fun _ => False) seen [] :=
  ⟨nofun, nofun, fun a ha => absurd ha (hseen a)⟩

/-- A search starts from a further node. -/
theorem Explored.push (h : Explored edge goal scanned seen stack) :
    Explored edge goal scanned seen (a :: stack) :=
  ⟨h.clean, h.closed, fun b hb => (h.covered b hb).imp_right (List.mem_cons_of_mem a)⟩

/-- One round. -/
theorem Explored.expand (h : Explored edge goal scanned seen (a :: stack)) (hgoal : ¬ goal a)
    (hsucc : ∀ b, edge a b → seen' b) (hseen : ∀ b, seen b → seen' b)
    (hstack : ∀ b, b ∈ stack → b ∈ stack') (hnew : ∀ b, seen' b → seen b ∨ b ∈ stack') :
    Explored edge goal (fun b => b = a ∨ scanned b) seen' stack' where
  clean := by
    rintro b (rfl | hb)
    · exact hgoal
    · exact h.clean b hb
  closed := by
    rintro b c (rfl | hb) hedge
    · exact hsucc c hedge
    · exact hseen c (h.closed b c hb hedge)
  covered := by
    intro b hb
    rcases hnew b hb with hold | hin
    · rcases h.covered b hold with hdone | htop
      · exact Or.inl (Or.inr hdone)
      · rcases List.mem_cons.mp htop with rfl | hrest
        · exact Or.inl (Or.inl rfl)
        · exact Or.inr (hstack b hrest)
    · exact Or.inr hin

/-- With an empty stack the nodes scanned are closed under edges. -/
theorem Explored.scanned_of_reach (h : Explored edge goal scanned seen []) (ha : scanned a)
    (hreach : ReflTransGen edge a b) : scanned b := by
  induction hreach with
  | refl => exact ha
  | tail _ hedge ih =>
    rcases h.covered _ (h.closed _ _ ih hedge) with hb | hb
    · exact hb
    · cases hb

/-- **Completeness**: what can be reached from a node scanned is no goal. -/
theorem Explored.complete (h : Explored edge goal scanned seen []) (ha : scanned a)
    (hreach : ReflTransGen edge a b) : ¬ goal b :=
  h.clean b (h.scanned_of_reach ha hreach)

/-! ## The measure. -/

variable [DecidableEq α]

/-- The members of `nodes` that are not in `visited`. -/
def unseen (nodes visited : List α) : Nat := (nodes.toFinset \ visited.toFinset).card

theorem unseen_le (nodes visited : List α) : unseen nodes visited ≤ nodes.length :=
  (Finset.card_le_card Finset.sdiff_subset).trans (List.toFinset_card_le nodes)

/-- Seeing a new node takes it away. -/
theorem unseen_visit {nodes visited : List α} (hmem : a ∈ nodes) (hnew : a ∉ visited) :
    unseen nodes (visited ++ [a]) + 1 = unseen nodes visited := by
  have hin : a ∈ nodes.toFinset \ visited.toFinset := by simp [hmem, hnew]
  have herase : nodes.toFinset \ (visited ++ [a]).toFinset =
      (nodes.toFinset \ visited.toFinset).erase a := by
    ext b
    simp only [List.toFinset_append, Finset.mem_sdiff, Finset.mem_union, List.mem_toFinset,
      Finset.mem_erase, List.mem_singleton]
    tauto
  rw [unseen, unseen, herase, Finset.card_erase_add_one hin]

end EvmTrans.Lib
