/-
# `EvmTrans.ReentrancySearch` — `EstimateReenrancePass::detectBug` finds exactly the calls before a
store.

The searches start at the blocks of the calls found and share `visited`. A block that a search
starts from is scanned without being put on that list, so it can be scanned again; what `visited`
does promise is that a block on it was pushed, hence scanned without a store, and its successors
pushed in turn. That is `Lib.Explored`, which holds between two searches with an empty stack.

One round is written for any goal here, because another pass searches the same way for other calls.
-/
import EvmTrans.ReentrancyPass
import EvmTrans.Lib.Worklist

namespace EvmTrans.Llvm

open Lib (whileLoop whileLoop_ends Explored unseen unseen_le unseen_visit)
open Relation (ReflTransGen)

variable {B : Type} [DecidableEq B]

/-! ## §1 — a search for any goal. -/

omit [DecidableEq B] in
/-- `getTerminator()->getSuccessor(I)` for some `I`. -/
def Cfg.Edge (c : Cfg B) (b d : Option B) : Prop := ∃ successor ∈ c.succs b, d = some successor

/-- A block of the function. -/
def Cfg.Block (c : Cfg B) (b : Option B) : Prop := b ∈ none :: c.body.map some

/-- One round of a search for a block with `goal`. -/
def searchRound (goal : Option B → Bool) (c : Cfg B) (s : Search B) : Option (Search B) :=
  if s.found then none
  else
    match s.fifo with
    | [] => none
    | dnode :: fifo =>
      if goal dnode then some { s with fifo := fifo, found := true }
      else some (pushSuccessors { s with fifo := fifo } (c.succs dnode))

/-- Does the block hold a call of `ethereum.storageStore`? -/
def Cfg.stores (c : Cfg B) (b : Option B) : Bool := (c.operands b).any isStorageStore

/-- Does the block hold a call of `ethereum.call`? -/
def Cfg.extCalls (c : Cfg B) (b : Option B) : Bool := (c.operands b).any isExtCall

theorem searchStep_eq (c : Cfg B) : searchStep c = searchRound c.stores c := rfl

/-- What pushing successors does. -/
structure Pushed (nodes : List B) (s s' : Search B) (succs : List B) : Prop where
  found : s'.found = s.found
  visited : ∀ b, b ∈ s'.visited ↔ b ∈ s.visited ∨ b ∈ succs
  old : ∀ b, b ∈ s.fifo → b ∈ s'.fifo
  new : ∀ b, b ∈ s'.visited → b ∈ s.visited ∨ some b ∈ s'.fifo
  only : ∀ b, b ∈ s'.fifo → b ∈ s.fifo ∨ ∃ successor ∈ succs, b = some successor
  measure : s'.fifo.length + unseen nodes s'.visited = s.fifo.length + unseen nodes s.visited

theorem pushed_refl (nodes : List B) (s : Search B) : Pushed nodes s s [] where
  found := rfl
  visited := by simp
  old := fun _ h => h
  new := fun _ h => Or.inl h
  only := fun _ h => Or.inl h
  measure := rfl

/-- One successor more, in front of those still to come. -/
theorem Pushed.cons {nodes : List B} {s s₁ s' : Search B} {successor : B} {succs : List B}
    (h : Pushed nodes s s₁ [successor]) (h' : Pushed nodes s₁ s' succs) :
    Pushed nodes s s' (successor :: succs) where
  found := h'.found.trans h.found
  visited := by
    intro b
    rw [h'.visited, h.visited, List.mem_singleton, List.mem_cons, or_assoc]
  old := fun b hb => h'.old b (h.old b hb)
  new := by
    intro b hb
    rcases h'.new b hb with h₁ | hin
    · exact (h.new b h₁).imp_right (h'.old _)
    · exact Or.inr hin
  only := by
    intro b hb
    rcases h'.only b hb with h₁ | ⟨d, hd, rfl⟩
    · rcases h.only b h₁ with h₀ | ⟨d, hd, rfl⟩
      · exact Or.inl h₀
      · exact Or.inr ⟨d, by rw [List.mem_singleton.mp hd]; exact List.mem_cons_self, rfl⟩
    · exact Or.inr ⟨d, List.mem_cons_of_mem _ hd, rfl⟩
  measure := h'.measure.trans h.measure

theorem pushed_visited {nodes : List B} {s : Search B} {successor : B}
    (hold : successor ∈ s.visited) : Pushed nodes s s [successor] :=
  { pushed_refl nodes s with
    visited := by
      intro b
      rw [List.mem_singleton]
      exact ⟨Or.inl, fun h => h.elim id fun h => h ▸ hold⟩
    only := fun _ h => Or.inl h }

theorem pushed_new {nodes : List B} {s : Search B} {successor : B} (hmem : successor ∈ nodes)
    (hnew : successor ∉ s.visited) :
    Pushed nodes s { s with fifo := some successor :: s.fifo, visited := s.visited ++
      [successor] } [successor] where
  found := rfl
  visited := fun _ => List.mem_append
  old := fun _ h => List.mem_cons_of_mem _ h
  new := by
    intro b hb
    rcases List.mem_append.mp hb with h | h
    · exact Or.inl h
    · rw [List.mem_singleton.mp h]
      exact Or.inr List.mem_cons_self
  only := by
    intro b hb
    rcases List.mem_cons.mp hb with rfl | h
    · exact Or.inr ⟨successor, List.mem_singleton_self _, rfl⟩
    · exact Or.inl h
  measure := by
    have h := unseen_visit hmem hnew
    show (some successor :: s.fifo).length + unseen nodes (s.visited ++ [successor]) = _
    rw [List.length_cons]
    omega

theorem pushSuccessors_pushed {nodes : List B} (succs : List B) (hsub : ∀ b ∈ succs, b ∈ nodes)
    (s : Search B) : Pushed nodes s (pushSuccessors s succs) succs := by
  induction succs generalizing s with
  | nil => exact pushed_refl nodes s
  | cons successor succs ih =>
    have hrest : ∀ b ∈ succs, b ∈ nodes := fun b hb => hsub b (List.mem_cons_of_mem _ hb)
    rw [pushSuccessors, List.foldl_cons]
    by_cases hv : successor ∈ s.visited
    · rw [if_pos hv]
      exact (pushed_visited hv).cons (ih hrest s)
    · rw [if_neg hv]
      exact (pushed_new (hsub _ List.mem_cons_self) hv).cons (ih hrest _)

/-! ## §2 — a search in any graph, with any blocks visited before. -/

section Round

variable {goal : Option B → Bool} {c : Cfg B} {s s' : Search B}

/-- **What a round does**: it takes the top of the stack, and either stops there or pushes its
successors. -/
theorem searchRound_cases (h : searchRound goal c s = some s') :
    s.found = false ∧ ∃ dnode fifo, s.fifo = dnode :: fifo ∧
      ((goal dnode = true ∧ s' = { s with fifo := fifo, found := true }) ∨
        (goal dnode = false ∧ Pushed c.body { s with fifo := fifo } s' (c.succs dnode))) := by
  unfold searchRound at h
  split at h
  · cases h
  · rename_i hfound
    refine ⟨by simpa using hfound, ?_⟩
    split at h
    · cases h
    · rename_i dnode fifo hfifo
      refine ⟨dnode, fifo, hfifo, ?_⟩
      split at h
      · rename_i hgoal
        exact Or.inl ⟨hgoal, (Option.some.inj h).symm⟩
      · rename_i hgoal
        refine Or.inr ⟨by simpa using hgoal, ?_⟩
        rw [← Option.some.inj h]
        exact pushSuccessors_pushed _ (c.succs_mem dnode) _

/-- A search is over when a goal was found or the stack is empty. -/
theorem searchRound_eq_none (h : searchRound goal c s = none) : s.found = true ∨ s.fifo = [] := by
  unfold searchRound at h
  split at h
  · rename_i hfound
    exact Or.inl hfound
  · split at h
    · rename_i hfifo
      exact Or.inr hfifo
    · split at h <;> cases h

theorem searchRound_measure (h : searchRound goal c s = some s') :
    s'.fifo.length + unseen c.body s'.visited < s.fifo.length + unseen c.body s.visited := by
  obtain ⟨_, dnode, fifo, hfifo, ⟨_, rfl⟩ | ⟨_, hpush⟩⟩ := searchRound_cases h
  · rw [hfifo, List.length_cons]
    exact Nat.add_lt_add_right (Nat.lt_succ_self _) _
  · rw [hpush.measure, hfifo, List.length_cons]
    exact Nat.add_lt_add_right (Nat.lt_succ_self _) _

/-- The invariant of a search from `start`, when the blocks in `scanned` were scanned before it. -/
structure SearchInv (goal : Option B → Bool) (c : Cfg B) (start : Option B)
    (scanned : Option B → Prop) (s : Search B) : Prop where
  reached : ∀ b ∈ s.fifo, ReflTransGen c.Edge start b
  hit : s.found = true → ∃ b, ReflTransGen c.Edge start b ∧ goal b = true
  explored : s.found = false → ∃ done : Option B → Prop, (∀ b, scanned b → done b) ∧
    (done start ∨ start ∈ s.fifo) ∧
    Explored c.Edge (fun b => goal b = true) done (fun b => ∃ d ∈ s.visited, b = some d) s.fifo

theorem searchInv_step {start : Option B} {scanned : Option B → Prop}
    (hinv : SearchInv goal c start scanned s)
    (h : searchRound goal c s = some s') : SearchInv goal c start scanned s' := by
  obtain ⟨hfound, dnode, fifo, hfifo, hcase⟩ := searchRound_cases h
  have hreach : ReflTransGen c.Edge start dnode := hinv.reached _ (hfifo ▸ List.mem_cons_self)
  have hrest : ∀ b ∈ fifo, ReflTransGen c.Edge start b := fun b hb =>
    hinv.reached b (hfifo ▸ List.mem_cons_of_mem _ hb)
  rcases hcase with ⟨hgoal, rfl⟩ | ⟨hgoal, hpush⟩
  · -- a goal: nothing is promised of the blocks that are left
    exact ⟨hrest, fun _ => ⟨dnode, hreach, hgoal⟩, nofun⟩
  · -- no goal: the block is done, as what it leads to was pushed now or visited before
    have hfound' : s'.found = false := hpush.found.trans hfound
    refine ⟨?_, fun h => absurd (h.symm.trans hfound') (by decide), fun _ => ?_⟩
    · intro b hb
      rcases hpush.only b hb with hold | hsucc
      · exact hrest b hold
      · exact hreach.tail hsucc
    · obtain ⟨done, hscanned, hstart, hexp⟩ := hinv.explored hfound
      rw [hfifo] at hexp hstart
      refine ⟨fun b => b = dnode ∨ done b, fun b hb => Or.inr (hscanned b hb), ?_, ?_⟩
      · rcases hstart with hdone | htop
        · exact Or.inl (Or.inr hdone)
        · rcases List.mem_cons.mp htop with rfl | hin
          · exact Or.inl (Or.inl rfl)
          · exact Or.inr (hpush.old _ hin)
      · apply hexp.expand (by simp [hgoal])
        · rintro b ⟨d, hd, rfl⟩
          exact ⟨d, (hpush.visited d).mpr (Or.inr hd), rfl⟩
        · rintro b ⟨d, hd, rfl⟩
          exact ⟨d, (hpush.visited d).mpr (Or.inl hd), rfl⟩
        · exact hpush.old
        · rintro b ⟨d, hd, rfl⟩
          exact (hpush.new d hd).imp_left fun h => ⟨d, h, rfl⟩

/-- The search from `start`, with the rounds that `detectBug` gives it. -/
abbrev searchFor (goal : Option B → Bool) (c : Cfg B) (start : Option B) (visited : List B) :
    Search B :=
  whileLoop (searchRound goal c) (c.body.length + 2) ⟨[start], visited, false⟩

/-- The rounds suffice, and the invariant holds at the end. -/
theorem searchFor_ends (start : Option B) {visited : List B} {scanned : Option B → Prop}
    (hexp : Explored c.Edge (fun b => goal b = true) scanned (fun b => ∃ d ∈ visited,
      b = some d) []) :
    SearchInv goal c start scanned (searchFor goal c start visited) ∧
      searchRound goal c (searchFor goal c start visited) = none := by
  apply whileLoop_ends (SearchInv goal c start scanned) fun s => s.fifo.length +
    unseen c.body s.visited
  · exact fun s s' hs h => ⟨searchInv_step hs h, searchRound_measure h⟩
  · refine ⟨?_, nofun, fun _ => ⟨scanned, fun _ h => h, Or.inr List.mem_cons_self, hexp.push⟩⟩
    intro b hb
    rw [List.mem_singleton.mp hb]
  · show 1 + unseen c.body visited ≤ c.body.length + 2
    have hle := unseen_le c.body visited
    omega

/-- **The loop leaves by its own condition**, whatever was visited before. -/
theorem searchFor_exits (start : Option B) (visited : List B) :
    searchRound goal c (searchFor goal c start visited) = none := by
  refine (whileLoop_ends (fun _ => True) (fun s => s.fifo.length + unseen c.body s.visited)
    ?_ ?_ ?_).2
  · exact fun s s' _ h => ⟨trivial, searchRound_measure h⟩
  · trivial
  · show 1 + unseen c.body visited ≤ c.body.length + 2
    have hle := unseen_le c.body visited
    omega

/-- What a search leaves: a goal reached, or the start scanned and everything seen explored. -/
theorem searchFor_result (start : Option B) {visited : List B} {scanned : Option B → Prop}
    (hexp : Explored c.Edge (fun b => goal b = true) scanned (fun b => ∃ d ∈ visited,
      b = some d) []) :
    ((searchFor goal c start visited).found = true ∧ ∃ b, ReflTransGen c.Edge start b ∧
      goal b = true) ∨ ((searchFor goal c start visited).found = false ∧ ∃ done : Option B → Prop,
        (∀ b, scanned b → done b) ∧ done start ∧ Explored c.Edge (fun b => goal b = true) done
          (fun b => ∃ d ∈ (searchFor goal c start visited).visited, b = some d) []) := by
  obtain ⟨hinv, hexit⟩ := searchFor_ends start hexp
  generalize searchFor goal c start visited = s at hinv hexit ⊢
  cases hfound : s.found with
  | true => exact Or.inl ⟨rfl, hinv.hit hfound⟩
  | false =>
    have hempty : s.fifo = [] := (searchRound_eq_none hexit).resolve_left (by simp [hfound])
    obtain ⟨done, hscanned, hstart, hexp'⟩ := hinv.explored hfound
    rw [hempty] at hstart hexp'
    exact Or.inr ⟨rfl, done, hscanned, hstart.resolve_right List.not_mem_nil, hexp'⟩

end Round

/-! ## §3 — `detectBug`. -/

section DetectBug

variable {c : Cfg B}

omit [DecidableEq B] in
/-- An early answer of the scan of a block: a call and a store in it. -/
theorem scanBlock_eq_none {parent : Option B} {operands : List (List String)} {foundExtCall : Bool}
    {extCallList : List (Option B)}
    (h : scanBlock parent operands foundExtCall extCallList = none) :
    (foundExtCall = true ∨ operands.any isExtCall = true) ∧ operands.any isStorageStore = true := by
  induction operands generalizing foundExtCall extCallList with
  | nil => cases h
  | cons inst rest ih =>
    unfold scanBlock at h
    simp only [List.any_cons, Bool.or_eq_true]
    split at h
    · rename_i hcall
      exact ⟨Or.inr (Or.inl hcall), Or.inr (ih h).2⟩
    · split at h
      · rename_i hboth
        obtain ⟨hfound, hstore⟩ := Bool.and_eq_true_iff.mp hboth
        exact ⟨Or.inl hfound, Or.inl hstore⟩
      · obtain ⟨hfound | hany, hstore⟩ := ih h
        · exact ⟨Or.inl hfound, Or.inr hstore⟩
        · exact ⟨Or.inr (Or.inr hany), Or.inr hstore⟩

omit [DecidableEq B] in
/-- Otherwise the calls of the block are kept. -/
theorem scanBlock_eq_some {parent : Option B} {operands : List (List String)} {foundExtCall : Bool}
    {extCallList extCallList' : List (Option B)}
    (h : scanBlock parent operands foundExtCall extCallList = some extCallList') (b : Option B) :
    b ∈ extCallList' ↔ b ∈ extCallList ∨ (b = parent ∧ operands.any isExtCall = true) := by
  induction operands generalizing foundExtCall extCallList with
  | nil =>
    cases h
    simp
  | cons inst rest ih =>
    unfold scanBlock at h
    simp only [List.any_cons, Bool.or_eq_true]
    split at h
    · rename_i hcall
      rw [ih h, List.mem_append, List.mem_singleton]
      tauto
    · rename_i hcall
      split at h
      · cases h
      · rw [ih h]
        tauto

omit [DecidableEq B] in
/-- The linear scan over all blocks. -/
theorem scanBlocks_cases (blocks extCallList : List (Option B)) :
    match blocks.foldlM (fun extCallList b => scanBlock b (c.operands b) false extCallList)
        extCallList with
    | none => ∃ b ∈ blocks, c.extCalls b = true ∧ c.stores b = true
    | some extCallList' =>
      ∀ b, b ∈ extCallList' ↔ b ∈ extCallList ∨ (b ∈ blocks ∧ c.extCalls b = true) := by
  induction blocks generalizing extCallList with
  | nil => simp
  | cons block blocks ih =>
    rw [List.foldlM_cons]
    cases hscan : scanBlock block (c.operands block) false extCallList with
    | none =>
      obtain ⟨hcall, hstore⟩ := scanBlock_eq_none hscan
      exact ⟨block, List.mem_cons_self, hcall.resolve_left Bool.false_ne_true, hstore⟩
    | some extCallList₁ =>
      have hrest := ih extCallList₁
      show match blocks.foldlM (fun l b => scanBlock b (c.operands b) false l) extCallList₁ with
        | none => _
        | some l => _
      split at hrest
      · -- a later block answers
        obtain ⟨b, hb, hboth⟩ := hrest
        exact ⟨b, List.mem_cons_of_mem _ hb, hboth⟩
      · intro b
        rw [hrest b, scanBlock_eq_some hscan b, List.mem_cons]
        constructor
        · rintro ((h | ⟨rfl, h⟩) | ⟨hb, h⟩)
          · exact Or.inl h
          · exact Or.inr ⟨Or.inl rfl, h⟩
          · exact Or.inr ⟨Or.inr hb, h⟩
        · rintro (h | ⟨rfl | hb, h⟩)
          · exact Or.inl (Or.inl h)
          · exact Or.inl (Or.inr ⟨rfl, h⟩)
          · exact Or.inr ⟨hb, h⟩

/-- The searches one after the other: the shared list says nothing false at any of them. -/
theorem searchFrom_iff (extCallList : List (Option B)) {visited : List B}
    {scanned : Option B → Prop}
    (hexp : Explored c.Edge (fun b => c.stores b = true) scanned (fun b => ∃ d ∈ visited,
      b = some d) []) :
    searchFrom c extCallList visited = true ↔
      ∃ b ∈ extCallList, ∃ d, ReflTransGen c.Edge b d ∧ c.stores d = true := by
  induction extCallList generalizing visited scanned with
  | nil => simp [searchFrom]
  | cons extCall extCallList ih =>
    have hunfold : searchFrom c (extCall :: extCallList) visited =
        if (searchFor c.stores c extCall visited).found then true
        else searchFrom c extCallList (searchFor c.stores c extCall visited).visited := rfl
    rw [hunfold]
    rcases searchFor_result extCall hexp with ⟨hfound, d, hd⟩ | ⟨hfound, done, _, hstart, hexp'⟩
    · rw [if_pos hfound]
      exact ⟨fun _ => ⟨extCall, List.mem_cons_self, d, hd⟩, fun _ => rfl⟩
    · -- a later search does not enter what this one has visited, and has nothing to find there
      rw [if_neg (by simp [hfound]), ih hexp']
      constructor
      · rintro ⟨b, hb, hd⟩
        exact ⟨b, List.mem_cons_of_mem _ hb, hd⟩
      · rintro ⟨b, hb, d, hreach, hstore⟩
        rcases List.mem_cons.mp hb with rfl | hb
        · exact absurd hstore (hexp'.complete hstart hreach)
        · exact ⟨b, hb, d, hreach, hstore⟩

/-- **`EstimateReenrancePass::detectBug`**: every search leaves by its own condition, and the answer
is yes exactly when a block with a call of `ethereum.call` reaches one with a call of
`ethereum.storageStore`. -/
theorem detectBug_iff (c : Cfg B) :
    (∀ start visited, searchStep c
      (whileLoop (searchStep c) (c.body.length + 2) ⟨[start], visited, false⟩) = none) ∧
      (detectBug c = true ↔
        ∃ b d, c.Block b ∧ c.extCalls b = true ∧ ReflTransGen c.Edge b d ∧ c.stores d = true) := by
  refine ⟨fun start visited => ?_, ?_⟩
  · rw [searchStep_eq]
    exact searchFor_exits start visited
  have hscan := scanBlocks_cases (c := c) (none :: c.body.map some) []
  unfold detectBug
  generalize (none :: c.body.map some).foldlM
    (fun extCallList b => scanBlock b (c.operands b) false extCallList) [] = scan at hscan ⊢
  cases scan with
  | none =>
    -- the early answer: the block reaches itself
    obtain ⟨b, hb, hcall, hstore⟩ := hscan
    exact ⟨fun _ => ⟨b, b, hb, hcall, .refl, hstore⟩, fun _ => rfl⟩
  | some extCallList =>
    show searchFrom c extCallList [] = true ↔ _
    rw [searchFrom_iff extCallList (Explored.start (by simp))]
    constructor
    · rintro ⟨b, hb, d, hreach, hstore⟩
      obtain h | ⟨hblock, hcall⟩ := (hscan b).mp hb
      · cases h
      · exact ⟨b, d, hblock, hcall, hreach, hstore⟩
    · rintro ⟨b, d, hblock, hcall, hreach, hstore⟩
      exact ⟨b, (hscan b).mpr (Or.inr ⟨hblock, hcall⟩), d, hreach, hstore⟩

end DetectBug

end EvmTrans.Llvm
