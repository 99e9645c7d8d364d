/-
# `EvmTrans.SplitCode` — where the translator cuts a creation bytecode in two.

`splitCode` is a syntactic scan along the sweep: it waits for a `CODECOPY`, then for a `RETURN`,
then for the first `PUSH1`, and cuts there. `RETURNPC` is the last `RETURN` before the cut. `main`
translates `code[k:]` as the runtime and `code[:k]` as the deployer, whose `RETURN` at `RETURNPC`
hands out the translated runtime. §3 says where the cut is without the scan, §4 that sweeping the
parts is sweeping the whole (`splitCode_exact`).
-/
import EvmTrans.CompileMain

namespace EvmTrans

/-! ## §1 — the scan. -/

/-- The loop of `splitCode`; `none` is the source's `-1`. -/
def splitCodeLoop (code : List Byte) : Nat → Nat → Bool → Bool → Nat → Option (Nat × Nat)
  | 0, _, _, _, _ => none
  | fuel + 1, curr, existCodeCopy, existReturn, returnPC =>
    if curr = code.length then none
    else
      let next := skipPushDataAndGetNext code curr code.length
      match instAt code curr with
      | .CODECOPY => splitCodeLoop code fuel next true existReturn returnPC
      | .RETURN =>
        if existCodeCopy then splitCodeLoop code fuel next existCodeCopy true curr
        else splitCodeLoop code fuel next existCodeCopy existReturn returnPC
      | .PUSH 1 =>
        if existReturn then some (curr, returnPC)
        else splitCodeLoop code fuel next existCodeCopy existReturn returnPC
      | _ => splitCodeLoop code fuel next existCodeCopy existReturn returnPC

/-- `splitCode(_begin, _end, RETURNPC)`: the split point and `RETURNPC`. -/
def splitCode (code : List Byte) : Option (Nat × Nat) :=
  splitCodeLoop code code.length 0 false false 0

/-- `RuntimerBytecode` of `main`. -/
def runtimerBytecode (code : List Byte) : Option (List Byte) :=
  (splitCode code).map fun r => code.drop r.1

/-! ## §2 — what it finds. -/

/-- What is known when the scan stands at `curr` and `existReturn` holds. -/
structure FoundReturn (code : List Byte) (curr returnPC : Nat) : Prop where
  boundary : Boundary code returnPC
  isReturn : instAt code returnPC = .RETURN
  lt : returnPC < curr
  codeCopy : ∃ c, Boundary code c ∧ c < returnPC ∧ instAt code c = .CODECOPY
  quiet : ∀ p, Boundary code p → returnPC < p → p < curr →
  instAt code p ≠ .PUSH 1 ∧ instAt code p ≠ .RETURN

/-- The scan's invariant. -/
structure SplitInv (code : List Byte) (curr : Nat) (existCodeCopy existReturn : Bool)
    (returnPC : Nat) : Prop where
  atBoundary : curr = code.length ∨ Boundary code curr
  codeCopy : existCodeCopy = true → ∃ c, Boundary code c ∧ c < curr ∧ instAt code c = .CODECOPY
  found : existReturn = true → existCodeCopy = true ∧ FoundReturn code curr returnPC

/-- The boundaries before the next instruction are those before this one, and this one. -/
theorem Boundary.lt_next {code : List Byte} {curr p : Nat} (hc : Boundary code curr)
    (hp : Boundary code p) (h : p < skipPushDataAndGetNext code curr code.length) :
    p < curr ∨ p = curr := by
  rw [skipPushDataAndGetNext_eq hc.1] at h
  rcases Nat.lt_trichotomy p curr with hlt | heq | hgt
  · exact .inl hlt
  · exact .inr heq
  · have := hc.instrEnd_le hp hgt
    omega

theorem Boundary.next_or_end {code : List Byte} {curr : Nat} (hc : Boundary code curr) :
    skipPushDataAndGetNext code curr code.length = code.length ∨
      Boundary code (skipPushDataAndGetNext code curr code.length) := by
  rw [skipPushDataAndGetNext_eq hc.1]
  rcases Nat.lt_or_ge (instrEnd code curr) code.length with hlt | hge
  · rw [Nat.min_eq_left hlt.le]
    exact .inr (hc.next hlt)
  · exact .inl (Nat.min_eq_right hge)

theorem Boundary.lt_skip {code : List Byte} {curr : Nat} (hc : Boundary code curr) :
    curr < skipPushDataAndGetNext code curr code.length := by
  rw [skipPushDataAndGetNext_eq hc.1]
  have := lt_instrEnd code curr
  have := hc.1
  omega

/-- A step over an instruction that is neither `RETURN` nor `PUSH1` once a `RETURN` is found. -/
theorem FoundReturn.step {code : List Byte} {curr returnPC : Nat}
    (h : FoundReturn code curr returnPC) (hc : Boundary code curr) (h1 : instAt code curr ≠ .PUSH 1)
    (h2 : instAt code curr ≠ .RETURN) :
    FoundReturn code (skipPushDataAndGetNext code curr code.length) returnPC where
  boundary := h.boundary
  isReturn := h.isReturn
  lt := h.lt.trans hc.lt_skip
  codeCopy := h.codeCopy
  quiet := by
    intro p hp hlt hnext
    rcases hc.lt_next hp hnext with hlt' | rfl
    · exact h.quiet p hp hlt hlt'
    · exact ⟨h1, h2⟩

/-- A step that changes no flag. -/
theorem SplitInv.step {code : List Byte} {curr returnPC : Nat} {existCodeCopy existReturn : Bool}
    (h : SplitInv code curr existCodeCopy existReturn returnPC) (hc : Boundary code curr)
    (h1 : existReturn = true → instAt code curr ≠ .PUSH 1)
    (h2 : existReturn = true → instAt code curr ≠ .RETURN) :
    SplitInv code (skipPushDataAndGetNext code curr code.length)
      existCodeCopy existReturn returnPC where
  atBoundary := hc.next_or_end
  codeCopy := fun hcopy => by
    obtain ⟨c, hb, hlt, hi⟩ := h.codeCopy hcopy
    exact ⟨c, hb, hlt.trans hc.lt_skip, hi⟩
  found := fun hret => ⟨(h.found hret).1, (h.found hret).2.step hc (h1 hret) (h2 hret)⟩

/-- **What the scan answers**, by induction on the instructions left. -/
theorem splitCodeLoop_spec {code : List Byte} :
    ∀ {fuel curr returnPC : Nat} {existCodeCopy existReturn : Bool},
    SplitInv code curr existCodeCopy existReturn returnPC →
    ∀ {k pc : Nat}, splitCodeLoop code fuel curr existCodeCopy existReturn returnPC = some (k, pc) →
      Boundary code k ∧ instAt code k = .PUSH 1 ∧ FoundReturn code k pc := by
  intro fuel
  induction fuel with
  | zero => intro curr returnPC ecc er _ k pc h; cases h
  | succ fuel ih =>
    intro curr returnPC ecc er hinv k pc h
    unfold splitCodeLoop at h
    split at h
    · cases h
    · rename_i hne
      have hc : Boundary code curr := hinv.atBoundary.resolve_left hne
      dsimp only at h
      split at h
      · -- `CODECOPY`
        rename_i hi
        refine ih ?_ h
        have hs := hinv.step hc (fun _ => by rw [hi]; decide) (fun _ => by rw [hi]; decide)
        exact ⟨hs.atBoundary, fun _ => ⟨curr, hc, hc.lt_skip, hi⟩, fun hr => ⟨rfl, (hs.found hr).2⟩⟩
      · -- `RETURN`
        rename_i hi
        split at h
        · rename_i hcopy
          refine ih ⟨hc.next_or_end, ?_, fun _ => ⟨hcopy, ?_⟩⟩ h
          · intro _
            obtain ⟨c, hb, hlt, hci⟩ := hinv.codeCopy hcopy
            exact ⟨c, hb, hlt.trans hc.lt_skip, hci⟩
          · refine ⟨hc, hi, hc.lt_skip, hinv.codeCopy hcopy, fun p hp hlt hnext => ?_⟩
            rcases hc.lt_next hp hnext with hlt' | rfl <;> omega
        · rename_i hcopy
          refine ih (hinv.step hc (fun hr => ?_) (fun hr => ?_)) h
          · exact absurd (hinv.found hr).1 hcopy
          · exact absurd (hinv.found hr).1 hcopy
      · -- `PUSH1`
        rename_i hi
        split at h
        · rename_i hret
          cases h
          exact ⟨hc, hi, (hinv.found hret).2⟩
        · rename_i hret
          exact ih (hinv.step hc (fun hr => absurd hr hret) (fun hr => absurd hr hret)) h
      · rename_i h1 h2 h3
        exact ih (hinv.step hc (fun _ => h3) (fun _ => h2)) h

/-- **`splitCode` cuts at the first `PUSH1` behind the `RETURN` at `RETURNPC`**, which comes after a
`CODECOPY`; and the scan meets no further `RETURN` on the way. -/
theorem splitCode_spec {code : List Byte} {k pc : Nat} (h : splitCode code = some (k, pc)) :
    Boundary code k ∧ instAt code k = .PUSH 1 ∧ FoundReturn code k pc := by
  refine splitCodeLoop_spec ?_ h
  refine ⟨?_, nofun, nofun⟩
  rcases Nat.eq_zero_or_pos code.length with h0 | hpos
  · exact .inl h0.symm
  · exact .inr (boundary_zero (List.length_pos_iff.mp hpos))

/-- The scan stops at `p` at the latest, whatever fuel is left beyond the bytes to scan: `c`, `r`
and `p` are instructions of the three kinds, in this order. -/
theorem splitCodeLoop_stops {code : List Byte} {c r p : Nat} (hc : Boundary code c)
    (hr : Boundary code r) (hp : Boundary code p) (hcr : c < r) (hrp : r < p)
    (hci : instAt code c = .CODECOPY) (hri : instAt code r = .RETURN)
    (hpi : instAt code p = .PUSH 1) :
    ∀ {fuel curr returnPC : Nat} {existCodeCopy existReturn : Bool}, Boundary code curr → curr ≤ p →
      code.length ≤ curr + fuel → (c < curr → existCodeCopy = true) →
      (r < curr → existReturn = true) →
      ∃ k pc, splitCodeLoop code fuel curr existCodeCopy existReturn returnPC = some (k, pc) ∧
        k ≤ p := by
  intro fuel
  induction fuel with
  | zero =>
    intro curr returnPC ecc er hb _ hf _ _
    have := hb.1
    omega
  | succ fuel ih =>
    intro curr returnPC ecc er hb hle hf hecc her
    have hskip := hb.lt_skip
    -- the scan goes on to a boundary that is not beyond `p`, unless it stands on `p`
    have hgo : ∀ {ecc' er' : Bool} {pc' : Nat}, curr < p → (c ≤ curr → ecc' = true) →
        (r ≤ curr → er' = true) →
        ∃ k pc,
          splitCodeLoop code fuel (skipPushDataAndGetNext code curr code.length) ecc' er' pc' =
          some (k, pc) ∧ k ≤ p := by
      intro ecc' er' pc' hlt hecc' her'
      have hend := hb.instrEnd_le hp hlt
      have hpl := hp.1
      have hnext : skipPushDataAndGetNext code curr code.length ≤ p := by
        rw [skipPushDataAndGetNext_eq hb.1]
        omega
      have hbn := hb.next_or_end.resolve_left (by omega)
      refine ih hbn hnext (by omega) (fun h => hecc' ?_) (fun h => her' ?_)
      · rcases hb.lt_next hc h with h | h <;> omega
      · rcases hb.lt_next hr h with h | h <;> omega
    -- an instruction of another kind is not the one waited for
    have hkeepCopy : instAt code curr ≠ .CODECOPY → c ≤ curr → ecc = true := fun hi hle =>
      hecc (Nat.lt_of_le_of_ne hle fun heq => hi (heq ▸ hci))
    have hkeepRet : instAt code curr ≠ .RETURN → r ≤ curr → er = true := fun hi hle =>
      her (Nat.lt_of_le_of_ne hle fun heq => hi (heq ▸ hri))
    have hlast : curr = p ∨ curr < p := by omega
    unfold splitCodeLoop
    rw [if_neg (Nat.ne_of_lt hb.1)]
    dsimp only
    rcases hlast with rfl | hlt
    · rw [hpi]
      exact ⟨curr, returnPC, if_pos (her hrp), le_refl curr⟩
    · split
      · rename_i hi
        exact hgo hlt (fun _ => rfl) (hkeepRet (by simp [hi]))
      · rename_i hi
        split
        · rename_i hcopy
          exact hgo hlt (fun _ => hcopy) fun _ => rfl
        · rename_i hcopy
          exact hgo hlt (hkeepCopy (by simp [hi])) fun hle => absurd (hecc (by omega)) hcopy
      · rename_i hi
        split
        · exact ⟨curr, returnPC, rfl, hle⟩
        · exact hgo hlt (hkeepCopy (by simp [hi])) (hkeepRet (by simp [hi]))
      · rename_i h1 h2 h3
        exact hgo hlt (hkeepCopy h1) (hkeepRet h2)

/-- The split is at the first `PUSH1` that a `CODECOPY` and then a `RETURN` precede, or in front of
it. -/
theorem splitCode_stops {code : List Byte} {c r p : Nat} (hc : Boundary code c)
    (hr : Boundary code r) (hp : Boundary code p) (hcr : c < r) (hrp : r < p)
    (hci : instAt code c = .CODECOPY) (hri : instAt code r = .RETURN)
    (hpi : instAt code p = .PUSH 1) : ∃ k pc, splitCode code = some (k, pc) ∧ k ≤ p := by
  have hne : code ≠ [] := List.length_pos_iff.mp (Nat.lt_of_le_of_lt (Nat.zero_le _) hc.1)
  exact splitCodeLoop_stops hc hr hp hcr hrp hci hri hpi (boundary_zero hne) (Nat.zero_le _)
    (by omega) (fun h => absurd h (Nat.not_lt_zero _)) (fun h => absurd h (Nat.not_lt_zero _))

/-- **`splitCode` accepts exactly** the strings with a `CODECOPY`, a `RETURN` and a `PUSH1` in this
order. -/
theorem splitCode_isSome_iff {code : List Byte} : (splitCode code).isSome = true ↔
    ∃ c r p, c < r ∧ r < p ∧ Boundary code c ∧ Boundary code r ∧ Boundary code p ∧
      instAt code c = .CODECOPY ∧ instAt code r = .RETURN ∧ instAt code p = .PUSH 1 := by
  constructor
  · intro h
    obtain ⟨⟨k, pc⟩, h⟩ := Option.isSome_iff_exists.mp h
    obtain ⟨hk, hki, hfound⟩ := splitCode_spec h
    obtain ⟨c, hc, hlt, hci⟩ := hfound.codeCopy
    exact ⟨c, pc, k, hlt, hfound.lt, hc, hfound.boundary, hk, hci, hfound.isReturn, hki⟩
  · rintro ⟨c, r, p, hcr, hrp, hc, hr, hp, hci, hri, hpi⟩
    obtain ⟨k, pc, h, -⟩ := splitCode_stops hc hr hp hcr hrp hci hri hpi
    rw [h]
    rfl

/-! ## §3 — the split without the scan. -/

/-- `p` is the first instruction of its kind at `lo` or behind it. -/
structure FirstFrom (code : List Byte) (inst : Instruction) (lo p : Nat) : Prop where
  boundary : Boundary code p
  isInst : instAt code p = inst
  le : lo ≤ p
  first : ∀ q, Boundary code q → lo ≤ q → q < p → instAt code q ≠ inst

/-- `p` is the last instruction of its kind between `lo` and `hi`. -/
structure LastBetween (code : List Byte) (inst : Instruction) (lo hi p : Nat) : Prop where
  boundary : Boundary code p
  isInst : instAt code p = inst
  lt : lo < p
  lt_hi : p < hi
  last : ∀ q, Boundary code q → p < q → q < hi → instAt code q ≠ inst

/-- **Where a creation code is to be cut**: at the first `PUSH1` behind the first `RETURN` behind
the first `CODECOPY`; `returnPC` is the last `RETURN` between that `CODECOPY` and the cut. -/
def SplitAt (code : List Byte) (k returnPC : Nat) : Prop :=
  ∃ c r, FirstFrom code .CODECOPY 0 c ∧ FirstFrom code .RETURN (c + 1) r ∧
    FirstFrom code (.PUSH 1) (r + 1) k ∧ LastBetween code .RETURN c k returnPC

theorem FirstFrom.le_of {code : List Byte} {inst : Instruction} {lo p q : Nat}
    (h : FirstFrom code inst lo p) (hq : Boundary code q) (hi : instAt code q = inst)
    (hle : lo ≤ q) : p ≤ q :=
  Nat.le_of_not_lt fun hlt => h.first q hq hle hlt hi

theorem FirstFrom.unique {code : List Byte} {inst : Instruction} {lo p q : Nat}
    (hp : FirstFrom code inst lo p) (hq : FirstFrom code inst lo q) : p = q :=
  Nat.le_antisymm (hp.le_of hq.boundary hq.isInst hq.le) (hq.le_of hp.boundary hp.isInst hp.le)

theorem LastBetween.unique {code : List Byte} {inst : Instruction} {lo hi p q : Nat}
    (hp : LastBetween code inst lo hi p) (hq : LastBetween code inst lo hi q) : p = q := by
  rcases Nat.lt_trichotomy p q with h | h | h
  · exact absurd hq.isInst (hp.last q hq.boundary h hq.lt_hi)
  · exact h
  · exact absurd hp.isInst (hq.last p hp.boundary h hp.lt_hi)

/-- Where there is one, there is a first one. -/
theorem exists_firstFrom {code : List Byte} {inst : Instruction} {lo p : Nat} (hp : Boundary code p)
    (hi : instAt code p = inst) (hle : lo ≤ p) : ∃ q, FirstFrom code inst lo q := by
  classical
  have hex : ∃ q, Boundary code q ∧ instAt code q = inst ∧ lo ≤ q := ⟨p, hp, hi, hle⟩
  obtain ⟨hb, hinst, hlo⟩ := Nat.find_spec hex
  exact ⟨Nat.find hex, hb, hinst, hlo, fun q hq hlq hlt hqi => Nat.find_min hex hlt ⟨hq, hqi, hlq⟩⟩

theorem SplitAt.unique {code : List Byte} {k k' pc pc' : Nat} (h : SplitAt code k pc)
    (h' : SplitAt code k' pc') : k = k' ∧ pc = pc' := by
  obtain ⟨c, r, hc, hr, hk, hpc⟩ := h
  obtain ⟨c', r', hc', hr', hk', hpc'⟩ := h'
  obtain rfl := hc.unique hc'
  obtain rfl := hr.unique hr'
  obtain rfl := hk.unique hk'
  exact ⟨rfl, hpc.unique hpc'⟩

/-- What the scan finds is the cut. -/
theorem splitAt_of_splitCode {code : List Byte} {k pc : Nat} (h : splitCode code = some (k, pc)) :
    SplitAt code k pc := by
  obtain ⟨hk, hki, hfound⟩ := splitCode_spec h
  obtain ⟨d, hd, hdlt, hdi⟩ := hfound.codeCopy
  obtain ⟨c, hc⟩ := exists_firstFrom hd hdi (Nat.zero_le d)
  have hcd := hc.le_of hd hdi (Nat.zero_le d)
  obtain ⟨r, hr⟩ := exists_firstFrom hfound.boundary hfound.isReturn (by omega : c + 1 ≤ pc)
  have hrpc := hr.le_of hfound.boundary hfound.isReturn (by omega)
  have hpck := hfound.lt
  have hcr := hr.le
  refine ⟨c, r, hc, hr, ⟨hk, hki, by omega, fun q hq hle hlt hqi => ?_⟩,
    ⟨hfound.boundary, hfound.isReturn,
      by omega, hpck, fun q hq hgt hlt => (hfound.quiet q hq hgt hlt).2⟩⟩
  -- a `PUSH1` in between would have stopped the scan
  obtain ⟨k', pc', h', hle'⟩ :=
    splitCode_stops hc.boundary hr.boundary hq (by omega) (by omega) hc.isInst
      hr.isInst hqi
  rw [h] at h'
  cases h'
  omega

theorem splitCode_eq_some_iff {code : List Byte} {k pc : Nat} : splitCode code = some (k, pc) ↔
    SplitAt code k pc := by
  constructor
  · exact splitAt_of_splitCode
  · intro h
    obtain ⟨c, r, hc, hr, hk, -⟩ := id h
    have hcr := hr.le
    have hrk := hk.le
    obtain ⟨k', pc', h', -⟩ :=
      splitCode_stops hc.boundary hr.boundary hk.boundary (by omega) (by omega) hc.isInst
        hr.isInst hk.isInst
    obtain ⟨rfl, rfl⟩ := h.unique (splitAt_of_splitCode h')
    exact h'

/-! ## §4 — the two parts are swept as the whole is. -/

theorem codeAt_drop (code : List Byte) (k i : Nat) :
    codeAt (code.drop k) i = codeAt code (k + i) := by
  rw [codeAt, codeAt, List.getD_eq_getElem?_getD, List.getElem?_drop, ← List.getD_eq_getElem?_getD]

theorem codeAt_take {code : List Byte} {k i : Nat} (h : i < k) :
    codeAt (code.take k) i = codeAt code i := by
  rw [codeAt, codeAt, List.getD_eq_getElem?_getD, List.getElem?_take_of_lt h,
    ← List.getD_eq_getElem?_getD]

theorem instrEnd_drop (code : List Byte) (k i : Nat) :
    k + instrEnd (code.drop k) i = instrEnd code (k + i) := by
  rw [instrEnd, instrEnd, instAt, instAt, codeAt_drop]
  omega

theorem instrEnd_take {code : List Byte} {k i : Nat} (h : i < k) :
    instrEnd (code.take k) i = instrEnd code i := by
  rw [instrEnd, instrEnd, instAt, instAt, codeAt_take h]

/-- Fuel that covers the bytes left is as good as any other. -/
theorem sweepFrom_fuel {code : List Byte} : ∀ {n m i : Nat}, code.length ≤ i + n →
    code.length ≤ i + m → sweepFrom code n i = sweepFrom code m i := by
  intro n
  induction n with
  | zero =>
    intro m i hn _
    cases m with
    | zero => rfl
    | succ m =>
      unfold sweepFrom
      rw [if_neg (by omega)]
  | succ n ih =>
    intro m i hn hm
    have hgt := lt_instrEnd code i
    cases m with
    | zero =>
      unfold sweepFrom
      rw [if_neg (by omega)]
    | succ m =>
      unfold sweepFrom
      split
      · rw [ih (m := m) (by omega) (by omega)]
      · rfl

/-- The second part is swept as the whole is from `k` on. -/
theorem sweepFrom_drop (code : List Byte) (k : Nat) : ∀ fuel i,
    sweepFrom code fuel (k + i) = (sweepFrom (code.drop k) fuel i).map (k + ·) := by
  intro fuel
  induction fuel with
  | zero => exact fun i => rfl
  | succ fuel ih =>
    intro i
    unfold sweepFrom
    rw [List.length_drop]
    by_cases h : k + i < code.length
    · rw [if_pos h, if_pos (by omega), List.map_cons, ← ih, instrEnd_drop]
    · rw [if_neg h, if_neg (by omega), List.map_nil]

/-- From an instruction `m` steps in front of `k`, by induction on the steps. -/
theorem sweepFrom_split {code : List Byte} {k : Nat} (hk : k ≤ code.length) : ∀ {m fuel i : Nat},
    (instrEnd code)^[m] i = k → code.length ≤ i + fuel →
    sweepFrom code fuel i = sweepFrom (code.take k) fuel i ++
    (sweep (code.drop k)).map (k + ·) := by
  intro m
  induction m with
  | zero =>
    intro fuel i him hfuel
    obtain rfl : i = k := him
    have hnil : sweepFrom (code.take i) fuel i = [] := by
      cases fuel with
      | zero => rfl
      | succ fuel =>
        unfold sweepFrom
        rw [if_neg (by rw [List.length_take]; omega)]
    have hdrop := sweepFrom_drop code i fuel 0
    rw [Nat.add_zero] at hdrop
    rw [hnil, List.nil_append, hdrop, sweep, sweepFrom_fuel (m := (code.drop i).length)]
    · rw [List.length_drop]
      omega
    · omega
  | succ m ih =>
    intro fuel i him hfuel
    rw [Function.iterate_succ_apply] at him
    have hgt := lt_instrEnd code i
    have hle : instrEnd code i ≤ k := by
      rw [← him]
      exact Function.id_le_iterate_of_id_le (fun x => (lt_instrEnd code x).le) m _
    cases fuel with
    | zero => omega
    | succ fuel =>
      unfold sweepFrom
      rw [if_pos (by omega), if_pos (by rw [List.length_take]; omega), List.cons_append,
        instrEnd_take (by omega), ih him (by omega)]

/-- **A cut at an instruction boundary** is a cut of the sweep. -/
theorem Boundary.sweep_split {code : List Byte} {k : Nat} (h : Boundary code k) :
    sweep code = sweep (code.take k) ++ (sweep (code.drop k)).map (k + ·) := by
  obtain ⟨hlt, m, hm⟩ := h
  have hsplit := sweepFrom_split hlt.le hm (Nat.le_add_left code.length 0)
  have hlen : (code.take k).length = k := List.length_take_of_le hlt.le
  have hfuel : sweepFrom (code.take k) code.length 0 = sweep (code.take k) :=
    sweepFrom_fuel (by omega) (by omega)
  rw [hfuel] at hsplit
  exact hsplit

/-- The instructions in front of the cut are those of the first part, and none of them is cut. -/
theorem Boundary.of_take {code : List Byte} {k i : Nat} (hk : Boundary code k) :
    Boundary (code.take k) i ↔ Boundary code i ∧ i < k := by
  have hlen : (code.take k).length = k := List.length_take_of_le hk.1.le
  constructor
  · intro h
    have hmem : i ∈ sweep code := by
      rw [hk.sweep_split]
      exact List.mem_append_left _ (mem_sweep.mpr h)
    exact ⟨mem_sweep.mp hmem, hlen ▸ h.1⟩
  · rintro ⟨h, hlt⟩
    have hmem := mem_sweep.mpr h
    rw [hk.sweep_split] at hmem
    rcases List.mem_append.mp hmem with hmem | hmem
    · exact mem_sweep.mp hmem
    · obtain ⟨j, -, rfl⟩ := List.mem_map.mp hmem
      omega

/-- **The deployment split.** `splitCode` answers exactly when the three instructions stand in their
order; its answer is the cut of `SplitAt`; the parts are swept as the whole is, so that the first
part ends with a whole instruction, and has one at `RETURNPC`. -/
theorem splitCode_exact (code : List Byte) :
    ((splitCode code).isSome = true ↔ ∃ c r k, c < r ∧ r < k ∧ Boundary code c ∧ Boundary code r ∧
        Boundary code k ∧ instAt code c = .CODECOPY ∧ instAt code r = .RETURN ∧
        instAt code k = .PUSH 1) ∧
      (∀ k returnPC, splitCode code = some (k, returnPC) ↔ SplitAt code k returnPC) ∧
      ∀ k returnPC, splitCode code = some (k, returnPC) →
        sweep code = sweep (code.take k) ++ (sweep (code.drop k)).map (k + ·) ∧
        (∀ i, Boundary (code.take k) i → instrEnd (code.take k) i ≤ (code.take k).length) ∧
        Boundary (code.take k) returnPC := by
  refine ⟨splitCode_isSome_iff, fun k pc => splitCode_eq_some_iff, fun k pc h => ?_⟩
  obtain ⟨hk, -, hfound⟩ := splitCode_spec h
  refine ⟨hk.sweep_split, fun i hi => ?_, hk.of_take.mpr ⟨hfound.boundary, hfound.lt⟩⟩
  obtain ⟨hb, hlt⟩ := hk.of_take.mp hi
  rw [instrEnd_take hlt, List.length_take_of_le hk.1.le]
  exact hb.instrEnd_le hk hlt

end EvmTrans
