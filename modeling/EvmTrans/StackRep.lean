/-
# `EvmTrans.StackRep` — an EVM stack held in `mstk[1..spPtr]`.

`RepStack s st` is the representation: `spPtr` is the height of `st` and the slot `height - j` holds
the `j`-th word from the top. Slots above `spPtr` are junk. The emitters of the memory mode are then
stack operations: `pop_rep` takes the head off, `push_rep` puts one on, and `lowerSp_rep` drops the
words whose values a block already has in registers.
-/
import EvmTrans.CompileMain

namespace EvmTrans

/-! ## §1 — the representation. -/

variable {W : Type}

/-- `spPtr` and `mstk` hold the stack `st`, top first. -/
structure RepStack (s : St W) (st : List Word) : Prop where
  height : st.length ≤ 511
  sp : s.sp = BitVec.ofNat 256 st.length
  slots : ∀ (j : Nat) (h : j < st.length), s.mstk (st.length - j) = st[j]

theorem toNat_ofNat_height {n : Nat} (h : n ≤ 512) : (BitVec.ofNat 256 n).toNat = n := by
  rw [BitVec.toNat_ofNat]
  exact Nat.mod_eq_of_lt (Nat.lt_of_le_of_lt h (by decide))

theorem ofNat_sub_ofNat {n k : Nat} (hn : n ≤ 512) (hk : k ≤ n) :
    BitVec.ofNat 256 n - BitVec.ofNat 256 k = BitVec.ofNat 256 (n - k) := by
  apply BitVec.eq_of_toNat_eq
  rw [BitVec.toNat_sub, toNat_ofNat_height hn, toNat_ofNat_height (by omega),
    toNat_ofNat_height (by omega)]
  omega

namespace RepStack

variable {s s' : St W} {st : List Word}

theorem toNat_sp (h : RepStack s st) : s.sp.toNat = st.length := by
  rw [h.sp, toNat_ofNat_height (by have := h.height; omega)]

theorem sp_add_one (h : RepStack s st) : s.sp + 1 = BitVec.ofNat 256 (st.length + 1) := by
  rw [h.sp, BitVec.ofNat_add]
  rfl

/-- Registers, `target` and the world are no part of the representation. -/
theorem congr (h : RepStack s st) (hsp : s'.sp = s.sp) (hm : s'.mstk = s.mstk) : RepStack s' st :=
  ⟨h.height, hsp.trans h.sp, fun j hj => by rw [hm]; exact h.slots j hj⟩

/-- Lowering `spPtr` drops words off the top. -/
theorem drop (h : RepStack s st) {n : Nat} (hn : n ≤ st.length)
    (hsp : s'.sp = s.sp - BitVec.ofNat 256 n) (hm : s'.mstk = s.mstk) :
    RepStack s' (st.drop n) := by
  have hh := h.height
  refine ⟨by rw [List.length_drop]; omega, ?_, fun j hj => ?_⟩
  · rw [hsp, h.sp, ofNat_sub_ofNat (by omega) hn, List.length_drop]
  · rw [List.length_drop] at hj ⊢
    rw [hm, List.getElem_drop, ← h.slots (n + j) (by omega)]
    congr 1
    omega

/-- A store above the top, with `spPtr` raised to it, puts a word on. -/
theorem cons (h : RepStack s st) {x : Word} (hlt : st.length < 511) (hsp : s'.sp = s.sp + 1)
    (hm : s'.mstk = Function.update s.mstk (s.sp + 1).toNat x) : RepStack s' (x :: st) := by
  have hnat : (s.sp + 1).toNat = st.length + 1 := by
    rw [h.sp_add_one, toNat_ofNat_height (by omega)]
  refine ⟨hlt, by rw [hsp, h.sp_add_one, List.length_cons], fun j hj => ?_⟩
  rw [hm, hnat, List.length_cons]
  cases j with
  | zero => exact Function.update_self ..
  | succ j =>
    rw [List.length_cons] at hj
    rw [Function.update_of_ne (by omega), List.getElem_cons_succ, ← h.slots j (by omega)]
    congr 1
    omega

end RepStack

/-! ## §2 — the emitters of the memory mode as stack operations. -/

section Emitters

variable {ops : Ops W} {b : Builder} {s : St W} {st : List Word}

/-- What memory code leaves alone besides the stack. -/
structure SameWorld (s s' : St W) : Prop where
  target : s'.target = s.target
  world : s'.world = s.world

theorem SameWorld.trans {s s' s'' : St W} (h₁ : SameWorld s s') (h₂ : SameWorld s' s'') :
    SameWorld s s'' :=
  ⟨h₂.target.trans h₁.target, h₂.world.trans h₁.world⟩

theorem pop_rep {x : Word} (hr : b.enableRegs = false) (h : RepStack s (x :: st)) :
    Emitted ops GlobalStack.pop b s fun v b' s' => b.Untouched b' ∧ v.below b'.next ∧
      v.denote s'.env = x ∧ RepStack s' st ∧ SameWorld s s' := by
  have hh := h.height
  have hsp := h.toNat_sp
  have htop : s.mstk s.sp.toNat = x := by
    rw [hsp]
    exact h.slots 0 (Nat.succ_pos _)
  rw [List.length_cons] at hh hsp
  apply (pop_mem hr (by omega)).imp
  rintro v b' s' - ⟨hu, hb, hv, env, rfl⟩
  exact ⟨hu, hb, hv.trans htop, h.drop (n := 1) (Nat.succ_pos _) rfl rfl, rfl, rfl⟩

/-- The first `n` words of the stack, into registers. -/
theorem popCallsN_rep : ∀ (n : Nat) {b : Builder} {s : St W} {st : List Word},
    b.enableRegs = false → n ≤ st.length → RepStack s st →
    Emitted ops (popCallsN n) b s fun vs b' s' => b.Untouched b' ∧ (∀ v ∈ vs, v.below b'.next) ∧
      vs.map (Value.denote s'.env) = st.take n ∧ RepStack s' (st.drop n) ∧ SameWorld s s' := by
  intro n
  induction n with
  | zero =>
    intro b s st _ _ h
    exact Emitted.pure ⟨⟨rfl, rfl, rfl, rfl⟩, fun v hv => absurd hv List.not_mem_nil, rfl,
      h, rfl, rfl⟩
  | succ n ih =>
    intro b s st hr hlen h
    obtain ⟨x, st, rfl⟩ : ∃ x rest, st = x :: rest := by
      cases st with
      | nil => exact absurd hlen (Nat.not_succ_le_zero n)
      | cons x rest => exact ⟨x, rest, rfl⟩
    rw [List.length_cons] at hlen
    refine Emitted.bind ((pop_rep hr h).imp ?_)
    rintro v b₁ s₁ - ⟨hu, hvb, hv, hrep, hw⟩ -
    refine Emitted.bind ((ih (hu.enableRegs.trans hr) (by omega) hrep).imp ?_)
    rintro vs b₂ s₂ he ⟨hu', hvs, hmap, hrep', hw'⟩ -
    refine Emitted.pure ⟨hu.trans hu', ?_, ?_, hrep', hw.trans hw'⟩
    · intro u hm
      rcases List.mem_cons.mp hm with rfl | hm
      · exact Value.below_mono hvb he.next_le
      · exact hvs u hm
    · rw [List.map_cons, he.denote_eq hvb, hv, hmap, List.take_succ_cons]

theorem push_rep {v : Value} (hr : b.enableRegs = false) (hv : v.below b.next)
    (h : RepStack s st) (hlt : st.length < 511) :
    Emitted ops (GlobalStack.push v) b s fun _ b' s' => b.Untouched b' ∧
      RepStack s' (v.denote s.env :: st) ∧ SameWorld s s' := by
  have hnat : (s.sp + 1).toNat < 512 := by
    rw [h.sp_add_one, toNat_ofNat_height (by omega)]
    omega
  apply (push_mem hr hv hnat).imp
  rintro _ b' s' - ⟨hu, env, rfl⟩
  exact ⟨hu, h.cons hlt rfl rfl, rfl, rfl⟩

variable (ops) in
/-- The spill: the last register pushed ends on top. -/
theorem pushAll_rep : ∀ (vs : List Value) {b : Builder} {s : St W} {st : List Word},
    b.enableRegs = false → (∀ v ∈ vs, v.below b.next) → RepStack s st →
    st.length + vs.length ≤ 511 →
    Emitted ops (pushAll vs) b s fun _ b' s' => b.Untouched b' ∧
      RepStack s' ((vs.map (Value.denote s.env)).reverse ++ st) ∧ SameWorld s s' := by
  intro vs
  induction vs with
  | nil => exact fun _ _ h _ => Emitted.pure ⟨⟨rfl, rfl, rfl, rfl⟩, h, rfl, rfl⟩
  | cons v vs ih =>
    intro b s st hr hb h hlen
    rw [List.length_cons] at hlen
    refine Emitted.bind ((push_rep hr (hb v List.mem_cons_self) h (by omega)).imp ?_)
    rintro _ b₁ s₁ he ⟨hu, hrep, hw⟩ -
    have hbelow : ∀ u ∈ vs, u.below b.next := fun u hu => hb u (List.mem_cons_of_mem _ hu)
    apply (ih (hu.enableRegs.trans hr) (he.below hbelow) hrep (by rw [List.length_cons]; omega)).imp
    rintro _ b₂ s₂ - ⟨hu', hrep', hw'⟩
    refine ⟨hu.trans hu', ?_, hw.trans hw'⟩
    rw [he.map_denote hbelow] at hrep'
    rw [List.map_cons, List.reverse_cons, List.append_assoc]
    exact hrep'

theorem lowerSp_rep {n : Nat} (h : RepStack s st) (hn : n ≤ st.length) :
    Emitted ops (lowerSp n) b s fun _ b' s' => b.Untouched b' ∧ RepStack s' (st.drop n) ∧
      SameWorld s s' := by
  unfold lowerSp createLoad createSub
  refine Emitted.bind (Emitted.emitReg (x := s.sp) rfl fun _ => ?_)
  refine Emitted.bind (Emitted.emitReg (x := s.sp - BitVec.ofNat 256 n) ?_ fun _ => ?_)
  · simp [execInstr, constWord]
  refine Emitted.emit
    (t := { (s.define b.next s.sp).define (b.next + 1) (s.sp - BitVec.ofNat 256 n) with
    sp := s.sp - BitVec.ofNat 256 n }) ?_ rfl ⟨⟨rfl, rfl, rfl, rfl⟩, h.drop hn rfl rfl, rfl, rfl⟩
  simp only [execInstr, St.write, Value.denote_reg, define_env_self]

end Emitters

end EvmTrans
